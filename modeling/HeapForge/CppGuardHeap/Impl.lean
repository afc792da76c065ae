import Mathlib.Logic.Function.Basic
import HeapForge.Platform

/-!
# The guard heap of `include/heapforge/guard_heap.h`

All instances of a process share one table of 4096 regions and one table of owners.  A freed block
stays in the table without access; every instance keeps a queue of such blocks and gives the oldest
ones back to the system when the queue is longer than its cap.

* `Process`      the two tables, the instances by address, and the mappings of the system;
* `allocate`     `none` if the call does not return: a fill that leaves the data pages faults, and
                 without a free slot the call waits for the lock it holds;
* `deallocate`   likewise;
* `evict`, `destroyLoop`   the loops that give mappings back.

The bytes of the blocks decide only what is logged; they are not modelled.
-/

set_option linter.unusedSectionVars false

namespace HeapForge.CppGuardHeap
open Lib Function

inductive RegionState
  | free
  | live
  | quarantined
  deriving DecidableEq

structure Region where
  state : RegionState
  base : Nat
  total : Nat
  user : Nat
  userSize : Nat
  deriving DecidableEq

/-- the mapping of a region -/
def Region.mapping (r : Region) : Nat × Nat := (r.base, r.total)

def kMaxRegions : Nat := 4096

/-- the fields of an instance -/
structure GuardHeap where
  underflow : Bool
  quarantineCap : Nat
  quarantine : List Nat
  stats : Stats

structure Process where
  regions : Nat → Region
  /-- the address of the owner, 0 for none -/
  ownerOf : Nat → Nat
  /-- the instances that are constructed and not destroyed -/
  heaps : Nat → Option GuardHeap
  /-- how often the system has handed out a mapping, and how often it was given back -/
  reserved : Nat × Nat → Nat
  released : Nat × Nat → Nat
  /-- the number of frees so far, and the one that freed a slot -/
  clock : Nat
  freedAt : Nat → Nat

/-- static storage is zero -/
def Process.start : Process :=
  ⟨fun _ => ⟨.free, 0, 0, 0, 0⟩, fun _ => 0, fun _ => none, fun _ => 0, fun _ => 0, 0, fun _ => 0⟩

def Process.setHeap (p : Process) (this : Nat) (h : GuardHeap) : Process :=
  { p with heaps := update p.heaps this (some h) }

/-- `state.store(0)`, `VM::release(base, total)`, `owner_of_ = nullptr` -/
def Process.clear (p : Process) (i : Nat) : Process :=
  { p with
    regions := update p.regions i { p.regions i with state := .free }
    ownerOf := update p.ownerOf i 0
    released := update p.released (p.regions i).mapping (p.released (p.regions i).mapping + 1) }

def construct (p : Process) (this : Nat) (underflow : Bool) (quarantineCap : Nat) : Process :=
  p.setHeap this ⟨underflow, quarantineCap, [], Stats.fresh 0⟩

def findFreeSlot (p : Process) : Option Nat :=
  (List.range kMaxRegions).find? fun i =>
    decide ((p.regions i).state = .free) && decide (p.ownerOf i = 0)

def findSlot (p : Process) (this ptr : Nat) : Option Nat :=
  (List.range kMaxRegions).find? fun i =>
    decide (p.ownerOf i = this) && decide ((p.regions i).user = ptr)
      && decide ((p.regions i).state = .live)

def bumpFail (h : GuardHeap) : GuardHeap :=
  { h with stats := { h.stats with
    allocCalls := wadd h.stats.allocCalls 1
    failedAllocs := wadd h.stats.failedAllocs 1 } }

/-- a request as it is served -/
def askedSize (size : Nat) : Nat := if size = 0 then 1 else size
def askedAlignment (alignment : Nat) : Nat := if alignment < 16 then 16 else alignment

/-- `data_bytes` and `total` of a request -/
def dataBytes (ps size alignment : Nat) : Nat :=
  hfAlignUp (hfAlignUp (askedSize size) (askedAlignment alignment)) ps
def totalBytes (ps size alignment : Nat) : Nat := wadd (wadd ps (dataBytes ps size alignment)) ps

/-- `len` bytes from `lo` on lie in the data pages of the mapping -/
def canFill (ps base total lo len : Nat) : Bool :=
  len == 0 || (decide (base + ps ≤ lo) && decide (lo + len + ps ≤ base + total))

/-- the two fills of the slack -/
def fillsSlack (ps base total data dataEnd user size : Nat) : Bool :=
  (decide (user ≤ data) || canFill ps base total data (wsub user data))
    && (decide (dataEnd ≤ wadd user size)
      || canFill ps base total (wadd user size) (wsub dataEnd (wadd user size)))

/-- `base` is what the system answers to the request for a mapping -/
def allocate (ps : Nat) (p : Process) (this size alignment base : Nat) : Option (Nat × Process) :=
  (p.heaps this).bind fun h =>
    if askedAlignment alignment > ps ∨ hfIsPow2 (askedAlignment alignment) = false then some (0, p)
    else if base = 0 then some (0, p.setHeap this (bumpFail h))
    else
      let aligned := hfAlignUp (askedSize size) (askedAlignment alignment)
      let total := totalBytes ps size alignment
      let data := wadd base ps
      let dataEnd := wadd data (dataBytes ps size alignment)
      let user := if h.underflow then data else wsub dataEnd aligned
      if fillsSlack ps base total data dataEnd user (askedSize size) = false then none
      else
        (findFreeSlot p).map fun slot =>
          let used := wadd h.stats.used (askedSize size)
          (user,
            { p with
              regions := update p.regions slot ⟨.live, base, total, user, askedSize size⟩
              ownerOf := update p.ownerOf slot this
              reserved := update p.reserved (base, total) (p.reserved (base, total) + 1)
              heaps := update p.heaps this (some { h with stats := { h.stats with
                allocCalls := wadd h.stats.allocCalls 1
                capacity := wadd h.stats.capacity (dataBytes ps size alignment)
                used := used
                peakUsed := if used > h.stats.peakUsed then used else h.stats.peakUsed } }) })

/-- the loop over the front of the queue -/
def evict (cap : Nat) : List Nat → Process → List Nat × Process
  | [], p => ([], p)
  | old :: rest, p =>
    if (old :: rest).length > cap then evict cap rest (p.clear old) else (old :: rest, p)

def countFree (h : GuardHeap) : GuardHeap :=
  { h with stats := { h.stats with freeCalls := wadd h.stats.freeCalls 1 } }

/-- the block is closed: out of the statistics, and into the queue -/
def Process.retire (p : Process) (slot : Nat) : Process :=
  { p with
    regions := update p.regions slot { p.regions slot with state := .quarantined }
    clock := p.clock + 1
    freedAt := update p.freedAt slot p.clock }

def deallocate (ps : Nat) (p : Process) (this ptr : Nat) : Option Process :=
  (p.heaps this).bind fun h =>
    if ptr = 0 then some p
    else
      match findSlot p this ptr with
      | none => some (p.setHeap this (countFree h))
      | some slot =>
        let r := p.regions slot
        let data := wadd r.base ps
        let dataEnd := wsub (wadd r.base r.total) ps
        if canFill ps r.base r.total data (wsub dataEnd data) = false then none
        else
          let h := countFree h
          let (queue, p) := evict h.quarantineCap (h.quarantine ++ [slot]) (p.retire slot)
          some (p.setHeap this { h with
            quarantine := queue
            stats := { h.stats with used := wsub h.stats.used r.userSize } })

/-- the loop of the destructor over the first slots -/
def destroyLoop (this : Nat) : Nat → Process → Process
  | 0, p => p
  | i + 1, p =>
    let p := destroyLoop this i p
    if (p.regions i).state ≠ .free ∧ p.ownerOf i = this then p.clear i else p

def destroy (p : Process) (this : Nat) : Process :=
  let p := destroyLoop this kMaxRegions p
  { p with heaps := update p.heaps this none }

end HeapForge.CppGuardHeap
