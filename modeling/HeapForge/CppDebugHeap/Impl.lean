import Mathlib.Data.List.AList
import Mathlib.Data.Finset.Erase
import Mathlib.Data.Finset.Insert
import HeapForge.Platform
import HeapForge.Lib.Objects

/-!
# The debug heap of `include/heapforge/debug_heap.h`

It decorates any allocator.  Four canary words stand before the bytes of a user and four behind
them; a map lists the live blocks by their user pointers, and a set remembers the freed ones.

* `allocate`, `deallocate`   the calls, for one thread; `none` if a call of the inner allocator does
                             not return;
* `verify`, `report`         what can be asked of it;
* `destroy`                  the destructor, for any order in which the map is walked.

The call stacks are only logged; of `AllocMeta` the model keeps `user_size`.
-/

set_option linter.unusedSectionVars false

namespace HeapForge.CppDebugHeap
open Lib

def kDefaultAlignment : Nat := 16

def kCanary : Nat := 0xDEADBEEF
def kCanaryWords : Nat := 4
def kGuardBytes : Nat := kCanaryWords * 4
def kPoison : BitVec 8 := 0xCD#8

structure Report where
  liveAllocations : Nat
  leakedBytes : Nat
  canaryViolations : Nat
  doubleFrees : Nat
  invalidFrees : Nat
  deriving DecidableEq, Repr

/-- what the mutex protects -/
structure DebugHeap where
  live : AList fun _ : Nat => Nat
  freed : Finset Nat
  report : Report

def DebugHeap.new : DebugHeap := ⟨∅, ∅, ⟨0, 0, 0, 0, 0⟩⟩

def writeCanary (m : Mem) (a : Nat) : Mem :=
  (List.range kCanaryWords).foldl (fun m i => m.store32 (a + i * 4) kCanary) m

def checkCanary (m : Mem) (a : Nat) : Bool :=
  (List.range kCanaryWords).all fun i => m.load32 (a + i * 4) == kCanary

/-- the locked part of `allocate` -/
def DebugHeap.insert (h : DebugHeap) (user size : Nat) : DebugHeap :=
  { h with live := h.live.insert user size, freed := h.freed.erase user }

/-- the locked part of `deallocate` for a live pointer, and for another -/
def DebugHeap.take (h : DebugHeap) (user : Nat) : DebugHeap :=
  { h with live := h.live.erase user, freed := Insert.insert user h.freed }

def DebugHeap.reject (h : DebugHeap) (user : Nat) : DebugHeap :=
  if user
    ∈ h.freed then { h with report := { h.report with doubleFrees := wadd h.report.doubleFrees 1 } }
  else { h with report := { h.report with invalidFrees := wadd h.report.invalidFrees 1 } }

/-- after the check of the canaries -/
def DebugHeap.judge (h : DebugHeap) (ok : Bool) : DebugHeap :=
  if ok then h
  else { h with report := { h.report with canaryViolations := wadd h.report.canaryViolations 1 } }

section
variable {β : Type*} (A : Allocator β)

-- the alignment is not passed on
def allocate (b : β) (h : DebugHeap) (size _alignment : Nat) : Option (Nat × β × DebugHeap) :=
  let total := wadd (wadd kGuardBytes size) kGuardBytes
  (A.allocate b total kDefaultAlignment).map fun (raw, b) =>
    if raw = 0 then (0, b, h)
    else
      let m := writeCanary (A.heap b) raw
      let m := writeCanary m (raw + kGuardBytes + size)
      let user := raw + kGuardBytes
      (user, A.setHeap b m, h.insert user size)

def deallocate (b : β) (h : DebugHeap) (ptr : Nat) : Option (β × DebugHeap) :=
  if ptr = 0 then some (b, h)
  else match h.live.lookup ptr with
    | none => some (b, h.reject ptr)
    | some userSize =>
      let h := h.take ptr
      let raw := ptr - kGuardBytes
      let smashed := !checkCanary (A.heap b) raw || !checkCanary (A.heap b) (ptr + userSize)
      let h := h.judge (!smashed)
      let m := (A.heap b).fill raw (kGuardBytes + userSize + kGuardBytes) kPoison
      (A.deallocate (A.setHeap b m) raw).map fun b => (b, h)

def verify (b : β) (h : DebugHeap) (ptr : Nat) : Bool :=
  match h.live.lookup ptr with
  | none => false
  | some userSize =>
    checkCanary (A.heap b) (ptr - kGuardBytes) && checkCanary (A.heap b) (ptr + userSize)

/-- the blocks in the map -/
def DebugHeap.blocks (h : DebugHeap) : List Extent := h.live.entries.map fun e => ⟨e.1, e.2⟩

def report (h : DebugHeap) : Report :=
  { h.report with
    liveAllocations := h.live.entries.length
    leakedBytes := h.blocks.foldl (fun n e => wadd n e.size) h.report.leakedBytes }

/-- the live blocks in the order of the walk, each poisoned and given back -/
def destroy (b : β) (order : List Extent) : Option β :=
  order.foldlM (fun b e =>
    let raw := e.ptr - kGuardBytes
    A.deallocate (A.setHeap b ((A.heap b).fill raw (kGuardBytes + e.size + kGuardBytes) kPoison))
      raw) b

end

end HeapForge.CppDebugHeap
