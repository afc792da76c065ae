import HeapForge.Lib.Node
import HeapForge.Platform

/-!
# The slab allocator of `c/src/hf_slab.c`

Slabs of memory are cut into slots of equal size.  Free slots hang in singly linked lists, linked
through their first word: one central list per allocator, and one list per thread, the magazine,
which is a thread-local variable of the file and so shared by all allocators of the process.

* `Call`          what a call works on: the allocator, the memory and the magazine of its thread;
* `Os`            what the system answers while the call runs;
* `slAllocate`    pops the magazine, which `slRefill` fills from the central list if it is empty;
* `slDeallocate`  pushes onto the magazine;
* `slWalk`        one or two blocks per slab, by the bytes in use.
-/

set_option linter.unusedSectionVars false
set_option linter.unusedVariables false

namespace HeapForge.Slab
open Lib

structure SlAlloc where
  objSize : Nat
  slabBytes : Nat
  slotsPerSlab : Nat
  /-- `slabs[0 .. slab_count)` -/
  slabs : List Nat
  slabCap : Nat
  centralFree : Nat
  stats : Stats
  deriving DecidableEq

structure Call where
  a : SlAlloc
  heap : Mem
  /-- `tl_magazine` of the calling thread -/
  mag : Nat

/-- the answer of `hf_vm_reserve` for a slab, 0 if it fails, and whether `realloc` gives memory -/
structure Os where
  mem : Nat
  realloc : Bool

def SL_BATCH : Nat := 32

def SlAlloc.slabCount (a : SlAlloc) : Nat := a.slabs.length

/-- the address of slot `i` of the slab at `mem` -/
def slotAt (mem objSize i : Nat) : Nat := wadd mem (wmul i objSize)

/-- `for (i = slots; i-- > 0;)`: the slots are linked in front of `head`, the last one first -/
def linkLoop (mem objSize : Nat) : Nat → Mem × Nat → Mem × Nat
  | 0, r => r
  | i + 1, (m, head) =>
    linkLoop mem objSize i (setNext m (slotAt mem objSize i) head, slotAt mem objSize i)

/-- the slab is recorded -/
def recordSlab (a : SlAlloc) (mem slabCap : Nat) : SlAlloc :=
  { a with
    slabs := a.slabs ++ [mem]
    slabCap := slabCap
    stats := { a.stats with capacity := wadd a.stats.capacity a.slabBytes } }

def slGrow (os : Os) (c : Call) : Call :=
  if os.mem = 0 then c
  else
    let r := linkLoop os.mem c.a.objSize c.a.slotsPerSlab (c.heap, c.a.centralFree)
    let a : SlAlloc := { c.a with centralFree := r.2 }
    if a.slabCount = a.slabCap then
      -- without room in the array the memory is released, but its slots stay in the list
      if os.realloc then
        { c with
          a := recordSlab a os.mem (if a.slabCap ≠ 0 then wmul a.slabCap 2 else 8)
          heap := r.1 }
      else { c with a := a, heap := r.1 }
    else { c with a := recordSlab a os.mem a.slabCap, heap := r.1 }

/-- `while (tail->next && n < SL_BATCH)`: the tail and `n` -/
def tailLoop (m : Mem) : Nat → Nat → Nat → Nat × Nat
  | 0, tail, n => (tail, n)
  | fuel + 1, tail, n =>
    if nodeNext m tail ≠ 0 then tailLoop m fuel (nodeNext m tail) (n + 1) else (tail, n)

/-- the last slot of the batch, and how many it has -/
def batchTail (c : Call) : Nat × Nat := tailLoop c.heap (SL_BATCH - 1) c.a.centralFree 1

/-- the first slots of the central list become the magazine -/
def takeBatch (c : Call) : Call :=
  { a := { c.a with centralFree := nodeNext c.heap (batchTail c).1 }
    heap := setNext c.heap (batchTail c).1 0
    mag := c.a.centralFree }

def slRefill (os : Os) (c : Call) : Call :=
  let c := if c.a.centralFree = 0 then slGrow os c else c
  if c.a.centralFree = 0 then c else takeBatch c

def countAlloc (a : SlAlloc) : SlAlloc :=
  { a with stats := { a.stats with allocCalls := wadd a.stats.allocCalls 1 } }

def countFailed (a : SlAlloc) : SlAlloc :=
  { a with stats := { a.stats with failedAllocs := wadd a.stats.failedAllocs 1 } }

def chargeUsed (a : SlAlloc) : SlAlloc :=
  let used := wadd a.stats.used a.objSize
  { a with stats := { a.stats with
      used := used
      peakUsed := if used > a.stats.peakUsed then used else a.stats.peakUsed } }

/-- the part of `sl_allocate` behind the refill -/
def popMagazine (c : Call) : Nat × Call :=
  if c.mag = 0 then (0, { c with a := countFailed c.a })
  else (c.mag, { c with a := chargeUsed c.a, mag := nodeNext c.heap c.mag })

/-- the alignment is ignored -/
def slAllocate (os : Os) (c : Call) (size : Nat) : Nat × Call :=
  let c := { c with a := countAlloc c.a }
  if size > c.a.objSize then (0, { c with a := countFailed c.a })
  else popMagazine (if c.mag = 0 then slRefill os c else c)

def releaseUsed (a : SlAlloc) : SlAlloc :=
  { a with stats := { a.stats with
      freeCalls := wadd a.stats.freeCalls 1
      used := wsub a.stats.used a.objSize } }

def slDeallocate (c : Call) (ptr : Nat) : Call :=
  if ptr = 0 then c
  else ⟨releaseUsed c.a, setNext c.heap ptr c.mag, ptr⟩

def walkLoop (slabBytes : Nat) : Nat → Nat → Nat → List BlockInfo
  | 0, _, _ => []
  | n + 1, off, remaining =>
    let used := if remaining < slabBytes then remaining else slabBytes
    (if used ≠ 0 then [⟨off, used, false⟩] else [])
      ++ (if used < slabBytes then [⟨wadd off used, wsub slabBytes used, true⟩] else [])
      ++ walkLoop slabBytes n (wadd off slabBytes) (wsub remaining used)

def slWalk (a : SlAlloc) : List BlockInfo := walkLoop a.slabBytes a.slabCount 0 a.stats.used

/-- `handle` tells whether `calloc` gave memory for the handle; a size that wraps to 0 faults in the
division -/
def hfSlabCreate (vm : Vm) (handle : Bool) (objectSize slabBytes : Nat) : Option SlAlloc :=
  let obj := hfAlignUp (if objectSize < 8 then 8 else objectSize) HF_DEFAULT_ALIGN
  let slabBytes := if slabBytes = 0 then 64 * 1024 else slabBytes
  let slabBytes := hfAlignUp slabBytes vm.pageSize
  if obj = 0 ∨ slabBytes / obj = 0 then none
  else if handle then some ⟨obj, slabBytes, slabBytes / obj, [], 0, 0, Stats.fresh 0⟩
  else none

end HeapForge.Slab
