import HeapForge.Lib.Objects
import HeapForge.Platform

/-!
# The stack allocator of `c/src/hf_stack.c`

A bump pointer.  In front of every payload lie the top and the payload of the block before it, so
that the last block can be given back; a marker rolls back everything above it.

* `stAllocate`     the top moves up behind the payload;
* `stDeallocate`   `none` is the failed assertion: the block is not the last one;
* `hfStackRewind`  likewise, the marker lies above the top;
* `stWalk`         what is below the top, and what is above it.
-/

set_option linter.unusedSectionVars false

namespace HeapForge.Stack
open Lib

structure StAlloc where
  mem : Nat
  capacity : Nat
  top : Nat
  lastPayload : Nat
  stats : Stats
  /-- the bytes of the address space -/
  heap : Mem

def ST_HDR : Nat := 16
def ST_NONE : Nat := 2 ^ 64 - 1

/-- the offset of the payload that a request gets -/
def stPayload (a : StAlloc) (alignment : Nat) : Nat :=
  let hdrAt := hfAlignUp a.top 8
  hfAlignUp (wadd hdrAt ST_HDR) alignment

def countAlloc (a : StAlloc) : StAlloc :=
  { a with stats := { a.stats with allocCalls := wadd a.stats.allocCalls 1 } }

def countFailed (a : StAlloc) : StAlloc :=
  { a with stats := { a.stats with failedAllocs := wadd a.stats.failedAllocs 1 } }

theorem countAlloc_capacity : ∀ a : StAlloc, (countAlloc a).capacity = a.capacity
  | ⟨_, c, _, _, _, _⟩ => (rfl : c = c)

theorem countAlloc_top : ∀ a : StAlloc, (countAlloc a).top = a.top
  | ⟨_, _, t, _, _, _⟩ => (rfl : t = t)

theorem stPayload_countAlloc (a : StAlloc) (alignment : Nat) :
    stPayload (countAlloc a) alignment = stPayload a alignment := by
  unfold stPayload
  rw [countAlloc_top]

/-- the address of the header in front of a payload -/
def stHeader (a : StAlloc) (payload : Nat) : Nat := wsub (wadd a.mem payload) ST_HDR

def stAllocate (a : StAlloc) (size alignment : Nat) : Nat × StAlloc :=
  let a := countAlloc a
  let payload := stPayload a alignment
  let newTop := wadd payload size
  if newTop > a.capacity then (0, countFailed a)
  else
    let h := stHeader a payload
    (wadd a.mem payload,
      { a with
        heap := (a.heap.store64 h a.top).store64 (wadd h 8) a.lastPayload
        top := newTop
        lastPayload := payload
        stats := { a.stats with
          used := newTop
          peakUsed := if newTop > a.stats.peakUsed then newTop else a.stats.peakUsed } })

def stDeallocate (a : StAlloc) (ptr : Nat) : Option StAlloc :=
  if ptr = 0 then some a
  else
    let payload := wsub ptr a.mem
    if payload ≠ a.lastPayload then none
    else
      let h := stHeader a payload
      let top := a.heap.load64 h
      some { a with
        top := top
        lastPayload := a.heap.load64 (wadd h 8)
        stats := { a.stats with freeCalls := wadd a.stats.freeCalls 1, used := top } }

def stWalk (a : StAlloc) : List BlockInfo :=
  (if a.top ≠ 0 then [⟨0, a.top, false⟩] else [])
    ++ if a.top < a.capacity then [⟨a.top, wsub a.capacity a.top, true⟩] else []

def hfStackMark (a : StAlloc) : Nat := a.top

def hfStackRewind (a : StAlloc) (marker : Nat) : Option StAlloc :=
  if marker ≤ a.top then
    some { a with top := marker, lastPayload := ST_NONE, stats := { a.stats with used := marker } }
  else none

def hfStackReset (a : StAlloc) : Option StAlloc := hfStackRewind a 0

/-- the calls of `ST_VT` -/
def allocator : Allocator StAlloc where
  allocate a size alignment := some (stAllocate a size alignment)
  deallocate := stDeallocate
  heap := StAlloc.heap
  setHeap a m := { a with heap := m }

/-- `handle` tells whether `calloc` gave memory for the handle, `m` is what the memory holds -/
def hfStackCreate (vm : Vm) (handle : Bool) (m : Mem) (capacity : Nat) : Option StAlloc :=
  let capacity := hfAlignUp (if capacity ≠ 0 then capacity else vm.pageSize) vm.pageSize
  if handle then
    let mem := hfVmReserve vm capacity
    if mem = 0 then none else some ⟨mem, capacity, 0, ST_NONE, Stats.fresh capacity, m⟩
  else none

end HeapForge.Stack
