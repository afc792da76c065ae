import HeapForge.Lib.Mem
import HeapForge.Platform

/-!
# The guard heap of `c/src/hf_guard_heap.c`

Every block is a mapping of its own, between two pages without access, and lies against the one
behind it.  A table of 4096 entries knows them; a freed block keeps its entry and its address range,
so that later accesses fault.

* `ghReserveSlot`   the first free entry;
* `ghPlace`         where the block begins in its mapping;
* `ghAllocate`      the mapping is asked for before the entry, and given back if there is none.

No function here depends on the protection of the pages; it comes in `GuardHeap.Pages`, with the
signal handler.
-/

set_option linter.unusedSectionVars false

namespace HeapForge.GuardHeap
open Lib

inductive RegionState
  | empty
  | active
  | quarantined
  deriving DecidableEq

structure GhRegion where
  base : Nat
  total : Nat
  user : Nat
  userSize : Nat
  state : RegionState
  deriving DecidableEq

def GH_MAX_REGIONS : Nat := 4096

structure GhHeap where
  table : Nat → GhRegion
  usedBytes : Nat
  peakBytes : Nat
  capacityHint : Nat
  /-- the bytes of the address space -/
  heap : Mem

def ghReserveSlot (h : GhHeap) : Option Nat :=
  (List.range GH_MAX_REGIONS).find? fun i => decide ((h.table i).state = .empty)

/-- the block is put against the back guard and rounded down, but not below the front guard -/
def ghPlace (ps base dataPages size alignment : Nat) : Nat :=
  let dataEnd := wadd (wadd base ps) dataPages
  let user := wsub dataEnd size &&& wnot (wsub alignment 1)
  if user < wadd base ps then wadd base ps else user

def ghDataPages (ps size : Nat) : Nat := hfAlignUp size ps
def ghTotal (ps size : Nat) : Nat := wadd (wadd ps (ghDataPages ps size)) ps

/-- a request as it is served: no alignment below the default one, no empty block -/
def ghAlignment (alignment : Nat) : Nat :=
  if alignment < HF_DEFAULT_ALIGN then HF_DEFAULT_ALIGN else alignment
def ghSize (size : Nat) : Nat := if size = 0 then 1 else size

def ghAllocate (vm : Vm) (h : GhHeap) (size alignment : Nat) : Nat × GhHeap :=
  let alignment := ghAlignment alignment
  let size := ghSize size
  let ps := vm.pageSize
  let total := ghTotal ps size
  let base := hfVmReserve vm total
  if base = 0 then (0, h)
  else
    let user := ghPlace ps base (ghDataPages ps size) size alignment
    match ghReserveSlot h with
    | none => (0, h)
    | some idx =>
      let u := wadd h.usedBytes size
      (user,
        { h with
          table := Function.update h.table idx ⟨base, total, user, size, .active⟩
          usedBytes := u
          peakBytes := if u > h.peakBytes then u else h.peakBytes })

def ghFindByUser (h : GhHeap) (user : Nat) : Option Nat :=
  (List.range GH_MAX_REGIONS).find? fun i =>
    decide ((h.table i).state = .active) && decide ((h.table i).user = user)

/-- a pointer that the table does not know is ignored -/
def ghDeallocate (h : GhHeap) (ptr : Nat) : GhHeap :=
  if ptr = 0 then h
  else
    match ghFindByUser h ptr with
    | none => h
    | some idx =>
      { h with
        usedBytes := wsub h.usedBytes (h.table idx).userSize
        table := Function.update h.table idx { h.table idx with state := .quarantined } }

def ghWalk (h : GhHeap) : List BlockInfo :=
  (List.range GH_MAX_REGIONS).filterMap fun i =>
    if (h.table i).state = .active then some
      ⟨(h.table i).user, (h.table i).userSize, false⟩ else none

/-- `handle` tells whether `calloc` gave memory for the handle -/
def hfGuardHeapCreate (handle : Bool) (m : Mem) : Option GhHeap :=
  if handle then some ⟨fun _ => ⟨0, 0, 0, 0, .empty⟩, 0, 0, 0, m⟩ else none

end HeapForge.GuardHeap
