import HeapForge.Lib.Node
import HeapForge.Lib.Objects
import HeapForge.Platform

/-!
# The free-list allocator of `c/src/hf_free_list.c`

Pointers are addresses, `NULL` is 0.  A block starts with its header: the size with the used
bit in bit 0, then the address of the physical predecessor.  In a free block the two words
behind the header link the block into a circular list.

* `findFit`        the three policies; the loops carry a bound on their rounds, `none` says that
                   the bound was not enough;
* `flAllocate`     `flReserve` takes a block out of the list and splits it, `flPlace` moves the
                   pointer up to an alignment above 16 and leaves the way back in front of it;
* `flDeallocate`   `resolveHeader` finds the header, then both neighbours are merged; `none` is
                   the failed assertion;
* `flWalk`         the blocks from the first to the last.

Sums of a pointer and a value read from memory wrap at `2^64`.
-/

set_option linter.unusedSectionVars false
set_option linter.unusedVariables false

namespace HeapForge.FreeList
open Lib

inductive FitPolicy
  | first
  | best
  | next
  deriving DecidableEq

structure FlAlloc where
  mem : Nat
  capacity : Nat
  policy : FitPolicy
  freeHead : Nat
  cursor : Nat
  stats : Stats
  /-- the bytes of the address space -/
  heap : Mem

def FL_HDR : Nat := 16
def FL_MIN : Nat := 32

/-! ## headers and nodes -/

def hdrSize (m : Mem) (h : Nat) : Nat := m.load64 h &&& wnot 1
def hdrUsed (m : Mem) (h : Nat) : Bool := (m.load64 h &&& 1) != 0
def hdrSet (m : Mem) (h sz : Nat) (used : Bool) : Mem :=
  m.store64 h (sz ||| (if used then 1 else 0))

def prevPhys (m : Mem) (h : Nat) : Nat := m.load64 (h + 8)
def setPrevPhys (m : Mem) (h v : Nat) : Mem := m.store64 (h + 8) v

def payloadNode (h : Nat) : Nat := wadd h FL_HDR
def headerOf (n : Nat) : Nat := wsub n FL_HDR

def nextPhys (a : FlAlloc) (h : Nat) : Nat :=
  let n := wadd h (hdrSize a.heap h)
  if n < a.mem + a.capacity then n else 0

/-- `if (after) after->prev_phys = v` -/
def relinkPrev (m : Mem) (after v : Nat) : Mem := if after ≠ 0 then setPrevPhys m after v else m

def plausibleHeader (a : FlAlloc) (h : Nat) : Bool :=
  if h < a.mem ∨ a.mem + a.capacity ≤ h then false
  else
    let sz := hdrSize a.heap h
    hdrUsed a.heap h && decide (FL_MIN ≤ sz) && decide (sz % HF_DEFAULT_ALIGN = 0)
      && decide (wadd h sz ≤ a.mem + a.capacity)

/-! ## the circular list -/

/-- the writes of `fl_insert` when the list is not empty: behind the node `head` -/
def insertHeap (m : Mem) (head n : Nat) : Mem :=
  let m := setNext m n (nodeNext m head)
  let m := setPrev m n head
  let m := setPrev m (nodeNext m head) n
  setNext m head n

def flInsert (a : FlAlloc) (n : Nat) : FlAlloc :=
  { a with
    heap := if a.freeHead = 0 then setNext (setPrev a.heap n n) n n
      else insertHeap a.heap a.freeHead n
    freeHead := if a.freeHead = 0 then n else a.freeHead
    cursor := if a.cursor = 0 then n else a.cursor }

/-- the writes of `fl_unlink` around a node with neighbours -/
def unlinkHeap (m : Mem) (n : Nat) : Mem :=
  let m := setNext m (nodePrev m n) (nodeNext m n)
  setPrev m (nodeNext m n) (nodePrev m n)

def flUnlink (a : FlAlloc) (n : Nat) : FlAlloc :=
  if nodeNext a.heap n = n then { a with freeHead := 0, cursor := 0 }
  else
    let m := unlinkHeap a.heap n
    { a with
      heap := m
      freeHead := if a.freeHead = n then nodeNext m n else a.freeHead
      cursor := if a.cursor = n then nodeNext m n else a.cursor }

/-- the loop of First-Fit and Next-Fit, which differ in where they start -/
def searchLoop (m : Mem) (need start : Nat) : Nat → Nat → Option Nat
  | 0, _ => none
  | fuel + 1, n =>
    if need ≤ hdrSize m (headerOf n) then some n
    else if nodeNext m n = start then some 0
    else searchLoop m need start fuel (nodeNext m n)

def bestLoop (m : Mem) (need start : Nat) : Nat → Nat → Nat → Nat → Option Nat
  | 0, _, _, _ => none
  | fuel + 1, n, best, bestSz =>
    let sz := hdrSize m (headerOf n)
    let found := need ≤ sz ∧ sz < bestSz
    let best' := if found then n else best
    let bestSz' := if found then sz else bestSz
    if nodeNext m n = start then some best'
    else bestLoop m need start fuel (nodeNext m n) best' bestSz'

def FlAlloc.withCursor (a : FlAlloc) (c : Nat) : FlAlloc := { a with cursor := c }

/-- the node found, 0 if there is none, and the allocator with its cursor -/
def findFit (a : FlAlloc) (need : Nat) : Option (Nat × FlAlloc) :=
  if a.freeHead = 0 then some (0, a)
  else match a.policy with
    | .first => (searchLoop a.heap need a.freeHead a.capacity a.freeHead).map (·, a)
    | .best => (bestLoop a.heap need a.freeHead a.capacity a.freeHead 0 (2 ^ 64 - 1)).map (·, a)
    | .next =>
      let start := if a.cursor ≠ 0 then a.cursor else a.freeHead
      (searchLoop a.heap need start a.capacity start).map fun n =>
        if n = 0 then (0, a) else (n, a.withCursor (nodeNext a.heap n))

/-! ## allocation -/

/-- the block size computed from a request -/
def flNeed (size alignment : Nat) : Nat :=
  let size := if size = 0 then 1 else size
  let size := if alignment > HF_DEFAULT_ALIGN then wadd size alignment else size
  let need := hfAlignUp (wadd FL_HDR size) HF_DEFAULT_ALIGN
  if need < FL_MIN then FL_MIN else need

/-- the block at `h`, already out of the list, becomes used and gives back what is too much -/
def flSplit (a : FlAlloc) (h need : Nat) : FlAlloc :=
  let remain := wsub (hdrSize a.heap h) need
  if FL_MIN ≤ remain then
    let split := wadd h need
    let m := hdrSet a.heap split remain false
    let m := setPrevPhys m split h
    let after := nextPhys { a with heap := m } split
    let m := relinkPrev m after split
    let m := hdrSet m h need true
    flInsert { a with heap := m } (payloadNode split)
  else { a with heap := hdrSet a.heap h (hdrSize a.heap h) true }

def countAlloc (a : FlAlloc) : FlAlloc :=
  { a with stats := { a.stats with allocCalls := wadd a.stats.allocCalls 1 } }

def countFailed (a : FlAlloc) : FlAlloc :=
  { a with stats := { a.stats with failedAllocs := wadd a.stats.failedAllocs 1 } }

def chargeUsed (a : FlAlloc) (sz : Nat) : FlAlloc :=
  let used := wadd a.stats.used sz
  let peak := if used > a.stats.peakUsed then used else a.stats.peakUsed
  { a with stats := { a.stats with used := used, peakUsed := peak } }

/-- the part of `fl_allocate` that works on the block list: the header of the block reserved,
0 if no block fits -/
def flReserve (a : FlAlloc) (need : Nat) : Option (Nat × FlAlloc) :=
  (findFit (countAlloc a) need).map fun (node, a) =>
    if node = 0 then (0, countFailed a)
    else
      let h := headerOf node
      let a := flSplit (flUnlink a node) h need
      (h, chargeUsed a (hdrSize a.heap h))

/-- the pointer handed out for the block at `h`; above the default alignment the word in front
of it holds its distance from the payload -/
def flPlace (m : Mem) (h alignment : Nat) : Nat × Mem :=
  let p := wadd h FL_HDR
  if alignment > HF_DEFAULT_ALIGN then
    let aligned := hfAlignUp (wadd p 8) alignment
    (aligned, m.store64 (wsub aligned 8) (wsub aligned p))
  else (p, m)

def flAllocate (a : FlAlloc) (size alignment : Nat) : Option (Nat × FlAlloc) :=
  (flReserve a (flNeed size alignment)).map fun (h, a) =>
    if h = 0 then (0, a)
    else
      let (p, m) := flPlace a.heap h alignment
      (p, { a with heap := m })

/-! ## deallocation -/

def resolveHeader (a : FlAlloc) (ptr : Nat) : Nat :=
  let h := wsub ptr FL_HDR
  if plausibleHeader a h then h
  else
    let back := a.heap.load64 (wsub ptr 8)
    wsub (wsub ptr back) FL_HDR

/-- the block at `h` takes in its physical successor `nb` -/
def flAbsorb (a : FlAlloc) (h nb : Nat) : FlAlloc :=
  let m := hdrSet a.heap h (wadd (hdrSize a.heap h) (hdrSize a.heap nb)) false
  let nn := nextPhys { a with heap := m } h
  { a with heap := relinkPrev m nn h }

/-- the neighbour's node leaves the list -/
def flTakeOut (a : FlAlloc) (nb : Nat) : FlAlloc :=
  let a := flUnlink a (payloadNode nb)
  if a.cursor = payloadNode nb then { a with cursor := 0 } else a

def flMergeNext (a : FlAlloc) (h : Nat) : FlAlloc :=
  let nb := nextPhys a h
  if nb ≠ 0 ∧ hdrUsed a.heap nb = false then flAbsorb (flTakeOut a nb) h nb else a

/-- returns the header of the merged block too -/
def flMergePrev (a : FlAlloc) (h : Nat) : Nat × FlAlloc :=
  let pb := prevPhys a.heap h
  if pb ≠ 0 ∧ hdrUsed a.heap pb = false then (pb, flAbsorb (flTakeOut a pb) pb h) else (h, a)

def countFree (a : FlAlloc) : FlAlloc :=
  { a with stats := { a.stats with freeCalls := wadd a.stats.freeCalls 1 } }

/-- the block at `h` is no longer charged, and its used bit is cleared -/
def flRelease (a : FlAlloc) (h : Nat) : FlAlloc :=
  { a with
    stats := { a.stats with used := wsub a.stats.used (hdrSize a.heap h) }
    heap := hdrSet a.heap h (hdrSize a.heap h) false }

def flFreeBlock (a : FlAlloc) (h : Nat) : FlAlloc :=
  let (h, a) := flMergePrev (flMergeNext (flRelease a h) h) h
  flInsert a (payloadNode h)

def flDeallocate (a : FlAlloc) (ptr : Nat) : Option FlAlloc :=
  if ptr = 0 then some a
  else
    let a := countFree a
    let h := resolveHeader a ptr
    if hdrUsed a.heap h then some (flFreeBlock a h) else none

/-! ## walking and creation -/

def walkLoop (a : FlAlloc) : Nat → Nat → Option (List BlockInfo)
  | 0, _ => none
  | fuel + 1, c =>
    if c < a.mem + a.capacity then
      (walkLoop a fuel (wadd c (hdrSize a.heap c))).map
        (⟨c - a.mem, hdrSize a.heap c, !hdrUsed a.heap c⟩ :: ·)
    else some []

def flWalk (a : FlAlloc) : Option (List BlockInfo) := walkLoop a (a.capacity + 1) a.mem

/-- the calls of `FL_VT` -/
def allocator : Allocator FlAlloc where
  allocate := flAllocate
  deallocate := flDeallocate
  heap := FlAlloc.heap
  setHeap a m := { a with heap := m }

/-- `handle` tells whether `calloc` gave memory for the handle, `m` is what the memory holds -/
def hfFreeListCreate (vm : Vm) (handle : Bool) (m : Mem) (capacity : Nat) (policy : FitPolicy) :
    Option FlAlloc :=
  let capacity := if capacity < FL_MIN * 2 then FL_MIN * 2 else capacity
  let capacity := hfAlignUp capacity vm.pageSize
  if !handle then none
  else
    let mem := hfVmReserve vm capacity
    if mem = 0 then none
    else
      let h := mem
      let m := hdrSet m h capacity false
      let m := setPrevPhys m h 0
      let head := payloadNode h
      let m := setNext (setPrev m head head) head head
      some ⟨mem, capacity, policy, head, head, Stats.fresh capacity, m⟩

end HeapForge.FreeList
