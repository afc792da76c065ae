import HeapForge.Lib.Dyadic
import HeapForge.Lib.Node
import HeapForge.Lib.Objects
import HeapForge.Platform

/-!
# The buddy allocator of `c/src/hf_buddy.c`

Free blocks hang in one doubly linked list per order, ended by `NULL` (0) on both sides; the two
words of a node are the first sixteen bytes of the block.  `order_map` has one byte per slot of
`2^min_order` bytes: bit 7 says used, bit 6 valid, the low six bits hold the order.  A used block
starts with its order, the user gets the address behind the first sixteen bytes.

* `bdAllocate`     the first nonempty list from the order wanted on, then splitting;
* `bdDeallocate`   `mergeLoop` unlinks the buddy as long as it is free; `none` is the failed
                   assertion on the tag;
* `mergeQueries`   the calls of `bd_is_free_at` that the loop makes, each with its state;
* `bdWalk`         the blocks that the first slots describe; `none` says that the walk is stuck.

An order is below 64, so `2^order` stands for `(size_t)1 << order`.
-/

set_option linter.unusedSectionVars false
set_option linter.unusedVariables false

namespace HeapForge.Buddy
open Lib Function

def BD_HDR : Nat := 16

/-- `sizeof(bd_node)`: two pointers -/
def BD_NODE : Nat := 16

structure BdAlloc where
  mem : Nat
  capacity : Nat
  minOrder : Nat
  maxOrder : Nat
  freeLists : Nat → Nat
  orderMap : Nat → Nat
  stats : Stats
  /-- the bytes of the address space -/
  heap : Mem

/-! ## slots and lists -/

def slotOf (a : BdAlloc) (p : Nat) : Nat := wsub p a.mem >>> a.minOrder

/-- the byte for a free block -/
def encFree (order : Nat) : Nat := (order ||| 0x40) % 256

/-- the byte for a used block -/
def encUsed (order : Nat) : Nat := (order ||| 0x80 ||| 0x40) % 256

/-- the writes to nodes in `bd_push` -/
def pushHeap (m : Mem) (n head : Nat) : Mem :=
  let m := setPrev m n 0
  let m := setNext m n head
  if nodeNext m n ≠ 0 then setPrev m (nodeNext m n) n else m

def bdPush (a : BdAlloc) (n order : Nat) : BdAlloc :=
  { a with
    heap := pushHeap a.heap n (a.freeLists order)
    freeLists := update a.freeLists order n
    orderMap := update a.orderMap (slotOf a n) (encFree order) }

def bdPop (a : BdAlloc) (order : Nat) : Nat × BdAlloc :=
  let n := a.freeLists order
  let next := nodeNext a.heap n
  (n, { a with
    freeLists := update a.freeLists order next
    heap := if next ≠ 0 then setPrev a.heap next 0 else a.heap })

def bdUnlink (a : BdAlloc) (n order : Nat) : BdAlloc :=
  let a :=
    if nodePrev a.heap n ≠ 0 then
      { a with heap := setNext a.heap (nodePrev a.heap n) (nodeNext a.heap n) }
    else { a with freeLists := update a.freeLists order (nodeNext a.heap n) }
  if nodeNext a.heap n ≠ 0 then
    { a with heap := setPrev a.heap (nodeNext a.heap n) (nodePrev a.heap n) }
  else a

def bdMarkUsed (a : BdAlloc) (p order : Nat) : BdAlloc :=
  { a with orderMap := update a.orderMap (slotOf a p) (encUsed order) }

def bdIsFreeAt (a : BdAlloc) (p order : Nat) : Bool :=
  let enc := a.orderMap (slotOf a p)
  (enc &&& 0x40) != 0 && (enc &&& 0x80) == 0 && (enc &&& 0x3F) == order

def orderFor (a : BdAlloc) (bytes : Nat) : Nat :=
  let o := hfLog2Floor (hfNextPow2 bytes)
  if o < a.minOrder then a.minOrder else o

/-! ## allocation -/

def bdNeed (size alignment : Nat) : Nat :=
  let need := wadd size BD_HDR
  if alignment > need then wadd alignment BD_HDR else need

/-- `while (o <= a->max_order && !a->free_lists[o]) ++o` -/
def scanLoop (a : BdAlloc) : Nat → Nat → Nat
  | 0, o => o
  | fuel + 1, o => if o ≤ a.maxOrder ∧ a.freeLists o = 0 then scanLoop a fuel (o + 1) else o

/-- the loop that splits from the order `order + d` down to `order` -/
def splitLoop (blk order : Nat) : Nat → BdAlloc → BdAlloc
  | 0, a => a
  | d + 1, a => splitLoop blk order d (bdPush a (wadd blk (2 ^ (order + d))) (order + d))

def countAlloc (a : BdAlloc) : BdAlloc :=
  { a with stats := { a.stats with allocCalls := wadd a.stats.allocCalls 1 } }

def countFailed (a : BdAlloc) : BdAlloc :=
  { a with stats := { a.stats with failedAllocs := wadd a.stats.failedAllocs 1 } }

def chargeUsed (a : BdAlloc) (n : Nat) : BdAlloc :=
  let used := wadd a.stats.used n
  { a with
    stats := { a.stats with
      used := used
      peakUsed := if used > a.stats.peakUsed then used else a.stats.peakUsed } }

/-- what is done once a list with a block has been found: the block is popped, split and marked -/
def bdCarve (a : BdAlloc) (order o : Nat) : Nat × BdAlloc :=
  let r := bdPop a o
  let blk := r.1
  let a := splitLoop blk order (o - order) r.2
  let a := chargeUsed (bdMarkUsed a blk order) (2 ^ order)
  (wadd blk BD_HDR, { a with heap := a.heap.store64 blk order })

def bdAllocate (a : BdAlloc) (size alignment : Nat) : Nat × BdAlloc :=
  let order := orderFor a (bdNeed size alignment)
  let a := countAlloc a
  if order > a.maxOrder then (0, countFailed a)
  else
    let o := scanLoop a (a.maxOrder + 1) order
    if o > a.maxOrder then (0, countFailed a)
    else bdCarve a order o

/-! ## deallocation -/

/-- the loop of `bd_deallocate`: the state, the offset and the order it ends with -/
def mergeLoop : Nat → BdAlloc → Nat → Nat → BdAlloc × Nat × Nat
  | 0, a, off, order => (a, off, order)
  | fuel + 1, a, off, order =>
    if order < a.maxOrder then
      let b := wadd a.mem (buddy off order)
      if bdIsFreeAt a b order then
        mergeLoop fuel (bdUnlink a b order) (parent off order) (order + 1)
      else (a, off, order)
    else (a, off, order)

/-- a call of `bd_is_free_at`: the state it reads, the block in hand, the node asked about -/
structure Query where
  a : BdAlloc
  off : Nat
  order : Nat
  node : Nat

/-- the calls of `bd_is_free_at` in the loop -/
def mergeQueries : Nat → BdAlloc → Nat → Nat → List Query
  | 0, _, _, _ => []
  | fuel + 1, a, off, order =>
    if order < a.maxOrder then
      let b := wadd a.mem (buddy off order)
      ⟨a, off, order, b⟩ ::
        (if bdIsFreeAt a b order then
          mergeQueries fuel (bdUnlink a b order) (parent off order) (order + 1)
        else [])
    else []

/-- `(unsigned)*(uint64_t*)blk` -/
def tagOf (a : BdAlloc) (blk : Nat) : Nat := a.heap.load64 blk % 2 ^ 32

def releaseUsed (a : BdAlloc) (n : Nat) : BdAlloc :=
  { a with
    stats := { a.stats with
      used := wsub a.stats.used n
      freeCalls := wadd a.stats.freeCalls 1 } }

def bdDeallocate (a : BdAlloc) (ptr : Nat) : Option BdAlloc :=
  if ptr = 0 then some a
  else
    let blk := wsub ptr BD_HDR
    let order := tagOf a blk
    if a.minOrder ≤ order ∧ order ≤ a.maxOrder then
      let r := mergeLoop (a.maxOrder - order) (releaseUsed a (2 ^ order)) (wsub blk a.mem) order
      some (bdPush r.1 (wadd a.mem r.2.1) r.2.2)
    else none

/-- the calls of `bd_is_free_at` that `bd_deallocate` makes -/
def bdQueries (a : BdAlloc) (ptr : Nat) : List Query :=
  let blk := wsub ptr BD_HDR
  let order := tagOf a blk
  mergeQueries (a.maxOrder - order) (releaseUsed a (2 ^ order)) (wsub blk a.mem) order

/-! ## walking and creation -/

def walkLoop (a : BdAlloc) : Nat → Nat → Option (List BlockInfo)
  | 0, _ => none
  | fuel + 1, slot =>
    if slot < a.capacity >>> a.minOrder then
      let enc := a.orderMap slot
      let order := enc &&& 0x3F
      if order = 0 ∧ enc &&& 0x40 = 0 then walkLoop a fuel (slot + 1)
      else
        (walkLoop a fuel (slot + 2 ^ order >>> a.minOrder)).map
          (⟨slot <<< a.minOrder, 2 ^ order, enc &&& 0x80 == 0⟩ :: ·)
    else some []

def bdWalk (a : BdAlloc) : Option (List BlockInfo) :=
  walkLoop a (a.capacity >>> a.minOrder + 1) 0

/-- the calls of `BD_VT` -/
def allocator : Allocator BdAlloc where
  allocate a size alignment := some (bdAllocate a size alignment)
  deallocate := bdDeallocate
  heap := BdAlloc.heap
  setHeap a m := { a with heap := m }

/-- which of the three `calloc`s give memory: the handle, the list heads, the map -/
structure Callocs where
  handle : Bool
  lists : Bool
  map : Bool

def hfBuddyCreate (vm : Vm) (cs : Callocs) (m : Mem) (capacity minBlock : Nat) : Option BdAlloc :=
  let floor := BD_NODE + BD_HDR
  let minBlock := hfNextPow2 (if minBlock < floor then floor else minBlock)
  let capacity := hfNextPow2 (if capacity < minBlock then minBlock else capacity)
  if cs.handle then
    let base := hfVmReserve vm capacity
    if base = 0 then none
    else
      let a : BdAlloc := {
        mem := base
        capacity := capacity
        minOrder := hfLog2Floor minBlock
        maxOrder := hfLog2Floor capacity
        freeLists := fun _ => 0
        orderMap := fun _ => 0
        stats := Stats.fresh capacity
        heap := m }
      if cs.lists ∧ cs.map then some (bdPush a base a.maxOrder) else none
  else none

end HeapForge.Buddy
