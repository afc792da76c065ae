import HeapForge.Lib.Dyadic
import HeapForge.Lib.Mem
import HeapForge.Platform

/-!
# The buddy allocator of `rust/src/buddy.rs`

The free blocks of each order stand on a stack of offsets, here with its top first.  Merging takes
no entry off a stack: it clears the buddy's byte in `order_map`, and `pop_free` drops the entries
whose byte no longer says "free, of this order" when it meets them.

* `allocate`     `scan` pops from the stacks from the order wanted on, then the block is split;
* `deallocate`   `mergeLoop` clears the buddy's byte as long as the buddy is free; `none` is the
                 failed debug assertion on the tag;
* `walk`         the blocks that the valid bytes describe; `none` says that the walk is stuck;
* `new`          `none` when the mapping fails, or when the map has no slot and the first push
                 panics.

Arithmetic wraps as in a release build; an order is below 64, so `2^order` stands for
`1 << order`.
-/

set_option linter.unusedSectionVars false
set_option linter.unusedVariables false

namespace HeapForge.RustBuddy
open Lib Function

def BD_HDR : Nat := 16
def USED : Nat := 0x80
def VALID : Nat := 0x40
def ORDER_MASK : Nat := 0x3F

/-! ## helpers of `lib.rs` and `platform.rs` -/

/-- the same sequence of shifts as in C -/
def nextPow2 (n : Nat) : Nat := hfNextPow2 n

/-- the loop `while n > 1 { n >>= 1; r += 1 }` -/
def log2Loop : Nat → Nat → Nat → Nat
  | 0, _, r => r
  | fuel + 1, n, r => if n > 1 then log2Loop fuel (n >>> 1) (r + 1) else r

def log2Floor (n : Nat) : Nat := log2Loop 64 n 0

/-- `VmRegion::reserve`: the address, 0 when the mapping fails -/
def vmReserve (vm : Vm) (size : Nat) : Nat := vm.mmap (hfAlignUp (max size 1) vm.pageSize)

structure Inner where
  /-- the address of the mapping -/
  base : Nat
  capacity : Nat
  minOrder : Nat
  maxOrder : Nat
  freeLists : Nat → List Nat
  orderMap : Nat → Nat
  stats : Stats
  /-- the bytes of the address space -/
  heap : Mem

def slot (a : Inner) (off : Nat) : Nat := off >>> a.minOrder

def pushFree (a : Inner) (off order : Nat) : Inner :=
  { a with
    freeLists := update a.freeLists order (off :: a.freeLists order)
    orderMap := update a.orderMap (slot a off) (order % 256 ||| VALID) }

def isFreeAt (a : Inner) (off order : Nat) : Bool :=
  let enc := a.orderMap (slot a off)
  (enc &&& VALID) != 0 && (enc &&& USED) == 0 && (enc &&& ORDER_MASK) == order

/-- the loop of `pop_free`: the first entry whose byte is current, and the stack below it -/
def popLoop (a : Inner) (order : Nat) : List Nat → Option Nat × List Nat
  | [] => (none, [])
  | off :: rest => if isFreeAt a off order then (some off, rest) else popLoop a order rest

def popFree (a : Inner) (order : Nat) : Option Nat × Inner :=
  let r := popLoop a order (a.freeLists order)
  (r.1, { a with freeLists := update a.freeLists order r.2 })

def markUsed (a : Inner) (off order : Nat) : Inner :=
  { a with orderMap := update a.orderMap (slot a off) (order % 256 ||| USED ||| VALID) }

/-! ## allocation -/

def needFor (size align : Nat) : Nat :=
  let need := wadd size BD_HDR
  if align > need then wadd align BD_HDR else need

def orderFor (a : Inner) (need : Nat) : Nat := max (log2Floor (nextPow2 need)) a.minOrder

/-- the loop over the orders: the block and its order, if a stack has one -/
def scan : Nat → Inner → Nat → Option (Nat × Nat) × Inner
  | 0, a, _ => (none, a)
  | fuel + 1, a, o =>
    if o > a.maxOrder then (none, a)
    else
      match popFree a o with
      | (some off, a') => (some (off, o), a')
      | (none, a') => scan fuel a' (o + 1)

/-- splitting from the order `order + d` down to `order` -/
def splitLoop (blk order : Nat) : Nat → Inner → Inner
  | 0, a => a
  | d + 1, a => splitLoop blk order d (pushFree a (blk + 2 ^ (order + d)) (order + d))

def countAlloc (a : Inner) : Inner :=
  { a with stats := { a.stats with allocCalls := wadd a.stats.allocCalls 1 } }

def countFailed (a : Inner) : Inner :=
  { a with stats := { a.stats with failedAllocs := wadd a.stats.failedAllocs 1 } }

def chargeUsed (a : Inner) (n : Nat) : Inner :=
  let used := wadd a.stats.used n
  { a with stats := { a.stats with used := used, peakUsed := max a.stats.peakUsed used } }

/-- what is done with the block that was popped: it is split, marked and tagged -/
def carve (a : Inner) (blk order o : Nat) : Nat × Inner :=
  let a := splitLoop blk order (o - order) a
  let a := chargeUsed (markUsed a blk order) (2 ^ order)
  let p := a.base + blk
  (p + BD_HDR, { a with heap := a.heap.store64 p order })

def allocate (a : Inner) (size align : Nat) : Option Nat × Inner :=
  let a := countAlloc a
  let order := orderFor a (needFor size align)
  if order > a.maxOrder then (none, countFailed a)
  else
    match scan (a.maxOrder + 2) a order with
    | (none, a) => (none, countFailed a)
    | (some (blk, o), a) =>
      let r := carve a blk order o
      (some r.1, r.2)

/-! ## deallocation -/

/-- the loop of `deallocate`: the state, the offset and the order it ends with -/
def mergeLoop : Nat → Inner → Nat → Nat → Inner × Nat × Nat
  | 0, a, off, order => (a, off, order)
  | fuel + 1, a, off, order =>
    if order < a.maxOrder then
      let b := buddy off order
      if isFreeAt a b order then
        mergeLoop fuel { a with orderMap := update a.orderMap (slot a b) 0 } (parent off order)
          (order + 1)
      else (a, off, order)
    else (a, off, order)

def tagOf (a : Inner) (blk : Nat) : Nat := a.heap.load64 blk % 2 ^ 32

def releaseUsed (a : Inner) (n : Nat) : Inner :=
  { a with
    stats := { a.stats with
      used := wsub a.stats.used n
      freeCalls := wadd a.stats.freeCalls 1 } }

def deallocate (a : Inner) (ptr : Nat) : Option Inner :=
  let blk := wsub ptr BD_HDR
  let order := tagOf a blk
  let off := wsub blk a.base
  if a.minOrder ≤ order ∧ order ≤ a.maxOrder then
    let r := mergeLoop (a.maxOrder - order) (releaseUsed a (2 ^ order)) off order
    some (pushFree r.1 r.2.1 r.2.2)
  else none

/-! ## walking and creation -/

def walkLoop (a : Inner) : Nat → Nat → Option (List BlockInfo)
  | 0, _ => none
  | fuel + 1, s =>
    if s < a.capacity >>> a.minOrder then
      let enc := a.orderMap s
      if enc &&& VALID = 0 then walkLoop a fuel (s + 1)
      else
        let order := enc &&& ORDER_MASK
        (walkLoop a fuel (s + 2 ^ order >>> a.minOrder)).map
          (⟨s <<< a.minOrder, 2 ^ order, enc &&& USED == 0⟩ :: ·)
    else some []

def walk (a : Inner) : Option (List BlockInfo) := walkLoop a (a.capacity >>> a.minOrder + 1) 0

def new (vm : Vm) (m : Mem) (capacity minBlock : Nat) : Option Inner :=
  let floor := BD_HDR + 16
  let minBlock := nextPow2 (max minBlock floor)
  let capacity := nextPow2 (max (max capacity minBlock) vm.pageSize)
  let base := vmReserve vm capacity
  if base = 0 then none
  else
    let a : Inner := {
      base := base
      capacity := capacity
      minOrder := log2Floor minBlock
      maxOrder := log2Floor capacity
      freeLists := fun _ => []
      orderMap := fun _ => 0
      stats := Stats.fresh capacity
      heap := m }
    if 0 < capacity >>> a.minOrder then some (pushFree a 0 a.maxOrder) else none

end HeapForge.RustBuddy
