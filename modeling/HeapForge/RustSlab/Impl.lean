import HeapForge.Platform

/-!
# The slab allocator of `rust/src/slab.rs`

The free slots of all slabs stand on one stack of pointers, here with its top first.  There are no
magazines and no words in the slots.

* `grow`         pushes the slots of a new slab, the last one first;
* `allocate`     pops the stack, which grows before if it is empty;
* `deallocate`   pushes;
* `walk`         one or two blocks per slab, by the bytes in use.

Arithmetic wraps as in a release build.
-/

set_option linter.unusedSectionVars false
set_option linter.unusedVariables false

namespace HeapForge.RustSlab
open Lib

structure Inner where
  objSize : Nat
  slabBytes : Nat
  /-- the addresses of the mappings -/
  slabs : List Nat
  free : List Nat
  stats : Stats
  deriving DecidableEq

/-- `for i in (0..slots).rev()` -/
def pushLoop (base objSize : Nat) : Nat → List Nat → List Nat
  | 0, free => free
  | i + 1, free => pushLoop base objSize i (wadd base (wmul i objSize) :: free)

/-- `region` is the answer of `VmRegion::reserve`, 0 if it fails -/
def grow (g : Inner) (region : Nat) : Inner :=
  if region = 0 then g
  else
    { g with
      free := pushLoop region g.objSize (g.slabBytes / g.objSize) g.free
      stats := { g.stats with capacity := wadd g.stats.capacity g.slabBytes }
      slabs := g.slabs ++ [region] }

def countAlloc (g : Inner) : Inner :=
  { g with stats := { g.stats with allocCalls := wadd g.stats.allocCalls 1 } }

def countFailed (g : Inner) : Inner :=
  { g with stats := { g.stats with failedAllocs := wadd g.stats.failedAllocs 1 } }

def chargeUsed (g : Inner) : Inner :=
  let used := wadd g.stats.used g.objSize
  { g with stats := { g.stats with used := used, peakUsed := max g.stats.peakUsed used } }

/-- the `match` on `g.free.pop()` -/
def popFree (g : Inner) : Option Nat × Inner :=
  match g.free with
  | [] => (none, countFailed g)
  | p :: free => (if p = 0 then none else some p, chargeUsed { g with free := free })

/-- the alignment is ignored -/
def allocate (g : Inner) (region size : Nat) : Option Nat × Inner :=
  let g := countAlloc g
  if size > g.objSize then (none, countFailed g)
  else popFree (if g.free = [] then grow g region else g)

def deallocate (g : Inner) (ptr : Nat) : Inner :=
  { g with
    stats := { g.stats with
      freeCalls := wadd g.stats.freeCalls 1
      used := wsub g.stats.used g.objSize }
    free := ptr :: g.free }

/-- `for _ in &g.slabs` -/
def walkLoop (slabBytes : Nat) : List Nat → Nat → Nat → List BlockInfo
  | [], _, _ => []
  | _ :: slabs, off, remaining =>
    let used := min remaining slabBytes
    (if used > 0 then [⟨off, used, false⟩] else [])
      ++ (if used < slabBytes then [⟨wadd off used, wsub slabBytes used, true⟩] else [])
      ++ walkLoop slabBytes slabs (wadd off slabBytes) (wsub remaining used)

def walk (g : Inner) : List BlockInfo := walkLoop g.slabBytes g.slabs 0 g.stats.used

/-- a size that wraps to 0 panics in the division -/
def new (vm : Vm) (objectSize slabBytes : Nat) : Option Inner :=
  let obj := hfAlignUp (max objectSize 8) HF_DEFAULT_ALIGN
  let slabBytes := hfAlignUp (if slabBytes = 0 then 64 * 1024 else slabBytes) vm.pageSize
  if obj = 0 ∨ slabBytes / obj = 0 then none
  else some ⟨obj, slabBytes, [], [], Stats.fresh 0⟩

end HeapForge.RustSlab
