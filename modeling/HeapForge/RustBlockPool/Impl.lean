import HeapForge.Lib.Runs
import HeapForge.Lib.Words
import HeapForge.RustBuddy.Impl

/-!
# The block pool of `rust/src/block_pool.rs`

The pool of the C library, with the zeros of a word counted by `trailing_zeros`.

* `allocate`     the alignment is ignored;
* `deallocate`   `none` is a failed assertion;
* `walk`         one entry for every run of blocks in the same state;
* `new`          `none` when the size of the pool overflows or the mapping fails.

Arithmetic wraps as in a release build.  `words` is the length of the vector `bitmap`.
-/

set_option linter.unusedSectionVars false
set_option linter.unusedVariables false

namespace HeapForge.RustBlockPool
open Lib

structure Inner where
  /-- the address of the mapping -/
  base : Nat
  blockSize : Nat
  blockCount : Nat
  hint : Nat
  /-- 1 is used -/
  bitmap : WordMap 64
  words : Nat
  stats : Stats

def test (g : Inner) (idx : Nat) : Bool := g.bitmap.test idx

/-- `NonNull::new` -/
def nonNull (p : Nat) : Option Nat := if p = 0 then none else some p

def countAlloc (g : Inner) : Inner :=
  { g with stats := { g.stats with allocCalls := wadd g.stats.allocCalls 1 } }

def countFailed (g : Inner) : Inner :=
  { g with stats := { g.stats with failedAllocs := wadd g.stats.failedAllocs 1 } }

/-- the word looked at in round `w`, and its lowest zero -/
def probe (g : Inner) (w : Nat) : Option (Nat × Nat) :=
  let wi := wadd g.hint w % g.words
  let bits := g.bitmap wi
  if bits = BitVec.allOnes 64 then none
  else
    let bit := (~~~bits).ctz.toNat
    let idx := wi * 64 + bit
    if idx ≥ g.blockCount then none else some (wi, bit)

def take (g : Inner) (wi bit : Nat) : Inner :=
  let used := wadd g.stats.used g.blockSize
  { g with
    bitmap := g.bitmap.set (wi * 64 + bit)
    hint := wi
    stats := { g.stats with used := used, peakUsed := max g.stats.peakUsed used } }

def allocate (g : Inner) (size align : Nat) : Option Nat × Inner :=
  let g := countAlloc g
  if size > g.blockSize then (none, countFailed g)
  else
    match (List.range g.words).findSome? (probe g) with
    | none => (none, countFailed g)
    | some (wi, bit) => (nonNull (wadd g.base (wmul (wi * 64 + bit) g.blockSize)), take g wi bit)

def give (g : Inner) (idx : Nat) : Inner :=
  { g with
    bitmap := g.bitmap.clear idx
    hint := idx / 64
    stats := { g.stats with
      freeCalls := wadd g.stats.freeCalls 1
      used := wsub g.stats.used g.blockSize } }

def deallocate (g : Inner) (ptr : Nat) : Option Inner :=
  let off := wsub ptr g.base
  if off % g.blockSize = 0 then
    let idx := off / g.blockSize
    if idx < g.blockCount ∧ test g idx = true then some (give g idx) else none
  else none

/-- `for i in 1..=block_count` -/
def walkLoop (g : Inner) : Nat → Nat → Nat → Bool → List BlockInfo :=
  runsLoop (test g) g.blockCount fun runStart i runUsed =>
    ⟨wmul runStart g.blockSize, wmul (wsub i runStart) g.blockSize, !runUsed⟩

def walk (g : Inner) : List BlockInfo :=
  if g.blockCount = 0 then [] else walkLoop g g.blockCount 1 0 (test g 0)

def new (vm : Vm) (blockSize blockCount : Nat) : Option Inner :=
  let blockSize := hfAlignUp (max blockSize 1) HF_DEFAULT_ALIGN
  if blockSize * blockCount < 2 ^ 64 then
    let bytes := hfAlignUp (blockSize * blockCount) vm.pageSize
    let base := RustBuddy.vmReserve vm bytes
    if base = 0 then none
    else some ⟨base, blockSize, blockCount, 0, fun _ =>
      0#64, (blockCount + 63) / 64, Stats.fresh bytes⟩
  else none

end HeapForge.RustBlockPool
