import HeapForge.Lib.Objects
import HeapForge.Lib.Runs
import HeapForge.Lib.Words
import HeapForge.Platform

/-!
# The block pool of `c/src/hf_block_pool.c`

Blocks of one size, one bit each in an array of 64-bit words.  A search starts at the word of the
last call, skips full words, and takes the lowest zero of the first that is not.

* `lowestZero`      by halves: 32, 16, 8, 4, 2, 1;
* `bpAllocate`      the alignment is ignored;
* `bpDeallocate`    `none` is a failed assertion: no block of the pool, or one that is free;
* `bpWalk`          one entry for every run of blocks in the same state.
-/

set_option linter.unusedSectionVars false
set_option linter.unusedVariables false

namespace HeapForge.BlockPool
open Lib

structure BpAlloc where
  mem : Nat
  capacity : Nat
  blockSize : Nat
  blockCount : Nat
  hint : Nat
  /-- 0 is free -/
  bitmap : WordMap 64
  words : Nat
  stats : Stats
  /-- the bytes of the address space -/
  heap : Mem

def lowestZero (bits : BitVec 64) : Nat :=
  (zeroStep 1 (zeroStep 2 (zeroStep 4 (zeroStep 8 (zeroStep 16 (zeroStep 32 (0, ~~~bits))))))).1

def bpTest (a : BpAlloc) (idx : Nat) : Bool := a.bitmap.test idx

def countAlloc (a : BpAlloc) : BpAlloc :=
  { a with stats := { a.stats with allocCalls := wadd a.stats.allocCalls 1 } }

def countFailed (a : BpAlloc) : BpAlloc :=
  { a with stats := { a.stats with failedAllocs := wadd a.stats.failedAllocs 1 } }

/-- the word looked at in round `w`, and the block that it offers -/
def bpProbe (a : BpAlloc) (w : Nat) : Option Nat :=
  let wi := wadd a.hint w % a.words
  let bits := a.bitmap wi
  if bits = BitVec.allOnes 64 then none
  else
    let idx := wi * 64 + lowestZero bits
    if idx ≥ a.blockCount then none else some idx

/-- `for (w = 0; w < words; ++w)` -/
def bpFind (a : BpAlloc) : Option Nat := (List.range a.words).findSome? (bpProbe a)

def bpTake (a : BpAlloc) (idx : Nat) : BpAlloc :=
  let used := wadd a.stats.used a.blockSize
  { a with
    bitmap := a.bitmap.set idx
    hint := idx / 64
    stats := { a.stats with
      used := used
      peakUsed := if used > a.stats.peakUsed then used else a.stats.peakUsed } }

/-- the address of a block -/
def bpAddr (a : BpAlloc) (idx : Nat) : Nat := wadd a.mem (wmul idx a.blockSize)

def bpAllocate (a : BpAlloc) (size alignment : Nat) : Nat × BpAlloc :=
  let a := countAlloc a
  if size > a.blockSize then (0, countFailed a)
  else
    match bpFind a with
    | none => (0, countFailed a)
    | some idx => (bpAddr a idx, bpTake a idx)

def bpGive (a : BpAlloc) (idx : Nat) : BpAlloc :=
  { a with
    bitmap := a.bitmap.clear idx
    hint := idx / 64
    stats := { a.stats with
      freeCalls := wadd a.stats.freeCalls 1
      used := wsub a.stats.used a.blockSize } }

def bpDeallocate (a : BpAlloc) (ptr : Nat) : Option BpAlloc :=
  if ptr = 0 then some a
  else
    let off := wsub ptr a.mem
    if off % a.blockSize = 0 then
      let idx := off / a.blockSize
      if idx < a.blockCount ∧ bpTest a idx = true then some (bpGive a idx) else none
    else none

/-- `for (i = 1; i <= block_count; ++i)`; the last round closes the last run -/
def walkLoop (a : BpAlloc) : Nat → Nat → Nat → Bool → List BlockInfo :=
  runsLoop (bpTest a) a.blockCount fun runStart i runUsed =>
    ⟨wmul runStart a.blockSize, wmul (wsub i runStart) a.blockSize, !runUsed⟩

def bpWalk (a : BpAlloc) : List BlockInfo := walkLoop a a.blockCount 1 0 (bpTest a 0)

/-- the calls of `BP_VT` -/
def allocator : Allocator BpAlloc where
  allocate a size alignment := some (bpAllocate a size alignment)
  deallocate := bpDeallocate
  heap := BpAlloc.heap
  setHeap a m := { a with heap := m }

/-- `handle` and `bits` tell whether `calloc` gave memory for the handle and for the words, `m` is
what the memory holds -/
def hfBlockPoolCreate (vm : Vm) (handle bits : Bool) (m : Mem) (blockSize blockCount : Nat) :
    Option BpAlloc :=
  if handle then
    let blockSize := hfAlignUp blockSize HF_DEFAULT_ALIGN
    let bytes := hfAlignUp (wmul blockSize blockCount) vm.pageSize
    let mem := hfVmReserve vm bytes
    if mem = 0 then none
    else if bits then
      some ⟨mem, bytes, blockSize, blockCount, 0, fun _ =>
        0#64, wadd blockCount 63 / 64, Stats.fresh bytes, m⟩
    else none
  else none

/-- a pool that was created -/
theorem hfBlockPoolCreate_eq {vm : Vm} {handle bits : Bool} {m : Mem} {blockSize blockCount : Nat}
    {a : BpAlloc} (h : hfBlockPoolCreate vm handle bits m blockSize blockCount = some a) :
    ∃ bs bytes, bs = hfAlignUp blockSize HF_DEFAULT_ALIGN
    ∧ bytes = hfAlignUp (wmul bs blockCount) vm.pageSize
      ∧ hfVmReserve vm bytes ≠ 0
      ∧ a = ⟨hfVmReserve vm bytes, bytes, bs, blockCount, 0, fun _ => 0#64, wadd blockCount 63 / 64,
        Stats.fresh bytes, m⟩ := by
  unfold hfBlockPoolCreate at h
  dsimp only at h
  split at h
  · split at h
    · exact absurd h (by simp)
    · next hmem =>
      split at h
      · exact ⟨_, _, rfl, rfl, hmem, (Option.some.inj h).symm⟩
      · exact absurd h (by simp)
  · exact absurd h (by simp)

/-! ## the search -/

section
variable {bits : BitVec 64} {a : BpAlloc} {idx : Nat}

/-- **`lowest_zero`** finds the lowest zero of a word that has one. -/
theorem lowestZero_spec (h : bits ≠ BitVec.allOnes 64) :
    lowestZero bits < 64 ∧ bits.getLsbD (lowestZero bits) = false
      ∧ ∀ i < lowestZero bits, bits.getLsbD i = true := by
  have hstart : Search (~~~bits) (32 + 32) (0, ~~~bits) := by
    refine ⟨fun i hi => absurd hi (Nat.not_lt_zero i), fun i => by rw [Nat.zero_add], ?_⟩
    by_contra hno
    refine h (BitVec.eq_of_getLsbD_eq fun i hi => ?_)
    by_contra hb
    refine hno ⟨i, hi, ?_⟩
    simp only [BitVec.getLsbD_allOnes, hi, decide_true] at hb
    show (~~~bits).getLsbD i = true
    rw [BitVec.getLsbD_not, Bool.eq_false_of_not_eq_true hb, decide_eq_true hi]
    rfl
  have h32 := zeroStep_search (k := 32) (by decide) hstart
  have h16 := zeroStep_search (k := 16) (by decide) h32
  have h8 := zeroStep_search (k := 8) (by decide) h16
  have h4 := zeroStep_search (k := 4) (by decide) h8
  have h2 := zeroStep_search (k := 2) (by decide) h4
  obtain ⟨hbelow, hshift, i, hi, hbit⟩ := zeroStep_search (k := 1) (by decide) h2
  obtain rfl : i = 0 := by omega
  rw [hshift 0, Nat.add_zero] at hbit
  have hlt : lowestZero bits < 64 := BitVec.lt_of_getLsbD hbit
  refine ⟨hlt, ?_, fun j hj => ?_⟩
  · have hbit' : (~~~bits).getLsbD (lowestZero bits) = true := hbit
    rw [BitVec.getLsbD_not] at hbit'
    simpa [hlt] using hbit'
  · have hj' := hbelow j hj
    rw [BitVec.getLsbD_not] at hj'
    have hj64 : j < 64 := Nat.lt_trans hj hlt
    simpa [hj64] using hj'

/-- the block found is one of the pool, and free -/
theorem bpFind_spec (h : bpFind a = some idx) : idx < a.blockCount ∧ bpTest a idx = false := by
  obtain ⟨w, -, hw⟩ := List.exists_of_findSome?_eq_some h
  unfold bpProbe at hw
  dsimp only at hw
  split at hw
  · exact absurd hw (by simp)
  · rename_i hbits
    split at hw
    · exact absurd hw (by simp)
    · rename_i hlt
      obtain ⟨h64, hzero, -⟩ := lowestZero_spec hbits
      obtain rfl := Option.some.inj hw
      refine ⟨Nat.lt_of_not_le hlt, ?_⟩
      unfold bpTest WordMap.test
      rw [Nat.add_comm, Nat.add_mul_div_right _ _ (by decide), Nat.div_eq_of_lt h64, Nat.zero_add,
        Nat.add_mul_mod_self_right, Nat.mod_eq_of_lt h64]
      exact hzero

/-- an allocation takes nothing, or a free block -/
theorem bpAllocate_cases (a : BpAlloc) (size alignment : Nat) :
    bpAllocate a size alignment = (0, countFailed (countAlloc a))
    ∨ ∃ idx, idx < a.blockCount ∧ bpTest a idx = false ∧ size ≤ a.blockSize
      ∧ bpAllocate a size alignment = (bpAddr a idx, bpTake (countAlloc a) idx) := by
  unfold bpAllocate
  dsimp only
  split
  · exact Or.inl rfl
  · rename_i hsize
    split
    · exact Or.inl rfl
    · rename_i idx hfind
      obtain ⟨h1, h2⟩ := bpFind_spec hfind
      exact Or.inr ⟨idx, h1, h2, Nat.le_of_not_lt hsize, rfl⟩

/-- a free gives back a used block -/
theorem bpDeallocate_cases {a a' : BpAlloc} {ptr : Nat} (h : bpDeallocate a ptr = some a') :
    a' = a ∨ ∃ idx, idx < a.blockCount ∧ bpTest a idx = true ∧ a' = bpGive a idx := by
  unfold bpDeallocate at h
  dsimp only at h
  split at h
  · exact Or.inl (Option.some.inj h).symm
  · split at h
    · split at h
      · rename_i hb
        exact Or.inr ⟨_, hb.1, hb.2, (Option.some.inj h).symm⟩
      · exact absurd h (by simp)
    · exact absurd h (by simp)

end

end HeapForge.BlockPool
