import HeapForge.BlockPool.Run

/-!
# The search of the block pool is exact

A word is skipped when it is full, or when its lowest zero lies behind the last block; either way it
has no free block.  From any word on the scan comes past every word.

* `Tidy`              the cursor is a word of the map, and no bit behind the last block is set;
* `Tidy.of_run`       **along every run;**
* `FirstFree`         the lowest free block of the first word, from the cursor on, that has one;
* `bpFind_some_iff`   **that is what the search finds;**
* `bpFind_none_iff`   it finds nothing only if all blocks are used;
* `firstFree_give`    what is given back to a full pool is found next.
-/

set_option linter.unusedSectionVars false
set_option linter.unusedVariables false

namespace HeapForge.BlockPool
open Lib

structure Tidy (a : BpAlloc) : Prop where
  words : a.words = (a.blockCount + 63) / 64
  hint : a.hint < a.words
  clear : ∀ i, a.blockCount ≤ i → bpTest a i = false
  size : 16 ∣ a.blockSize
  pos : 0 < a.blockSize ∧ 0 < a.mem
  /-- the blocks are mapped -/
  room : a.mem + a.blockSize * a.blockCount ≤ 2 ^ 64

/-- the lowest free block of the first word, in cyclic order from the cursor, that has a free
block -/
structure FirstFree (a : BpAlloc) (idx : Nat) : Prop where
  lt : idx < a.blockCount
  free : bpTest a idx = false
  lowest : ∀ i < idx, i / 64 = idx / 64 → bpTest a i = true
  first : ∃ w < a.words, idx / 64 = (a.hint + w) % a.words
    ∧ ∀ v < w, ∀ i < a.blockCount, i / 64 = (a.hint + v) % a.words → bpTest a i = true

section
variable {vm : Vm} {a a' : BpAlloc} {act : BpAct} {idx w size alignment i : Nat}

/-! ## one word -/

/-- the block at a place of a word -/
theorem bpTest_word (a : BpAlloc) (wi : Nat) {n : Nat} (hn : n < 64) :
    bpTest a (wi * 64 + n) = (a.bitmap wi).getLsbD n := by
  unfold bpTest WordMap.test
  rw [show (wi * 64 + n) / 64 = wi by omega, show (wi * 64 + n) % 64 = n by omega]

/-- the blocks before the lowest zero of a word are used -/
theorem used_below (hb : a.bitmap w ≠ BitVec.allOnes 64) (hi : i / 64 = w)
    (hlt : i < w * 64 + lowestZero (a.bitmap w)) : bpTest a i = true := by
  have h := (lowestZero_spec hb).2.2 (i % 64) (by omega)
  unfold bpTest WordMap.test
  rw [hi]
  exact h

theorem used_of_full (hb : a.bitmap w = BitVec.allOnes 64) (hi : i / 64 = w) :
    bpTest a i = true := by
  unfold bpTest WordMap.test
  rw [hi, hb, BitVec.getLsbD_allOnes]
  exact decide_eq_true (Nat.mod_lt i (by decide))

theorem bpProbe_none (hw : wadd a.hint w = a.hint + w) (h : bpProbe a w = none)
    (hi : i < a.blockCount) (hword : i / 64 = (a.hint + w) % a.words) : bpTest a i = true := by
  unfold bpProbe at h
  dsimp only at h
  rw [hw, ← hword] at h
  split at h
  · next hb => exact used_of_full hb rfl
  · next hb =>
    split at h
    · next hle => exact used_below hb rfl (by omega)
    · exact absurd h (by simp)

theorem bpProbe_some (hw : wadd a.hint w = a.hint + w) (h : bpProbe a w = some idx) :
    idx < a.blockCount ∧ bpTest a idx = false ∧ (∀ i < idx, i / 64 = idx / 64 → bpTest a i = true)
      ∧ idx / 64 = (a.hint + w) % a.words := by
  unfold bpProbe at h
  dsimp only at h
  rw [hw] at h
  generalize (a.hint + w) % a.words = wi at h ⊢
  split at h
  · exact absurd h (by simp)
  · next hb =>
    obtain ⟨h64, hzero, -⟩ := lowestZero_spec hb
    split at h
    · exact absurd h (by simp)
    · next hlt =>
      obtain rfl := Option.some.inj h
      have hdiv : (wi * 64 + lowestZero (a.bitmap wi)) / 64 = wi := by omega
      refine ⟨by omega, ?_, ?_, hdiv⟩
      · rw [bpTest_word a wi h64]
        exact hzero
      · intro i hi hword
        rw [hdiv] at hword
        exact used_below hb hword hi

/-! ## all words -/

theorem Tidy.small (h : Tidy a) : a.blockCount < 2 ^ 60 := by
  have h1 : 16 * a.blockCount ≤ a.blockSize * a.blockCount :=
    Nat.mul_le_mul_right _ (Nat.le_of_dvd h.pos.1 h.size)
  have := h.room
  have := h.pos.2
  omega

/-- the sum of the cursor and the round does not wrap -/
theorem Tidy.turn (h : Tidy a) (hw : w < a.words) : wadd a.hint w = a.hint + w := by
  have h1 := h.small
  have h2 := h.words
  have h3 := h.hint
  exact wadd_of_lt (by omega)

/-- **The search finds nothing only if all blocks are used.** -/
theorem bpFind_none_iff (h : Tidy a) :
    bpFind a = none ↔ ∀ i < a.blockCount, bpTest a i = true := by
  unfold bpFind
  rw [List.findSome?_eq_none_iff]
  constructor
  · intro hnone i hi
    have hword : i / 64 < a.words := by
      have := h.words
      omega
    obtain ⟨w, hw, e⟩ := exists_turn h.hint hword
    exact bpProbe_none (h.turn hw) (hnone w (List.mem_range.mpr hw)) hi e.symm
  · intro hall w hw
    have hw := List.mem_range.mp hw
    cases hp : bpProbe a w with
    | none => rfl
    | some idx =>
      obtain ⟨h1, h2, -⟩ := bpProbe_some (h.turn hw) hp
      rw [hall idx h1] at h2
      exact absurd h2 (by simp)

/-- in one state only one block is the first -/
theorem FirstFree.unique {j : Nat} (h : FirstFree a idx) (h' : FirstFree a j) : idx = j := by
  obtain ⟨w, hw, e, hbefore⟩ := h.first
  obtain ⟨w', hw', e', hbefore'⟩ := h'.first
  -- neither word comes before the other
  have hww : w = w' := by
    rcases Nat.lt_trichotomy w w' with hlt | heq | hgt
    · have := hbefore' w hlt idx h.lt e
      rw [h.free] at this
      exact absurd this (by simp)
    · exact heq
    · have := hbefore w' hgt j h'.lt e'
      rw [h'.free] at this
      exact absurd this (by simp)
  have hword : idx / 64 = j / 64 := by rw [e, e', hww]
  rcases Nat.lt_trichotomy idx j with hlt | heq | hgt
  · have := h'.lowest idx hlt hword
    rw [h.free] at this
    exact absurd this (by simp)
  · exact heq
  · have := h.lowest j hgt hword.symm
    rw [h'.free] at this
    exact absurd this (by simp)

theorem bpFind_firstFree (h : Tidy a) (hf : bpFind a = some idx) : FirstFree a idx := by
  obtain ⟨w, hw, hp, hbefore⟩ := findSome?_range_eq_some.mp hf
  obtain ⟨h1, h2, h3, h4⟩ := bpProbe_some (h.turn hw) hp
  refine ⟨h1, h2, h3, w, hw, h4, ?_⟩
  intro v hv i hi hword
  exact bpProbe_none (h.turn (by omega)) (hbefore v hv) hi hword

/-- **The search finds the first free block.** -/
theorem bpFind_some_iff (h : Tidy a) : bpFind a = some idx ↔ FirstFree a idx := by
  constructor
  · intro hf
    exact bpFind_firstFree h hf
  · intro hfirst
    cases hf : bpFind a with
    | none =>
      have := (bpFind_none_iff h).mp hf idx hfirst.lt
      rw [hfirst.free] at this
      exact absurd this (by simp)
    | some j => rw [(bpFind_firstFree h hf).unique hfirst]

/-! ## the calls -/

theorem Tidy.addr (h : Tidy a) (hi : idx < a.blockCount) :
    bpAddr a idx = a.mem + idx * a.blockSize ∧ 0 < bpAddr a idx
      ∧ bpAddr a idx + a.blockSize ≤ a.mem + a.blockSize * a.blockCount := by
  have h1 : (idx + 1) * a.blockSize ≤ a.blockCount * a.blockSize := Nat.mul_le_mul_right _ hi
  have h2 := h.room
  have h3 := h.pos
  rw [Nat.add_mul, Nat.one_mul, Nat.mul_comm a.blockCount] at h1
  have e : bpAddr a idx = a.mem + idx * a.blockSize := by
    unfold bpAddr
    rw [wmul_of_lt (by omega), wadd_of_lt (by omega)]
  rw [e]
  exact ⟨rfl, by omega, by omega⟩

theorem bpAllocate_refused (h : Tidy a)
    (hno : a.blockSize < size ∨ ∀ i < a.blockCount, bpTest a i = true) :
    bpAllocate a size alignment = (0, countFailed (countAlloc a)) := by
  unfold bpAllocate
  dsimp only
  split
  · rfl
  · next hle =>
    have hall := hno.resolve_left (show ¬ a.blockSize < size from hle)
    rw [show bpFind (countAlloc a) = none from (bpFind_none_iff h).mpr hall]

theorem bpAllocate_first (h : Tidy a) (hs : size ≤ a.blockSize)
    (hf : FirstFree a idx) : bpAllocate a size alignment
      = (bpAddr a idx, bpTake (countAlloc a) idx) := by
  unfold bpAllocate
  dsimp only
  rw [if_neg (show ¬ size > (countAlloc a).blockSize from Nat.not_lt.mpr hs),
    show bpFind (countAlloc a) = some idx from (bpFind_some_iff h).mpr hf]
  rfl

/-- a request of at most a block finds a block, unless all are used -/
theorem exists_firstFree (h : Tidy a)
    (hsome : ¬ ∀ i < a.blockCount, bpTest a i = true) : ∃ idx, FirstFree a idx := by
  cases hf : bpFind a with
  | none => exact absurd ((bpFind_none_iff h).mp hf) hsome
  | some idx => exact ⟨idx, bpFind_firstFree h hf⟩

/-- **When a request is refused.** -/
theorem bpAllocate_null_iff (h : Tidy a) :
    (bpAllocate a size alignment).1 = 0
    ↔ a.blockSize < size ∨ ∀ i < a.blockCount, bpTest a i = true := by
  constructor
  · intro h0
    by_contra hno
    obtain ⟨hsize, hsome⟩ := not_or.mp hno
    obtain ⟨idx, hfirst⟩ := exists_firstFree h hsome
    rw [bpAllocate_first h (by omega) hfirst] at h0
    exact absurd h0 (h.addr hfirst.lt).2.1.ne'
  · intro hno
    rw [bpAllocate_refused h hno]

theorem bpDeallocate_addr (h : Tidy a) (hi : i < a.blockCount) (hu : bpTest a i = true) :
    bpDeallocate a (bpAddr a i) = some (bpGive a i) := by
  obtain ⟨e, hpos, hend⟩ := h.addr hi
  have hroom := h.room
  have hoff : wsub (bpAddr a i) a.mem = i * a.blockSize := by
    have h1 := h.pos.1
    rw [wsub_of_le (by omega) (by omega), e, Nat.add_sub_cancel_left]
  unfold bpDeallocate
  dsimp only
  rw [if_neg hpos.ne', hoff, Nat.mul_mod_left, if_pos rfl, Nat.mul_div_cancel i h.pos.1,
    if_pos ⟨hi, hu⟩]

/-- **A block that is given back to a full pool is the first free one.** -/
theorem firstFree_give (h : Tidy a) (hall : ∀ j < a.blockCount, bpTest a j = true)
    (hi : i < a.blockCount) :
    FirstFree (bpGive a i) i := by
  have htest : ∀ j, bpTest (bpGive a i) j = (!decide (j = i) && bpTest a j) :=
    WordMap.test_clear (by decide) a.bitmap i
  have hword : i / 64 < a.words := by
    have := h.words
    omega
  refine ⟨hi, ?_, ?_, 0, by show 0 < a.words; omega, ?_, ?_⟩
  · rw [htest, decide_eq_true rfl]
    rfl
  · intro j hj _
    rw [htest, decide_eq_false (by omega), hall j (by omega)]
    rfl
  · show i / 64 = (i / 64 + 0) % a.words
    rw [Nat.add_zero, Nat.mod_eq_of_lt hword]
  · intro v hv
    exact absurd hv (Nat.not_lt_zero v)

/-! ## runs -/

theorem Tidy.take (h : Tidy a) (hi : idx < a.blockCount) : Tidy (bpTake (countAlloc a) idx) := by
  refine ⟨h.words, ?_, ?_, h.size, h.pos, h.room⟩
  · show idx / 64 < a.words
    have := h.words
    omega
  · intro i hle
    have hle' : a.blockCount ≤ i := hle
    show (a.bitmap.set idx).test i = false
    rw [WordMap.test_set (by decide), decide_eq_false (by omega)]
    exact h.clear i hle'

theorem Tidy.give (h : Tidy a) (hi : idx < a.blockCount) : Tidy (bpGive a idx) := by
  refine ⟨h.words, ?_, ?_, h.size, h.pos, h.room⟩
  · show idx / 64 < a.words
    have := h.words
    omega
  · intro i hle
    have hclear : a.bitmap.test i = false := h.clear i hle
    show (a.bitmap.clear idx).test i = false
    rw [WordMap.test_clear (by decide), hclear, Bool.and_false]

theorem Tidy.step (h : Tidy a) (hs : BpStep a act a') : Tidy a' := by
  cases hs with
  | alloc size alignment =>
    rcases bpAllocate_cases a size alignment with he | ⟨idx, hi, -, -, he⟩
    · rw [he]
      exact ⟨h.words, h.hint, h.clear, h.size, h.pos, h.room⟩
    · rw [he]
      exact h.take hi
  | free hr =>
    rcases bpDeallocate_cases hr with rfl | ⟨idx, hi, -, rfl⟩
    · exact h
    · exact h.give hi
  | write x v => exact ⟨h.words, h.hint, h.clear, h.size, h.pos, h.room⟩

theorem Tidy.create {handle bits : Bool} {m : Mem} {blockSize blockCount : Nat}
    (h : hfBlockPoolCreate vm handle bits m blockSize blockCount = some a) (hfit : Fits a) :
    Tidy a := by
  obtain ⟨-, h16, hpos, -⟩ := BpInv.create h
  obtain ⟨bs, bytes, -, hbytes, hmem, rfl⟩ := hfBlockPoolCreate_eq h
  have hfit' : bs * blockCount < 2 ^ 64 := hfit
  have hpos' : 0 < bs ∧ 0 < blockCount := hpos
  have hcount : 16 * blockCount ≤ bs * blockCount :=
    Nat.mul_le_mul_right _ (Nat.le_of_dvd hpos'.1 h16)
  rw [wmul_of_lt hfit'] at hbytes
  obtain ⟨-, hend, hb0⟩ := hfVmReserve_spec vm (hbytes ▸ vm.alignPage_lt _)
    (hbytes ▸ vm.alignPage_dvd _) hmem
  have hle : bs * blockCount ≤ bytes := by
    by_cases hw : bs * blockCount + (vm.pageSize - 1) < 2 ^ 64
    · rw [hbytes]
      exact (vm.alignPage hw).1
    · have h0 := vm.alignPage_wrap hfit' (by omega)
      omega
  have hwords : wadd blockCount 63 = blockCount + 63 := wadd_of_lt (by omega)
  refine ⟨by rw [hwords], ?_, fun i _ => by simp [bpTest, WordMap.test], h16,
    ⟨hpos'.1, Nat.pos_of_ne_zero hmem⟩, ?_⟩
  · show 0 < wadd blockCount 63 / 64
    omega
  · show hfVmReserve vm bytes + bs * blockCount ≤ 2 ^ 64
    omega

theorem Tidy.of_run {a₀ : BpAlloc} {acts : List BpAct} (h : Tidy a₀)
    (hrun : Steps BpStep a₀ acts a) : Tidy a :=
  hrun.invariant (I := Tidy) h fun _ _ _ h hs => h.step hs

end

end HeapForge.BlockPool
