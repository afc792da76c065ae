import HeapForge.CPool.Restart
import Mathlib.Data.List.Find
import Mathlib.Data.List.Nodup

/-!
# Which bit an allocation marks

The scan and the returned index have 64 bits, the record has 32.  `allocateIn region`, `freeIn
region` are the two calls on a mapping with `region` bytes from the start of the bitmap on; they
fault where they look at a bit outside.

* `marks_iff_fits`   the block found is marked exactly if its index has 32 bits and its bit is
                     there;
* `clears_iff`       the same for a free;
* `distinct_iff`     successive allocations return different blocks exactly if all but the last have
                     indices of 32 bits;
* `Counted`          in every reachable state the counter agrees with the bitmap, so it never wraps;
* `marks_iff`        **all of it, for every pool.**
-/

set_option linter.unusedSectionVars false
set_option linter.unusedVariables false

namespace HeapForge.CPool
open Lib

/-- the first block whose bit is clear or outside the mapping -/
def scan (region : Nat) (p : Pool) : Option Nat :=
  (List.range p.blockCount).find? fun i => decide (region ≤ i / 8) || !p.img.bitmap.test i

def allocateIn (region : Nat) (p : Pool) : Option (Pool × Option Nat) :=
  match scan region p with
  | none => some (p, none)
  | some i => if region ≤ i / 8 then none else some (commit p WAL_OP_ALLOC (i % 2 ^ 32), some i)

def freeIn (region : Nat) (p : Pool) (index : Nat) : Option Pool :=
  if index < p.blockCount ∧ region ≤ index / 8 then none else some (hfPoolFree p index)

/-- the call returns block `i`, the first whose bit was clear; then that bit is set and no other
changed, and the counter went up by one -/
def Marks (region : Nat) (p : Pool) (i : Nat) : Prop :=
  ∃ q, allocateIn region p = some (q, some i)
    ∧ p.img.bitmap.test i = false ∧ (∀ j, j < i → p.img.bitmap.test j = true)
    ∧ (∀ j, q.img.bitmap.test j = (decide (j = i) || p.img.bitmap.test j))
    ∧ q.usedBlocks = (p.usedBlocks + 1) % 2 ^ 64

/-- the free of `i` clears its bit and no other -/
def Clears (region : Nat) (p : Pool) (i : Nat) : Prop :=
  ∃ q, freeIn region p i = some q
    ∧ ∀ j, q.img.bitmap.test j = (!decide (j = i) && p.img.bitmap.test j)

/-- an allocation that returns block `i` -/
def Returns (region : Nat) (p : Pool) (i : Nat) (q : Pool) : Prop :=
  allocateIn region p = some (q, some i)

section
variable {p q : Pool} {region i n : Nat} {is : List Nat}

theorem scan_eq_some : scan region p = some i ↔ i < p.blockCount
    ∧ (region ≤ i / 8 ∨ p.img.bitmap.test i = false)
    ∧ ∀ j, j < i → j / 8 < region ∧ p.img.bitmap.test j = true := by
  unfold scan
  rw [List.find?_range_eq_some, List.mem_range]
  simp only [Bool.or_eq_true, decide_eq_true_eq, Bool.not_eq_true', Bool.not_or, Bool.and_eq_true,
    Bool.not_not, decide_eq_false_iff_not, Nat.not_le]
  tauto

/-- on a mapping that holds all bits the calls are those of the model -/
theorem allocateIn_of_inside (h : p.blockCount ≤ 8 * region) :
    allocateIn region p = some (hfPoolAllocate p) := by
  have hscan : scan region p = firstFree p := by
    unfold scan firstFree
    apply List.find?_congr
    intro i hi
    rw [decide_eq_false (by have := List.mem_range.mp hi; omega), Bool.false_or]
  unfold allocateIn hfPoolAllocate allocateOp
  rw [hscan]
  cases hf : firstFree p with
  | none => rfl
  | some i =>
    have hi : i < p.blockCount := List.mem_range.mp (List.mem_of_find?_eq_some hf)
    dsimp only
    rw [if_neg (by omega)]
    rfl

theorem freeIn_of_inside (h : p.blockCount ≤ 8 * region) :
    freeIn region p i = some (hfPoolFree p i) := by
  unfold freeIn
  rw [if_neg (by omega)]

/-! ## one commit -/

theorem commit_bitmap (p : Pool) (op index : Nat) :
    (commit p op index).img.bitmap = p.img.bitmap.put index (decide (op = WAL_OP_ALLOC)) :=
  applyOp_bitmap _ _ _

theorem commit_blockCount (p : Pool) (op index : Nat) :
    (commit p op index).blockCount = p.blockCount :=
  applyOp_blockCount _ _ _

theorem commit_used (h : p.img.bitmap.test i = false) :
    (commit p WAL_OP_ALLOC i).usedBlocks = (p.usedBlocks + 1) % 2 ^ 64 := by
  show (applyOp (walAppend (takeSeq p) p.nextSeq WAL_OP_ALLOC i) WAL_OP_ALLOC i).usedBlocks = _
  unfold applyOp
  rw [if_pos rfl, if_neg]
  · rfl
  · show ¬ p.img.bitmap.test i = true
    rw [h]
    decide

/-- the record names a bit that is set already -/
theorem commit_idle (h : p.img.bitmap.test i = true) :
    (commit p WAL_OP_ALLOC i).img.bitmap = p.img.bitmap
      ∧ (commit p WAL_OP_ALLOC i).usedBlocks = p.usedBlocks := by
  have hidle : applyOp (walAppend (takeSeq p) p.nextSeq WAL_OP_ALLOC i) WAL_OP_ALLOC i
      = walAppend (takeSeq p) p.nextSeq WAL_OP_ALLOC i := applyOp_idle (iff_of_true rfl h)
  constructor
  · show (applyOp (walAppend (takeSeq p) p.nextSeq WAL_OP_ALLOC i) WAL_OP_ALLOC i).img.bitmap = _
    rw [hidle]
    rfl
  · show (applyOp (walAppend (takeSeq p) p.nextSeq WAL_OP_ALLOC i) WAL_OP_ALLOC i).usedBlocks = _
    rw [hidle]
    rfl

theorem returns_iff : Returns region p i q ↔ scan region p = some i ∧ i / 8 < region
    ∧ q = commit p WAL_OP_ALLOC (i % 2 ^ 32) := by
  unfold Returns allocateIn
  cases hs : scan region p with
  | none =>
    refine iff_of_false (fun h => ?_) (fun h => ?_)
    · cases h
    · cases h.1
  | some k =>
    dsimp only
    by_cases hk : region ≤ k / 8
    · rw [if_pos hk]
      refine iff_of_false (fun h => ?_) (fun h => ?_)
      · cases h
      · cases h.1
        omega
    · rw [if_neg hk]
      constructor
      · intro h
        cases h
        exact ⟨rfl, by omega, rfl⟩
      · intro h
        obtain ⟨h1, -, rfl⟩ := h
        cases h1
        rfl

theorem marks_iff_fits (hs : scan region p = some i) : Marks region p i
    ↔ i < 2 ^ 32 ∧ i / 8 < region := by
  obtain ⟨hlt, hopen, hbelow⟩ := scan_eq_some.mp hs
  constructor
  · rintro ⟨q, hq, hclear, -, hbits, -⟩
    obtain ⟨-, hin, rfl⟩ := returns_iff.mp hq
    refine ⟨?_, hin⟩
    by_contra hbig
    -- the record names a smaller index, so bit `i` is as it was
    have hne : i ≠ i % 2 ^ 32 := by omega
    have h1 := hbits i
    rw [commit_bitmap, Bitmap.test_put, if_neg hne, hclear] at h1
    simp at h1
  · rintro ⟨hfit, hin⟩
    have hclear : p.img.bitmap.test i = false := hopen.resolve_left (by omega)
    have hmod : i % 2 ^ 32 = i := Nat.mod_eq_of_lt hfit
    refine ⟨commit p WAL_OP_ALLOC i, returns_iff.mpr ⟨hs, hin, by rw [hmod]⟩, hclear,
      fun j hj => (hbelow j hj).2, fun j => ?_, commit_used hclear⟩
    rw [commit_bitmap, Bitmap.test_put]
    by_cases hj : j = i
    · rw [if_pos hj, decide_eq_true hj]
      rfl
    · rw [if_neg hj, decide_eq_false hj]
      rfl

theorem clears_iff (hi : i < p.blockCount) (hin : i / 8 < region)
    (ht : p.img.bitmap.test i = true) :
    Clears region p i ↔ i < 2 ^ 32 := by
  have hfree : freeIn region p i = some (commit p WAL_OP_FREE (i % 2 ^ 32)) := by
    unfold freeIn hfPoolFree freeOp
    rw [if_neg (by omega), if_pos ⟨hi, ht⟩]
    rfl
  unfold Clears
  rw [hfree]
  constructor
  · rintro ⟨q, hq, hbits⟩
    cases hq
    by_contra hbig
    have hne : i ≠ i % 2 ^ 32 := by omega
    have h1 := hbits i
    rw [commit_bitmap, Bitmap.test_put, if_neg hne, ht] at h1
    simp at h1
  · intro hfit
    refine ⟨_, rfl, fun j => ?_⟩
    rw [Nat.mod_eq_of_lt hfit, commit_bitmap, Bitmap.test_put]
    by_cases hj : j = i
    · rw [if_pos hj, decide_eq_true hj]
      rfl
    · rw [if_neg hj, decide_eq_false hj]
      rfl

/-! ## allocations in a row -/

/-- after allocations that returned `is`: all are marked, or one is not and is found again -/
def Row (region : Nat) (is : List Nat) (q : Pool) : Prop :=
  (is.Nodup ∧ ∀ i ∈ is, i < 2 ^ 32 ∧ q.img.bitmap.test i = true)
    ∨ ∃ i ∈ is, 2 ^ 32 ≤ i ∧ scan region q = some i

/-- an index beyond 32 bits is found again: the bit that the record names is set already -/
theorem scan_again (hs : scan region p = some i) (hi : 2 ^ 32 ≤ i) :
    scan region (commit p WAL_OP_ALLOC (i % 2 ^ 32)) = some i := by
  obtain ⟨-, -, hbelow⟩ := scan_eq_some.mp hs
  have hset : p.img.bitmap.test (i % 2 ^ 32) = true := (hbelow _ (by omega)).2
  unfold scan
  rw [(commit_idle hset).1, commit_blockCount]
  exact hs

theorem not_mem_of_marked (hs : scan region p = some i) (hin : i / 8 < region)
    (hall : ∀ j ∈ is, j < 2 ^ 32 ∧ p.img.bitmap.test j = true) : i ∉ is := by
  obtain ⟨-, hopen, -⟩ := scan_eq_some.mp hs
  intro hm
  rw [(hall i hm).2] at hopen
  rcases hopen with h | h
  · omega
  · cases h

theorem Row.step (h : Row region is p) (hr : Returns region p i q) : Row region (is ++ [i]) q := by
  obtain ⟨hs, hin, rfl⟩ := returns_iff.mp hr
  rcases h with ⟨hnd, hall⟩ | ⟨k, hk, hbig, hscan⟩
  · by_cases hi : i < 2 ^ 32
    · have hnew := not_mem_of_marked hs hin hall
      refine Or.inl ⟨?_, fun j hj => ?_⟩
      · rw [← List.concat_eq_append]
        exact hnd.concat hnew
      · rw [Nat.mod_eq_of_lt hi, commit_bitmap, Bitmap.test_put]
        rcases List.mem_append.mp hj with hj | hj
        · refine ⟨(hall j hj).1, ?_⟩
          rw [(hall j hj).2]
          split <;> rfl
        · rw [List.mem_singleton.mp hj, if_pos rfl]
          exact ⟨hi, rfl⟩
    · have hi' : 2 ^ 32 ≤ i := by omega
      exact Or.inr ⟨i, List.mem_append_right _ List.mem_cons_self, hi', scan_again hs hi'⟩
  · obtain rfl : i = k := Option.some.inj (hs.symm.trans hscan)
    exact Or.inr ⟨i, List.mem_append_left _ hk, hbig, scan_again hs hbig⟩

theorem distinct_iff (hrun : Steps (Returns region) p is q) : is.Nodup
    ↔ ∀ i ∈ is.dropLast, i < 2 ^ 32 := by
  cases hrun with
  | nil => exact iff_of_true List.nodup_nil fun i hi => absurd hi List.not_mem_nil
  | snoc h hr =>
    rename_i r as i
    have hrow : Row region as r := h.invariant_trace (I := Row region)
      (Or.inl ⟨List.nodup_nil, fun i hi => absurd hi List.not_mem_nil⟩) fun _ _ _ _ h
        hr => h.step hr
    obtain ⟨hs, hin, -⟩ := returns_iff.mp hr
    rw [List.dropLast_concat]
    rcases hrow with ⟨hnd, hall⟩ | ⟨k, hk, hbig, hscan⟩
    · refine iff_of_true ?_ fun j hj => (hall j hj).1
      rw [← List.concat_eq_append]
      exact hnd.concat (not_mem_of_marked hs hin hall)
    · obtain rfl : i = k := Option.some.inj (hs.symm.trans hscan)
      refine iff_of_false (fun hnd => ?_) (fun hall => absurd (hall i hk) (by omega))
      rw [← List.concat_eq_append, List.nodup_concat] at hnd
      exact hnd.1 hk

/-! ## the counter in every reachable state -/

/-- every record that recovery would replay is one of a block -/
def LogIn (n : Nat) (img : Image) : Prop := ∀ j, (img.wal j).Valid → (img.wal j).index < n

def Counted (n : Nat) (s : Sys) : Prop :=
  match s.phase with
  | .closed img => LogIn n img
  | .running p => p.blockCount = n ∧ LogIn n p.img ∧ InStep p

variable {img img' : Image} {op index seq : Nat} {s s' : Sys} {act : Act}

theorem LogIn.congr (h : LogIn n img) (hw : img'.wal = img.wal) : LogIn n img' := by
  intro j
  rw [hw]
  exact h j

theorem LogIn.update (h : LogIn n img) (j : Nat) (e : WalEntry) (he : e.Valid → e.index < n)
    (hw : img'.wal = Function.update img.wal j e) : LogIn n img' := by
  intro k
  rw [hw]
  by_cases hk : k = j
  · subst hk
    rw [Function.update_self]
    exact he
  · rw [Function.update_of_ne hk]
    exact h k

theorem LogIn.records (h : LogIn n img) {e : WalEntry} (he : e ∈ records img) : e.index < n := by
  obtain ⟨k, -, hk⟩ := List.mem_filterMap.mp he
  obtain ⟨rfl, -, hv⟩ := record_eq_some.mp hk
  exact h _ hv

theorem commit_wal (p : Pool) (op index : Nat) : (commit p op index).img.wal
    = Function.update p.img.wal (p.nextSeq % WAL_ENTRIES) (mkWal p.nextSeq op index) :=
  applyOp_wal _ _ _

theorem InStep.commit (h : InStep p) (hn : p.blockCount < 2 ^ 64) (hi : index < p.blockCount) :
    InStep (commit p op index) := by
  have h' : InStep (walAppend (takeSeq p) p.nextSeq op index) := h
  exact h'.applyOp hn hi

/-- the operations that are committed are on blocks -/
theorem allocateOp_block (h : allocateOp p = some (op, index)) : index < p.blockCount := by
  obtain ⟨i, hi, he⟩ := Option.map_eq_some_iff.mp h
  cases he
  exact List.mem_range.mp (List.mem_of_find?_eq_some hi)

theorem freeOp_block (h : freeOp p i = some (op, index)) : index < p.blockCount := by
  unfold freeOp at h
  split at h
  · rename_i hc
    cases h
    exact hc.1
  · cases h

theorem counted_commitOp {o : Option (Nat × Nat)} (hn : n < 2 ^ 64) (hc : p.blockCount = n)
    (hl : LogIn n p.img) (hu : InStep p)
    (ho : ∀ op index, o = some (op, index) → index < p.blockCount) :
    (commitOp p o).blockCount = n ∧ LogIn n (commitOp p o).img ∧ InStep (commitOp p o) := by
  cases o with
  | none => exact ⟨hc, hl, hu⟩
  | some x =>
    have hx : x.2 % 2 ^ 32 < p.blockCount := lt_of_le_of_lt (Nat.mod_le _ _) (ho x.1 x.2 rfl)
    refine ⟨(commit_blockCount _ _ _).trans hc, ?_, hu.commit (hc ▸ hn) hx⟩
    exact hl.update _ _ (fun _ => hc ▸ hx) (commit_wal _ _ _)

theorem logIn_opCrash {o : Option (Nat × Nat)} (hl : LogIn p.blockCount p.img)
    (ho : ∀ op index, o = some (op, index) → index < p.blockCount) (h : OpCrash p o img) :
    LogIn p.blockCount img := by
  cases h with
  | idle => exact hl
  | commit h =>
    rename_i op i
    have hi : i % 2 ^ 32 < p.blockCount := lt_of_le_of_lt (Nat.mod_le _ _) (ho op i rfl)
    cases h with
    | before => exact hl
    | tornWal e he => exact hl.update _ e (fun hv => absurd hv he) rfl
    | afterWal => exact hl.update _ _ (fun _ => hi) rfl
    | afterByte => exact hl.update _ _ (fun _ => hi) (applyOp_wal _ _ _)
    | tornMeta m hm => exact hl.update _ _ (fun _ => hi) (applyOp_wal _ _ _)
    | afterMeta => exact hl.update _ _ (fun _ => hi) (commit_wal _ _ _)

theorem logIn_recoverCrash (hl : LogIn n img) (h : RecoverCrash (handle n img) img') :
    LogIn n img' := by
  cases h with
  | bitmap b hb => exact hl.congr rfl
  | tornMeta m hm hr => exact hl.congr (replayAll_fields (handle n img)).1
  | afterMeta => exact hl.congr (recover_wal (handle n img))

theorem Counted.created (hn : 0 < n) : Counted n (Sys.created n) := by
  refine ⟨rfl, fun j hj => hn, ?_⟩
  show 0 = (List.range n).countP Bitmap.empty.test
  symm
  rw [List.countP_eq_zero]
  intro i _
  unfold Bitmap.test Bitmap.empty
  simp

theorem Counted.step (h : Counted n s) (hn : n < 2 ^ 64) (hs : Step n s act s') : Counted n s' := by
  cases hs with
  | openPool img last pend =>
    have hl : LogIn n img := h
    refine ⟨recover_blockCount _, hl.congr (recover_wal _), ?_⟩
    have hu := recover_used (p := handle n img) hn fun e he => hl.records he
    show (hfPoolOpen n img).usedBlocks
      = (hfPoolOpen n img).img.bitmap.count (hfPoolOpen n img).blockCount
    rw [show (hfPoolOpen n img).blockCount = n from recover_blockCount _]
    exact hu
  | openCrash img img' last pend hc => exact logIn_recoverCrash h hc
  | allocate p last pend =>
    obtain ⟨h1, h2, h3⟩ := h
    exact counted_commitOp hn h1 h2 h3 fun _ _ ho => allocateOp_block ho
  | allocateCrash p img last pend hc =>
    obtain ⟨rfl, h2, -⟩ := h
    exact logIn_opCrash h2 (fun _ _ ho => allocateOp_block ho) hc
  | free p i last pend =>
    obtain ⟨h1, h2, h3⟩ := h
    exact counted_commitOp hn h1 h2 h3 fun _ _ ho => freeOp_block ho
  | freeCrash p i img last pend hc =>
    obtain ⟨rfl, h2, -⟩ := h
    exact logIn_opCrash h2 (fun _ _ ho => freeOp_block ho) hc
  | close p last pend => exact h.2.1
  | crash p last pend => exact h.2.1

/-- a block is free, so the counter is below the largest number -/
theorem InStep.used_lt (h : InStep p) (hn : p.blockCount < 2 ^ 64) (hi : i < p.blockCount)
    (hc : p.img.bitmap.test i = false) : p.usedBlocks + 1 < 2 ^ 64 := by
  have hcount := Bitmap.count_put p.img.bitmap true hi
  have hle := (p.img.bitmap.put i true).count_le p.blockCount
  unfold InStep at h
  rw [hc] at hcount
  simp only [Bool.toNat_false, Bool.toNat_true] at hcount
  omega

/-- **What allocations and frees mark.**  For every pool, in any state, on a mapping that the
creation could write: the block found is marked, and a block that is freed is cleared, exactly if
its index has 32 bits and its bit is inside the mapping (which it is unless `block_count + 7`
wraps); allocations in a row return different blocks exactly if all but the last have such indices;
and in every state that runs with crashes reach the counter goes up without wrapping.  On a mapping
that holds all bits the calls are those of the model. -/
theorem marks_iff (p : Pool) (region : Nat) (hn : p.blockCount < 2 ^ 64)
    (hreg : (p.blockCount + 7) % 2 ^ 64 / 8 ≤ region) :
    (∀ i, scan region p = some i →
      (Marks region p i ↔ i < 2 ^ 32 ∧ (2 ^ 64 ≤ p.blockCount + 7 → i / 8 < region)))
    ∧ (∀ i, i < p.blockCount → i / 8 < region → p.img.bitmap.test i = true →
      (Clears region p i ↔ i < 2 ^ 32))
    ∧ (∀ is q, Steps (Returns region) p is q → (is.Nodup ↔ ∀ i ∈ is.dropLast, i < 2 ^ 32))
    ∧ (∀ acts last pend,
      Steps (Step p.blockCount) (Sys.created p.blockCount) acts ⟨.running p, last, pend⟩ →
      ∀ i, i < p.blockCount → p.img.bitmap.test i = false →
        (p.usedBlocks + 1) % 2 ^ 64 = p.usedBlocks + 1)
    ∧ (p.blockCount ≤ 8 * region → allocateIn region p = some (hfPoolAllocate p)
      ∧ ∀ i, freeIn region p i = some (hfPoolFree p i)) := by
  refine ⟨fun i hs => ?_, fun i hi hin ht => clears_iff hi hin ht,
    fun is q hrun => distinct_iff hrun, fun acts last pend hrun i hi hc => ?_,
    fun h => ⟨allocateIn_of_inside h, fun i => freeIn_of_inside h⟩⟩
  · have hi := (scan_eq_some.mp hs).1
    rw [marks_iff_fits hs]
    refine and_congr_right fun _ => ⟨fun h _ => h, fun h => ?_⟩
    by_cases hwrap : 2 ^ 64 ≤ p.blockCount + 7
    · exact h hwrap
    · omega
  · have hcount : Counted p.blockCount ⟨.running p, last, pend⟩ :=
      hrun.invariant (Counted.created (by omega)) fun _ _ _ h hs => h.step hn hs
    exact Nat.mod_eq_of_lt (hcount.2.2.used_lt hn hi hc)

/-- the pool after the first `k` allocations -/
theorem fill (n region : Nat) (hreg : n ≤ 8 * region) (k : Nat) (hkn : k ≤ n) (hk : k ≤ 2 ^ 32) :
    ∃ is p, Steps (Returns region) (created n) is p ∧ p.blockCount = n
      ∧ ∀ j, p.img.bitmap.test j = decide (j < k) := by
  induction k with
  | zero =>
    refine ⟨[], created n, Steps.nil _, rfl, fun j => ?_⟩
    show Bitmap.empty.test j = false
    unfold Bitmap.test Bitmap.empty
    simp
  | succ k ih =>
    obtain ⟨is, p, hrun, hc, hbits⟩ := ih (by omega) (by omega)
    have hs : scan region p = some k := by
      rw [scan_eq_some, hc, hbits k]
      refine ⟨by omega, Or.inr (decide_eq_false (lt_irrefl k)), fun j hj => ⟨by omega, ?_⟩⟩
      rw [hbits j]
      exact decide_eq_true hj
    refine ⟨_, _, hrun.snoc (returns_iff.mpr ⟨hs, by omega, rfl⟩),
      (commit_blockCount _ _ _).trans hc, fun j => ?_⟩
    rw [commit_bitmap, Bitmap.test_put, Nat.mod_eq_of_lt (by omega), hbits j]
    by_cases hj : j = k
    · rw [if_pos hj, decide_eq_true (show j < k + 1 by omega)]
      rfl
    · rw [if_neg hj]
      exact decide_eq_decide.mpr (by omega)

end

theorem marks_iff_created : Marks 4096 (created 8) 0 := by
  have h := (marks_iff (created 8) 4096 (by decide) (by decide)).1 0 (by decide +kernel)
  exact h.mpr ⟨by decide, fun hc => absurd hc (by decide)⟩

/-- **A pool of `2^32 + 1` blocks of 16 bytes after `2^32` allocations**, on pages of 4096 bytes:
the next call returns block `2^32` and neither marks nor counts it, and the call after it returns it
again. -/
theorem block_returned_twice :
    ∃ is p q r, Steps (Returns (2 ^ 36 + 2 ^ 29 + 8192)) (created (2 ^ 32 + 1)) is p
      ∧ Returns (2 ^ 36 + 2 ^ 29 + 8192) p (2 ^ 32) q ∧ q.img.bitmap.test (2 ^ 32) = false
      ∧ q.usedBlocks = p.usedBlocks ∧ Returns (2 ^ 36 + 2 ^ 29 + 8192) q (2 ^ 32) r := by
  obtain ⟨is, p, hrun, hc, hbits⟩ := fill (2 ^ 32 + 1) (2 ^ 36 + 2 ^ 29 + 8192) (by omega)
    (2 ^ 32) (by omega) (by omega)
  have hs : scan (2 ^ 36 + 2 ^ 29 + 8192) p = some (2 ^ 32) := by
    rw [scan_eq_some, hc, hbits]
    refine ⟨by omega, Or.inr (decide_eq_false (lt_irrefl _)), fun j hj => ⟨by omega, ?_⟩⟩
    rw [hbits j]
    exact decide_eq_true hj
  have hzero : p.img.bitmap.test (2 ^ 32 % 2 ^ 32) = true := by
    rw [hbits]
    decide
  refine ⟨is, p, _, _, hrun, returns_iff.mpr ⟨hs, by omega, rfl⟩, ?_, (commit_idle hzero).2,
    returns_iff.mpr ⟨scan_again hs le_rfl, by omega, rfl⟩⟩
  rw [(commit_idle hzero).1, hbits]
  decide

end HeapForge.CPool
