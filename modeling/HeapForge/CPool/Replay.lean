import HeapForge.CPool.Crash

/-!
# The replay loop of the C pool

What `recover` does with an arbitrary ring, written by anybody.

* `records`           the records that the loop applies, in their order;
* `replayed_pool`     the loop applies them and does nothing else;
* `replayLoop`        the loop as it counts, in 64 bits: it ends unless its bound is the largest
                      number there is;
* `Safe`              what an open should promise on every file;
* `open_safe_iff`     **and what it promises: the C code does not check the index of a record.**
-/

set_option linter.unusedSectionVars false
set_option linter.unusedVariables false

namespace HeapForge.CPool
open Lib

/-! ## the records applied -/

/-- the record that round `s` applies, if it applies one -/
def record (wal : Nat → WalEntry) (s : Nat) : Option WalEntry :=
  let e := wal (s % WAL_ENTRIES)
  if e.seq ≠ s ∨ ¬ e.Valid then none else some e

def records (img : Image) : List WalEntry :=
  (replaySeqs (selectMeta img).2).filterMap (record img.wal)

/-- the effect of a record -/
def redo (p : Pool) (e : WalEntry) : Pool := applyOp p e.op e.index

/-- the bit that a record writes -/
def WalEntry.write (e : WalEntry) : Nat × Bool := (e.index, decide (e.op = WAL_OP_ALLOC))

section
variable {p : Pool} {wal : Nat → WalEntry} {s : Nat} {e : WalEntry} {r : Replay} {l : List Nat}
  {es : List WalEntry}

theorem record_eq_some : record wal s = some e
    ↔ wal (s % WAL_ENTRIES) = e ∧ e.seq = s ∧ e.Valid := by
  unfold record
  dsimp only
  split
  · rename_i h
    refine iff_of_false (by simp) ?_
    rintro ⟨rfl, h1, h2⟩
    exact h.elim (fun hn => hn h1) fun hn => hn h2
  · rename_i h
    rw [not_or, not_not, not_not] at h
    constructor
    · intro he
      obtain rfl := Option.some.inj he
      exact ⟨rfl, h⟩
    · rintro ⟨rfl, -⟩
      rfl

theorem replayStep_none (h : record r.pool.img.wal s = none) : replayStep r s = r := by
  unfold replayStep
  unfold record at h
  dsimp only at h ⊢
  split
  · rfl
  · rename_i hc
    rw [if_neg hc] at h
    exact absurd h (by simp)

theorem replayStep_some (h : record r.pool.img.wal s = some e) :
    replayStep r s = ⟨redo r.pool e, max r.maxSeq e.seq, true⟩ := by
  obtain ⟨h1, rfl, h2⟩ := record_eq_some.mp h
  unfold replayStep
  dsimp only
  rw [h1, if_neg (by simp [h2])]
  rfl

theorem redo_wal : (redo p e).img.wal = p.img.wal := applyOp_wal _ _ _

/-- **The loop applies the records it finds.** -/
theorem foldl_replayStep (l : List Nat) (r : Replay) :
    l.foldl replayStep r = ⟨(l.filterMap (record r.pool.img.wal)).foldl redo r.pool,
      (l.filterMap (record r.pool.img.wal)).foldl (fun m e => max m e.seq) r.maxSeq,
      r.replayed || !(l.filterMap (record r.pool.img.wal)).isEmpty⟩ := by
  induction l generalizing r with
  | nil => simp
  | cons s l ih =>
    rw [List.foldl_cons]
    cases h : record r.pool.img.wal s with
    | none => rw [replayStep_none h, ih, List.filterMap_cons_none h]
    | some e =>
      rw [replayStep_some h, ih, List.filterMap_cons_some h]
      dsimp only
      rw [redo_wal]
      simp

theorem replayAll_records (p : Pool) :
    replayAll p = ⟨(records p.img).foldl redo (beginRecover p).pool,
      (records p.img).foldl (fun m e => max m e.seq)
      (selectMeta p.img).2, !(records p.img).isEmpty⟩ := by
  unfold replayAll records
  rw [foldl_replayStep]
  rfl

/-- the rounds so far have applied the first records -/
theorem replayed_records (p : Pool) (k : Nat) :
    ∃ es, es <+: records p.img ∧ (replayed p k).pool = es.foldl redo (beginRecover p).pool := by
  refine ⟨((replaySeqs (selectMeta p.img).2).take k).filterMap (record p.img.wal),
    (List.take_prefix _ _).filterMap _, ?_⟩
  unfold replayed
  rw [foldl_replayStep]
  rfl

theorem foldl_redo_bitmap (es : List WalEntry) (p : Pool) :
    (es.foldl redo p).img.bitmap = p.img.bitmap.putAll (es.map WalEntry.write) := by
  induction es generalizing p with
  | nil => rfl
  | cons e es ih =>
    rw [List.foldl_cons, ih, List.map_cons, Bitmap.putAll_cons]
    congr 1
    exact applyOp_bitmap _ _ _

theorem foldl_redo_wal (es : List WalEntry) (p : Pool) : (es.foldl redo p).img.wal = p.img.wal := by
  induction es generalizing p with
  | nil => rfl
  | cons e es ih => rw [List.foldl_cons, ih, redo_wal]

/-- a record that is applied has its value in its bit, right after its round -/
theorem replayed_after (h : e ∈ records p.img) :
    ∃ k, (replayed p k).pool.img.bitmap.test e.index = decide (e.op = WAL_OP_ALLOC) := by
  obtain ⟨s, hs, he⟩ := List.mem_filterMap.mp h
  obtain ⟨l₁, l₂, hl⟩ := List.append_of_mem hs
  refine ⟨l₁.length + 1, ?_⟩
  have htake : (replaySeqs (selectMeta p.img).2).take (l₁.length + 1) = l₁ ++ [s] := by
    rw [hl, List.take_append, List.take_of_length_le (by omega), Nat.add_sub_cancel_left]
    rfl
  unfold replayed
  rw [htake, List.foldl_append, foldl_replayStep l₁, List.foldl_cons, List.foldl_nil,
    replayStep_some]
  rotate_left
  · show record ((l₁.filterMap _).foldl redo (beginRecover p).pool).img.wal s = some e
    rw [foldl_redo_wal]
    exact he
  · show (redo _ e).img.bitmap.test e.index = _
    rw [show ∀ q, (redo q e).img.bitmap = _ from fun q => applyOp_bitmap _ _ _]
    exact (Bitmap.test_put _ _ _ _).trans (if_pos rfl)

theorem foldl_redo_metaSlots (es : List WalEntry) (p : Pool) :
    (es.foldl redo p).img.metaSlots = p.img.metaSlots := by
  induction es generalizing p with
  | nil => rfl
  | cons e es ih => rw [List.foldl_cons, ih]; exact applyOp_metaSlots _ _ _

theorem foldl_redo_activeMeta (es : List WalEntry) (p : Pool) :
    (es.foldl redo p).activeMeta = p.activeMeta := by
  induction es generalizing p with
  | nil => rfl
  | cons e es ih => rw [List.foldl_cons, ih]; exact applyOp_activeMeta _ _ _

theorem foldl_redo_blockCount (es : List WalEntry) (p : Pool) :
    (es.foldl redo p).blockCount = p.blockCount := by
  induction es generalizing p with
  | nil => rfl
  | cons e es ih => rw [List.foldl_cons, ih]; exact applyOp_blockCount _ _ _

end

/-! ## the counter -/

/-- the counter agrees with the bitmap -/
def InStep (p : Pool) : Prop := p.usedBlocks = p.img.bitmap.count p.blockCount

section
variable {p : Pool} {op index : Nat} {es : List WalEntry}

/-- a record of a block keeps the counter right, from either value of its bit -/
theorem InStep.applyOp (h : InStep p) (hn : p.blockCount < 2 ^ 64) (hi : index < p.blockCount) :
    InStep (applyOp p op index) := by
  have hcount := Bitmap.count_put p.img.bitmap (decide (op = WAL_OP_ALLOC)) hi
  have hle := Bitmap.count_le p.img.bitmap p.blockCount
  have hb : (CPool.applyOp p op index).img.bitmap = _ := applyOp_bitmap p op index
  unfold InStep at h ⊢
  rw [applyOp_blockCount, hb]
  show _ = (p.img.bitmap.put index (decide (op = WAL_OP_ALLOC))).count p.blockCount
  have hle' := (p.img.bitmap.put index (decide (op = WAL_OP_ALLOC))).count_le p.blockCount
  unfold CPool.applyOp
  split <;> rename_i ho <;> split <;> rename_i ht <;> simp only [ho, ht, decide_true, decide_false,
    Bool.toNat_true, Bool.toNat_false] at hcount hle' ⊢
  all_goals omega

/-- an operation that asks for what is there does nothing -/
theorem applyOp_idle (h : op = WAL_OP_ALLOC ↔ p.img.bitmap.test index = true) :
    applyOp p op index = p := by
  unfold applyOp
  by_cases ho : op = WAL_OP_ALLOC
  · rw [if_pos ho, if_pos (h.mp ho)]
  · rw [if_neg ho, if_neg fun ht => ho (h.mpr ht)]

/-- the record is one of a block, or changes nothing in the map `b` -/
def Harmless (n : Nat) (b : Bitmap) (e : WalEntry) : Prop :=
  e.index < n ∨ (e.op = WAL_OP_ALLOC ↔ b.test e.index = true)

theorem redo_harmless {e : WalEntry} (h : InStep p) (hn : p.blockCount < 2 ^ 64)
    (he : Harmless p.blockCount p.img.bitmap e) :
    InStep (redo p e)
      ∧ ∀ i, p.blockCount ≤ i → (redo p e).img.bitmap.test i = p.img.bitmap.test i := by
  rcases he with he | he
  · refine ⟨h.applyOp hn he, fun i hi => ?_⟩
    have hb : (redo p e).img.bitmap = _ := applyOp_bitmap p e.op e.index
    rw [hb]
    exact (Bitmap.test_put _ _ _ _).trans (if_neg (by show i ≠ e.index; omega))
  · rw [redo, applyOp_idle he]
    exact ⟨h, fun _ _ => rfl⟩

/-- **Harmless records keep the counter right and the bits behind the blocks as they are.** -/
theorem foldl_redo_harmless (es : List WalEntry) (h : InStep p) (hn : p.blockCount < 2 ^ 64)
    (hes : ∀ e ∈ es, Harmless p.blockCount p.img.bitmap e) :
    InStep (es.foldl redo p)
      ∧ ∀ i, p.blockCount ≤ i → (es.foldl redo p).img.bitmap.test i = p.img.bitmap.test i := by
  induction es generalizing p with
  | nil => exact ⟨h, fun _ _ => rfl⟩
  | cons e es ih =>
    have hc : (redo p e).blockCount = p.blockCount := applyOp_blockCount _ _ _
    obtain ⟨h1, h2⟩ := redo_harmless h hn (hes e List.mem_cons_self)
    rw [List.foldl_cons]
    obtain ⟨h3, h4⟩ := ih h1 (hc ▸ hn) fun f hf => by
      rw [hc]
      rcases hes f (List.mem_cons_of_mem _ hf) with hf | hf
      · exact Or.inl hf
      · by_cases hlt : f.index < p.blockCount
        · exact Or.inl hlt
        · exact Or.inr (by rw [h2 _ (by omega)]; exact hf)
    rw [hc] at h4
    exact ⟨h3, fun i hi => (h4 i hi).trans (h2 i hi)⟩

theorem beginRecover_inStep (p : Pool) : InStep (beginRecover p).pool := rfl

theorem recover_bitmap (p : Pool) : (recover p).img.bitmap = (replayAll p).pool.img.bitmap := by
  unfold recover
  dsimp only
  split <;> rfl

theorem recover_usedBlocks (p : Pool) : (recover p).usedBlocks = (replayAll p).pool.usedBlocks := by
  unfold recover
  dsimp only
  split <;> rfl

end

/-! ## the loop in 64 bits -/

/-- `for (s = best_seq + 1; s <= hi; ++s)` -/
def replayLoop (hi : Nat) : Nat → Nat → Replay → Option Replay
  | 0, _, _ => none
  | fuel + 1, s, r =>
    if s ≤ hi then replayLoop hi fuel ((s + 1) % 2 ^ 64) (replayStep r s) else some r

def recoverLoop (fuel : Nat) (p : Pool) : Option Replay :=
  replayLoop (((selectMeta p.img).2 + WAL_ENTRIES) % 2 ^ 64) fuel
    (((selectMeta p.img).2 + 1) % 2 ^ 64)
    (beginRecover p)

section
variable {hi s fuel : Nat} {r : Replay} {p : Pool}

theorem replayLoop_eq (hhi : hi + 1 < 2 ^ 64) (hs : s < 2 ^ 64) (hf : hi + 1 - s < fuel) :
    replayLoop hi fuel s r = some ((List.range' s (hi + 1 - s)).foldl replayStep r) := by
  induction fuel generalizing s r with
  | zero => omega
  | succ fuel ih =>
    unfold replayLoop
    by_cases hle : s ≤ hi
    · rw [if_pos hle, Nat.mod_eq_of_lt (by omega), ih (by omega) (by omega),
        show hi + 1 - s = (hi + 1 - (s + 1)) + 1 by omega, List.range'_succ, List.foldl_cons]
    · rw [if_neg hle, show hi + 1 - s = 0 by omega]
      rfl

/-- a bound that no number exceeds is never passed -/
theorem replayLoop_forever (hs : s < 2 ^ 64) : replayLoop (2 ^ 64 - 1) fuel s r = none := by
  induction fuel generalizing s r with
  | zero => rfl
  | succ fuel ih =>
    unfold replayLoop
    rw [if_pos (by omega)]
    exact ih (Nat.mod_lt _ (by omega))

/-- **The loop ends unless the watermark is 257 below the end of the numbers**, and then it is the
one of `recover`. -/
theorem recoverLoop_eq (h : ((selectMeta p.img).2 + WAL_ENTRIES) % 2 ^ 64 ≠ 2 ^ 64 - 1)
    (hf : 2 ^ 64 < fuel) : recoverLoop fuel p = some (replayAll p) := by
  have h1 := Nat.mod_lt ((selectMeta p.img).2 + WAL_ENTRIES) (show 0 < 2 ^ 64 by omega)
  have h2 := Nat.mod_lt ((selectMeta p.img).2 + 1) (show 0 < 2 ^ 64 by omega)
  unfold recoverLoop
  rw [replayLoop_eq (by omega) h2 (by omega)]
  rfl

end

/-! ## every file -/

/-- `hf_pool_debug_wal_only`: a record and nothing else -/
def hfPoolDebugWalOnly (p : Pool) (index : Nat) (allocate : Bool) : Pool :=
  walAppend (takeSeq p) p.nextSeq (if allocate then WAL_OP_ALLOC else WAL_OP_FREE) (index % 2 ^ 32)

/-- what an open should promise: it returns, the counter is right, at no moment has a bit behind the
blocks changed, and no byte outside the `region` bytes of the bitmap is looked at -/
structure Safe (n region : Nat) (img : Image) : Prop where
  returns : ∃ fuel, (recoverLoop fuel (handle n img)).isSome = true
  used : (hfPoolOpen n img).usedBlocks = (hfPoolOpen n img).img.bitmap.count n
  bits : ∀ i, n ≤ i → (hfPoolOpen n img).img.bitmap.test i = img.bitmap.test i
  kept : ∀ k i, n ≤ i → (replayed (handle n img) k).pool.img.bitmap.test i = img.bitmap.test i
  inside : ∀ e ∈ records img, e.index / 8 < region

/-- **When an open is safe.**  On a file with any bitmap, slots and ring: exactly if the loop's
bound is not the largest number and every record that is replayed and names no block lies inside the
region and asks for the bit that is there. -/
theorem open_safe_iff {n region : Nat} {img : Image} (hn : n < 2 ^ 64)
    (hreg : (n + 7) / 8 ≤ region) :
    Safe n region img ↔ ((selectMeta img).2 + WAL_ENTRIES) % 2 ^ 64 ≠ 2 ^ 64 - 1
      ∧ ∀ e ∈ records img, n ≤ e.index →
        e.index / 8 < region ∧ (e.op = WAL_OP_ALLOC ↔ img.bitmap.test e.index = true) := by
  constructor
  · rintro ⟨⟨fuel, hret⟩, -, -, hkept, hin⟩
    refine ⟨fun hend => ?_, fun e he hi => ⟨hin e he, ?_⟩⟩
    · have hnone : recoverLoop fuel (handle n img) = none := by
        have hend' : ((selectMeta (handle n img).img).2 + WAL_ENTRIES) % 2 ^ 64 = 2 ^ 64 - 1 := hend
        unfold recoverLoop
        rw [hend']
        exact replayLoop_forever (Nat.mod_lt _ (by omega))
      rw [hnone] at hret
      exact absurd hret (by simp)
    · obtain ⟨k, hk⟩ := replayed_after (p := handle n img) he
      rw [hkept k e.index hi] at hk
      rw [hk, decide_eq_true_iff]
  · rintro ⟨hend, hrec⟩
    have hharm : ∀ e ∈ records img, Harmless n img.bitmap e := by
      intro e he
      by_cases hlt : e.index < n
      · exact Or.inl hlt
      · exact Or.inr (hrec e he (by omega)).2
    have hall : ∀ es, es <+: records img →
        InStep (es.foldl redo (beginRecover (handle n img)).pool)
        ∧ ∀ i, n ≤ i → (es.foldl redo (beginRecover (handle n img)).pool).img.bitmap.test i
          = img.bitmap.test i := fun es hes =>
      foldl_redo_harmless es (beginRecover_inStep _) hn fun e he => hharm e (hes.subset he)
    obtain ⟨hstep, hbits⟩ := hall _ (List.prefix_refl _)
    have hpool : (replayAll (handle n img)).pool
        = (records img).foldl redo (beginRecover (handle n img)).pool := by
      rw [replayAll_records]
      rfl
    refine ⟨⟨2 ^ 64 + 1, ?_⟩, ?_, fun i hi => ?_, fun k i hi => ?_, fun e he => ?_⟩
    · rw [recoverLoop_eq (p := handle n img) hend (by omega)]
      rfl
    · rw [hfPoolOpen, recover_usedBlocks, recover_bitmap, hpool]
      unfold InStep at hstep
      rw [foldl_redo_blockCount] at hstep
      exact hstep
    · rw [hfPoolOpen, recover_bitmap, hpool]
      exact hbits i hi
    · obtain ⟨es, hes, he⟩ := replayed_records (handle n img) k
      rw [he]
      exact (hall es hes).2 i hi
    · by_cases hlt : e.index < n
      · omega
      · exact (hrec e he (by omega)).1

/-- two records that no call has marked: one allocates block 3, one frees a block that is none -/
def twoRecords : Image := (hfPoolDebugWalOnly (hfPoolDebugWalOnly (created 8) 3 true) 100 false).img

theorem open_safe_iff_two_records : (records twoRecords).length = 2 ∧ Safe 8 4096 twoRecords
    ∧ (hfPoolOpen 8 twoRecords).usedBlocks = 1 := by
  have hlen : (records twoRecords).length = 2 := by decide +kernel
  have hend : ((selectMeta twoRecords).2 + WAL_ENTRIES) % 2 ^ 64 ≠ 2 ^ 64 - 1 := by decide +kernel
  have hrec : ∀ e ∈ records twoRecords, 8 ≤ e.index →
      e.index / 8 < 4096 ∧ (e.op = WAL_OP_ALLOC ↔ twoRecords.bitmap.test e.index = true) := by
    decide +kernel
  have hused : (hfPoolOpen 8 twoRecords).usedBlocks = 1 := by decide +kernel
  exact ⟨hlen, (open_safe_iff (by decide) (by decide)).mpr ⟨hend, hrec⟩, hused⟩

/-- a pool of eight blocks with one record in its log that allocates block 100: the open counts a
block that is none, and sets a bit behind the bitmap -/
theorem foreign_record_applied :
    (hfPoolOpen 8 (hfPoolDebugWalOnly (created 8) 100 true).img).usedBlocks = 1
    ∧ (hfPoolOpen 8 (hfPoolDebugWalOnly (created 8) 100 true).img).img.bitmap.count 8 = 0
    ∧ (hfPoolDebugWalOnly (created 8) 100 true).img.bitmap.test 100 = false
    ∧ (hfPoolOpen 8 (hfPoolDebugWalOnly (created 8) 100 true).img).img.bitmap.test 100 = true
    ∧ ¬ Safe 8 4096 (hfPoolDebugWalOnly (created 8) 100 true).img := by
  have h1 : (hfPoolOpen 8 (hfPoolDebugWalOnly (created 8) 100 true).img).usedBlocks = 1 := by
    decide +kernel
  have h2 : (hfPoolOpen 8 (hfPoolDebugWalOnly (created 8) 100 true).img).img.bitmap.count
      8 = 0 := by
    decide +kernel
  refine ⟨h1, h2, by decide +kernel, by decide +kernel, fun h => ?_⟩
  have := h.used
  omega

end HeapForge.CPool
