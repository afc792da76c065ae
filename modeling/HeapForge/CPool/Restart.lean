import Mathlib.Logic.Relation
import HeapForge.CPool.Replay

/-!
# Recovery of the C pool may be interrupted

A crash inside `recover` leaves any of the bitmap bytes in any state they went through, and the new
metadata slot unwritten or torn; the slot is complete only behind the sync of the whole bitmap.

* `Cut`               one interrupted recovery;
* `Before`, `After`   the files that interrupted recoveries can leave: the watermark has not moved
                      and only bits of pending records may differ, or it has, and all is done;
* `recover_restartable`   **the recovery that is not interrupted ends as if none had been.**
-/

set_option linter.unusedSectionVars false
set_option linter.unusedVariables false

namespace HeapForge.CPool
open Lib

/-- a crash inside the `recover` of a pool of `n` blocks -/
inductive Cut (n : Nat) (img : Image) : Image → Prop
  | early (b : Bitmap) (hb : ∀ j, ∃ k, b j = (replayed (handle n img) k).pool.img.bitmap j) :
      Cut n img { img with bitmap := b }
  | torn (b : Bitmap) (hb : ∀ j, ∃ k, b j = (replayed (handle n img) k).pool.img.bitmap j)
      (m : MetaSlot)
      (hm : ¬ m.Valid) (hr : (replayAll (handle n img)).replayed = true) :
      Cut n img { img with
        bitmap := b
        metaSlots := Function.update img.metaSlots
          (other (replayAll (handle n img)).pool.activeMeta) m }
  | complete : Cut n img (hfPoolOpen n img).img

/-- bitmap, `used_blocks`, `next_seq` and watermark of an open pool -/
def outcome (p : Pool) : Bitmap × Nat × Nat × Nat :=
  (p.img.bitmap, p.usedBlocks, p.nextSeq, (p.img.metaSlots p.activeMeta).seq)

/-! ## the slot selected -/

structure Marked (img : Image) (a : Fin 2) (w : Nat) : Prop where
  valid : (img.metaSlots a).Valid
  seq : (img.metaSlots a).seq = w
  select : selectMeta img = (a, w)

section
variable {img img' : Image} {a : Fin 2} {w w' used : Nat} {m : MetaSlot}

theorem Watermark.marked (h : Watermark img a w) : Marked img a w := ⟨h.valid, h.seq, h.select⟩

/-- with a valid slot, a valid slot is selected -/
theorem marked_of_valid (h : ∃ i, (img.metaSlots i).Valid) :
    Marked img (selectMeta img).1 (selectMeta img).2 := by
  by_cases h0 : (img.metaSlots 0).Valid
  · by_cases h1 : (img.metaSlots 1).Valid ∧ (img.metaSlots 0).seq ≤ (img.metaSlots 1).seq
    · have hs : selectMeta img = (1, (img.metaSlots 1).seq) := by
        simp only [selectMeta, pickMeta, if_pos h0, if_pos h1, Option.getD_some]
      rw [hs]
      exact ⟨h1.1, rfl, hs⟩
    · have hs : selectMeta img = (0, (img.metaSlots 0).seq) := by
        simp only [selectMeta, pickMeta, if_pos h0, if_neg h1, Option.getD_some]
      rw [hs]
      exact ⟨h0, rfl, hs⟩
  · have h1 : (img.metaSlots 1).Valid := by
      obtain ⟨i, hi⟩ := h
      rcases eq_or_other 0 i with rfl | rfl
      · exact absurd hi h0
      · exact hi
    have hs : selectMeta img = (1, (img.metaSlots 1).seq) := by
      simp only [selectMeta, pickMeta, if_neg h0, if_pos h1, Option.getD_some]
    rw [hs]
    exact ⟨h1, rfl, hs⟩

theorem Marked.torn (h : Marked img a w) (hm : ¬ m.Valid)
    (hi : img'.metaSlots = Function.update img.metaSlots (other a) m) : Marked img' a w := by
  have ha : img'.metaSlots a = img.metaSlots a := by
    rw [hi, Function.update_of_ne (other_ne a).symm]
  have ho : img'.metaSlots (other a) = m := by rw [hi, Function.update_self]
  exact Watermark.marked ⟨ha ▸ h.valid, ha ▸ h.seq, fun hv => absurd (ho ▸ hv) hm⟩

theorem Marked.advance (h : Marked img a w) (hw : w < w')
    (hi : img'.metaSlots = Function.update img.metaSlots (other a) (mkMeta w' used)) :
    Marked img' (other a) w' := by
  have ha : img'.metaSlots a = img.metaSlots a := by
    rw [hi, Function.update_of_ne (other_ne a).symm]
  have ho : img'.metaSlots (other a) = mkMeta w' used := by rw [hi, Function.update_self]
  refine Watermark.marked ⟨ho ▸ mkMeta_valid _ _, by rw [ho]; rfl, fun _ => ?_⟩
  rw [other_other, ha, h.seq]
  exact hw

theorem Marked.congr (h : Marked img a w) (hi : img'.metaSlots = img.metaSlots) :
    Marked img' a w := by
  refine ⟨hi ▸ h.valid, hi ▸ h.seq, ?_⟩
  rw [← h.select]
  unfold selectMeta pickMeta
  rw [hi]

end

/-! ## what a recovery does -/

/-- the largest sequence number of the watermark and the records -/
def lastSeq (w : Nat) (es : List WalEntry) : Nat := es.foldl (fun m e => max m e.seq) w

section
variable {img : Image} {p : Pool} {a : Fin 2} {w n B : Nat} {es : List WalEntry}

theorem lastSeq_le_iff : lastSeq w es ≤ B ↔ w ≤ B ∧ ∀ e ∈ es, e.seq ≤ B := by
  unfold lastSeq
  induction es generalizing w with
  | nil => simp
  | cons e es ih =>
    rw [List.foldl_cons, ih, Nat.max_le]
    simp only [List.mem_cons, forall_eq_or_imp, and_assoc]

theorem mem_records {e : WalEntry} (h : Marked img a w) (hw : w + 256 < 2 ^ 64) :
    e ∈ records img ↔ w + 1 ≤ e.seq ∧ e.seq ≤ w + 256 ∧ img.wal (e.seq % WAL_ENTRIES) = e
    ∧ e.Valid := by
  unfold records
  rw [h.select, List.mem_filterMap]
  constructor
  · rintro ⟨s, hs, he⟩
    obtain ⟨h1, rfl, h2⟩ := record_eq_some.mp he
    have := (mem_replaySeqs hw).mp hs
    exact ⟨this.1, this.2, h1, h2⟩
  · rintro ⟨h1, h2, h3, h4⟩
    exact ⟨e.seq, (mem_replaySeqs hw).mpr ⟨h1, h2⟩, record_eq_some.mpr ⟨h3, rfl, h4⟩⟩

theorem recover_bitmap_eq (p : Pool) :
    (recover p).img.bitmap = p.img.bitmap.putAll ((records p.img).map WalEntry.write) := by
  rw [recover_bitmap, replayAll_records, foldl_redo_bitmap]
  rfl

/-- the replay leaves the log and the number of blocks alone -/
theorem replayAll_fields (p : Pool) :
    (replayAll p).pool.img.wal = p.img.wal ∧ (replayAll p).pool.blockCount = p.blockCount := by
  rw [replayAll_records]
  exact ⟨foldl_redo_wal _ _, foldl_redo_blockCount _ _⟩

theorem recover_wal (p : Pool) : (recover p).img.wal = p.img.wal := by
  rw [← (replayAll_fields p).1]
  unfold recover
  dsimp only
  split <;> rfl

theorem recover_blockCount (p : Pool) : (recover p).blockCount = p.blockCount := by
  rw [← (replayAll_fields p).2]
  unfold recover
  dsimp only
  split <;> rfl

theorem recover_nextSeq (p : Pool) :
    (recover p).nextSeq = (lastSeq (selectMeta p.img).2 (records p.img) + 1) % 2 ^ 64 := by
  have h := congrArg Replay.maxSeq (replayAll_records p)
  unfold recover
  dsimp only
  split <;> exact congrArg (fun m => (m + 1) % 2 ^ 64) h

/-- the counter is right if all records are of blocks -/
theorem recover_used (hn : p.blockCount < 2 ^ 64)
    (hi : ∀ e ∈ records p.img, e.index < p.blockCount) :
    (recover p).usedBlocks = (recover p).img.bitmap.count p.blockCount := by
  have h :=
    (foldl_redo_harmless (records p.img) (beginRecover_inStep p) hn fun e he => Or.inl (hi e he)).1
  unfold InStep at h
  rw [foldl_redo_blockCount] at h
  rw [recover_usedBlocks, recover_bitmap, replayAll_records]
  exact h

/-- nothing to replay: the slots stay -/
theorem recover_quiet (h : Marked p.img a w) (he : records p.img = []) :
    (recover p).img.metaSlots = p.img.metaSlots ∧ (recover p).activeMeta = a := by
  have hr := replayAll_records p
  rw [he] at hr
  unfold recover
  rw [hr]
  exact ⟨rfl, congrArg Prod.fst h.select⟩

/-- something to replay: the other slot gets the new watermark -/
theorem recover_moved (h : Marked p.img a w) (he : records p.img ≠ []) :
    (∃ used, (recover p).img.metaSlots
      = Function.update p.img.metaSlots (other a) (mkMeta (lastSeq w (records p.img)) used))
    ∧ (recover p).activeMeta = other a := by
  have hr := replayAll_records p
  rw [h.select, List.isEmpty_eq_false_iff.mpr he] at hr
  have hact : ((records p.img).foldl redo (beginRecover p).pool).activeMeta = a :=
    (foldl_redo_activeMeta _ _).trans (congrArg Prod.fst h.select)
  have hslots : ((records p.img).foldl redo (beginRecover p).pool).img.metaSlots
      = p.img.metaSlots :=
    foldl_redo_metaSlots _ _
  unfold recover
  rw [hr]
  refine ⟨⟨((records p.img).foldl redo (beginRecover p).pool).usedBlocks, ?_⟩, congrArg other hact⟩
  show Function.update _ (other ((records p.img).foldl redo (beginRecover p).pool).activeMeta) _ = _
  rw [hact, hslots]
  rfl

/-- a pool that is as `recover` leaves it -/
theorem recover_idle (h : Marked p.img p.activeMeta w) (he : records p.img = [])
    (hu : p.usedBlocks = p.img.bitmap.count p.blockCount) (hs : p.nextSeq = (w + 1) % 2 ^ 64) :
    recover p = p := by
  have hr := replayAll_records p
  rw [he] at hr
  have hb : (beginRecover p).pool = p := by
    unfold beginRecover
    dsimp only
    rw [h.select, ← hu]
  unfold recover
  rw [hr]
  show ({ (beginRecover p).pool with nextSeq := ((selectMeta p.img).2 + 1) % 2 ^ 64 } : Pool) = p
  rw [hb, h.select, ← hs]

/-- **What an open gives**, in terms of the records it replays. -/
theorem open_outcome (ha : Marked img a w) (hn : n < 2 ^ 64) (hi : ∀ e ∈ records img, e.index < n)
    (hlt : lastSeq w (records img) + 1 < 2 ^ 64)
    (hmono : records img ≠ [] → w < lastSeq w (records img)) :
    outcome (hfPoolOpen n img) = (img.bitmap.putAll ((records img).map WalEntry.write),
      (img.bitmap.putAll ((records img).map WalEntry.write)).count n,
      lastSeq w (records img) + 1, lastSeq w (records img))
    ∧ Marked (hfPoolOpen n img).img (hfPoolOpen n img).activeMeta (lastSeq w (records img)) := by
  have hbit : (hfPoolOpen n img).img.bitmap
      = img.bitmap.putAll ((records img).map WalEntry.write) :=
    recover_bitmap_eq _
  have hused : (hfPoolOpen n img).usedBlocks = (hfPoolOpen n img).img.bitmap.count n :=
    recover_used (p := handle n img) hn hi
  have hnext : (hfPoolOpen n img).nextSeq = lastSeq w (records img) + 1 := by
    have h := recover_nextSeq (handle n img)
    rw [show (selectMeta (handle n img).img).2 = w from congrArg Prod.snd ha.select,
      show records (handle n img).img = records img from rfl, Nat.mod_eq_of_lt hlt] at h
    exact h
  -- the slot of the watermark is the old one or the new one
  have hmark : Marked (hfPoolOpen n img).img (hfPoolOpen n img).activeMeta
      (lastSeq w (records img)) := by
    by_cases he : records img = []
    · obtain ⟨h1, h2⟩ := recover_quiet (p := handle n img) ha he
      have h3 : Marked (hfPoolOpen n img).img a w := ha.congr h1
      rw [he, hfPoolOpen, h2]
      exact h3
    · obtain ⟨⟨used, h1⟩, h2⟩ := recover_moved (p := handle n img) ha he
      have h3 : Marked (hfPoolOpen n img).img (other a) (lastSeq w (records img)) :=
        ha.advance (hmono he) h1
      rw [show (hfPoolOpen n img).activeMeta = other a from h2]
      exact h3
  refine ⟨?_, hmark⟩
  unfold outcome
  rw [hused, hbit, hnext, hmark.seq]

end

/-! ## the files in between -/

/-- the hypothesis on the file: what is valid in the ring is about a block and not too far ahead -/
structure Sound (n : Nat) (img : Image) : Prop where
  valid : ∃ i, (img.metaSlots i).Valid
  mark : (selectMeta img).2 < 2 ^ 63
  ring : ∀ j, j < WAL_ENTRIES → (img.wal j).Valid →
    (img.wal j).index < n ∧ (img.wal j).seq ≤ (selectMeta img).2 + WAL_ENTRIES

/-- the watermark has not moved; only bits of pending records may differ -/
structure Before (img img' : Image) : Prop where
  wal : img'.wal = img.wal
  mark : ∃ a, Marked img' a (selectMeta img).2
  bits : ∀ j, (∀ v ∈ (records img).map WalEntry.write, v.1 ≠ j) →
    img'.bitmap.test j = img.bitmap.test j

/-- all is done -/
structure After (img img' : Image) : Prop where
  wal : img'.wal = img.wal
  mark : ∃ a, Marked img' a (lastSeq (selectMeta img).2 (records img))
  bitmap : img'.bitmap = img.bitmap.putAll ((records img).map WalEntry.write)

section
variable {n : Nat} {img img' img'' : Image}

theorem Sound.mark_lt (h : Sound n img) : (selectMeta img).2 + 256 < 2 ^ 64 := by
  have := h.mark
  omega

theorem Sound.index_lt (h : Sound n img) {e : WalEntry} (he : e ∈ records img) : e.index < n := by
  obtain ⟨-, -, h3, h4⟩ := (mem_records (marked_of_valid h.valid) h.mark_lt).mp he
  have hr := h.ring (e.seq % WAL_ENTRIES) (Nat.mod_lt _ (by decide))
  rw [h3] at hr
  exact (hr h4).1

theorem Sound.lastSeq_le (h : Sound n img) :
    lastSeq (selectMeta img).2 (records img) ≤ (selectMeta img).2 + 256 :=
  lastSeq_le_iff.mpr ⟨Nat.le_add_right _ _, fun e he =>
    ((mem_records (marked_of_valid h.valid) h.mark_lt).mp he).2.1⟩

theorem Sound.lt_lastSeq (h : Sound n img) (hne : records img ≠ []) :
    (selectMeta img).2 < lastSeq (selectMeta img).2 (records img) := by
  obtain ⟨e, he⟩ := List.exists_mem_of_ne_nil _ hne
  have h1 := ((mem_records (marked_of_valid h.valid) h.mark_lt).mp he).1
  have h2 := (lastSeq_le_iff.mp (le_refl (lastSeq (selectMeta img).2 (records img)))).2 e he
  omega

theorem Before.records_eq (h : Before img img') : records img' = records img := by
  obtain ⟨a, ha⟩ := h.mark
  unfold records
  rw [h.wal, ha.select]

/-- behind the last record there is none -/
theorem After.records_eq (h : After img img') (hs : Sound n img) : records img' = [] := by
  obtain ⟨a, ha⟩ := h.mark
  have hle := hs.lastSeq_le
  have hmk := hs.mark
  rw [List.eq_nil_iff_forall_not_mem]
  intro e he
  obtain ⟨h1, h2, h3, h4⟩ := (mem_records ha (by omega)).mp he
  rw [h.wal] at h3
  have hr := hs.ring (e.seq % WAL_ENTRIES) (Nat.mod_lt _ (by decide))
  rw [h3] at hr
  have hseq : e.seq ≤ (selectMeta img).2 + 256 := (hr h4).2
  have hge := (lastSeq_le_iff.mp (le_refl (lastSeq (selectMeta img).2 (records img)))).1
  have hmem : e ∈ records img :=
    (mem_records (marked_of_valid hs.valid) hs.mark_lt).mpr ⟨by omega, hseq, h3, h4⟩
  have := (lastSeq_le_iff.mp (le_refl (lastSeq (selectMeta img).2 (records img)))).2 e hmem
  omega

/-- bytes that the replay went through: bits of other places are as before -/
theorem cut_bits {b : Bitmap} (hb : ∀ j, ∃ k, b j = (replayed (handle n img) k).pool.img.bitmap j)
    {i : Nat} (hi : ∀ v ∈ (records img).map WalEntry.write, v.1 ≠ i) :
    b.test i = img.bitmap.test i := by
  obtain ⟨k, hk⟩ := hb (i / 8)
  obtain ⟨es, hes, he⟩ := replayed_records (handle n img) k
  have htest : b.test i = (replayed (handle n img) k).pool.img.bitmap.test i := by
    unfold Bitmap.test
    rw [hk]
  rw [htest, he, foldl_redo_bitmap]
  exact Bitmap.test_putAll_of_forall_ne (fun v hv => hi v ((hes.map _).subset hv)) _

theorem Before.refl (h : Sound n img) : Before img img :=
  ⟨rfl, ⟨_, marked_of_valid h.valid⟩, fun _ _ => rfl⟩

/-- the open of a file with the old watermark -/
theorem Before.open (h : Before img img') (hs : Sound n img) (hn : n < 2 ^ 64) :
    outcome (hfPoolOpen n img') = (img.bitmap.putAll ((records img).map WalEntry.write),
      (img.bitmap.putAll ((records img).map WalEntry.write)).count n,
      lastSeq (selectMeta img).2 (records img) + 1, lastSeq (selectMeta img).2 (records img))
    ∧ After img (hfPoolOpen n img').img
    ∧ Marked (hfPoolOpen n img').img (hfPoolOpen n img').activeMeta
      (lastSeq (selectMeta img).2 (records img)) := by
  obtain ⟨a, ha⟩ := h.mark
  have hrec := h.records_eq
  have hle := hs.lastSeq_le
  have hmk := hs.mark
  obtain ⟨hout, hmark⟩ := open_outcome ha hn (by rw [hrec]; exact fun e he => hs.index_lt he)
    (by rw [hrec]; omega) (by rw [hrec]; exact hs.lt_lastSeq)
  rw [hrec, Bitmap.putAll_congr h.bits] at hout
  rw [hrec] at hmark
  exact ⟨hout, ⟨(recover_wal _).trans h.wal, ⟨_, hmark⟩, congrArg Prod.fst hout⟩, hmark⟩

/-- the open of a file with the new one -/
theorem After.open (h : After img img') (hs : Sound n img) (hn : n < 2 ^ 64) :
    outcome (hfPoolOpen n img') = (img.bitmap.putAll ((records img).map WalEntry.write),
      (img.bitmap.putAll ((records img).map WalEntry.write)).count n,
      lastSeq (selectMeta img).2 (records img) + 1, lastSeq (selectMeta img).2 (records img)) := by
  obtain ⟨a, ha⟩ := h.mark
  have hrec := h.records_eq hs
  have hle := hs.lastSeq_le
  have hmk := hs.mark
  obtain ⟨hout, -⟩ := open_outcome ha hn (by rw [hrec]; simp)
    (by rw [hrec]; show lastSeq (selectMeta img).2 (records img) + 1 < 2 ^ 64; omega)
      (fun hne => absurd hrec hne)
  rw [hrec, h.bitmap] at hout
  exact hout

/-- a file with nothing to replay stays as it is -/
theorem open_quiet {a : Fin 2} {w : Nat} (ha : Marked img a w) (he : records img = []) :
    (hfPoolOpen n img).img = img := by
  have h1 := (recover_quiet (p := handle n img) ha he).1
  have h2 : (hfPoolOpen n img).img.bitmap = img.bitmap := by
    have := recover_bitmap_eq (handle n img)
    rw [show records (handle n img).img = [] from he] at this
    exact this
  have h3 : (hfPoolOpen n img).img.wal = img.wal := recover_wal _
  have h4 : (hfPoolOpen n img).img.metaSlots = img.metaSlots := h1
  cases hi : (hfPoolOpen n img).img
  rw [hi] at h2 h3 h4
  cases img
  simp_all

/-- **One interrupted recovery.** -/
theorem Cut.keeps (hc : Cut n img' img'') (hs : Sound n img) (hn : n < 2 ^ 64)
    (h : Before img img' ∨ After img img') : Before img img'' ∨ After img img'' := by
  rcases h with h | h
  · obtain ⟨a, ha⟩ := h.mark
    have hbits : ∀ (b : Bitmap), (∀ j, ∃ k, b j = (replayed (handle n img') k).pool.img.bitmap j) →
        ∀ i, (∀ v ∈ (records img).map WalEntry.write, v.1 ≠ i) → b.test i = img.bitmap.test i :=
      fun b hb i hi => (cut_bits hb (by rw [h.records_eq]; exact hi)).trans (h.bits i hi)
    cases hc with
    | early b hb => exact Or.inl ⟨h.wal, ⟨a, ha.congr rfl⟩, hbits b hb⟩
    | torn b hb m hm hr =>
      refine Or.inl ⟨h.wal, ⟨a, ha.torn hm ?_⟩, hbits b hb⟩
      have hact : (replayAll (handle n img')).pool.activeMeta = a := by
        rw [replayAll_records]
        exact (foldl_redo_activeMeta _ _).trans (congrArg Prod.fst ha.select)
      rw [hact]
    | complete => exact Or.inr (h.open hs hn).2.1
  · obtain ⟨a, ha⟩ := h.mark
    have hrec := h.records_eq hs
    cases hc with
    | early b hb =>
      refine Or.inr ⟨h.wal, ⟨a, ha.congr rfl⟩, ?_⟩
      rw [← h.bitmap]
      exact Bitmap.ext fun i => cut_bits hb (by rw [hrec]; simp)
    | torn b hb m hm hr =>
      rw [replayAll_records, show records (handle n img').img = [] from hrec] at hr
      exact absurd hr (by simp)
    | complete =>
      rw [open_quiet ha hrec]
      exact Or.inr h

end

/-- **Recovery may be interrupted any number of times.**  The open that is not interrupted returns
and ends with the bitmap, `used_blocks`, `next_seq` and watermark of an open that never was; and a
recovery of what an open has left changes nothing. -/
theorem recover_restartable {n : Nat} {img img' : Image} (hn : n < 2 ^ 64) (hs : Sound n img)
    (hcuts : Relation.ReflTransGen (Cut n) img img') :
    (∃ fuel, (recoverLoop fuel (handle n img')).isSome = true)
    ∧ outcome (hfPoolOpen n img') = outcome (hfPoolOpen n img)
    ∧ recover (hfPoolOpen n img) = hfPoolOpen n img := by
  have h : Before img img' ∨ After img img' := by
    induction hcuts with
    | refl => exact Or.inl (Before.refl hs)
    | tail _ hc ih => exact hc.keeps hs hn ih
  have hle := hs.lastSeq_le
  have hmk := hs.mark
  obtain ⟨hout, hafter, hmark⟩ := (Before.refl hs).open hs hn
  refine ⟨⟨2 ^ 64 + 1, ?_⟩, ?_, ?_⟩
  · have hw : (selectMeta img').2 ≤ (selectMeta img).2 + 256 := by
      rcases h with h | h
      · obtain ⟨a, ha⟩ := h.mark
        rw [ha.select]
        omega
      · obtain ⟨a, ha⟩ := h.mark
        rw [ha.select]
        exact hle
    have hend : ((selectMeta (handle n img').img).2 + WAL_ENTRIES) % 2 ^ 64 ≠ 2 ^ 64 - 1 := by
      show ((selectMeta img').2 + 256) % 2 ^ 64 ≠ 2 ^ 64 - 1
      omega
    rw [recoverLoop_eq hend (by omega)]
    rfl
  · rw [hout]
    rcases h with h | h
    · exact (h.open hs hn).1
    · exact h.open hs hn
  · have hbit := congrArg Prod.fst hout
    have hused := congrArg (fun o => o.2.1) hout
    refine recover_idle hmark (hafter.records_eq hs) ?_ ?_
    · rw [show (hfPoolOpen n img).blockCount = n from recover_blockCount _]
      exact hused.trans (congrArg (Bitmap.count · n) hbit.symm)
    · have hnext : (hfPoolOpen n img).nextSeq = lastSeq (selectMeta img).2 (records img) + 1 :=
        congrArg (fun o => o.2.2.1) hout
      rw [hnext, Nat.mod_eq_of_lt (by omega)]

/-- the file of a pool of eight blocks whose first allocation has only reached the log -/
def sampleImage : Image := (hfPoolDebugWalOnly (created 8) 0 true).img

/-- the first recovery was cut off in its slot -/
def tornImage : Image :=
  { sampleImage with
    bitmap := sampleImage.bitmap
    metaSlots := Function.update sampleImage.metaSlots
      (other (replayAll (handle 8 sampleImage)).pool.activeMeta) ⟨7, 7, 7⟩ }

/-- and the second one after the byte of the bitmap -/
def markedImage : Image :=
  { tornImage with bitmap := (replayed (handle 8 tornImage) 256).pool.img.bitmap }

theorem recover_restartable_two_cuts :
    Relation.ReflTransGen (Cut 8) sampleImage markedImage
      ∧ ¬ (markedImage.metaSlots 1).Valid ∧ markedImage.bitmap.test 0 = true
      ∧ sampleImage.bitmap.test 0 = false
      ∧ outcome (hfPoolOpen 8 markedImage) = outcome (hfPoolOpen 8 sampleImage) := by
  have hsel : selectMeta sampleImage = (0, 0) := by decide +kernel
  have hring : ∀ j, j < WAL_ENTRIES → (sampleImage.wal j).Valid →
      (sampleImage.wal j).index < 8 ∧ (sampleImage.wal j).seq ≤ WAL_ENTRIES := by
    decide +kernel
  have hs : Sound 8 sampleImage :=
    ⟨⟨0, by decide +kernel⟩, by rw [hsel]; decide, by rw [hsel, Nat.zero_add]; exact hring⟩
  have hstart : ∀ p : Pool, (replayed p 0).pool.img.bitmap = p.img.bitmap := fun p => rfl
  have hreplays : (replayAll (handle 8 sampleImage)).replayed = true := by decide +kernel
  have htorn : ¬ (⟨7, 7, 7⟩ : MetaSlot).Valid := by decide +kernel
  have hfirst : Cut 8 sampleImage tornImage :=
    Cut.torn _ (fun j => ⟨0, by rw [hstart]; rfl⟩) _ htorn hreplays
  have hsecond : Cut 8 tornImage markedImage := Cut.early _ fun j => ⟨256, rfl⟩
  have hcuts : Relation.ReflTransGen (Cut 8) sampleImage markedImage :=
    (Relation.ReflTransGen.single hfirst).tail hsecond
  exact ⟨hcuts, by decide +kernel, by decide +kernel, by decide +kernel,
    (recover_restartable (by decide) hs hcuts).2.1⟩

end HeapForge.CPool
