import HeapForge.Lib.Run
import HeapForge.CPool.Impl

/-!
# Crash consistency of the C pool

A crash leaves the file as it is between two durable writes, or with the log record or the
metadata slot that was being written torn (`CommitCrash`, `RecoverCrash`).  `Step` is the life
of one pool: sessions opened, used, closed or cut off, and opens that are themselves cut off.

The state carries two facts about the session that ended last, recorded by the calls themselves:
`last`, the bitmap when its last returned call finished, and `pending`, the call that the crash
interrupted.

* `Watermark img a w`   slot `a` is valid with sequence number `w`, the other one is invalid or
                        older, so recovery starts from `w`;
* `Closed`, `Running`   what holds of the file between sessions, and of an open pool: at most
                        one record lies beyond the watermark, and it is the pending call;
* `open_restores`       the first completed open gives back `last`, with `pending` wholly
                        applied or not at all.
-/

set_option linter.unusedSectionVars false
set_option linter.unusedVariables false

namespace HeapForge.CPool
open Lib

/-! ## crashes -/

/-- the files a crash inside `commit` can leave -/
inductive CommitCrash (p : Pool) (op index : Nat) : Image → Prop
  | before : CommitCrash p op index p.img
  | tornWal (e : WalEntry) (he : ¬ e.Valid) : CommitCrash p op index
      { p.img with wal := Function.update p.img.wal (p.nextSeq % WAL_ENTRIES) e }
  | afterWal : CommitCrash p op index (walAppend (takeSeq p) p.nextSeq op index).img
  | afterByte : CommitCrash p op index
      (applyOp (walAppend (takeSeq p) p.nextSeq op index) op index).img
  | tornMeta (m : MetaSlot) (hm : ¬ m.Valid) : CommitCrash p op index
      { (applyOp (walAppend (takeSeq p) p.nextSeq op index) op index).img with
        metaSlots := Function.update p.img.metaSlots (other p.activeMeta) m }
  | afterMeta : CommitCrash p op index (commit p op index).img

/-- the files a crash inside a call that commits `o` can leave -/
inductive OpCrash (p : Pool) : Option (Nat × Nat) → Image → Prop
  | idle (o : Option (Nat × Nat)) : OpCrash p o p.img
  | commit {op index : Nat} {img : Image} (h : CommitCrash p op (index % 2 ^ 32) img) :
      OpCrash p (some (op, index)) img

/-- the files a crash inside `recover` can leave: before the sync every byte of the bitmap may
hold any of the values that the replay loop gave it -/
inductive RecoverCrash (p : Pool) : Image → Prop
  | bitmap (b : Bitmap) (hb : ∀ j, ∃ k, b j = (replayed p k).pool.img.bitmap j) :
      RecoverCrash p { p.img with bitmap := b }
  | tornMeta (m : MetaSlot) (hm : ¬ m.Valid) (hr : (replayAll p).replayed = true) :
      RecoverCrash p { (replayAll p).pool.img with
        metaSlots := Function.update p.img.metaSlots (other (replayAll p).pool.activeMeta) m }
  | afterMeta : RecoverCrash p (recover p).img

/-! ## the life of a pool -/

inductive Phase where
  | closed (img : Image)
  | running (p : Pool)

structure Sys where
  phase : Phase
  last : Bitmap
  pending : Option (Nat × Nat)

inductive Act where
  | openPool
  | openCrash
  | allocate
  | allocateCrash
  | free (index : Nat)
  | freeCrash (index : Nat)
  | close
  | crash

/-- calls of `hf_pool_allocate` and `hf_pool_free`, returned or interrupted -/
def Act.isOp : Act → Bool
  | .allocate | .allocateCrash | .free _ | .freeCrash _ => true
  | _ => false

inductive Step (n : Nat) : Sys → Act → Sys → Prop
  | openPool (img : Image) (last : Bitmap) (pend : Option (Nat × Nat)) :
      Step n ⟨.closed img, last, pend⟩ .openPool
        ⟨.running (hfPoolOpen n img), (hfPoolOpen n img).img.bitmap, none⟩
  | openCrash (img img' : Image) (last : Bitmap) (pend : Option (Nat × Nat))
      (h : RecoverCrash (handle n img) img') :
      Step n ⟨.closed img, last, pend⟩ .openCrash ⟨.closed img', last, pend⟩
  | allocate (p : Pool) (last : Bitmap) (pend : Option (Nat × Nat)) :
      Step n ⟨.running p, last, pend⟩ .allocate
        ⟨.running (hfPoolAllocate p).1, (hfPoolAllocate p).1.img.bitmap, pend⟩
  | allocateCrash (p : Pool) (img : Image) (last : Bitmap) (pend : Option (Nat × Nat))
      (h : OpCrash p (allocateOp p) img) :
      Step n ⟨.running p, last, pend⟩ .allocateCrash ⟨.closed img, last, allocateOp p⟩
  | free (p : Pool) (index : Nat) (last : Bitmap) (pend : Option (Nat × Nat)) :
      Step n ⟨.running p, last, pend⟩ (.free index)
        ⟨.running (hfPoolFree p index), (hfPoolFree p index).img.bitmap, pend⟩
  | freeCrash (p : Pool) (index : Nat) (img : Image) (last : Bitmap) (pend : Option (Nat × Nat))
      (h : OpCrash p (freeOp p index) img) :
      Step n ⟨.running p, last, pend⟩ (.freeCrash index) ⟨.closed img, last, freeOp p index⟩
  | close (p : Pool) (last : Bitmap) (pend : Option (Nat × Nat)) :
      Step n ⟨.running p, last, pend⟩ .close ⟨.closed p.img, last, none⟩
  | crash (p : Pool) (last : Bitmap) (pend : Option (Nat × Nat)) :
      Step n ⟨.running p, last, pend⟩ .crash ⟨.closed p.img, last, none⟩

/-- a completely created pool, still open in the session that created it -/
def Sys.created (n : Nat) : Sys := ⟨.running (CPool.created n), (CPool.created n).img.bitmap, none⟩

/-- the bitmap `b` with the operation `o` applied -/
def applied (b : Bitmap) (o : Nat × Nat) : Bitmap := b.put o.2 (decide (o.1 = WAL_OP_ALLOC))

/-! ## single steps -/

theorem other_ne (a : Fin 2) : other a ≠ a := by revert a; decide
theorem other_other (a : Fin 2) : other (other a) = a := by revert a; decide
theorem eq_or_other (a b : Fin 2) : b = a ∨ b = other a := by revert a b; decide

theorem applyOp_bitmap (p : Pool) (op index : Nat) :
    (applyOp p op index).img.bitmap = applied p.img.bitmap (op, index) := by
  unfold applyOp applied
  by_cases h : op = WAL_OP_ALLOC <;> by_cases ht : p.img.bitmap.test index = true
  · rw [if_pos h, if_pos ht, Bitmap.put_eq_self (by simp [h, ht])]
  · simp [h, ht, Bitmap.put]
  · simp [h, ht, Bitmap.put]
  · rw [if_neg h, if_neg ht, Bitmap.put_eq_self (by simp [h, ht])]

theorem applyOp_metaSlots (p : Pool) (op index : Nat) :
    (applyOp p op index).img.metaSlots = p.img.metaSlots := by
  unfold applyOp
  split <;> split <;> rfl

theorem applyOp_wal (p : Pool) (op index : Nat) : (applyOp p op index).img.wal = p.img.wal := by
  unfold applyOp
  split <;> split <;> rfl

theorem applyOp_nextSeq (p : Pool) (op index : Nat) : (applyOp p op index).nextSeq = p.nextSeq := by
  unfold applyOp
  split <;> split <;> rfl

theorem applyOp_activeMeta (p : Pool) (op index : Nat) :
    (applyOp p op index).activeMeta = p.activeMeta := by
  unfold applyOp
  split <;> split <;> rfl

theorem applyOp_blockCount (p : Pool) (op index : Nat) :
    (applyOp p op index).blockCount = p.blockCount := by
  unfold applyOp
  split <;> split <;> rfl

/-! ## the watermark -/

structure Watermark (img : Image) (a : Fin 2) (w : Nat) : Prop where
  valid : (img.metaSlots a).Valid
  seq : (img.metaSlots a).seq = w
  older : (img.metaSlots (other a)).Valid → (img.metaSlots (other a)).seq < w

theorem Watermark.select {img : Image} {a : Fin 2} {w : Nat} (h : Watermark img a w) :
    selectMeta img = (a, w) := by
  obtain ⟨hv, hs, ho⟩ := h
  unfold selectMeta pickMeta
  by_cases e : a = 0
  · subst e
    have ho' : (img.metaSlots 1).Valid → (img.metaSlots 1).seq < w := ho
    by_cases h1 : (img.metaSlots 1).Valid
    · have hlt : ¬ w ≤ (img.metaSlots 1).seq := by have := ho' h1; omega
      simp [hv, hs, h1, hlt]
    · simp [hv, hs, h1]
  · have e1 : a = 1 := by omega
    subst e1
    have ho' : (img.metaSlots 0).Valid → (img.metaSlots 0).seq < w := ho
    by_cases h0 : (img.metaSlots 0).Valid
    · have hle : (img.metaSlots 0).seq ≤ w := le_of_lt (ho' h0)
      simp [hv, hs, h0, hle]
    · simp [hv, hs, h0]

/-- writing the other slot with a larger sequence number moves the watermark there -/
theorem Watermark.advance {img img' : Image} {a : Fin 2} {w w' used : Nat} (h : Watermark img a w)
    (hw : w < w')
    (hm : img'.metaSlots = Function.update img.metaSlots (other a) (mkMeta w' used)) :
    Watermark img' (other a) w' := by
  refine ⟨?_, ?_, ?_⟩
  · rw [hm, Function.update_self]
    exact mkMeta_valid w' used
  · rw [hm, Function.update_self]
    rfl
  · rw [hm, other_other, Function.update_of_ne (other_ne a).symm, h.seq]
    exact fun _ => hw

/-- a torn write of the other slot leaves the watermark where it is -/
theorem Watermark.torn {img img' : Image} {a : Fin 2} {w : Nat} {m : MetaSlot}
    (h : Watermark img a w) (hm : ¬ m.Valid)
    (hi : img'.metaSlots = Function.update img.metaSlots (other a) m) : Watermark img' a w := by
  have ha : img'.metaSlots a = img.metaSlots a := by
    rw [hi, Function.update_of_ne (other_ne a).symm]
  refine ⟨ha ▸ h.valid, ha ▸ h.seq, ?_⟩
  rw [hi, Function.update_self]
  exact fun hv => absurd hv hm

theorem Watermark.congr {img img' : Image} {a : Fin 2} {w : Nat} (h : Watermark img a w)
    (hi : img'.metaSlots = img.metaSlots) : Watermark img' a w :=
  ⟨hi ▸ h.valid, hi ▸ h.seq, hi ▸ h.older⟩

/-! ## the ring -/

/-- every valid record is covered by the watermark `w` -/
def Covered (img : Image) (w : Nat) : Prop := ∀ j, (img.wal j).Valid → (img.wal j).seq ≤ w

/-- record `w + 1` is in the ring, every other valid record is covered -/
structure OneBeyond (img : Image) (w op index : Nat) : Prop where
  here : img.wal ((w + 1) % WAL_ENTRIES) = mkWal (w + 1) op index
  rest : ∀ j, j ≠ (w + 1) % WAL_ENTRIES → (img.wal j).Valid → (img.wal j).seq ≤ w

theorem mem_replaySeqs {w s : Nat} (hw : w + 256 < 2 ^ 64) :
    s ∈ replaySeqs w ↔ w + 1 ≤ s ∧ s ≤ w + 256 := by
  unfold replaySeqs WAL_ENTRIES
  rw [Nat.mod_eq_of_lt (show w + 1 < 2 ^ 64 by omega), Nat.mod_eq_of_lt hw, List.mem_range'_1]
  omega

theorem replaySeqs_eq_cons {w : Nat} (hw : w + 256 < 2 ^ 64) :
    replaySeqs w = (w + 1) :: List.range' (w + 2) 255 := by
  unfold replaySeqs WAL_ENTRIES
  rw [Nat.mod_eq_of_lt (show w + 1 < 2 ^ 64 by omega), Nat.mod_eq_of_lt hw]
  show List.range' (w + 1) (w + 256 + 1 - (w + 1)) = _
  rw [show w + 256 + 1 - (w + 1) = 255 + 1 by omega, List.range'_succ]

theorem foldl_replay_skip (l : List Nat) (r : Replay)
    (h : ∀ s ∈ l, (r.pool.img.wal (s % WAL_ENTRIES)).Valid →
      (r.pool.img.wal (s % WAL_ENTRIES)).seq ≠ s) : l.foldl replayStep r = r := by
  induction l with
  | nil => rfl
  | cons s l ih =>
    have hs : replayStep r s = r := by
      unfold replayStep
      apply if_pos
      by_cases hv : (r.pool.img.wal (s % WAL_ENTRIES)).Valid
      · exact Or.inl (h s (List.mem_cons_self ..) hv)
      · exact Or.inr hv
    rw [List.foldl_cons, hs]
    exact ih (fun s' hs' => h s' (List.mem_cons_of_mem _ hs'))

section
variable {p : Pool} {a : Fin 2} {w op index : Nat}

/-- with every record covered, the loop finds nothing to replay -/
theorem replayed_covered (hm : Watermark p.img a w) (hc : Covered p.img w)
    (hw : w + 256 < 2 ^ 64) (k : Nat) : replayed p k = beginRecover p := by
  unfold replayed
  apply foldl_replay_skip
  intro s hs hv
  have h1 := List.mem_of_mem_take hs
  rw [hm.select, mem_replaySeqs hw] at h1
  have h2 : (p.img.wal (s % WAL_ENTRIES)).seq ≤ w := hc _ hv
  show (p.img.wal (s % WAL_ENTRIES)).seq ≠ s
  omega

/-- with one record beyond the watermark, exactly that record is replayed, in the first round -/
theorem replayed_one (hm : Watermark p.img a w) (ho : OneBeyond p.img w op index)
    (hw : w + 256 < 2 ^ 64) (k : Nat) :
    replayed p (k + 1) = ⟨applyOp (beginRecover p).pool op index, w + 1, true⟩ := by
  unfold replayed
  rw [hm.select, replaySeqs_eq_cons hw, List.take_succ_cons, List.foldl_cons]
  have h1 : replayStep (beginRecover p) (w + 1)
      = ⟨applyOp (beginRecover p).pool op index, w + 1, true⟩ := by
    unfold replayStep
    have he : (beginRecover p).pool.img.wal ((w + 1) % WAL_ENTRIES) = mkWal (w + 1) op index :=
      ho.here
    have hmax : (beginRecover p).maxSeq = w := by
      show (selectMeta p.img).2 = w
      rw [hm.select]
    have hne : ¬ ((mkWal (w + 1) op index).seq ≠ w + 1 ∨ ¬ (mkWal (w + 1) op index).Valid) := by
      rintro (h | h)
      · exact h rfl
      · exact h (mkWal_valid _ _ _)
    rw [he, if_neg hne, hmax, max_eq_right (by omega)]
    rfl
  rw [h1]
  apply foldl_replay_skip
  intro s hs hv
  have h2 := List.mem_range'_1.mp (List.mem_of_mem_take hs)
  -- 256 consecutive numbers meet every slot once, so these rounds look at other slots
  have hne : s % WAL_ENTRIES ≠ (w + 1) % WAL_ENTRIES := by
    unfold WAL_ENTRIES
    omega
  have h3 : (applyOp (beginRecover p).pool op index).img.wal = p.img.wal := applyOp_wal _ _ _
  rw [h3] at hv ⊢
  have h4 := ho.rest _ hne hv
  omega

theorem replayAll_eq (hm : Watermark p.img a w) (hw : w + 256 < 2 ^ 64) :
    replayAll p = replayed p (255 + 1) := by
  unfold replayAll replayed
  rw [hm.select, replaySeqs_eq_cons hw, List.take_of_length_le (by simp)]

theorem recover_covered (hm : Watermark p.img a w) (hc : Covered p.img w)
    (hw : w + 256 < 2 ^ 64) :
    (recover p).img = p.img ∧ (recover p).activeMeta = a ∧ (recover p).nextSeq = w + 1 ∧
      (recover p).blockCount = p.blockCount := by
  unfold recover
  rw [replayAll_eq hm hw, replayed_covered hm hc hw]
  have hsel := hm.select
  refine ⟨rfl, congrArg Prod.fst hsel, ?_, rfl⟩
  show ((selectMeta p.img).2 + 1) % 2 ^ 64 = w + 1
  rw [hsel, Nat.mod_eq_of_lt (show w + 1 < 2 ^ 64 by omega)]

theorem recover_one (hm : Watermark p.img a w) (ho : OneBeyond p.img w op index)
    (hw : w + 256 < 2 ^ 64) :
    ∃ used, recover p = metaCommit { applyOp (beginRecover p).pool op index with
        nextSeq := w + 2 } (w + 1) ∧
      (recover p).img.metaSlots
        = Function.update p.img.metaSlots (other a) (mkMeta (w + 1) used) := by
  have hsel := hm.select
  have hr : recover p = metaCommit { applyOp (beginRecover p).pool op index with
      nextSeq := w + 2 } (w + 1) := by
    unfold recover
    rw [replayAll_eq hm hw, replayed_one hm ho hw]
    show metaCommit { applyOp (beginRecover p).pool op index with
      nextSeq := (w + 1 + 1) % 2 ^ 64 } (w + 1) = _
    rw [Nat.mod_eq_of_lt (show w + 1 + 1 < 2 ^ 64 by omega)]
  refine ⟨(applyOp (beginRecover p).pool op index).usedBlocks, hr, ?_⟩
  rw [hr]
  have h1 : (applyOp (beginRecover p).pool op index).activeMeta = a := by
    rw [applyOp_activeMeta]
    exact congrArg Prod.fst hsel
  show Function.update (applyOp (beginRecover p).pool op index).img.metaSlots
    (other (applyOp (beginRecover p).pool op index).activeMeta) _ = _
  rw [h1, applyOp_metaSlots]
  rfl

end

/-! ## the invariant -/

/-- an open pool: the watermark is the last committed number, nothing lies beyond it -/
structure Running (n : Nat) (p : Pool) (w : Nat) : Prop where
  mark : Watermark p.img p.activeMeta w
  covered : Covered p.img w
  next : p.nextSeq = w + 1
  count : p.blockCount = n

/-- the file between sessions: either every record is covered and the bitmap is `last`, with the
pending call or without it; or the record of the pending call is the only one beyond the
watermark, and the bitmap agrees with `last` away from its bit -/
def Settled (img : Image) (last : Bitmap) (pend : Option (Nat × Nat)) (w : Nat) : Prop :=
  Covered img w ∧ (img.bitmap = last ∨ ∃ o, pend = some o ∧ img.bitmap = applied last o)

def Unsettled (img : Image) (last : Bitmap) (pend : Option (Nat × Nat)) (w : Nat) : Prop :=
  ∃ op index, pend = some (op, index) ∧ OneBeyond img w op index ∧
    ∀ j, j ≠ index → img.bitmap.test j = last.test j

/-- the invariant after `ops` calls of allocate and free -/
def Inv (n ops : Nat) (s : Sys) : Prop :=
  match s.phase with
  | .running p => ∃ w, w ≤ ops ∧ Running n p w ∧ s.last = p.img.bitmap
  | .closed img => ∃ a w, Watermark img a w ∧
      ((w ≤ ops ∧ Settled img s.last s.pending w) ∨
        (w + 1 ≤ ops ∧ Unsettled img s.last s.pending w))

section
variable {n ops w : Nat} {p : Pool} {img : Image} {last : Bitmap} {pend : Option (Nat × Nat)}
  {a : Fin 2} {op index : Nat}

theorem Running.closed (h : Running n p w) (hw : w ≤ ops) (pend : Option (Nat × Nat)) :
    Inv n ops ⟨.closed p.img, p.img.bitmap, pend⟩ :=
  ⟨p.activeMeta, w, h.mark, Or.inl ⟨hw, h.covered, Or.inl rfl⟩⟩

theorem covered_update {img : Image} {w j : Nat} {e : WalEntry} (h : Covered img w)
    (he : ¬ e.Valid) : Covered { img with wal := Function.update img.wal j e } w := by
  intro i
  show (Function.update img.wal j e i).Valid → (Function.update img.wal j e i).seq ≤ w
  by_cases hi : i = j
  · subst hi
    rw [Function.update_self]
    exact fun hv => absurd hv he
  · rw [Function.update_of_ne hi]
    exact h i

/-- the ring once `wal_append` has written the record of the next operation -/
theorem Running.oneBeyond (h : Running n p w) (op index : Nat) :
    OneBeyond (walAppend (takeSeq p) p.nextSeq op index).img w op index := by
  have hn := h.next
  refine ⟨?_, fun j hj hv => ?_⟩
  · show Function.update p.img.wal (p.nextSeq % WAL_ENTRIES) _ _ = _
    rw [hn, Function.update_self]
  · have e : (walAppend (takeSeq p) p.nextSeq op index).img.wal j = p.img.wal j := by
      show Function.update p.img.wal (p.nextSeq % WAL_ENTRIES) _ j = _
      rw [hn, Function.update_of_ne hj]
    rw [e] at hv ⊢
    exact h.covered j hv

/-- moving the watermark past the one record beyond it covers everything -/
theorem OneBeyond.covered (h : OneBeyond img w op index) : Covered img (w + 1) := by
  intro j hv
  by_cases hj : j = (w + 1) % WAL_ENTRIES
  · rw [hj, h.here]
    exact le_refl _
  · exact le_trans (h.rest j hj hv) (Nat.le_succ w)

theorem Running.commit (h : Running n p w) (hw : w + 2 < 2 ^ 64) (op index : Nat) :
    Running n (commit p op index) (w + 1) ∧
      (commit p op index).img.bitmap = applied p.img.bitmap (op, index) := by
  have hn := h.next
  have ha : (applyOp (walAppend (takeSeq p) p.nextSeq op index) op index).activeMeta
      = p.activeMeta := applyOp_activeMeta _ _ _
  have hwal : (CPool.commit p op index).img.wal
      = (walAppend (takeSeq p) p.nextSeq op index).img.wal := applyOp_wal _ _ _
  refine ⟨⟨?_, ?_, ?_, ?_⟩, applyOp_bitmap _ _ _⟩
  · have hact : (CPool.commit p op index).activeMeta = other p.activeMeta := congrArg other ha
    rw [hact]
    apply h.mark.advance (Nat.lt_succ_self w)
    show Function.update (applyOp (walAppend (takeSeq p) p.nextSeq op index) op index).img.metaSlots
      (other (applyOp (walAppend (takeSeq p) p.nextSeq op index) op index).activeMeta)
      (mkMeta p.nextSeq _) = _
    rw [ha, applyOp_metaSlots, hn]
    rfl
  · intro j hv
    rw [hwal] at hv ⊢
    exact (h.oneBeyond op index).covered j hv
  · show (applyOp (walAppend (takeSeq p) p.nextSeq op index) op index).nextSeq = _
    rw [applyOp_nextSeq]
    show (p.nextSeq + 1) % 2 ^ 64 = w + 1 + 1
    rw [hn, Nat.mod_eq_of_lt hw]
  · exact (applyOp_blockCount _ _ _).trans h.count

/-- **Every crash inside `commit` leaves a file that recovery can settle.** -/
theorem Running.commitCrash (h : Running n p w) (hops : w < ops) (hw : w + 2 < 2 ^ 64)
    (hc : CommitCrash p op index img) :
    Inv n ops ⟨.closed img, p.img.bitmap, some (op, index)⟩ := by
  have hone := h.oneBeyond op index
  cases hc with
  | before => exact h.closed (le_of_lt hops) _
  | tornWal e he =>
    exact ⟨p.activeMeta, w, h.mark.congr rfl,
      Or.inl ⟨le_of_lt hops, covered_update h.covered he, Or.inl rfl⟩⟩
  | afterWal =>
    exact ⟨p.activeMeta, w, h.mark.congr rfl,
      Or.inr ⟨hops, op, index, rfl, hone, fun j _ => rfl⟩⟩
  | afterByte =>
    refine ⟨p.activeMeta, w, h.mark.congr (applyOp_metaSlots _ _ _),
      Or.inr ⟨hops, op, index, rfl, ⟨?_, ?_⟩, fun j hj => ?_⟩⟩
    · rw [applyOp_wal]
      exact hone.here
    · rw [applyOp_wal]
      exact hone.rest
    · rw [applyOp_bitmap]
      exact (Bitmap.test_put _ _ _ _).trans (if_neg hj)
  | tornMeta m hm =>
    refine ⟨p.activeMeta, w, h.mark.torn hm rfl,
      Or.inr ⟨hops, op, index, rfl, ⟨?_, ?_⟩, fun j hj => ?_⟩⟩
    · show (applyOp (walAppend (takeSeq p) p.nextSeq op index) op index).img.wal _ = _
      rw [applyOp_wal]
      exact hone.here
    · show ∀ j, _ →
        ((applyOp (walAppend (takeSeq p) p.nextSeq op index) op index).img.wal j).Valid →
        ((applyOp (walAppend (takeSeq p) p.nextSeq op index) op index).img.wal j).seq ≤ w
      rw [applyOp_wal]
      exact hone.rest
    · show (applyOp (walAppend (takeSeq p) p.nextSeq op index) op index).img.bitmap.test j = _
      rw [applyOp_bitmap]
      exact (Bitmap.test_put _ _ _ _).trans (if_neg hj)
  | afterMeta =>
    obtain ⟨hr, hb⟩ := h.commit hw op index
    exact ⟨_, w + 1, hr.mark,
      Or.inl ⟨hops, hr.covered, Or.inr ⟨(op, index), rfl, hb⟩⟩⟩

/-- the opened pool of a settled file has its bitmap -/
theorem open_settled (hm : Watermark img a w) (hc : Covered img w) (hw : w + 256 < 2 ^ 64) :
    Running n (hfPoolOpen n img) w ∧ (hfPoolOpen n img).img = img := by
  obtain ⟨h1, h2, h3, h4⟩ := recover_covered (p := handle n img) hm hc hw
  refine ⟨⟨?_, ?_, h3, h4⟩, h1⟩
  · show Watermark (recover (handle n img)).img (recover (handle n img)).activeMeta w
    rw [h1, h2]
    exact hm
  · show Covered (recover (handle n img)).img w
    rw [h1]
    exact hc

/-- the opened pool of an unsettled file has the pending call applied -/
theorem open_unsettled (hm : Watermark img a w) (ho : OneBeyond img w op index)
    (hw : w + 256 < 2 ^ 64) :
    Running n (hfPoolOpen n img) (w + 1) ∧
      (hfPoolOpen n img).img.bitmap = applied img.bitmap (op, index) := by
  obtain ⟨used, hr, hmeta⟩ := recover_one (p := handle n img) hm ho hw
  have hact : (beginRecover (handle n img)).pool.activeMeta = a := congrArg Prod.fst hm.select
  have hwal : (hfPoolOpen n img).img.wal = img.wal := by
    unfold hfPoolOpen
    rw [hr]
    exact applyOp_wal _ _ _
  refine ⟨⟨?_, ?_, ?_, ?_⟩, ?_⟩
  · have h1 : (hfPoolOpen n img).activeMeta = other a := by
      unfold hfPoolOpen
      rw [hr]
      show other (applyOp (beginRecover (handle n img)).pool op index).activeMeta = _
      rw [applyOp_activeMeta, hact]
    rw [h1]
    exact hm.advance (Nat.lt_succ_self w) hmeta
  · intro j hv
    rw [hwal] at hv ⊢
    exact ho.covered j hv
  · unfold hfPoolOpen
    rw [hr]
    rfl
  · unfold hfPoolOpen
    rw [hr]
    exact applyOp_blockCount _ _ _
  · unfold hfPoolOpen
    rw [hr]
    exact applyOp_bitmap _ _ _

/-- during the replay of an unsettled file no bit but the pending one moves -/
theorem replayed_test (hm : Watermark img a w) (ho : OneBeyond img w op index)
    (hw : w + 256 < 2 ^ 64) (k j : Nat) (hj : j ≠ index) :
    (replayed (handle n img) k).pool.img.bitmap.test j = img.bitmap.test j := by
  cases k with
  | zero => rfl
  | succ k =>
    rw [replayed_one (p := handle n img) hm ho hw, applyOp_bitmap]
    exact (Bitmap.test_put _ _ _ _).trans (if_neg hj)

/-- **Every crash inside recovery leaves a file that the next recovery can settle.** -/
theorem recoverCrash_inv {img' : Image} (h : Inv n ops ⟨.closed img, last, pend⟩)
    (hops : ops + 256 < 2 ^ 64) (hc : RecoverCrash (handle n img) img') :
    Inv n ops ⟨.closed img', last, pend⟩ := by
  obtain ⟨a, w, hm, ⟨hw, hcov, hb⟩ | ⟨hw, op, index, hp, ho, hb⟩⟩ := h
  · -- nothing to replay: the bitmap is not written and no slot is
    have hw' : w + 256 < 2 ^ 64 := by omega
    cases hc with
    | bitmap b hb' =>
      have e : b = img.bitmap := by
        funext j
        obtain ⟨k, hk⟩ := hb' j
        rw [hk, replayed_covered (p := handle n img) hm hcov hw']
        rfl
      subst e
      exact ⟨a, w, hm, Or.inl ⟨hw, hcov, hb⟩⟩
    | tornMeta m hmv hr =>
      rw [replayAll_eq (p := handle n img) hm hw', replayed_covered (p := handle n img) hm hcov hw']
        at hr
      exact absurd hr Bool.false_ne_true
    | afterMeta =>
      have e : (recover (handle n img)).img = img :=
        (recover_covered (p := handle n img) hm hcov hw').1
      rw [e]
      exact ⟨a, w, hm, Or.inl ⟨hw, hcov, hb⟩⟩
  · have hw' : w + 256 < 2 ^ 64 := by omega
    cases hc with
    | bitmap b hb' =>
      refine ⟨a, w, hm.congr rfl, Or.inr ⟨hw, op, index, hp, ⟨ho.here, ho.rest⟩, fun j hj => ?_⟩⟩
      obtain ⟨k, hk⟩ := hb' (j / 8)
      rw [← hb j hj, ← replayed_test (n := n) hm ho hw' k j hj]
      show (b (j / 8)).getLsbD (j % 8) = _
      rw [hk]
      rfl
    | tornMeta m hmv hr =>
      have hall : replayAll (handle n img) = replayed (handle n img) (255 + 1) :=
        replayAll_eq (p := handle n img) hm hw'
      have hone := replayed_one (p := handle n img) hm ho hw' 255
      have hact : (replayAll (handle n img)).pool.activeMeta = a := by
        rw [hall, hone, applyOp_activeMeta]
        exact congrArg Prod.fst hm.select
      have hwal : (replayAll (handle n img)).pool.img.wal = img.wal := by
        rw [hall, hone, applyOp_wal]
        rfl
      rw [hact]
      refine ⟨a, w, hm.torn hmv rfl, Or.inr ⟨hw, op, index, hp, ⟨?_, ?_⟩, fun j hj => ?_⟩⟩
      · show (replayAll (handle n img)).pool.img.wal _ = _
        rw [hwal]
        exact ho.here
      · show ∀ j, _ → ((replayAll (handle n img)).pool.img.wal j).Valid →
          ((replayAll (handle n img)).pool.img.wal j).seq ≤ w
        rw [hwal]
        exact ho.rest
      · show (replayAll (handle n img)).pool.img.bitmap.test j = _
        rw [hall, replayed_test hm ho hw' _ j hj, hb j hj]
    | afterMeta =>
      obtain ⟨hr, hbm⟩ := open_unsettled (n := n) hm ho hw'
      refine ⟨_, w + 1, hr.mark, Or.inl ⟨hw, hr.covered, Or.inr ⟨(op, index), hp, ?_⟩⟩⟩
      exact hbm.trans (Bitmap.put_congr hb)

theorem opCrash_inv {o : Option (Nat × Nat)} (h : Running n p w) (hops : w < ops)
    (hw : w + 2 < 2 ^ 64) (ho : ∀ op index, o = some (op, index) → index < 2 ^ 32)
    (hc : OpCrash p o img) : Inv n ops ⟨.closed img, p.img.bitmap, o⟩ := by
  cases hc with
  | idle => exact h.closed (le_of_lt hops) _
  | commit hc =>
    rename_i op index
    rw [Nat.mod_eq_of_lt (ho op index rfl)] at hc
    exact h.commitCrash hops hw hc

theorem commitOp_inv {o : Option (Nat × Nat)} (h : Running n p w) (hops : w < ops)
    (hw : w + 2 < 2 ^ 64) (pend : Option (Nat × Nat)) :
    Inv n ops ⟨.running (commitOp p o), (commitOp p o).img.bitmap, pend⟩ := by
  cases o with
  | none => exact ⟨w, le_of_lt hops, h, rfl⟩
  | some o => exact ⟨w + 1, hops, (h.commit hw _ _).1, rfl⟩

theorem allocateOp_lt (hn : p.blockCount ≤ 2 ^ 32) (h : allocateOp p = some (op, index)) :
    index < 2 ^ 32 := by
  unfold allocateOp firstFree at h
  obtain ⟨i, hi, e⟩ := Option.map_eq_some_iff.mp h
  have h1 := List.mem_range.mp (List.mem_of_find?_eq_some hi)
  have h2 : i = index := congrArg Prod.snd e
  omega

theorem freeOp_lt {i : Nat} (hn : p.blockCount ≤ 2 ^ 32) (h : freeOp p i = some (op, index)) :
    index < 2 ^ 32 := by
  unfold freeOp at h
  split at h
  · rename_i hi
    have h2 : i = index := congrArg Prod.snd (Option.some.inj h)
    omega
  · exact absurd h (by simp)

end

/-! ## whole lives -/

/-- the number of allocate and free calls among the actions -/
def opCount (as : List Act) : Nat := as.countP Act.isOp

theorem created_running (n : Nat) : Running n (created n) 0 := by
  refine ⟨⟨mkMeta_valid 0 0, rfl, fun hv => absurd hv ?_⟩, fun j _ => le_refl 0, rfl, rfl⟩
  show ¬ (⟨0, 0, 0⟩ : MetaSlot).Valid
  decide +kernel

theorem step_inv {n ops : Nat} {s s' : Sys} {act : Act} (hn : n ≤ 2 ^ 32)
    (hops : ops + 300 < 2 ^ 64) (h : Inv n ops s) (hs : Step n s act s') :
    Inv n (ops + if act.isOp then 1 else 0) s' := by
  cases hs with
  | openPool img last pend =>
    obtain ⟨a, w, hm, ⟨hw, hcov, hb⟩ | ⟨hw, op, index, hp, ho, hb⟩⟩ := h
    · exact ⟨w, hw, (open_settled hm hcov (by omega)).1, rfl⟩
    · exact ⟨w + 1, hw, (open_unsettled hm ho (by omega)).1, rfl⟩
  | openCrash img img' last pend hc =>
    have hlt : ops + 256 < 2 ^ 64 := by omega
    exact recoverCrash_inv h hlt hc
  | allocate p last pend =>
    obtain ⟨w, hw, hr, -⟩ := h
    exact commitOp_inv hr (Nat.lt_succ_of_le hw) (by omega) pend
  | allocateCrash p img last pend hc =>
    obtain ⟨w, hw, hr, hl⟩ := h
    have hl' : last = p.img.bitmap := hl
    subst hl'
    exact opCrash_inv hr (Nat.lt_succ_of_le hw) (by omega)
      (fun op index e => allocateOp_lt (hr.count ▸ hn) e) hc
  | free p index last pend =>
    obtain ⟨w, hw, hr, -⟩ := h
    exact commitOp_inv hr (Nat.lt_succ_of_le hw) (by omega) pend
  | freeCrash p index img last pend hc =>
    obtain ⟨w, hw, hr, hl⟩ := h
    have hl' : last = p.img.bitmap := hl
    subst hl'
    exact opCrash_inv hr (Nat.lt_succ_of_le hw) (by omega)
      (fun op index e => freeOp_lt (hr.count ▸ hn) e) hc
  | close p last pend =>
    obtain ⟨w, hw, hr, hl⟩ := h
    have hl' : last = p.img.bitmap := hl
    subst hl'
    exact hr.closed hw none
  | crash p last pend =>
    obtain ⟨w, hw, hr, hl⟩ := h
    have hl' : last = p.img.bitmap := hl
    subst hl'
    exact hr.closed hw none

theorem run_inv {n : Nat} {s : Sys} {as : List Act} (hn : n ≤ 2 ^ 32)
    (hrun : Steps (Step n) (Sys.created n) as s) (hops : opCount as < 2 ^ 63) :
    Inv n (opCount as) s := by
  refine hrun.invariant_trace (I := fun as s => opCount as < 2 ^ 63 → Inv n (opCount as) s)
    (fun _ => ⟨0, le_refl 0, created_running n, rfl⟩) ?_ hops
  intro as s act s' ih hs hlt
  have hcount : opCount (as ++ [act]) = opCount as + if act.isOp then 1 else 0 := by
    simp [opCount, List.countP_append, List.countP_cons]
  rw [hcount] at hlt ⊢
  have h0 : opCount as < 2 ^ 63 := by omega
  exact step_inv hn (by omega) (ih h0) hs

/-- **Crash consistency.**  In every life of a completely created pool, a completed open yields
the bitmap of the last returned call, with the interrupted call wholly applied or not at all. -/
theorem open_restores {n : Nat} {s s' : Sys} {as : List Act} (hn : n ≤ 2 ^ 32)
    (hrun : Steps (Step n) (Sys.created n) as s) (hops : opCount as < 2 ^ 63)
    (hopen : Step n s .openPool s') :
    ∃ p, s'.phase = .running p ∧
      (p.img.bitmap = s.last ∨ ∃ o, s.pending = some o ∧ p.img.bitmap = applied s.last o) := by
  have hinv := run_inv hn hrun hops
  cases hopen with
  | openPool img last pend =>
    refine ⟨hfPoolOpen n img, rfl, ?_⟩
    obtain ⟨a, w, hm, ⟨hw, hcov, hb⟩ | ⟨hw, op, index, hp, ho, hb⟩⟩ := hinv
    · rw [(open_settled (n := n) hm hcov (by omega)).2]
      exact hb
    · right
      refine ⟨(op, index), hp, ?_⟩
      rw [(open_unsettled (n := n) hm ho (by omega)).2]
      exact Bitmap.put_congr hb

/-- the first allocation of a pool of eight blocks, cut off once its log record is written: the
next open yields the empty bitmap or the one with block `0` allocated -/
theorem open_restores_after_log_write :
    ∃ (img : Image) (p : Pool) (s : Sys),
      Steps (Step 8) (Sys.created 8) [.allocateCrash] ⟨.closed img, Bitmap.empty, some (1, 0)⟩ ∧
      Step 8 ⟨.closed img, Bitmap.empty, some (1, 0)⟩ .openPool s ∧ s.phase = .running p ∧
      (p.img.bitmap = Bitmap.empty ∨ ∃ o, some ((1, 0) : Nat × Nat) = some o ∧
        p.img.bitmap = applied Bitmap.empty o) := by
  have hw : CommitCrash (created 8) 1 (0 % 2 ^ 32)
      (walAppend (takeSeq (created 8)) (created 8).nextSeq 1 0).img := CommitCrash.afterWal
  have hc : OpCrash (created 8) (allocateOp (created 8))
      (walAppend (takeSeq (created 8)) (created 8).nextSeq 1 0).img := OpCrash.commit hw
  have hrun : Steps (Step 8) (Sys.created 8) [.allocateCrash]
      ⟨.closed (walAppend (takeSeq (created 8)) (created 8).nextSeq 1 0).img, Bitmap.empty,
        some (1, 0)⟩ :=
    (Steps.nil _).snoc (Step.allocateCrash (created 8) _ _ none hc)
  have hopen := Step.openPool (n := 8)
    (walAppend (takeSeq (created 8)) (created 8).nextSeq 1 0).img Bitmap.empty (some (1, 0))
  obtain ⟨p, hp, h⟩ := open_restores (by decide) hrun (by decide) hopen
  exact ⟨_, p, _, hrun, hopen, hp, h⟩

end HeapForge.CPool
