import HeapForge.CPool.Restart
import HeapForge.CPool.Marks

/-!
# A file and the disk behind it

While a pool is used the disk lags behind the file: of what was written since the last sync any part
may have been written back.  A killed process leaves its file like that, and the next one goes on
with it; when the power fails, the disk is the file.

* `Outcome`     a call is wholly done or not at all;
* `Lag`         what holds of the file and the disk, whatever has been written back: the records
                beyond the watermark are harmless or belong to the one unfinished call;
* `Half`        a file of which a slot or a record is half written;
* `Lag.mix`     a write-back keeps it; so do the writes of a call (`Lag.half`, `Lag.append`,
                `Lag.advance`);
* `Near`        the newest slot on the disk is the newest of the file, or the one before;
* `Lag.power`   **if the power fails then, the disk is a file from which recovery gives an outcome
                of the unfinished call.**
-/

set_option linter.unusedSectionVars false
set_option linter.unusedVariables false

namespace HeapForge.CPool
open Lib

/-! ## outcomes of an unfinished call -/

def Outcome (b : Bitmap) (o : Option (Nat × Nat)) (u : Bitmap) : Prop :=
  u = b ∨ ∃ x, o = some x ∧ u = applied b x

/-- to replay the record changes nothing, or does what the call does -/
def Tame (b : Bitmap) (o : Option (Nat × Nat)) (e : WalEntry) : Prop :=
  applied b (e.op, e.index) = b ∨ ∃ x, o = some x ∧ e.write = (x.2, decide (x.1 = WAL_OP_ALLOC))

section
variable {b u : Bitmap} {o : Option (Nat × Nat)} {e : WalEntry} {es : List WalEntry} {x : Nat × Nat}

theorem outcome_none : Outcome b none u ↔ u = b := by
  constructor
  · rintro (h | ⟨x, hx, -⟩)
    · exact h
    · cases hx
  · exact Or.inl

theorem applied_of_ne {j : Nat} (hj : j ≠ x.2 / 8) : applied b x j = b j := by
  refine Bitmap.byte_ext j fun i hi => (Bitmap.test_put _ _ _ _).trans (if_neg ?_)
  rintro rfl
  exact hj hi.symm

theorem applied_applied (b : Bitmap) (x : Nat × Nat) : applied (applied b x) x = applied b x :=
  Bitmap.put_eq_self ((Bitmap.test_put _ _ _ _).trans (if_pos rfl))

theorem test_of_applied_eq (h : applied b x = b) : b.test x.2 = decide (x.1 = WAL_OP_ALLOC) := by
  have ht := congrArg (fun u => Bitmap.test u x.2) h
  exact ht.symm.trans ((Bitmap.test_put _ _ _ _).trans (if_pos rfl))

/-- one record is replayed -/
theorem Outcome.redo (hu : Outcome b o u) (he : Tame b o e) :
    Outcome b o (u.put e.write.1 e.write.2) := by
  rcases he with hb | ⟨x, rfl, hw⟩
  · have ht : b.test e.index = decide (e.op = WAL_OP_ALLOC) := test_of_applied_eq hb
    rcases hu with rfl | ⟨x, rfl, rfl⟩
    · exact Or.inl hb
    · by_cases hi : e.index = x.2
      · -- the bit of the call gets its old value back
        refine Or.inl (Bitmap.ext fun j => ?_)
        show ((applied b x).put e.index _).test j = _
        rw [Bitmap.test_put]
        split
        · rename_i hj
          rw [hj]
          exact ht.symm
        · rename_i hj
          exact (Bitmap.test_put _ _ _ _).trans (if_neg fun h => hj (h.trans hi.symm))
      · refine Or.inr ⟨x, rfl, Bitmap.put_eq_self ?_⟩
        exact ((Bitmap.test_put _ _ _ _).trans (if_neg hi)).trans ht
  · rw [hw]
    refine Or.inr ⟨x, rfl, ?_⟩
    rcases hu with rfl | ⟨y, hy, rfl⟩
    · rfl
    · obtain rfl := Option.some.inj hy
      exact applied_applied b x

theorem Outcome.redoAll (hu : Outcome b o u) (h : ∀ e ∈ es, Tame b o e) :
    Outcome b o (u.putAll (es.map WalEntry.write)) := by
  induction es generalizing u with
  | nil => exact hu
  | cons e es ih =>
    exact ih (hu.redo (h e List.mem_cons_self)) fun e' he' => h e' (List.mem_cons_of_mem _ he')

/-- bytes of several outcomes: the call is in one byte -/
theorem Outcome.mix (h : ∀ j, ∃ u', Outcome b o u' ∧ u j = u' j) : Outcome b o u := by
  cases o with
  | none =>
    refine Or.inl (funext fun j => ?_)
    obtain ⟨u', hu', hj⟩ := h j
    rw [hj, outcome_none.mp hu']
  | some x =>
    have hrest : ∀ j, j ≠ x.2 / 8 → u j = b j := by
      intro j hj
      obtain ⟨u', hu', he⟩ := h j
      rw [he]
      rcases hu' with rfl | ⟨y, hy, rfl⟩
      · rfl
      · obtain rfl := Option.some.inj hy
        exact applied_of_ne hj
    obtain ⟨u', hu', he⟩ := h (x.2 / 8)
    rcases hu' with rfl | ⟨y, hy, rfl⟩
    · refine Or.inl (funext fun j => ?_)
      by_cases hj : j = x.2 / 8
      · rw [hj, he]
      · exact hrest j hj
    · obtain rfl := Option.some.inj hy
      refine Or.inr ⟨x, rfl, funext fun j => ?_⟩
      by_cases hj : j = x.2 / 8
      · rw [hj, he]
      · exact (hrest j hj).trans (applied_of_ne hj).symm

/-- two outcomes that agree in the byte of the call -/
theorem Outcome.eq_of_byte {u' : Bitmap} (hu : Outcome b o u) (hu' : Outcome b o u')
    (h : ∀ x, o = some x → u (x.2 / 8) = u' (x.2 / 8)) : u = u' := by
  cases o with
  | none => rw [outcome_none.mp hu, outcome_none.mp hu']
  | some x =>
    have hrest : ∀ {w : Bitmap}, Outcome b (some x) w → ∀ j, j ≠ x.2 / 8 → w j = b j := by
      intro w hw j hj
      rcases hw with rfl | ⟨y, hy, rfl⟩
      · rfl
      · obtain rfl := Option.some.inj hy
        exact applied_of_ne hj
    funext j
    by_cases hj : j = x.2 / 8
    · rw [hj]
      exact h x rfl
    · exact (hrest hu j hj).trans (hrest hu' j hj).symm

end

/-! ## the newest slot -/

section
variable {img : Image} {a i : Fin 2} {w : Nat}

/-- no valid slot is newer than the one selected -/
theorem Marked.le (h : Marked img a w) (hi : (img.metaSlots i).Valid) :
    (img.metaSlots i).seq ≤ w := by
  have hsel := h.select
  unfold selectMeta at hsel
  by_cases h0 : (img.metaSlots 0).Valid
  · by_cases h1 : (img.metaSlots 1).Valid ∧ (img.metaSlots 0).seq ≤ (img.metaSlots 1).seq
    · simp only [pickMeta, if_pos h0, if_pos h1, Option.getD_some, Prod.mk.injEq] at hsel
      rcases eq_or_other 0 i with rfl | rfl
      · rw [← hsel.2]
        exact h1.2
      · exact Nat.le_of_eq hsel.2
    · simp only [pickMeta, if_pos h0, if_neg h1, Option.getD_some, Prod.mk.injEq] at hsel
      rcases eq_or_other 0 i with rfl | rfl
      · exact Nat.le_of_eq hsel.2
      · have hlt : ¬ (img.metaSlots 0).seq ≤ (img.metaSlots 1).seq := fun hle => h1 ⟨hi, hle⟩
        have hle : (img.metaSlots 1).seq ≤ w := by omega
        exact hle
  · rcases eq_or_other 0 i with rfl | rfl
    · exact absurd hi h0
    · have h1 : (img.metaSlots 1).Valid := hi
      simp only [pickMeta, if_neg h0, if_pos h1, Option.getD_some, Prod.mk.injEq] at hsel
      exact Nat.le_of_eq hsel.2

end

/-! ## the file and the disk -/

/-- the slot of the watermark has not reached the disk: the record of the watermark is then
harmless, and at most one number is beyond it -/
structure Late (C D : Image) (v : Nat) (b : Bitmap) : Prop where
  harmless : ∀ e, record D.wal v = some e ∨ record C.wal v = some e → applied b (e.op, e.index) = b
  ahead : ∀ s e, record C.wal s = some e → s ≤ v + 1

/-- the file `C` of a pool of `n` blocks, and the disk `D` behind it: the slot `a` of the file has
the watermark `v`, the pool has the blocks `b` and the call `o` is unfinished; `K` bounds all
numbers -/
structure Lag (n K : Nat) (C D : Image) (a : Fin 2) (v : Nat) (b : Bitmap)
    (o : Option (Nat × Nat)) :
    Prop where
  mark : Marked C a v
  tame : ∀ s e, record C.wal s = some e → s ≤ v ∨ (s ≤ v + 2 ∧ Tame b o e)
  file : Outcome b o C.bitmap
  quiet : (∀ s, v < s → record C.wal s = none) → o = none
  slots : ∀ i, (D.metaSlots i).Valid → (D.metaSlots i).seq ≤ v
  ring : ∀ s e, record D.wal s = some e → s ≤ v ∨ record C.wal s = some e
  disk : Outcome b o D.bitmap
  fresh : D.metaSlots a = C.metaSlots a ∨ Late C D v b
  most : v ≤ K
  bound : ∀ s e, record C.wal s = some e → s ≤ K
  log : LogIn n C ∧ LogIn n D
  block : ∀ x, o = some x → x.2 < n

/-- every record of the file is covered by the watermark -/
def Done (C : Image) (v : Nat) : Prop := ∀ s e, record C.wal s = some e → s ≤ v

/-- the newest slot on the disk has the number of the newest slot of the file, or the one before -/
def Near (C D : Image) : Prop :=
  ∃ i, (D.metaSlots i).Valid ∧ (selectMeta C).2 ≤ (D.metaSlots i).seq + 1

/-- the slot of the watermark is on the disk, and at most one number is beyond it -/
structure Anchored (C D : Image) (a : Fin 2) (v : Nat) : Prop where
  slot : D.metaSlots a = C.metaSlots a
  ahead : ∀ s e, record C.wal s = some e → s ≤ v + 1

/-- some slot on the disk is at most one number behind the newest slot and the records of the
file -/
def Tied (C D : Image) : Prop :=
  ∃ i, (D.metaSlots i).Valid ∧ (selectMeta C).2 ≤ (D.metaSlots i).seq + 1
    ∧ ∀ s e, record C.wal s = some e → s ≤ (D.metaSlots i).seq + 1

section
variable {n K : Nat} {F C C' D D' : Image} {a : Fin 2} {v w used : Nat} {b : Bitmap}
  {o : Option (Nat × Nat)} {x : Nat × Nat} {e : WalEntry} {m : MetaSlot}

theorem record_update_of_ne {wal : Nat → WalEntry} {k s : Nat} (hs : s % WAL_ENTRIES ≠ k) :
    record (Function.update wal k e) s = record wal s := by
  unfold record
  rw [Function.update_of_ne hs]

/-- the file `F`, of which the slot that is not `a` or a record up to `v` may be half written -/
structure Half (F C : Image) (a : Fin 2) (v : Nat) : Prop where
  slot : ∀ i, (C.metaSlots i).Valid → C.metaSlots i = F.metaSlots i
  active : C.metaSlots a = F.metaSlots a
  record : ∀ j, (C.wal j).Valid → C.wal j = F.wal j
  beyond : ∀ s e, v < s → CPool.record F.wal s = some e → CPool.record C.wal s = some e

theorem Half.refl (C : Image) (a : Fin 2) (v : Nat) : Half C C a v :=
  ⟨fun _ _ => rfl, rfl, fun _ _ => rfl, fun _ _ _ hr => hr⟩

theorem Half.marked (h : Half F C a v) (hm : Marked F a w) : Marked C a w := by
  by_cases ho : (C.metaSlots (other a)).Valid
  · refine hm.congr (funext fun i => ?_)
    rcases eq_or_other a i with rfl | rfl
    · exact h.active
    · exact h.slot _ ho
  · exact Watermark.marked ⟨h.active ▸ hm.valid, h.active ▸ hm.seq, fun hv => absurd hv ho⟩

theorem Half.record_of {s : Nat} (h : Half F C a v) (hr : CPool.record C.wal s = some e) :
    CPool.record F.wal s = some e := by
  obtain ⟨h1, h2, h3⟩ := record_eq_some.mp hr
  exact record_eq_some.mpr ⟨(h.record _ (h1 ▸ h3)).symm.trans h1, h2, h3⟩

theorem Lag.mono {J : Nat} (h : Lag n K C D a v b o) (hJ : K ≤ J) : Lag n J C D a v b o :=
  { h with
    most := Nat.le_trans h.most hJ
    bound := fun s e he => Nat.le_trans (h.bound s e he) hJ }

/-- a file of which a slot or a record is half written has what else is valid in the file before
it -/
theorem Lag.half (h : Lag n K F D a v b o) (hh : Half F C a v) (hb : Outcome b o C.bitmap) :
    Lag n K C D a v b o where
  mark := hh.marked h.mark
  tame := fun s e hr => h.tame s e (hh.record_of hr)
  file := hb
  quiet := by
    intro hq
    refine h.quiet fun s hs => ?_
    cases hr : record F.wal s with
    | none => rfl
    | some e =>
      have hC := hh.beyond s e hs hr
      rw [hq s hs] at hC
      cases hC
  slots := h.slots
  ring := by
    intro s e hr
    rcases Nat.lt_or_ge v s with hs | hs
    · exact (h.ring s e hr).imp_right (hh.beyond s e hs)
    · exact Or.inl hs
  disk := h.disk
  fresh := by
    rw [hh.active]
    refine h.fresh.imp_right fun hl =>
      ⟨fun e hr => ?_, fun s e hr => hl.ahead s e (hh.record_of hr)⟩
    exact hl.harmless e (hr.imp_right hh.record_of)
  most := h.most
  bound := fun s e hr => h.bound s e (hh.record_of hr)
  log := by
    refine ⟨fun j hj => ?_, h.log.2⟩
    have heq := hh.record j hj
    rw [heq] at hj ⊢
    exact h.log.1 j hj
  block := h.block

/-- the next record comes into the ring -/
theorem Done.append {s : Nat} (hc : Done C v)
    (hw : C'.wal = Function.update C.wal ((v + 1) % WAL_ENTRIES) (mkWal (v + 1) x.1 x.2))
    (hr : record C'.wal s = some e) :
    (s ≤ v ∧ record C.wal s = some e) ∨ (s = v + 1 ∧ e = mkWal (v + 1) x.1 x.2) := by
  rw [hw] at hr
  by_cases hk : s % WAL_ENTRIES = (v + 1) % WAL_ENTRIES
  · obtain ⟨h1, h2, -⟩ := record_eq_some.mp hr
    rw [hk, Function.update_self] at h1
    subst h1
    exact Or.inr ⟨h2.symm, rfl⟩
  · rw [record_update_of_ne hk] at hr
    exact Or.inl ⟨hc s e hr, hr⟩

/-- the record of a call stands -/
theorem Lag.append (h : Lag n K C D a v b none) (hc : Done C v) (hK : v + 1 ≤ K) (hx : x.2 < n)
    (hs : C'.metaSlots = C.metaSlots)
    (hw : C'.wal = Function.update C.wal ((v + 1) % WAL_ENTRIES) (mkWal (v + 1) x.1 x.2))
    (hb : C'.bitmap = C.bitmap) : Lag n K C' D a v b (some x) := by
  have hnew := fun s e => hc.append (s := s) (e := e) hw
  have hbit : C.bitmap = b := outcome_none.mp h.file
  refine ⟨h.mark.congr hs, fun s e hr => ?_, Or.inl (hb.trans hbit), fun hq => ?_, h.slots,
    fun s e hr => Or.inl ((h.ring s e hr).elim id (hc s e)), Or.inl (outcome_none.mp h.disk),
      ?_, h.most,
    fun s e hr => ?_, ⟨fun j hj => ?_, h.log.2⟩, fun y hy => ?_⟩
  · rcases hnew s e hr with ⟨hle, -⟩ | ⟨rfl, rfl⟩
    · exact Or.inl hle
    · exact Or.inr ⟨by omega, Or.inr ⟨x, rfl, rfl⟩⟩
  · have hself : record C'.wal (v + 1) = some (mkWal (v + 1) x.1 x.2) := by
      rw [hw]
      exact record_eq_some.mpr ⟨Function.update_self .., rfl, mkWal_valid _ _ _⟩
    rw [hq (v + 1) (by omega)] at hself
    cases hself
  · rw [hs]
    refine h.fresh.imp_right fun hl => ⟨fun e hr => ?_, fun s e hr => ?_⟩
    · refine hl.harmless e (hr.imp_right fun hr => ?_)
      rcases hnew v e hr with ⟨-, hold⟩ | ⟨heq, -⟩
      · exact hold
      · omega
    · rcases hnew s e hr with ⟨hle, -⟩ | ⟨rfl, -⟩
      · omega
      · exact Nat.le_refl _
  · rcases hnew s e hr with ⟨-, hold⟩ | ⟨rfl, -⟩
    · exact h.bound s e hold
    · exact hK
  · rw [hw] at hj ⊢
    by_cases hk : j = (v + 1) % WAL_ENTRIES
    · subst hk
      rw [Function.update_self]
      exact hx
    · rw [Function.update_of_ne hk] at hj ⊢
      exact h.log.1 j hj
  · obtain rfl := Option.some.inj hy
    exact hx

/-- the slot of a finished call stands -/
theorem Lag.advance (h : Lag n K C D a v b o) (hlt : v < w) (hK : w ≤ K) (hc : Done C w)
    (hD : D.bitmap = C.bitmap)
    (hdone : ∀ e, record C.wal w = some e → applied C.bitmap (e.op, e.index) = C.bitmap)
    (hs : C'.metaSlots = Function.update C.metaSlots (other a) (mkMeta w used))
    (hw : C'.wal = C.wal) (hb : C'.bitmap = C.bitmap) : Lag n K C' D (other a) w C.bitmap none where
  mark := h.mark.advance hlt hs
  tame := fun s e hr => Or.inl (hc s e (hw ▸ hr))
  file := Or.inl hb
  quiet := fun _ => rfl
  slots := fun i hi => Nat.le_trans (h.slots i hi) (Nat.le_of_lt hlt)
  ring := fun s e hr => Or.inl ((h.ring s e hr).elim (fun hle => by omega) (hc s e))
  disk := Or.inl hD
  fresh := by
    refine Or.inr ⟨fun e hr => hdone e ?_, fun s e hr => ?_⟩
    · rcases hr with hr | hr
      · rcases h.ring w e hr with hle | hC
        · omega
        · exact hC
      · exact hw ▸ hr
    · have := hc s e (hw ▸ hr)
      omega
  most := hK
  bound := fun s e hr => h.bound s e (hw ▸ hr)
  log := ⟨fun j => by rw [hw]; exact h.log.1 j, h.log.2⟩
  block := fun y hy => by cases hy

/-- **Parts of the file are written back**, while a record or a slot is half written. -/
theorem Lag.mix (h : Lag n K F D a v b o) (hh : Half F C a v)
    (hslot : ∀ i, (D'.metaSlots i).Valid →
      D'.metaSlots i = D.metaSlots i ∨ D'.metaSlots i = C.metaSlots i)
    (hrec : ∀ j, (D'.wal j).Valid → D'.wal j = D.wal j ∨ D'.wal j = C.wal j)
    (hkeep : D.metaSlots a = F.metaSlots a → D'.metaSlots a = F.metaSlots a)
    (hb : Outcome b o D'.bitmap) : Lag n K F D' a v b o := by
  have hold : ∀ s e, record D'.wal s = some e →
      record D.wal s = some e ∨ record F.wal s = some e := by
    intro s e hr
    obtain ⟨h1, h2, h3⟩ := record_eq_some.mp hr
    rcases hrec (s % WAL_ENTRIES) (h1 ▸ h3) with heq | heq
    · exact Or.inl (record_eq_some.mpr ⟨heq.symm.trans h1, h2, h3⟩)
    · exact Or.inr (hh.record_of (record_eq_some.mpr ⟨heq.symm.trans h1, h2, h3⟩))
  refine { h with slots := ?_, ring := ?_, disk := hb, fresh := ?_, log := ⟨h.log.1, ?_⟩ }
  · intro i hi
    rcases hslot i hi with heq | heq
    · rw [heq] at hi ⊢
      exact h.slots i hi
    · rw [heq] at hi ⊢
      have hF := hh.slot i hi
      rw [hF] at hi ⊢
      exact h.mark.le hi
  · intro s e hr
    rcases hold s e hr with hr | hr
    · exact h.ring s e hr
    · exact Or.inr hr
  · refine h.fresh.imp hkeep fun hl => ⟨fun e hr => ?_, hl.ahead⟩
    rcases hr with hr | hr
    · exact hl.harmless e (hold v e hr)
    · exact hl.harmless e (Or.inr hr)
  · intro j hj
    rcases hrec j hj with heq | heq
    · rw [heq] at hj ⊢
      exact h.log.2 j hj
    · rw [heq] at hj ⊢
      have hF := hh.record j hj
      rw [hF] at hj ⊢
      exact h.log.1 j hj

/-! ## the power fails -/

theorem Tied.near (h : Tied C D) : Near C D := by
  obtain ⟨i, hi, hle, -⟩ := h
  exact ⟨i, hi, hle⟩

theorem Anchored.tied (h : Anchored C D a v) (hm : Marked C a v) : Tied C D := by
  have hseq : (D.metaSlots a).seq = v := by rw [h.slot, hm.seq]
  refine ⟨a, h.slot ▸ hm.valid, ?_, ?_⟩
  · rw [hm.select, hseq]
    exact Nat.le_succ v
  · rw [hseq]
    exact h.ahead

/-- the watermark of the disk, and the records beyond it -/
theorem Lag.disk_mark (h : Lag n K C D a v b o) (hn : Near C D) :
    ∃ a' v', Marked D a' v' ∧ v' ≤ v
      ∧ ∀ s e, record D.wal s = some e → s ≤ v' ∨ (s ≤ v' + 2 ∧ Tame b o e) := by
  obtain ⟨i, hi, hle⟩ := hn
  rw [h.mark.select] at hle
  have hm := marked_of_valid ⟨i, hi⟩
  have hge : (D.metaSlots i).seq ≤ (selectMeta D).2 := hm.le hi
  have hv : (selectMeta D).2 ≤ v := hm.seq ▸ h.slots _ hm.valid
  have hle' : v ≤ (selectMeta D).2 + 1 := by
    have hle'' : v ≤ (D.metaSlots i).seq + 1 := hle
    omega
  refine ⟨_, _, hm, hv, fun s e hr => ?_⟩
  generalize (selectMeta D).2 = v' at *
  by_cases heq : v' = v
  · subst heq
    rcases h.ring s e hr with hs | hC
    · exact Or.inl hs
    · exact h.tame s e hC
  · -- the disk is one slot behind, so the slot of the watermark is not on it
    have hlate : Late C D v b := by
      rcases h.fresh with hf | hl
      · have hval : (D.metaSlots a).Valid := hf ▸ h.mark.valid
        have hseq : (D.metaSlots a).seq = v := by rw [hf, h.mark.seq]
        have := hm.le hval
        omega
      · exact hl
    have hcases : s ≤ v ∨ (v < s ∧ record C.wal s = some e) := by
      rcases h.ring s e hr with hs | hC
      · exact Or.inl hs
      · rcases Nat.lt_or_ge v s with hs | hs
        · exact Or.inr ⟨hs, hC⟩
        · exact Or.inl hs
    rcases hcases with hs | ⟨hs, hC⟩
    · by_cases hsv : s = v
      · subst hsv
        exact Or.inr ⟨by omega, Or.inl (hlate.harmless e (Or.inl hr))⟩
      · exact Or.inl (by omega)
    · have := hlate.ahead s e hC
      rcases h.tame s e hC with hle | ⟨-, ht⟩
      · omega
      · exact Or.inr ⟨by omega, ht⟩

/-- **The disk as a file**: what it can give back, the file could. -/
theorem Lag.power (h : Lag n K C D a v b o) (hn : Near C D) :
    ∃ a' v' b' o', Lag n K D D a' v' b' o' ∧ (Tied C D → Anchored D D a' v')
      ∧ ∀ u, Outcome b' o' u → Outcome b o u := by
  obtain ⟨a', v', hm, hle, htame⟩ := h.disk_mark hn
  have hbound : ∀ s e, record D.wal s = some e → s ≤ K := by
    intro s e hr
    rcases h.ring s e hr with hs | hC
    · exact Nat.le_trans hs h.most
    · exact h.bound s e hC
  have hself : ∀ {b' : Bitmap} {o' : Option (Nat × Nat)}, Outcome b' o' D.bitmap →
      (∀ s e, record D.wal s = some e → s ≤ v' ∨ (s ≤ v' + 2 ∧ Tame b' o' e)) →
      ((∀ s, v' < s → record D.wal s = none) → o' = none) → (∀ x, o' = some x → x.2 < n) →
      Lag n K D D a' v' b' o' := fun hb ht hq hx =>
    ⟨hm, ht, hb, hq, fun i hi => hm.le hi, fun s e hr => Or.inr hr, hb, Or.inl rfl,
      Nat.le_trans hle h.most, hbound, ⟨h.log.2, h.log.2⟩, hx⟩
  have htied : Tied C D → Anchored D D a' v' := by
    rintro ⟨i, hi, hsel, hrec⟩
    have hge := hm.le hi
    rw [h.mark.select] at hsel
    refine ⟨rfl, fun s e hr => ?_⟩
    rcases h.ring s e hr with hs | hC
    · have hsel' : v ≤ (D.metaSlots i).seq + 1 := hsel
      omega
    · have := hrec s e hC
      omega
  by_cases hq : ∀ s, v' < s → record D.wal s = none
  · -- nothing to replay: the disk is what it is
    refine ⟨a', v', D.bitmap, none, hself (Or.inl rfl) (fun s e hr => Or.inl ?_) (fun _ => rfl)
      (fun x hx => by cases hx), htied, fun u hu => outcome_none.mp hu ▸ h.disk⟩
    by_contra hs
    rw [hq s (by omega)] at hr
    cases hr
  · exact ⟨a', v', b, o, hself h.disk htame (fun hall => absurd hall hq) h.block, htied,
      fun u hu => hu⟩

/-! ## the next open -/

theorem Lag.mem_records (h : Lag n K C D a v b o) (hK : K + 300 < 2 ^ 64) :
    e ∈ records C ↔ v < e.seq ∧ record C.wal e.seq = some e := by
  have hv := h.most
  rw [CPool.mem_records h.mark (by omega), record_eq_some]
  constructor
  · rintro ⟨h1, -, h3, h4⟩
    exact ⟨h1, h3, rfl, h4⟩
  · rintro ⟨h1, h3, -, h4⟩
    refine ⟨h1, ?_, h3, h4⟩
    rcases h.tame e.seq e (record_eq_some.mpr ⟨h3, rfl, h4⟩) with hle | ⟨hle, -⟩
    · omega
    · omega

theorem Lag.records_tame (h : Lag n K C D a v b o) (hK : K + 300 < 2 ^ 64) (he : e ∈ records C) :
    Tame b o e := by
  obtain ⟨h1, h2⟩ := (h.mem_records hK).mp he
  rcases h.tame e.seq e h2 with hle | ⟨-, ht⟩
  · omega
  · exact ht

/-- **What the next open makes of the file.** -/
theorem Lag.restored (h : Lag n K C D a v b o) (hK : K + 300 < 2 ^ 64) :
    Outcome b o (hfPoolOpen n C).img.bitmap := by
  have hb : (hfPoolOpen n C).img.bitmap = C.bitmap.putAll ((records C).map WalEntry.write) :=
    recover_bitmap_eq _
  rw [hb]
  exact h.file.redoAll fun e he => h.records_tame hK he

theorem Lag.lastSeq_le (h : Lag n K C D a v b o) (hK : K + 300 < 2 ^ 64) :
    lastSeq v (records C) ≤ K :=
  lastSeq_le_iff.mpr ⟨h.most, fun e he => h.bound e.seq e ((h.mem_records hK).mp he).2⟩

theorem Lag.lt_lastSeq (h : Lag n K C D a v b o) (hK : K + 300 < 2 ^ 64) (hne : records C ≠ []) :
    v < lastSeq v (records C) := by
  obtain ⟨e, he⟩ := List.exists_mem_of_ne_nil _ hne
  have h1 := ((h.mem_records hK).mp he).1
  have h2 := (lastSeq_le_iff.mp (Nat.le_refl (lastSeq v (records C)))).2 e he
  omega

/-- behind the last record there is none -/
theorem Lag.done_lastSeq (h : Lag n K C D a v b o) (hK : K + 300 < 2 ^ 64) :
    Done C (lastSeq v (records C)) := by
  intro s e hr
  obtain ⟨h1, h2⟩ := lastSeq_le_iff.mp (Nat.le_refl (lastSeq v (records C)))
  obtain ⟨-, hs, -⟩ := record_eq_some.mp hr
  rcases Nat.lt_or_ge v s with hlt | hge
  · subst hs
    exact h2 e ((h.mem_records hK).mpr ⟨hlt, hr⟩)
  · exact Nat.le_trans hge h1

theorem Lag.quiet_of_records (h : Lag n K C D a v b o) (hK : K + 300 < 2 ^ 64)
    (he : records C = []) :
    Done C v ∧ o = none := by
  have hd : Done C v := by
    have := h.done_lastSeq hK
    rw [he] at this
    exact this
  refine ⟨hd, h.quiet fun s hs => ?_⟩
  cases hr : record C.wal s with
  | none => rfl
  | some e => exact absurd (hd s e hr) (by omega)

/-- the replay before the slot is written -/
theorem Marked.replayAll (h : Marked C a v) (n : Nat) :
    (replayAll (handle n C)).replayed = !(records C).isEmpty
      ∧ (replayAll (handle n C)).maxSeq = lastSeq v (records C)
      ∧ (replayAll (handle n C)).pool.activeMeta = a
      ∧ (replayAll (handle n C)).pool.img.bitmap
        = C.bitmap.putAll ((records C).map WalEntry.write) := by
  rw [replayAll_records]
  refine ⟨rfl, ?_, ?_, foldl_redo_bitmap _ _⟩
  · show lastSeq (selectMeta C).2 (records C) = _
    rw [h.select]
  · exact (foldl_redo_activeMeta _ _).trans (congrArg Prod.fst h.select)

/-- the numbers of the records grow -/
theorem records_pairwise (img : Image) : (records img).Pairwise fun e e' => e.seq < e'.seq := by
  unfold records
  refine List.Pairwise.filterMap _ ?_ List.pairwise_lt_range'
  intro s s' hlt e he e' he'
  obtain ⟨-, h1, -⟩ := record_eq_some.mp he
  obtain ⟨-, h2, -⟩ := record_eq_some.mp he'
  omega

/-- the last record has been done when all have -/
theorem Lag.last_done (h : Lag n K C D a v b o) (hK : K + 300 < 2 ^ 64) (hne : records C ≠ [])
    (hr : record C.wal (lastSeq v (records C)) = some e) :
    applied (C.bitmap.putAll ((records C).map WalEntry.write)) (e.op, e.index)
      = C.bitmap.putAll ((records C).map WalEntry.write) := by
  have hseq : e.seq = lastSeq v (records C) := (record_eq_some.mp hr).2.1
  have hmem : e ∈ records C := (h.mem_records hK).mpr ⟨hseq ▸ h.lt_lastSeq hK hne, hseq ▸ hr⟩
  have hpair := records_pairwise C
  have hmax := (lastSeq_le_iff.mp (Nat.le_refl (lastSeq v (records C)))).2
  rcases List.eq_nil_or_concat (records C) with hnil | ⟨es, l, hes⟩
  · exact absurd hnil hne
  rw [List.concat_eq_append] at hes
  rw [hes, List.pairwise_append] at hpair
  have hl : e = l := by
    rw [hes, List.mem_append, List.mem_singleton] at hmem
    rcases hmem with hin | rfl
    · have h1 := hpair.2.2 e hin l List.mem_cons_self
      have h2 := hmax l (by rw [hes]; exact List.mem_append_right _ List.mem_cons_self)
      omega
    · rfl
  subst hl
  rw [hes, List.map_append, Bitmap.putAll_append]
  exact applied_applied _ (e.op, e.index)

end

end HeapForge.CPool
