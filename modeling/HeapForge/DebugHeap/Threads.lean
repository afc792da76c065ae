import HeapForge.DebugHeap.Classify
import HeapForge.Lib.Owned

/-!
# Threads over one debug heap

The calls to the backend are made without the lock, so between the two halves of a call other
threads run, the table may grow and addresses are handed out again.  A call is two atomic steps: the
backend's part and the locked part.

* `dhMark`        the locked part of `dh_deallocate`: what it passes on to the backend;
* `ThStep`        the atomic steps of any number of threads;
* `ThInv`         a block of the backend has one holder, a thread between its two steps or the
                  table;
* `returned_once` **every block goes back exactly once, the rest of them in `dh_destroy`.**
-/

set_option linter.unusedSectionVars false
set_option linter.unusedVariables false

namespace HeapForge.DebugHeap
open Lib Function

/-- the block to give back and the table, or `none`: the pointer is unknown or was freed before -/
def dhMark (t : DhTable) (ptr : Nat) : Option (Nat × DhTable) :=
  (dhFind t ptr).bind fun i =>
    let e := t.table i
    if e.user ≠ ptr ∨ e.freed = true then none
    else some (e.raw, { t with table := update t.table i { e with freed := true, raw := 0 } })

/-- where a thread stands in its call -/
inductive Phase
  | idle
  /-- it has a block of the backend that is not yet in the table -/
  | inserting (raw size : Nat)
  /-- it has taken a block out of the table and not yet given it back -/
  | freeing (raw : Nat)
  deriving DecidableEq

def Phase.Holds (raw : Nat) : Phase → Prop
  | .idle => False
  | .inserting r _ => r = raw
  | .freeing r => r = raw

structure ThSys (τ : Type*) where
  tab : DhTable
  phase : τ → Phase
  /-- how often the backend has handed an address to this heap -/
  given : Nat → Nat
  /-- how often the heap has passed it to the backend's `deallocate` -/
  back : Nat → Nat

inductive ThAct (τ : Type*)
  | allocate (t : τ) (raw size : Nat)
  | insert (t : τ)
  | mark (t : τ) (ptr : Nat)
  | giveBack (t : τ)

section
variable {τ : Type*} [DecidableEq τ]

/-- the backend hands out no block that is still allocated; it ignores NULL -/
inductive ThStep (s : ThSys τ) : ThAct τ → ThSys τ → Prop
  | allocate {t : τ} {raw size : Nat} (hidle : s.phase t = .idle) (hraw : raw ≠ 0)
      (hfree : ¬ s.back raw < s.given raw) :
      ThStep s (.allocate t raw size)
        { s with
          phase := update s.phase t (.inserting raw size)
          given := update s.given raw (s.given raw + 1) }
  | insert {t : τ} {raw size : Nat} {cl : TableCalloc} {tab : DhTable}
      (hphase : s.phase t = .inserting raw size)
      (hput : dhPut cl 64 s.tab (raw + DH_HEAD) raw size = some tab) :
      ThStep s (.insert t) { s with tab := tab, phase := update s.phase t .idle }
  | markNone {t : τ} {ptr : Nat} (hidle : s.phase t = .idle) (hptr : ptr ≠ 0)
      (hmark : dhMark s.tab ptr = none) : ThStep s (.mark t ptr) s
  -- a stale entry has a null block: reading its canary faults, and NULL is all that could be passed
  -- on
  | mark {t : τ} {ptr raw : Nat} {tab : DhTable} (hidle : s.phase t = .idle) (hptr : ptr ≠ 0)
      (hmark : dhMark s.tab ptr = some (raw, tab)) :
      ThStep s (.mark t ptr) { s with tab := tab, phase := update s.phase t (.freeing raw) }
  | giveBack {t : τ} {raw : Nat} (hphase : s.phase t = .freeing raw) :
      ThStep s (.giveBack t)
        { s with
          phase := update s.phase t .idle
          back := if raw = 0 then s.back else update s.back raw (s.back raw + 1) }

/-- a fresh table -/
def freshTab : DhTable := ⟨fun _ => DhEntry.blank, 64, 0⟩

/-- a fresh heap and no call under way -/
def ThSys.start (tab : DhTable) : ThSys τ := ⟨tab, fun _ => .idle, fun _ => 0, fun _ => 0⟩

end

/-- the table lists the block -/
def DhTable.Lists (t : DhTable) (raw : Nat) : Prop :=
  ∃ e, t.get (raw + DH_HEAD) = some e ∧ e.raw = raw

/-- an entry with a block is live, and the block is the one its pointer lies in -/
def Paired (t : DhTable) : Prop :=
  ∀ p e, p ≠ 0 → t.get p = some e → e.raw ≠ 0 → e.raw + DH_HEAD = p ∧ e.freed = false

/-- who has a block of the backend: the table, or a thread between its two steps -/
def ThSys.Has {τ : Type*} (s : ThSys τ) (raw : Nat) : Option τ → Prop
  | none => raw ≠ 0 ∧ s.tab.Lists raw
  | some t => raw ≠ 0 ∧ (s.phase t).Holds raw

structure ThInv {τ : Type*} (s : ThSys τ) : Prop where
  tab : TabInv s.tab
  paired : Paired s.tab
  null : s.given 0 = 0 ∧ s.back 0 = 0
  counts : ∀ raw, s.back raw ≤ s.given raw ∧ s.given raw ≤ s.back raw + 1
  inserting : ∀ t raw size, s.phase t = .inserting raw size → raw ≠ 0
  owned : Owned (fun raw => s.back raw < s.given raw) s.Has

/-! ## what the two locked parts do to the list of blocks -/

section
variable {t t' : DhTable} {cl : TableCalloc} {p raw size r : Nat}

theorem head_ne_zero (raw : Nat) : raw + DH_HEAD ≠ 0 := Nat.succ_ne_zero _

theorem insert_lists (ht : TabInv t) (hpair : Paired t) (hraw : raw ≠ 0)
    (hput : dhPut cl 64 t (raw + DH_HEAD) raw size = some t') :
    TabInv t' ∧ Paired t' ∧ ∀ r, t'.Lists r ↔ r = raw ∨ t.Lists r := by
  obtain ⟨hinv, hget⟩ := dhPut_spec cl ht (head_ne_zero raw) hput
  -- growing may clear flags, but it keeps the blocks
  have hother : ∀ q, q ≠ 0 → q ≠ raw + DH_HEAD → ∀ e, t'.get q = some e →
      ∃ e', t.get q = some e' ∧ e'.raw = e.raw ∧ (e'.freed = false → e.freed = false) := by
    intro q hq hne e he
    rw [hget q hq, if_neg hne] at he
    split at he
    · exact ⟨e, he, rfl, id⟩
    · obtain ⟨e', he', rfl⟩ := Option.map_eq_some_iff.mp he
      exact ⟨e', he', rfl, fun _ => rfl⟩
  have hkept : ∀ q, q ≠ 0 → q ≠ raw + DH_HEAD → ∀ e', t.get q = some e' →
      ∃ e, t'.get q = some e ∧ e.raw = e'.raw := by
    intro q hq hne e' he'
    rw [hget q hq, if_neg hne, he']
    split
    · exact ⟨e', rfl, rfl⟩
    · exact ⟨e'.regrown, rfl, rfl⟩
  have hself : t'.get (raw + DH_HEAD) = some ⟨raw + DH_HEAD, raw, size, false⟩ := by
    rw [hget _ (head_ne_zero raw), if_pos rfl]
  refine ⟨hinv, ?_, ?_⟩
  · intro q e hq he hne
    by_cases hqp : q = raw + DH_HEAD
    · subst hqp
      obtain rfl := Option.some.inj (hself.symm.trans he)
      exact ⟨rfl, rfl⟩
    · obtain ⟨e', he', h1, h2⟩ := hother q hq hqp e he
      have h3 := hpair q e' hq he' (by rw [h1]; exact hne)
      exact ⟨h1 ▸ h3.1, h2 h3.2⟩
  · intro r
    by_cases hr : r = raw
    · subst hr
      exact iff_of_true ⟨_, hself, rfl⟩ (Or.inl rfl)
    · have hne : r + DH_HEAD ≠ raw + DH_HEAD := fun h => hr (Nat.add_right_cancel h)
      constructor
      · rintro ⟨e, he, h1⟩
        obtain ⟨e', he', h2, -⟩ := hother _ (head_ne_zero r) hne e he
        exact Or.inr ⟨e', he', h2.trans h1⟩
      · intro h
        obtain ⟨e', he', h1⟩ := h.resolve_left hr
        obtain ⟨e, he, h2⟩ := hkept _ (head_ne_zero r) hne e' he'
        exact ⟨e, he, h2.trans h1⟩

theorem dhMark_cases (ht : TabInv t) (hp : p ≠ 0) (hm : dhMark t p = some (raw, t')) :
    ∃ e, t.get p = some e ∧ e.raw = raw ∧ TabInv t'
      ∧ ∀ q, q ≠ 0 → t'.get q = if q
        = p then some { e with freed := true, raw := 0 } else t.get q := by
  unfold dhMark at hm
  obtain ⟨i, hf, hm⟩ := Option.bind_eq_some_iff.mp hm
  dsimp only at hm
  split at hm
  · exact absurd hm (by simp)
  · rename_i hno
    obtain ⟨rfl, rfl⟩ := Prod.mk.inj (Option.some.inj hm)
    have hu : (t.table i).user = p := not_not.mp (not_or.mp hno).1
    obtain ⟨hinv, hget⟩ := setEntry_spec ht hp hf
      (show ({ t.table i with freed := true, raw := 0 } : DhEntry).user = p from hu)
    refine ⟨t.table i, ?_, rfl, hinv, hget⟩
    unfold DhTable.get
    rw [hf]
    rfl

theorem mark_lists (ht : TabInv t) (hpair : Paired t) (hp : p ≠ 0)
    (hm : dhMark t p = some (raw, t')) :
    TabInv t' ∧ Paired t' ∧ (raw ≠ 0 → t.Lists raw) ∧ ∀ r, r ≠ 0 →
    (t'.Lists r ↔ t.Lists r ∧ r ≠ raw) := by
  obtain ⟨e, hg, hraw, hinv, hget⟩ := dhMark_cases ht hp hm
  refine ⟨hinv, ?_, ?_, ?_⟩
  · intro q e' hq he' hne
    rw [hget q hq] at he'
    split at he'
    · obtain rfl := Option.some.inj he'
      exact absurd rfl hne
    · exact hpair q e' hq he' hne
  · intro hr
    obtain ⟨h1, -⟩ := hpair p e hp hg (by rw [hraw]; exact hr)
    rw [hraw] at h1
    exact ⟨e, by rw [h1]; exact hg, hraw⟩
  · intro r hr
    by_cases hq : r + DH_HEAD = p
    · -- the marked entry
      have hno : ¬ t'.Lists r := by
        rintro ⟨e', he', h1⟩
        rw [hget _ (head_ne_zero r), if_pos hq] at he'
        obtain rfl := Option.some.inj he'
        exact hr h1.symm
      refine iff_of_false hno ?_
      rintro ⟨⟨e', he', h1⟩, hne⟩
      rw [hq, hg] at he'
      obtain rfl := Option.some.inj he'
      exact hne (h1.symm.trans hraw)
    · have hsame : t'.Lists r ↔ t.Lists r := by
        unfold DhTable.Lists
        rw [hget _ (head_ne_zero r), if_neg hq]
      rw [hsame]
      refine ⟨fun h => ⟨h, ?_⟩, fun h => h.1⟩
      rintro rfl
      exact hq (hraw ▸ (hpair p e hp hg (by rw [hraw]; exact hr)).1)

end

/-! ## steps -/

section
variable {τ : Type*} [DecidableEq τ] {s s' : ThSys τ} {act : ThAct τ} {acts : List (ThAct τ)}
  {t t' : τ} {tab : DhTable} {ptr raw size r : Nat} {ph : Phase} {cl : TableCalloc}

/-- nobody has the null pointer -/
theorem ThSys.not_has_zero (s : ThSys τ) (k : Option τ) : ¬ s.Has 0 k := by
  cases k with
  | none => exact fun h => h.1 rfl
  | some t => exact fun h => h.1 rfl

/-- what a thread is inserting is what it was inserting before, or what the step says -/
theorem inserting_update (h : ThInv s) (hph : ∀ r n, ph = .inserting r n → r ≠ 0) {r n : Nat}
    (he : update s.phase t ph t' = .inserting r n) : r ≠ 0 := by
  by_cases ht : t' = t
  · subst ht
    rw [update_self] at he
    exact hph r n he
  · rw [update_of_ne ht] at he
    exact h.inserting t' r n he

/-- a thread that holds `r` neither before nor after changes no holder of `r` -/
theorem holds_update (h1 : ¬ (s.phase t).Holds r) (h2 : ¬ ph.Holds r) (t' : τ) :
    (update s.phase t ph t').Holds r ↔ (s.phase t').Holds r := by
  by_cases h : t' = t
  · subst h
    rw [update_self]
    exact iff_of_false h2 h1
  · rw [update_of_ne h]

/-- only the thread `t` holds `r` now, if nobody else did -/
theorem holds_update_only (h1 : ∀ t', t' ≠ t → ¬ (s.phase t').Holds r) (h2 : ph.Holds r) (t' : τ) :
    (update s.phase t ph t').Holds r ↔ t' = t := by
  by_cases h : t' = t
  · subst h
    rw [update_self]
    exact iff_of_true h2 rfl
  · rw [update_of_ne h]
    exact iff_of_false (h1 t' h) h

theorem ThInv.allocate (h : ThInv s) (hidle : s.phase t = .idle) (hraw : raw ≠ 0)
    (hfree : ¬ s.back raw < s.given raw) :
    ThInv { s with
      phase := update s.phase t (.inserting raw size)
      given := update s.given raw (s.given raw + 1) } := by
  have hnone := h.owned.unheld hfree
  have hgiven : ∀ r, r ≠ raw → update s.given raw (s.given raw + 1) r = s.given r :=
    fun r hr => update_of_ne hr _ _
  refine ⟨h.tab, h.paired, ⟨(hgiven 0 hraw.symm).trans h.null.1, h.null.2⟩, ?_, ?_, ?_⟩
  · intro r
    have hc := h.counts r
    by_cases hr : r = raw
    · subst hr
      simp only [update_self]
      omega
    · simp only [hgiven r hr]
      exact hc
  · intro t' r n he
    refine inserting_update h (fun r' n' h1 => ?_) he
    obtain ⟨rfl, -⟩ := Phase.inserting.inj h1
    exact hraw
  · refine h.owned.change (r := raw) ?_ (Or.inl ⟨?_, some t, ?_⟩)
    · intro r hr
      refine ⟨by simp only [hgiven r hr], fun k => ?_⟩
      cases k with
      | none => exact Iff.rfl
      | some t' =>
        have hnew : ¬ (Phase.inserting raw size).Holds r := Ne.symm hr
        exact and_congr Iff.rfl (holds_update (by rw [hidle]; exact id) hnew t')
    · have hc := h.counts raw
      simp only [update_self]
      omega
    · intro k
      cases k with
      | none => exact iff_of_false (hnone none) (by simp)
      | some t' =>
        rw [Option.some_inj, ← holds_update_only (fun t₁ _ hh => hnone (some t₁) ⟨hraw, hh⟩)
          (show (Phase.inserting raw size).Holds raw from rfl) t']
        exact and_iff_right hraw

/-- once the holding thread is idle, no thread holds the block -/
theorem ThInv.released (h : ThInv s) (hhas : s.Has raw (some t)) :
    ¬ (update s.phase t Phase.idle t').Holds raw := by
  by_cases ht : t' = t
  · subst ht
    rw [update_self]
    exact id
  · rw [update_of_ne ht]
    intro hh
    exact ht (Option.some.inj (h.owned.unique raw (some t') (some t) ⟨hhas.1, hh⟩ hhas))

theorem ThInv.insert (h : ThInv s) (hphase : s.phase t = .inserting raw size)
    (hput : dhPut cl 64 s.tab (raw + DH_HEAD) raw size = some tab) :
    ThInv { s with tab := tab, phase := update s.phase t .idle } := by
  have hraw := h.inserting t raw size hphase
  have hhas : s.Has raw (some t) := ⟨hraw, by rw [hphase]; exact rfl⟩
  obtain ⟨hinv, hpair, hlists⟩ := insert_lists h.tab h.paired hraw hput
  refine ⟨hinv, hpair, h.null, h.counts, fun t' r n he => inserting_update h (by simp) he, ?_⟩
  refine h.owned.change (r := raw) ?_ (Or.inl ⟨h.owned.of_has hhas, none, ?_⟩)
  · intro r hr
    refine ⟨Iff.rfl, fun k => ?_⟩
    cases k with
    | none => exact and_congr Iff.rfl ((hlists r).trans (or_iff_right hr))
    | some t' =>
      refine and_congr Iff.rfl (holds_update ?_ id t')
      rw [hphase]
      exact fun he => hr he.symm
  · intro k
    cases k with
    | none => exact iff_of_true ⟨hraw, (hlists raw).mpr (Or.inl rfl)⟩ rfl
    | some t' =>
      refine iff_of_false ?_ (by simp)
      rintro ⟨-, hh⟩
      exact h.released hhas hh

theorem ThInv.mark (h : ThInv s) (hidle : s.phase t = .idle) (hptr : ptr ≠ 0)
    (hmark : dhMark s.tab ptr = some (raw, tab)) :
    ThInv { s with tab := tab, phase := update s.phase t (.freeing raw) } := by
  obtain ⟨hinv, hpair, hlist, hlists⟩ := mark_lists h.tab h.paired hptr hmark
  refine ⟨hinv, hpair, h.null, h.counts, fun t' r n he => inserting_update h (by simp) he, ?_⟩
  refine h.owned.change (r := raw) ?_ ?_
  · intro r hr
    refine ⟨Iff.rfl, fun k => ?_⟩
    cases k with
    | none => exact and_congr_right fun h0 => (hlists r h0).trans (and_iff_left hr)
    | some t' =>
      have hnew : ¬ (Phase.freeing raw).Holds r := Ne.symm hr
      exact and_congr Iff.rfl (holds_update (by rw [hidle]; exact id) hnew t')
  · by_cases h0 : raw = 0
    · subst h0
      refine Or.inr ⟨?_, ?_⟩
      · rw [h.null.1, h.null.2]
        exact lt_irrefl 0
      · exact ThSys.not_has_zero _
    · -- the table had it, so no thread did
      have htab : s.Has raw none := ⟨h0, hlist h0⟩
      refine Or.inl ⟨h.owned.of_has htab, some t, fun k => ?_⟩
      cases k with
      | none => exact iff_of_false (fun hh => ((hlists raw h0).mp hh.2).2 rfl) (by simp)
      | some t' =>
        have hno : ∀ t₁, ¬ (s.phase t₁).Holds raw := fun t₁ hh =>
          absurd (h.owned.unique raw (some t₁) none ⟨h0, hh⟩ htab) (by simp)
        rw [Option.some_inj, ← holds_update_only (fun t₁ _ => hno t₁)
          (show (Phase.freeing raw).Holds raw from rfl) t']
        exact and_iff_right h0

theorem ThInv.giveBack (h : ThInv s) (hphase : s.phase t = .freeing raw) :
    ThInv { s with
      phase := update s.phase t .idle
      back := if raw = 0 then s.back else update s.back raw (s.back raw + 1) } := by
  have hins : ∀ t' r n, update s.phase t Phase.idle t' = .inserting r n → r ≠ 0 :=
    fun t' r n he => inserting_update h (by simp) he
  have hother : ∀ r, r ≠ raw → ∀ t', (update s.phase t Phase.idle t').Holds r
    ↔ (s.phase t').Holds r := by
    intro r hr t'
    refine holds_update ?_ id t'
    rw [hphase]
    exact fun he => hr he.symm
  by_cases h0 : raw = 0
  · subst h0
    rw [if_pos rfl]
    refine ⟨h.tab, h.paired, h.null, h.counts, hins, h.owned.change (r := 0) ?_ (Or.inr ⟨?_, ?_⟩)⟩
    · intro r hr
      refine ⟨Iff.rfl, fun k => ?_⟩
      cases k with
      | none => exact Iff.rfl
      | some t' => exact and_congr Iff.rfl (hother r hr t')
    · rw [h.null.1, h.null.2]
      exact lt_irrefl 0
    · exact ThSys.not_has_zero _
  · rw [if_neg h0]
    have hhas : s.Has raw (some t) := ⟨h0, by rw [hphase]; exact rfl⟩
    have hlive := h.owned.of_has hhas
    have hback : ∀ r, r ≠ raw → update s.back raw (s.back raw + 1) r = s.back r :=
      fun r hr => update_of_ne hr _ _
    refine ⟨h.tab, h.paired, ⟨h.null.1, (hback 0 (Ne.symm h0)).trans h.null.2⟩, ?_, hins, ?_⟩
    · intro r
      have hc := h.counts r
      by_cases hr : r = raw
      · subst hr
        simp only [update_self]
        omega
      · simp only [hback r hr]
        exact hc
    · refine h.owned.change (r := raw) ?_ (Or.inr ⟨?_, ?_⟩)
      · intro r hr
        refine ⟨by simp only [hback r hr], fun k => ?_⟩
        cases k with
        | none => exact Iff.rfl
        | some t' => exact and_congr Iff.rfl (hother r hr t')
      · have hc := h.counts raw
        simp only [update_self]
        omega
      · intro k
        cases k with
        | none => exact fun hh => absurd (h.owned.unique raw none (some t) hh hhas) (by simp)
        | some t' => exact fun hh => h.released hhas hh.2

theorem ThInv.step (h : ThInv s) (hs : ThStep s act s') : ThInv s' := by
  cases hs with
  | allocate hidle hraw hfree => exact h.allocate hidle hraw hfree
  | insert hphase hput => exact h.insert hphase hput
  | markNone hidle hptr hmark => exact h
  | mark hidle hptr hmark => exact h.mark hidle hptr hmark
  | giveBack hphase => exact h.giveBack hphase

theorem ThInv.start : ThInv (ThSys.start freshTab : ThSys τ) := by
  have hget : ∀ p, p ≠ 0 → DhTable.get ⟨fun _ => DhEntry.blank, 64, 0⟩ p = none :=
    fun p hp => get_empty (k := 6) (by omega) (by omega) hp
  refine ⟨TabInv.empty (k := 6) (by omega) (by omega), ?_, ⟨rfl, rfl⟩,
    fun _ => ⟨le_rfl, Nat.zero_le 1⟩, fun t r n he => absurd he (by simp [ThSys.start]), ?_, ?_⟩
  · intro p e hp he
    exact absurd ((hget p hp).symm.trans he) (by simp)
  · intro raw
    refine iff_of_false (lt_irrefl 0) ?_
    rintro ⟨_ | t, h0, hh⟩
    · obtain ⟨e, he, -⟩ := hh
      exact absurd ((hget _ (head_ne_zero raw)).symm.trans he) (by simp)
    · exact hh
  · intro raw k k' hk
    cases k with
    | none =>
      obtain ⟨-, e, he, -⟩ := hk
      exact absurd ((hget _ (head_ne_zero raw)).symm.trans he) (by simp)
    | some t => exact absurd hk.2 id

/-! ## calls that nobody interrupts -/

/-- `dh_deallocate` is its locked part, then the backend's `deallocate` if there is a block -/
theorem dhDeallocate_mark {β : Type*} {B : Allocator β} {h h' : DhHeap β} (hp : ptr ≠ 0)
    (hd : (dhDeallocate B h ptr).2 = some h') :
    (dhMark h.tab ptr = none ∧ h'.tab = h.tab)
    ∨ ∃ raw, dhMark h.tab ptr = some (raw, h'.tab)
    ∧ .backendFree raw ∈ (dhDeallocate B h ptr).1 := by
  unfold dhDeallocate at hd ⊢
  unfold dhMark
  dsimp only at hd ⊢
  rw [if_neg hp] at hd ⊢
  cases hf : dhFind h.tab ptr with
  | none =>
    rw [hf] at hd
    obtain rfl := Option.some.inj hd
    exact Or.inl ⟨rfl, rfl⟩
  | some i =>
    rw [hf] at hd
    dsimp only at hd ⊢
    by_cases hu : (h.tab.table i).user = ptr
    · rw [if_neg (not_not.mpr hu)] at hd ⊢
      by_cases hfr : (h.tab.table i).freed = true
      · rw [if_pos hfr] at hd
        obtain rfl := Option.some.inj hd
        exact Or.inl ⟨by simp [hfr], rfl⟩
      · rw [if_neg hfr] at hd ⊢
        by_cases hr : (h.tab.table i).raw = 0
        · rw [if_pos hr] at hd
          exact absurd hd (by simp)
        · rw [if_neg hr] at hd ⊢
          obtain ⟨b, -, rfl⟩ := Option.map_eq_some_iff.mp hd
          refine Or.inr ⟨(h.tab.table i).raw, ?_, by simp⟩
          simp [hu, hfr]
    · rw [if_pos hu] at hd
      obtain rfl := Option.some.inj hd
      exact Or.inl ⟨by simp [hu], rfl⟩

/-- a whole `dh_allocate` that gets a block -/
theorem alloc_call_steps {β : Type*} {B : Allocator β} {h h' : DhHeap β} {alignment : Nat}
    (ha : dhAllocate B cl h size alignment = some (ptr, h')) (hp : ptr ≠ 0) (htab : s.tab = h.tab)
    (hidle : s.phase t = .idle) (hfree : ¬ s.back (ptr - DH_HEAD) < s.given (ptr - DH_HEAD)) :
    ∃ s', Steps ThStep s [.allocate t (ptr - DH_HEAD) size, .insert t] s' ∧ s'.tab = h'.tab
      ∧ s'.phase = s.phase := by
  rcases dhAllocate_cases ha with ⟨h0, -⟩ | ⟨raw, hr, rfl, hput⟩
  · exact absurd h0 hp
  · rw [Nat.add_sub_cancel] at hfree ⊢
    rw [← htab] at hput
    refine ⟨_, Steps.snoc (Steps.snoc (Steps.nil s) (ThStep.allocate hidle hr hfree))
      (ThStep.insert (by exact update_self _ _ _) hput), rfl, ?_⟩
    show update (update s.phase t _) t Phase.idle = s.phase
    rw [update_idem, ← hidle, update_eq_self]

/-- a whole `dh_deallocate` -/
theorem free_call_steps {β : Type*} {B : Allocator β} {h h' : DhHeap β} (hp : ptr ≠ 0)
    (hd : (dhDeallocate B h ptr).2 = some h') (htab : s.tab = h.tab) (hidle : s.phase t = .idle) :
    ∃ acts s', Steps ThStep s (.mark t ptr :: acts) s' ∧ s'.tab = h'.tab ∧ s'.phase = s.phase := by
  rcases dhDeallocate_mark hp hd with ⟨hm, he⟩ | ⟨raw, hm, -⟩
  · rw [← htab] at hm
    exact ⟨[], s, Steps.snoc (Steps.nil s) (ThStep.markNone hidle hp hm), htab.trans he.symm, rfl⟩
  · rw [← htab] at hm
    refine ⟨[.giveBack t], _, Steps.snoc (Steps.snoc (Steps.nil s) (ThStep.mark hidle hp hm))
      (ThStep.giveBack (by exact update_self _ _ _)), rfl, ?_⟩
    show update (update s.phase t _) t Phase.idle = s.phase
    rw [update_idem, ← hidle, update_eq_self]

/-! ## the last sweep -/

theorem lists_of_slot (h : ThInv s) {i : Nat} (hi : i < s.tab.cap)
    (hl : (s.tab.table i).listed = true) :
    (s.tab.table i).raw ≠ 0 ∧ (s.tab.table i).user = (s.tab.table i).raw + DH_HEAD
      ∧ s.tab.Lists (s.tab.table i).raw := by
  simp only [DhEntry.listed, Bool.and_eq_true, bne_iff_ne] at hl
  obtain ⟨⟨hu, -⟩, hr⟩ := hl
  have hg : s.tab.get (s.tab.table i).user = some (s.tab.table i) :=
    (get_eq_some h.tab hu).mpr ⟨i, hi, rfl, rfl⟩
  obtain ⟨h1, -⟩ := h.paired _ _ hu hg hr
  exact ⟨hr, h1.symm, _, by rw [h1]; exact hg, rfl⟩

theorem slot_of_lists (h : ThInv s) (hr : raw ≠ 0) (hl : s.tab.Lists raw) :
    ∃ i, i < s.tab.cap ∧ (s.tab.table i).listed = true ∧ (s.tab.table i).raw = raw := by
  obtain ⟨e, hg, he⟩ := hl
  obtain ⟨i, hi, hie, hu⟩ := (get_eq_some h.tab (head_ne_zero raw)).mp hg
  have hfreed := (h.paired _ e (head_ne_zero raw) hg (by rw [he]; exact hr)).2
  refine ⟨i, hi, ?_, by rw [hie, he]⟩
  rw [hie]
  simp only [DhEntry.listed, hu, hfreed, he]
  simp [hr, DH_HEAD]

theorem destroyLoop_spec (h : ThInv s) {n : Nat} (hn : n ≤ s.tab.cap) :
    (destroyLoop s.tab n).Nodup ∧ ∀ r, r ∈ destroyLoop s.tab n
      ↔ ∃ i, i < n ∧ (s.tab.table i).listed = true ∧ (s.tab.table i).raw = r := by
  induction n with
  | zero => exact ⟨List.nodup_nil, fun r => iff_of_false List.not_mem_nil (by simp)⟩
  | succ n ih =>
    obtain ⟨hnd, hmem⟩ := ih (by omega)
    unfold destroyLoop
    by_cases hl : (s.tab.table n).listed = true
    · rw [if_pos hl]
      constructor
      · rw [List.nodup_append]
        refine ⟨hnd, List.nodup_singleton _, ?_⟩
        intro a ha b hb hab
        rw [List.mem_singleton] at hb
        obtain ⟨i, hi, hil, hir⟩ := (hmem a).mp ha
        -- two slots of one block have one pointer
        have h1 := lists_of_slot h (show i < s.tab.cap by omega) hil
        have h2 := lists_of_slot h (show n < s.tab.cap by omega) hl
        have hu : (s.tab.table i).user = (s.tab.table n).user := by
          rw [h1.2.1, h2.2.1, hir, hab, hb]
        have hne : (s.tab.table n).user ≠ 0 := by
          rw [h2.2.1]
          exact head_ne_zero _
        have hin := h.tab.probed.inj (k := (s.tab.table n).user) (show i < s.tab.cap by omega)
          (show n < s.tab.cap by omega) ((key_eq_some hne).mpr hu) ((key_eq_some hne).mpr rfl)
        omega
      · intro r
        rw [List.mem_append, hmem r, List.mem_singleton]
        constructor
        · rintro (⟨i, hi, h1⟩ | rfl)
          · exact ⟨i, by omega, h1⟩
          · exact ⟨n, by omega, hl, rfl⟩
        · rintro ⟨i, hi, h1, h2⟩
          by_cases hin : i = n
          · subst hin
            exact Or.inr h2.symm
          · exact Or.inl ⟨i, by omega, h1, h2⟩
    · rw [if_neg hl, List.append_nil]
      refine ⟨hnd, fun r => ?_⟩
      rw [hmem r]
      constructor
      · rintro ⟨i, hi, h1⟩
        exact ⟨i, by omega, h1⟩
      · rintro ⟨i, hi, h1, h2⟩
        have hin : i ≠ n := by
          rintro rfl
          exact hl h1
        exact ⟨i, by omega, h1, h2⟩

/-- the sweep gives back what is still out, each block once -/
theorem dhDestroy_count (h : ThInv s) (hidle : ∀ t, s.phase t = .idle) (raw : Nat) :
    s.back raw + (dhDestroy s.tab).count raw = s.given raw := by
  obtain ⟨hnd, hmem⟩ := destroyLoop_spec h (le_refl s.tab.cap)
  have hc := h.counts raw
  have hiff : s.back raw < s.given raw ↔ raw ∈ dhDestroy s.tab := by
    rw [h.owned.holder raw, show raw ∈ dhDestroy s.tab ↔ _ from hmem raw]
    constructor
    · rintro ⟨_ | t, h0, hh⟩
      · exact slot_of_lists h h0 hh
      · rw [hidle t] at hh
        exact absurd hh id
    · rintro ⟨i, hi, hl, rfl⟩
      obtain ⟨h1, -, h2⟩ := lists_of_slot h hi hl
      exact ⟨none, h1, h2⟩
  by_cases hm : raw ∈ dhDestroy s.tab
  · have h1 := hiff.mpr hm
    rw [show (dhDestroy s.tab).count raw = 1 from List.count_eq_one_of_mem hnd hm]
    omega
  · have h1 := mt hiff.mp hm
    rw [List.count_eq_zero_of_not_mem hm]
    omega

end

/-- **Every block of the backend is given back exactly once.**  In every state of every
interleaving: an address has been passed to the backend as often as it was handed out, or once less;
a block that the table lists as live is allocated; and when no call is under way, `dh_destroy` gives
back what is missing. -/
theorem returned_once {τ : Type*} [DecidableEq τ] {β : Type*} {cl : TableCalloc} {b : β}
    {h : DhHeap β} {acts : List (ThAct τ)} {s : ThSys τ} (hc : hfDebugHeapCreate cl b = some h)
    (hrun : Steps ThStep (ThSys.start h.tab) acts s) :
    (∀ raw, s.back raw ≤ s.given raw ∧ s.given raw ≤ s.back raw + 1)
    ∧ (∀ i, i < s.tab.cap → (s.tab.table i).user ≠ 0 → (s.tab.table i).freed = false →
        (s.tab.table i).raw ≠ 0 → s.back (s.tab.table i).raw < s.given (s.tab.table i).raw)
    ∧ ((∀ t, s.phase t = .idle) →
      ∀ raw, s.back raw + (dhDestroy s.tab).count raw = s.given raw) := by
  have h0 : ThInv (ThSys.start h.tab : ThSys τ) := by
    unfold hfDebugHeapCreate at hc
    split at hc
    · obtain rfl := Option.some.inj hc
      exact ThInv.start
    · exact absurd hc (by simp)
  have hs : ThInv s := hrun.invariant (I := ThInv) h0 fun _ _ _ h hs => h.step hs
  refine ⟨hs.counts, ?_, fun hidle raw => dhDestroy_count hs hidle raw⟩
  intro i hi hu hf hr
  have hl : (s.tab.table i).listed = true := by simp [DhEntry.listed, hu, hf, hr]
  obtain ⟨h1, -, h2⟩ := lists_of_slot hs hi hl
  have hhas : s.Has (s.tab.table i).raw none := ⟨h1, h2⟩
  exact hs.owned.of_has hhas

/-- two threads free one pointer at the same time: one of them gives the block back -/
theorem returned_once_two_frees :
    ∃ s : ThSys Bool, Steps ThStep (ThSys.start freshTab)
        [.allocate false 4096 16, .insert false, .mark false 4108, .mark true 4108,
        .giveBack false] s
      ∧ s.given 4096 = 1
      ∧ ∀ raw, s.back raw + (dhDestroy s.tab).count raw = s.given raw := by
  have h1 : ((dhPut grantAll 64 freshTab (4096 + DH_HEAD) 4096 16).bind fun t₁ =>
      (dhMark t₁ 4108).map fun x => (x.1, (dhMark x.2 4108).isNone)) = some (4096, true) := by
    decide +kernel
  obtain ⟨t₁, hput, h2⟩ := Option.bind_eq_some_iff.mp h1
  obtain ⟨⟨raw, t₂⟩, hmark, h3⟩ := Option.map_eq_some_iff.mp h2
  obtain ⟨rfl, h4⟩ := Prod.mk.inj h3
  have hnone : dhMark t₂ 4108 = none := Option.isNone_iff_eq_none.mp h4
  have hrun : Steps ThStep (ThSys.start freshTab : ThSys Bool)
      [.allocate false 4096 16, .insert false, .mark false 4108, .mark true 4108,
      .giveBack false] _ :=
    Steps.snoc (Steps.snoc (Steps.snoc (Steps.snoc (Steps.snoc (Steps.nil _)
      (ThStep.allocate rfl (by omega) (lt_irrefl 0)))
      (ThStep.insert (show _ = Phase.inserting 4096 16 from rfl) hput))
      (ThStep.mark (show _ = Phase.idle from rfl) (by omega) hmark))
      (ThStep.markNone (show _ = Phase.idle from rfl) (by omega) hnone))
      (ThStep.giveBack (show _ = Phase.freeing 4096 from rfl))
  have hcreate : hfDebugHeapCreate grantAll () = some ⟨(), freshTab, ⟨0, 0, 0, 0, 0, 0⟩⟩ := rfl
  refine ⟨_, hrun, rfl, (returned_once hcreate hrun).2.2 ?_⟩
  intro t
  cases t with
  | false => rfl
  | true => rfl

end HeapForge.DebugHeap
