import HeapForge.CppGuardHeap.Impl
import HeapForge.Lib.Owned
import HeapForge.Lib.Run
import HeapForge.Lib.Sum

/-!
# The registry over any number of guard heaps

* `Core`          slots, owners and mappings: a mapping that is out is kept by exactly one slot;
* `Queue`         the queue of an instance lists its quarantined slots in the order of the frees;
* `SameFor b`     the slots of `b` are as they were: what a call on another instance does;
* `Process.clear`, `Process.occupy`, `Process.retire`   a slot is given up, served, closed: what
                                                        each of them does to the three;
* `evict_spec`, `destroyLoop_spec`   the loops.
-/

set_option linter.unusedSectionVars false
set_option linter.unusedVariables false

namespace HeapForge.CppGuardHeap
open Lib Function

attribute [local irreducible] kMaxRegions

def Apart (r r' : Nat × Nat) : Prop := r.1 + r.2 ≤ r'.1 ∨ r'.1 + r'.2 ≤ r.1

/-- the mapping is out -/
def Process.Mapped (p : Process) (r : Nat × Nat) : Prop := p.released r < p.reserved r

/-- the slot keeps the mapping -/
def Process.Keeps (p : Process) (r : Nat × Nat) (i : Nat) : Prop :=
  (p.regions i).state ≠ .free ∧ (p.regions i).mapping = r

/-- the bytes of the live blocks of `a` -/
def usedBy (p : Process) (a : Nat) : Nat :=
  sumTo (fun i => if p.ownerOf i = a
    ∧ (p.regions i).state = .live then (p.regions i).userSize else 0)
    kMaxRegions

inductive GAct
  | construct (this : Nat) (underflow : Bool) (quarantineCap : Nat)
  | allocate (this size alignment base : Nat)
  | deallocate (this ptr : Nat)
  | destroy (this : Nat)

def GAct.this : GAct → Nat
  | .construct this _ _ => this
  | .allocate this _ _ _ => this
  | .deallocate this _ => this
  | .destroy this => this

/-- calls that return; the system hands out mappings that are not empty and meet no other -/
inductive GStep (ps : Nat) (p : Process) : GAct → Process → Prop
  | construct {this quarantineCap : Nat} {underflow : Bool} (h0 : this ≠ 0)
  (hnew : p.heaps this = none) :
      GStep ps p (.construct this underflow quarantineCap)
        (construct p this underflow quarantineCap)
  | allocate {this size alignment base user : Nat} {p' : Process} (hsize : size < 2 ^ 64)
      (hos : base ≠ 0 → 0 < totalBytes ps size alignment
        ∧ ∀ r, p.Mapped r → Apart (base, totalBytes ps size alignment) r)
      (h : allocate ps p this size alignment base = some (user, p')) :
      GStep ps p (.allocate this size alignment base) p'
  | deallocate {this ptr : Nat} {p' : Process} (h : deallocate ps p this ptr = some p') :
      GStep ps p (.deallocate this ptr) p'
  | destroy {this : Nat} (h : ∃ g, p.heaps this = some g) : GStep ps p (.destroy this)
      (destroy p this)

structure Core (p : Process) : Prop where
  null : ∀ i, (p.regions i).state = .free ↔ p.ownerOf i = 0
  bound : ∀ i, p.ownerOf i ≠ 0 → i < kMaxRegions
  sizes : ∀ i, (p.regions i).userSize < 2 ^ 64
  counts : ∀ r, p.released r ≤ p.reserved r ∧ p.reserved r ≤ p.released r + 1
  owned : Owned p.Mapped p.Keeps
  apart : ∀ r r', p.Mapped r → p.Mapped r' → r ≠ r' → Apart r r'

structure Queue (p : Process) (a : Nat) (q : List Nat) : Prop where
  mem : ∀ i, i ∈ q ↔ p.ownerOf i = a ∧ (p.regions i).state = .quarantined
  order : q.Pairwise fun i j => p.freedAt i < p.freedAt j
  past : ∀ i ∈ q, p.freedAt i < p.clock

structure HeapInv (p : Process) (a : Nat) (h : GuardHeap) : Prop where
  queue : Queue p a h.quarantine
  length : h.quarantine.length ≤ h.quarantineCap
  used : h.stats.used = usedBy p a % 2 ^ 64

structure RegInv (p : Process) : Prop where
  core : Core p
  zero : p.heaps 0 = none
  alive : ∀ i, p.ownerOf i ≠ 0 → ∃ h, p.heaps (p.ownerOf i) = some h
  heap : ∀ a h, p.heaps a = some h → HeapInv p a h

/-! ## what belongs to one instance -/

structure SameFor (b : Nat) (p p' : Process) : Prop where
  owner : ∀ i, p'.ownerOf i = b ↔ p.ownerOf i = b
  slot : ∀ i, p.ownerOf i = b → p'.regions i = p.regions i ∧ p'.freedAt i = p.freedAt i
  clock : p.clock ≤ p'.clock

section
variable {p p' p'' : Process} {a b i slot cap n : Nat} {q : List Nat} {h : GuardHeap}

theorem SameFor.refl (b : Nat) (p : Process) : SameFor b p p :=
  ⟨fun _ => Iff.rfl, fun _ _ => ⟨rfl, rfl⟩, le_rfl⟩

theorem SameFor.trans (h : SameFor b p p') (h' : SameFor b p' p'') : SameFor b p p'' := by
  refine ⟨fun i => (h'.owner i).trans (h.owner i), fun i hi => ?_, h.clock.trans h'.clock⟩
  obtain ⟨h1, h2⟩ := h.slot i hi
  obtain ⟨h3, h4⟩ := h'.slot i ((h.owner i).mpr hi)
  exact ⟨h3.trans h1, h4.trans h2⟩

/-- one slot changes that was not the instance's and is not -/
theorem SameFor.of_slot (hother : ∀ j, j ≠ i →
    p'.ownerOf j = p.ownerOf j ∧ p'.regions j = p.regions j
      ∧ p'.freedAt j = p.freedAt j)
    (hold : p.ownerOf i ≠ b) (hnew : p'.ownerOf i ≠ b) (hclock : p.clock ≤ p'.clock) :
    SameFor b p p' := by
  refine ⟨fun j => ?_, fun j hj => ?_, hclock⟩
  · by_cases hji : j = i
    · subst hji
      exact iff_of_false hnew hold
    · rw [(hother j hji).1]
  · have hji : j ≠ i := by
      rintro rfl
      exact hold hj
    exact (hother j hji).2

theorem SameFor.usedBy (hs : SameFor b p p') : usedBy p' b = usedBy p b := by
  apply sumTo_congr
  intro j _
  by_cases hj : p.ownerOf j = b
  · rw [(hs.slot j hj).1, hj, (hs.owner j).mpr hj]
  · rw [if_neg (fun hc => hj ((hs.owner j).mp hc.1)), if_neg (fun hc => hj hc.1)]

theorem Queue.same (hq : Queue p b q) (hs : SameFor b p p') : Queue p' b q := by
  have hmine : ∀ j ∈ q, p.ownerOf j = b := fun j hj => ((hq.mem j).mp hj).1
  refine ⟨fun j => ?_, ?_, ?_⟩
  · rw [hq.mem j, hs.owner j]
    refine and_congr_right fun hj => ?_
    rw [(hs.slot j hj).1]
  · refine hq.order.imp_of_mem fun hj hk hlt => ?_
    rw [(hs.slot _ (hmine _ hj)).2, (hs.slot _ (hmine _ hk)).2]
    exact hlt
  · intro j hj
    rw [(hs.slot j (hmine j hj)).2]
    exact lt_of_lt_of_le (hq.past j hj) hs.clock

theorem HeapInv.same (hi : HeapInv p b h) (hs : SameFor b p p') : HeapInv p' b h :=
  ⟨hi.queue.same hs, hi.length, by rw [hs.usedBy]; exact hi.used⟩

/-- the tables after one slot has changed -/
theorem Core.slot_change (h : Core p)
    (hother : ∀ j, j ≠ i → p'.ownerOf j = p.ownerOf j ∧ p'.regions j = p.regions j
      ∧ p'.freedAt j = p.freedAt j)
    (hnull : (p'.regions i).state = .free ↔ p'.ownerOf i = 0)
    (hbound : p'.ownerOf i ≠ 0 → i < kMaxRegions) (hsize : (p'.regions i).userSize < 2 ^ 64)
    (j : Nat) :
    ((p'.regions j).state = .free ↔ p'.ownerOf j = 0) ∧ (p'.ownerOf j ≠ 0 → j < kMaxRegions)
      ∧ (p'.regions j).userSize < 2 ^ 64 := by
  by_cases hj : j = i
  · subst hj
    exact ⟨hnull, hbound, hsize⟩
  · rw [(hother j hj).1, (hother j hj).2.1]
    exact ⟨h.null j, h.bound j, h.sizes j⟩

/-! ## a slot is given up -/

theorem clear_regions (p : Process) (i j : Nat) (hj : j ≠ i) :
    (p.clear i).ownerOf j = p.ownerOf j ∧ (p.clear i).regions j = p.regions j
      ∧ (p.clear i).freedAt j = p.freedAt j :=
  ⟨update_of_ne hj _ _, update_of_ne hj _ _, rfl⟩

theorem clear_self (p : Process) (i : Nat) :
    (p.clear i).ownerOf i = 0 ∧ ((p.clear i).regions i).state = .free := by
  constructor
  · exact update_self _ _ _
  · show (update p.regions i { p.regions i with state := .free } i).state = .free
    rw [update_self]

theorem sameFor_clear (hi : p.ownerOf i ≠ b) (hb : b ≠ 0) : SameFor b p (p.clear i) := by
  apply SameFor.of_slot (fun j hj => clear_regions p i j hj) hi
  · rw [(clear_self p i).1]
    exact Ne.symm hb
  · exact le_rfl

theorem Core.clear (h : Core p) (hi : (p.regions i).state ≠ .free) : Core (p.clear i) := by
  have hkeep : p.Keeps (p.regions i).mapping i := ⟨hi, rfl⟩
  have hout := h.owned.of_has hkeep
  have hrel : ∀ r, r ≠ (p.regions i).mapping → (p.clear i).released r = p.released r :=
    fun r hr => update_of_ne hr _ _
  have hself : (p.clear i).released (p.regions i).mapping = p.released (p.regions i).mapping + 1 :=
    update_self _ _ _
  have hres : (p.clear i).reserved = p.reserved := rfl
  have hmapped : ∀ r, (p.clear i).Mapped r ↔ p.Mapped r ∧ r ≠ (p.regions i).mapping := by
    intro r
    unfold Process.Mapped
    rw [hres]
    by_cases hr : r = (p.regions i).mapping
    · subst hr
      rw [hself]
      have hc := h.counts (p.regions i).mapping
      exact iff_of_false (by omega) (fun hh => hh.2 rfl)
    · rw [hrel r hr]
      exact (and_iff_left hr).symm
  have hsize : ((p.clear i).regions i).userSize < 2 ^ 64 := by
    show (update p.regions i { p.regions i with state := .free } i).userSize < 2 ^ 64
    rw [update_self]
    exact h.sizes i
  have htab := h.slot_change (clear_regions p i) (iff_of_true (clear_self p i).2 (clear_self p i).1)
    (fun hi => absurd (clear_self p i).1 hi) hsize
  refine ⟨fun j => (htab j).1, fun j => (htab j).2.1, fun j => (htab j).2.2, fun r => ?_, ?_,
    fun r r' h1 h2 => ?_⟩
  · have hc := h.counts r
    by_cases hr : r = (p.regions i).mapping
    · subst hr
      rw [hself, hres]
      unfold Process.Mapped at hout
      omega
    · rw [hrel r hr, hres]
      exact hc
  · refine h.owned.change (r := (p.regions i).mapping) ?_ (Or.inr ⟨?_, ?_⟩)
    · intro r hr
      refine ⟨(hmapped r).trans (and_iff_left hr), fun j => ?_⟩
      by_cases hji : j = i
      · subst hji
        exact iff_of_false (fun hk => hk.1 (clear_self p j).2) (fun hk => hr hk.2.symm)
      · unfold Process.Keeps
        rw [(clear_regions p i j hji).2.1]
    · exact fun hm => ((hmapped _).mp hm).2 rfl
    · intro j hk
      by_cases hji : j = i
      · subst hji
        exact hk.1 (clear_self p j).2
      · unfold Process.Keeps at hk
        rw [(clear_regions p i j hji).2.1] at hk
        exact hji (h.owned.unique _ j i hk hkeep)
  · exact h.apart r r' ((hmapped r).mp h1).1 ((hmapped r').mp h2).1

/-- the oldest block leaves the queue -/
theorem Queue.clear (hq : Queue p a (i :: q)) (ha : a ≠ 0) : Queue (p.clear i) a q := by
  obtain ⟨hlt, hord⟩ := List.pairwise_cons.mp hq.order
  refine ⟨fun j => ?_, hord, fun j hj => hq.past j (List.mem_cons_of_mem i hj)⟩
  by_cases hji : j = i
  · subst hji
    refine iff_of_false (fun hj => absurd (hlt j hj) (lt_irrefl _)) ?_
    rw [(clear_self p j).1]
    exact fun hc => ha hc.1.symm
  · rw [(clear_regions p i j hji).1, (clear_regions p i j hji).2.1, ← hq.mem j, List.mem_cons]
    exact (or_iff_right hji).symm

theorem usedBy_clear (hi : (p.regions i).state ≠ .live) (ha : a ≠ 0) :
    usedBy (p.clear i) a = usedBy p a := by
  apply sumTo_congr
  intro j _
  by_cases hji : j = i
  · subst hji
    rw [(clear_self p j).1, if_neg (fun hc => ha hc.1.symm), if_neg (fun hc => hi hc.2)]
  · rw [(clear_regions p i j hji).1, (clear_regions p i j hji).2.1]

/-! ## the two loops -/

/-- what a loop over slots of `a` leaves: the instances, the other slots, no new owner -/
structure GivesUp (a : Nat) (p p' : Process) : Prop where
  core : Core p'
  heaps : p'.heaps = p.heaps
  others : ∀ b, b ≠ a → b ≠ 0 → SameFor b p p'
  owner : ∀ i, p'.ownerOf i ≠ 0 → p'.ownerOf i = p.ownerOf i

theorem GivesUp.refl (hc : Core p) : GivesUp a p p :=
  ⟨hc, rfl, fun b _ _ => SameFor.refl b p, fun _ _ => rfl⟩

theorem GivesUp.trans (h : GivesUp a p p') (h' : GivesUp a p' p'') : GivesUp a p p'' := by
  refine ⟨h'.core, h'.heaps.trans h.heaps,
    fun b h1 h2 => (h.others b h1 h2).trans (h'.others b h1 h2), fun i hi => ?_⟩
  have he := h'.owner i hi
  rw [he] at hi
  exact he.trans (h.owner i hi)

theorem GivesUp.clear (hc : Core p) (hi : (p.regions i).state ≠ .free) (ho : p.ownerOf i = a) :
    GivesUp a p (p.clear i) := by
  refine ⟨hc.clear hi, rfl, fun b hb hb0 => sameFor_clear (by rw [ho]; exact Ne.symm hb) hb0,
    fun j hj => ?_⟩
  by_cases hji : j = i
  · subst hji
    exact absurd (clear_self p j).1 hj
  · exact (clear_regions p i j hji).1

/-- the queue is cut to the cap from its old end -/
theorem evict_spec (cap : Nat) (hc : Core p) (ha : a ≠ 0) (hq : Queue p a q) :
    GivesUp a p (evict cap q p).2 ∧ Queue (evict cap q p).2 a (evict cap q p).1
      ∧ (evict cap q p).1.length ≤ cap ∧ usedBy (evict cap q p).2 a = usedBy p a := by
  induction q generalizing p with
  | nil => exact ⟨GivesUp.refl hc, hq, Nat.zero_le _, rfl⟩
  | cons old rest ih =>
    unfold evict
    split
    · obtain ⟨ho, hs⟩ := (hq.mem old).mp List.mem_cons_self
      have hfree : (p.regions old).state ≠ .free := by
        rw [hs]
        decide
      have hlive : (p.regions old).state ≠ .live := by
        rw [hs]
        decide
      have hg := GivesUp.clear hc hfree ho
      obtain ⟨h1, h2, h3, h4⟩ := ih hg.core (hq.clear ha)
      exact ⟨hg.trans h1, h2, h3, h4.trans (usedBy_clear hlive ha)⟩
    · exact ⟨GivesUp.refl hc, hq, Nat.le_of_not_lt (by assumption), rfl⟩

/-- after `n` slots none of them is the instance's -/
theorem destroyLoop_spec (hc : Core p) (ha : a ≠ 0) :
    GivesUp a p (destroyLoop a n p) ∧ ∀ i, i < n → (destroyLoop a n p).ownerOf i ≠ a := by
  induction n with
  | zero => exact ⟨GivesUp.refl hc, fun i hi => absurd hi (Nat.not_lt_zero i)⟩
  | succ n ih =>
    obtain ⟨hg, hno⟩ := ih
    unfold destroyLoop
    dsimp only
    split
    · rename_i hmine
      refine ⟨hg.trans (GivesUp.clear hg.core hmine.1 hmine.2), fun i hi => ?_⟩
      by_cases hin : i = n
      · subst hin
        rw [(clear_self _ i).1]
        exact Ne.symm ha
      · rw [(clear_regions _ n i hin).1]
        exact hno i (by omega)
    · rename_i hother
      refine ⟨hg, fun i hi => ?_⟩
      by_cases hin : i = n
      · subst hin
        intro ho
        refine hother ⟨fun hf => ?_, ho⟩
        exact ha (ho.symm.trans ((hg.core.null i).mp hf))
      · exact hno i (by omega)

/-! ## a block is served -/

theorem findFreeSlot_some (hf : findFreeSlot p = some slot) :
    slot < kMaxRegions ∧ (p.regions slot).state = .free ∧ p.ownerOf slot = 0 := by
  unfold findFreeSlot at hf
  have h1 := List.find?_some hf
  rw [Bool.and_eq_true, decide_eq_true_eq, decide_eq_true_eq] at h1
  exact ⟨List.mem_range.mp (List.mem_of_find?_eq_some hf), h1⟩

theorem findSlot_some {ptr : Nat} (hf : findSlot p a ptr = some slot) :
    slot < kMaxRegions ∧ p.ownerOf slot = a ∧ (p.regions slot).state = .live := by
  unfold findSlot at hf
  have h1 := List.find?_some hf
  rw [Bool.and_eq_true, Bool.and_eq_true, decide_eq_true_eq, decide_eq_true_eq,
    decide_eq_true_eq] at h1
  exact ⟨List.mem_range.mp (List.mem_of_find?_eq_some hf), h1.1.1, h1.2⟩

/-- the tables after a request was served in `slot` -/
def Process.occupy (p : Process) (slot a : Nat) (r : Region) : Process :=
  { p with
    regions := update p.regions slot r
    ownerOf := update p.ownerOf slot a
    reserved := update p.reserved r.mapping (p.reserved r.mapping + 1) }

theorem occupy_other (p : Process) (slot a : Nat) (r : Region) (j : Nat) (hj : j ≠ slot) :
    (p.occupy slot a r).ownerOf j = p.ownerOf j ∧ (p.occupy slot a r).regions j = p.regions j
      ∧ (p.occupy slot a r).freedAt j = p.freedAt j :=
  ⟨update_of_ne hj _ _, update_of_ne hj _ _, rfl⟩

theorem occupy_self (p : Process) (slot a : Nat) (r : Region) :
    (p.occupy slot a r).ownerOf slot = a ∧ (p.occupy slot a r).regions slot = r :=
  ⟨update_self _ _ _, update_self _ _ _⟩

variable {r : Region}

theorem Core.occupy (h : Core p) (hslot : slot < kMaxRegions)
    (hfree : (p.regions slot).state = .free) (ha : a ≠ 0) (hr : r.state = .live)
    (hsize : r.userSize < 2 ^ 64) (htotal : 0 < r.total)
    (hfresh : ∀ r', p.Mapped r' → Apart r.mapping r') : Core (p.occupy slot a r) := by
  -- a mapping meets itself, so the new one was not out
  have hnew : ¬ p.Mapped r.mapping := by
    intro hm
    have hself : r.base + r.total ≤ r.base ∨ r.base + r.total ≤ r.base := hfresh _ hm
    omega
  have hnone := h.owned.unheld hnew
  have hrel : (p.occupy slot a r).released = p.released := rfl
  have hres : ∀ m, m ≠ r.mapping → (p.occupy slot a r).reserved m = p.reserved m :=
    fun m hm => update_of_ne hm _ _
  have hself : (p.occupy slot a r).reserved r.mapping = p.reserved r.mapping + 1 :=
    update_self _ _ _
  have hmapped : ∀ m, (p.occupy slot a r).Mapped m ↔ p.Mapped m ∨ m = r.mapping := by
    intro m
    unfold Process.Mapped
    rw [hrel]
    by_cases hm : m = r.mapping
    · subst hm
      have hc := h.counts r.mapping
      rw [hself]
      exact iff_of_true (by omega) (Or.inr rfl)
    · rw [hres m hm]
      exact (or_iff_left hm).symm
  have hlive : r.state ≠ .free := by
    rw [hr]
    decide
  have hnull : ((p.occupy slot a r).regions slot).state = .free
    ↔ (p.occupy slot a r).ownerOf slot = 0 := by
    rw [(occupy_self p slot a r).1, (occupy_self p slot a r).2]
    exact iff_of_false hlive ha
  have htab := h.slot_change (occupy_other p slot a r) hnull (fun _ => hslot)
    (by rw [(occupy_self p slot a r).2]; exact hsize)
  refine ⟨fun j => (htab j).1, fun j => (htab j).2.1, fun j => (htab j).2.2, fun m => ?_, ?_,
    fun m m' h1 h2 hne => ?_⟩
  · have hc := h.counts m
    by_cases hm : m = r.mapping
    · subst hm
      unfold Process.Mapped at hnew
      rw [hself, hrel]
      omega
    · rw [hres m hm, hrel]
      exact hc
  · refine h.owned.change (r := r.mapping) ?_
      (Or.inl ⟨(hmapped _).mpr (Or.inr rfl), slot, fun j => ?_⟩)
    · intro m hm
      refine ⟨(hmapped m).trans (or_iff_left hm), fun j => ?_⟩
      unfold Process.Keeps
      by_cases hj : j = slot
      · subst hj
        rw [(occupy_self p j a r).2]
        exact iff_of_false (fun hk => hm hk.2.symm) (fun hk => hk.1 hfree)
      · rw [(occupy_other p slot a r j hj).2.1]
    · unfold Process.Keeps
      by_cases hj : j = slot
      · subst hj
        rw [(occupy_self p j a r).2]
        exact iff_of_true ⟨hlive, rfl⟩ rfl
      · rw [(occupy_other p slot a r j hj).2.1]
        exact iff_of_false (hnone j) hj
  · rcases (hmapped m).mp h1 with h1 | rfl
    · rcases (hmapped m').mp h2 with h2 | rfl
      · exact h.apart m m' h1 h2 hne
      · exact Or.symm (hfresh m h1)
    · rcases (hmapped m').mp h2 with h2 | rfl
      · exact hfresh m' h2
      · exact absurd rfl hne

theorem sameFor_occupy (hfree : p.ownerOf slot = 0) (hb : b ≠ a) (hb0 : b ≠ 0) :
    SameFor b p (p.occupy slot a r) := by
  apply SameFor.of_slot (fun j hj => occupy_other p slot a r j hj)
  · rw [hfree]
    exact Ne.symm hb0
  · rw [(occupy_self p slot a r).1]
    exact Ne.symm hb
  · exact le_rfl

theorem Queue.occupy (hq : Queue p a q) (hfree : (p.regions slot).state = .free)
    (hr : r.state = .live) :
    Queue (p.occupy slot a r) a q := by
  refine ⟨fun j => ?_, hq.order, hq.past⟩
  by_cases hj : j = slot
  · subst hj
    rw [(occupy_self p j a r).2, hr, hq.mem j, hfree]
    exact iff_of_false (fun hc => absurd hc.2 (by decide)) (fun hc => absurd hc.2 (by decide))
  · rw [(occupy_other p slot a r j hj).1, (occupy_other p slot a r j hj).2.1]
    exact hq.mem j

theorem usedBy_occupy (hslot : slot < kMaxRegions) (hfree : (p.regions slot).state = .free)
    (hr : r.state = .live) : usedBy (p.occupy slot a r) a = usedBy p a + r.userSize := by
  have hchange := sumTo_change
    (f := fun i => if p.ownerOf i = a
      ∧ (p.regions i).state = .live then (p.regions i).userSize else 0)
    (g := fun i => if (p.occupy slot a r).ownerOf i = a
      ∧ ((p.occupy slot a r).regions i).state = .live
      then ((p.occupy slot a r).regions i).userSize else 0) hslot ?_
  · rw [if_neg (fun hc => absurd (hfree.symm.trans hc.2) (by decide)), Nat.add_zero,
      (occupy_self p slot a r).1, (occupy_self p slot a r).2, if_pos ⟨rfl, hr⟩] at hchange
    exact hchange
  · intro j hj
    rw [(occupy_other p slot a r j hj).1, (occupy_other p slot a r j hj).2.1]

/-! ## a block is closed -/

theorem retire_other (p : Process) (slot j : Nat) (hj : j ≠ slot) :
    (p.retire slot).regions j = p.regions j ∧ (p.retire slot).freedAt j = p.freedAt j :=
  ⟨update_of_ne hj _ _, update_of_ne hj _ _⟩

theorem retire_self (p : Process) (slot : Nat) :
    (p.retire slot).regions slot = { p.regions slot with state := .quarantined }
      ∧ (p.retire slot).freedAt slot = p.clock :=
  ⟨update_self _ _ _, update_self _ _ _⟩

theorem Core.retire (h : Core p) (hlive : (p.regions slot).state = .live) :
    Core (p.retire slot) := by
  have hstate : ∀ j, ((p.retire slot).regions j).state = .free ↔ (p.regions j).state = .free := by
    intro j
    by_cases hj : j = slot
    · subst hj
      rw [(retire_self p j).1, hlive]
      exact iff_of_false (by simp) (by simp)
    · rw [(retire_other p slot j hj).1]
  have hrest : ∀ j, ((p.retire slot).regions j).mapping = (p.regions j).mapping
      ∧ ((p.retire slot).regions j).userSize = (p.regions j).userSize := by
    intro j
    by_cases hj : j = slot
    · subst hj
      rw [(retire_self p j).1]
      exact ⟨rfl, rfl⟩
    · rw [(retire_other p slot j hj).1]
      exact ⟨rfl, rfl⟩
  have hkeeps : (p.retire slot).Keeps = p.Keeps := by
    funext m j
    unfold Process.Keeps
    rw [(hrest j).1, Ne, hstate j]
  refine ⟨fun j => (hstate j).trans (h.null j), h.bound, fun j => ?_, h.counts, ?_, h.apart⟩
  · rw [(hrest j).2]
    exact h.sizes j
  · rw [hkeeps]
    exact h.owned

theorem sameFor_retire (ho : p.ownerOf slot ≠ b) : SameFor b p (p.retire slot) := by
  refine ⟨fun _ => Iff.rfl, fun j hj => ?_, Nat.le_succ _⟩
  have hne : j ≠ slot := by
    rintro rfl
    exact ho hj
  exact retire_other p slot j hne

/-- the youngest block is the last in the queue -/
theorem Queue.retire (hq : Queue p a q) (ho : p.ownerOf slot = a)
    (hlive : (p.regions slot).state = .live) :
    Queue (p.retire slot) a (q ++ [slot]) := by
  have hne : ∀ j ∈ q, j ≠ slot := by
    rintro j hj rfl
    exact absurd (hlive.symm.trans ((hq.mem j).mp hj).2) (by decide)
  have hat : ∀ j ∈ q, (p.retire slot).freedAt j = p.freedAt j :=
    fun j hj => (retire_other p slot j (hne j hj)).2
  refine ⟨fun j => ?_, ?_, ?_⟩
  · rw [List.mem_append, List.mem_singleton]
    by_cases hj : j = slot
    · subst hj
      rw [(retire_self p j).1]
      exact iff_of_true (Or.inr rfl) ⟨ho, rfl⟩
    · rw [or_iff_left hj, hq.mem j, (retire_other p slot j hj).1]
      exact Iff.rfl
  · rw [List.pairwise_append]
    refine ⟨hq.order.imp_of_mem fun hj hk hlt => ?_, List.pairwise_singleton _ _,
      fun j hj k hk => ?_⟩
    · rw [hat _ hj, hat _ hk]
      exact hlt
    · rw [List.mem_singleton.mp hk, hat j hj, (retire_self p slot).2]
      exact hq.past j hj
  · intro j hj
    show (p.retire slot).freedAt j < p.clock + 1
    rcases List.mem_append.mp hj with hj | hj
    · rw [hat j hj]
      have := hq.past j hj
      omega
    · rw [List.mem_singleton.mp hj, (retire_self p slot).2]
      omega

theorem usedBy_retire (hslot : slot < kMaxRegions) (ho : p.ownerOf slot = a)
    (hlive : (p.regions slot).state = .live) :
    usedBy (p.retire slot) a + (p.regions slot).userSize = usedBy p a := by
  have hchange := sumTo_change
    (f := fun i => if p.ownerOf i = a
      ∧ (p.regions i).state = .live then (p.regions i).userSize else 0)
    (g := fun i => if (p.retire slot).ownerOf i = a ∧ ((p.retire slot).regions i).state = .live
      then ((p.retire slot).regions i).userSize else 0) hslot ?_
  · rw [(retire_self p slot).1, if_pos ⟨ho, hlive⟩, if_neg (fun hc => absurd hc.2 (by simp)),
      Nat.add_zero] at hchange
    exact hchange
  · intro j hj
    rw [(retire_other p slot j hj).1]
    rfl

end

end HeapForge.CppGuardHeap
