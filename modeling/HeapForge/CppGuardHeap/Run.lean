import HeapForge.CppGuardHeap.Registry

/-!
# Runs of guard heaps

* `RegInv.step`       every call that returns keeps slots, queues and counters in step;
* `step_others`       and leaves the slots of the other instances alone;
* `Registered`        what a state of the registry should be;
* `registered_iff`    **every reachable state is so, exactly if the sizes of the live blocks of each
                      instance add up to less than `2^64`.**
-/

set_option linter.unusedSectionVars false
set_option linter.unusedVariables false

namespace HeapForge.CppGuardHeap
open Lib Function

attribute [local irreducible] kMaxRegions

section
variable {p p' : Process} {g g' : GuardHeap} {ps this size alignment base user ptr b : Nat}
  {act : GAct}

/-! ## the record of an instance -/

theorem setHeap_self (p : Process) (this : Nat) (g : GuardHeap) :
    (p.setHeap this g).heaps this = some g :=
  update_self _ _ _

theorem setHeap_other (p : Process) (g : GuardHeap) (hb : b ≠ this) :
    (p.setHeap this g).heaps b = p.heaps b :=
  update_of_ne hb _ _

theorem Core.withHeaps (h : Core p) (hs : Nat → Option GuardHeap) : Core { p with heaps := hs } :=
  ⟨h.null, h.bound, h.sizes, h.counts, h.owned, h.apart⟩

theorem HeapInv.withHeaps (h : HeapInv p b g) (hs : Nat → Option GuardHeap) :
    HeapInv { p with heaps := hs } b g :=
  ⟨⟨h.queue.mem, h.queue.order, h.queue.past⟩, h.length, h.used⟩

theorem SameFor.withHeaps (h : SameFor b p p') (hs : Nat → Option GuardHeap) :
    SameFor b p { p' with heaps := hs } :=
  ⟨h.owner, h.slot, h.clock⟩

theorem RegInv.this_ne (h : RegInv p) (hg : p.heaps this = some g) : this ≠ 0 := by
  intro h0
  rw [h0, h.zero] at hg
  cases hg

/-- a call on `this`: it serves or gives up slots of its own and then writes its own record -/
theorem RegInv.of_call (h : RegInv p) (h0 : this ≠ 0) (hcore : Core p')
    (hheaps : p'.heaps = p.heaps)
    (howner : ∀ i, p'.ownerOf i ≠ 0 → p'.ownerOf i = p.ownerOf i ∨ p'.ownerOf i = this)
    (hothers : ∀ b, b ≠ this → b ≠ 0 → SameFor b p p') (hinv : HeapInv p' this g') :
    RegInv (p'.setHeap this g') := by
  refine ⟨hcore.withHeaps _, ?_, ?_, ?_⟩
  · rw [setHeap_other p' g' (Ne.symm h0), hheaps]
    exact h.zero
  · intro i hi
    show ∃ k, (p'.setHeap this g').heaps (p'.ownerOf i) = some k
    by_cases he : p'.ownerOf i = this
    · exact ⟨g', by rw [he, setHeap_self]⟩
    · have ho := (howner i hi).resolve_right he
      rw [setHeap_other p' g' he, hheaps, ho]
      exact h.alive i (by rw [← ho]; exact hi)
  · intro a k hk
    by_cases he : a = this
    · subst he
      rw [setHeap_self] at hk
      cases hk
      exact hinv.withHeaps _
    · rw [setHeap_other p' g' he, hheaps] at hk
      exact ((h.heap a k hk).same (hothers a he (h.this_ne hk))).withHeaps _

/-- a call that keeps the slots, the queue and the counter of used bytes -/
theorem RegInv.setHeap (h : RegInv p) (hg : p.heaps this = some g)
    (hq : g'.quarantine = g.quarantine) (hcap : g'.quarantineCap = g.quarantineCap)
    (hused : g'.stats.used = g.stats.used) : RegInv (p.setHeap this g') := by
  obtain ⟨h1, h2, h3⟩ := h.heap this g hg
  refine h.of_call (h.this_ne hg) h.core rfl (fun i _ => Or.inl rfl) (fun b _ _ => SameFor.refl b p)
    ⟨?_, ?_, ?_⟩
  · rw [hq]
    exact h1
  · rw [hq, hcap]
    exact h2
  · rw [hused]
    exact h3

/-! ## one call -/

theorem RegInv.start : RegInv Process.start := by
  refine ⟨⟨fun i => iff_of_true rfl rfl, fun i hi => absurd rfl hi, fun i =>
    Nat.two_pow_pos 64, fun r => ⟨le_rfl, Nat.zero_le _⟩,
    ⟨fun r => iff_of_false (lt_irrefl 0) ?_, fun r k k' hk => absurd rfl hk.1⟩,
    fun r r' hr => absurd hr (lt_irrefl 0)⟩, rfl, fun i hi => absurd rfl hi, fun a k hk => ?_⟩
  · intro hk
    obtain ⟨i, hi⟩ := hk
    exact hi.1 rfl
  · cases hk

theorem RegInv.construct (h : RegInv p) (h0 : this ≠ 0) (hnew : p.heaps this = none) (u : Bool)
    (cap : Nat) :
    RegInv (construct p this u cap) := by
  -- the owner of a slot exists, so the new instance has none yet
  have hno : ∀ i, p.ownerOf i ≠ this := by
    intro i hi
    obtain ⟨k, hk⟩ := h.alive i (by rw [hi]; exact h0)
    rw [hi, hnew] at hk
    cases hk
  have hz : usedBy p this = 0 := by
    rw [← sumTo_zero kMaxRegions]
    apply sumTo_congr
    intro i _
    exact if_neg fun hc => hno i hc.1
  refine h.of_call h0 h.core rfl (fun i _ => Or.inl rfl) (fun b _ _ => SameFor.refl b p)
    ⟨⟨fun i => ?_, List.Pairwise.nil, fun i hi => ?_⟩, Nat.zero_le _, ?_⟩
  · exact iff_of_false List.not_mem_nil fun hc => hno i hc.1
  · cases hi
  · rw [hz]
    rfl

/-- what `allocate` does when it returns -/
theorem allocate_cases (ha : allocate ps p this size alignment base = some (user, p')) :
    ∃ g, p.heaps this = some g ∧ (p' = p ∨ p' = p.setHeap this (bumpFail g)
      ∨ (base ≠ 0 ∧ ∃ slot r g', p' = (p.occupy slot this r).setHeap this g'
        ∧ findFreeSlot p = some slot ∧ r.state = .live
        ∧ r.base = base ∧ r.total = totalBytes ps size alignment ∧ r.userSize = askedSize size
        ∧ g'.quarantine = g.quarantine ∧ g'.quarantineCap = g.quarantineCap
        ∧ g'.stats.used = wadd g.stats.used (askedSize size))) := by
  obtain ⟨g, hg, ha⟩ := Option.bind_eq_some_iff.mp ha
  refine ⟨g, hg, ?_⟩
  split at ha
  · obtain ⟨-, rfl⟩ := Prod.mk.inj (Option.some.inj ha)
    exact Or.inl rfl
  · split at ha
    · obtain ⟨-, rfl⟩ := Prod.mk.inj (Option.some.inj ha)
      exact Or.inr (Or.inl rfl)
    · rename_i hbase
      dsimp only at ha
      generalize (if g.underflow then wadd base ps else _) = u at ha
      split at ha
      · cases ha
      · obtain ⟨slot, hslot, ha⟩ := Option.map_eq_some_iff.mp ha
        obtain ⟨-, rfl⟩ := Prod.mk.inj ha
        exact Or.inr (Or.inr ⟨hbase, slot, _, _, rfl, hslot, rfl, rfl, rfl, rfl, rfl, rfl, rfl⟩)

/-- what `deallocate` does when it returns -/
theorem deallocate_cases (hd : deallocate ps p this ptr = some p') :
    ∃ g, p.heaps this = some g ∧ (p' = p ∨ p' = p.setHeap this (countFree g)
      ∨ ∃ slot g', p'
        = (evict g.quarantineCap (g.quarantine ++ [slot]) (p.retire slot)).2.setHeap this g'
        ∧ findSlot p this ptr = some slot
        ∧ g'.quarantine = (evict g.quarantineCap (g.quarantine ++ [slot]) (p.retire slot)).1
        ∧ g'.quarantineCap = g.quarantineCap
        ∧ g'.stats.used = wsub g.stats.used (p.regions slot).userSize) := by
  obtain ⟨g, hg, hd⟩ := Option.bind_eq_some_iff.mp hd
  refine ⟨g, hg, ?_⟩
  split at hd
  · obtain rfl := Option.some.inj hd
    exact Or.inl rfl
  · cases hf : findSlot p this ptr with
    | none =>
      rw [hf] at hd
      obtain rfl := Option.some.inj hd
      exact Or.inr (Or.inl rfl)
    | some slot =>
      rw [hf] at hd
      dsimp only at hd
      split at hd
      · cases hd
      · obtain rfl := Option.some.inj hd
        exact Or.inr (Or.inr ⟨slot, _, rfl, rfl, rfl, rfl, rfl⟩)

theorem askedSize_lt (h : size < 2 ^ 64) : askedSize size < 2 ^ 64 := by
  unfold askedSize
  split
  · decide
  · exact h

theorem RegInv.allocate (h : RegInv p) (hsize : size < 2 ^ 64)
    (hos : base ≠ 0 → 0 < totalBytes ps size alignment
      ∧ ∀ r, p.Mapped r → Apart (base, totalBytes ps size alignment) r)
    (ha : allocate ps p this size alignment base = some (user, p')) : RegInv p' := by
  obtain ⟨g, hg,
    rfl | rfl | ⟨hbase, slot, r, g', rfl, hslot, hlive, hb, ht, hs, hq, hcap, hused⟩⟩ :=
    allocate_cases ha
  · exact h
  · exact h.setHeap hg rfl rfl rfl
  · obtain ⟨hlt, hfree, hnull⟩ := findFreeSlot_some hslot
    obtain ⟨hpos, hfresh⟩ := hos hbase
    have h0 := h.this_ne hg
    obtain ⟨h1, h2, h3⟩ := h.heap this g hg
    have hcore : Core (p.occupy slot this r) := by
      apply h.core.occupy hlt hfree h0 hlive
      · rw [hs]
        exact askedSize_lt hsize
      · rw [ht]
        exact hpos
      · unfold Region.mapping
        rw [hb, ht]
        exact hfresh
    refine h.of_call h0 hcore rfl (fun i hi => ?_) (fun b hb hb0 => sameFor_occupy hnull hb hb0)
      ⟨?_, ?_, ?_⟩
    · by_cases hi' : i = slot
      · subst hi'
        exact Or.inr (occupy_self p i this r).1
      · exact Or.inl (occupy_other p slot this r i hi').1
    · rw [hq]
      exact h1.occupy hfree hlive
    · rw [hq, hcap]
      exact h2
    · rw [hused, h3, usedBy_occupy hlt hfree hlive, hs]
      exact Nat.mod_add_mod _ _ _

theorem RegInv.deallocate (h : RegInv p) (hd : deallocate ps p this ptr = some p') : RegInv p' := by
  obtain ⟨g, hg, rfl | rfl | ⟨slot, g', rfl, hslot, hq, hcap, hused⟩⟩ := deallocate_cases hd
  · exact h
  · exact h.setHeap hg rfl rfl rfl
  · obtain ⟨hlt, ho, hlive⟩ := findSlot_some hslot
    have h0 := h.this_ne hg
    obtain ⟨h1, h2, h3⟩ := h.heap this g hg
    obtain ⟨e1, e2, e3, e4⟩ :=
      evict_spec g.quarantineCap (h.core.retire hlive) h0 (h1.retire ho hlive)
    refine h.of_call h0 e1.core e1.heaps (fun i hi => Or.inl (e1.owner i hi)) (fun b hb hb0 => ?_)
      ⟨?_, ?_, ?_⟩
    · exact (sameFor_retire (by rw [ho]; exact Ne.symm hb)).trans (e1.others b hb hb0)
    · rw [hq]
      exact e2
    · rw [hq, hcap]
      exact e3
    · -- the size of the block is part of the sum, so the difference is the sum of the others
      have hsum := usedBy_retire hlt ho hlive
      have hsz := h.core.sizes slot
      rw [hused, e4, h3]
      unfold wsub
      omega

/-- an instance without slots goes -/
theorem RegInv.forget (h : RegInv p) (h0 : this ≠ 0) (e : GivesUp this p p')
    (hgone : ∀ i, p'.ownerOf i ≠ this) : RegInv { p' with heaps := update p'.heaps this none } := by
  refine ⟨e.core.withHeaps _, ?_, ?_, ?_⟩
  · show update p'.heaps this none 0 = none
    rw [update_of_ne (Ne.symm h0), e.heaps]
    exact h.zero
  · intro i hi
    have ho : p'.ownerOf i = p.ownerOf i := e.owner i hi
    show ∃ k, update p'.heaps this none (p'.ownerOf i) = some k
    rw [update_of_ne (hgone i), e.heaps, ho]
    exact h.alive i (by rw [← ho]; exact hi)
  · intro a k hk
    have hk' : update p'.heaps this none a = some k := hk
    have he : a ≠ this := by
      rintro rfl
      rw [update_self] at hk'
      cases hk'
    rw [update_of_ne he, e.heaps] at hk'
    exact ((h.heap a k hk').same (e.others a he (h.this_ne hk'))).withHeaps _

theorem RegInv.destroy (h : RegInv p) (hg : p.heaps this = some g) : RegInv (destroy p this) := by
  have h0 := h.this_ne hg
  obtain ⟨e, hno⟩ := destroyLoop_spec (n := kMaxRegions) h.core h0
  apply h.forget h0 e
  intro i hi
  exact hno i (e.core.bound i (by rw [hi]; exact h0)) hi

theorem RegInv.step (h : RegInv p) (hstep : GStep ps p act p') : RegInv p' := by
  cases hstep with
  | construct h0 hnew => exact h.construct h0 hnew _ _
  | allocate hsize hos ha => exact h.allocate hsize hos ha
  | deallocate hd => exact h.deallocate hd
  | destroy hg =>
    obtain ⟨g, hg⟩ := hg
    exact h.destroy hg

/-- a call on one instance leaves the slots of the others -/
theorem step_others (h : RegInv p) (hstep : GStep ps p act p') (hb : b ≠ act.this) (hb0 : b ≠ 0) :
    SameFor b p p' := by
  cases hstep with
  | construct h0 hnew => exact (SameFor.refl b p).withHeaps _
  | allocate hsize hos ha =>
    obtain ⟨g, hg, rfl | rfl | ⟨hbase, slot, r, g', rfl, hslot, -⟩⟩ := allocate_cases ha
    · exact SameFor.refl b _
    · exact (SameFor.refl b p).withHeaps _
    · exact (sameFor_occupy (findFreeSlot_some hslot).2.2 hb hb0).withHeaps _
  | deallocate hd =>
    obtain ⟨g, hg, rfl | rfl | ⟨slot, g', rfl, hslot, -⟩⟩ := deallocate_cases hd
    · exact SameFor.refl b _
    · exact (SameFor.refl b p).withHeaps _
    · obtain ⟨-, ho, hlive⟩ := findSlot_some hslot
      obtain ⟨e, -⟩ := evict_spec g.quarantineCap (h.core.retire hlive) (h.this_ne hg)
        ((h.heap _ g hg).queue.retire ho hlive)
      have hr : SameFor b p (p.retire slot) := sameFor_retire (by rw [ho]; exact Ne.symm hb)
      exact (hr.trans (e.others b hb hb0)).withHeaps _
  | destroy hg =>
    obtain ⟨g, hg⟩ := hg
    obtain ⟨e, -⟩ := destroyLoop_spec (n := kMaxRegions) h.core (h.this_ne hg)
    exact (e.others b hb hb0).withHeaps _

/-! ## whole runs -/

/-- what a state should be -/
structure Registered (p : Process) : Prop where
  null : ∀ i, (p.regions i).state = .free ↔ p.ownerOf i = 0
  alive : ∀ i, p.ownerOf i ≠ 0 → ∃ g, p.heaps (p.ownerOf i) = some g
  /-- a mapping that a slot keeps is out, and no other slot's meets it -/
  held : ∀ i, (p.regions i).state ≠ .free →
    p.reserved (p.regions i).mapping = p.released (p.regions i).mapping + 1
  apart : ∀ i j, i ≠ j → (p.regions i).state ≠ .free → (p.regions j).state ≠ .free →
    Apart (p.regions i).mapping (p.regions j).mapping
  /-- and every other mapping was given back as often as it was handed out -/
  returned : ∀ m, (∀ i, ¬ p.Keeps m i) → p.reserved m = p.released m
  queue : ∀ a g, p.heaps a = some g → g.quarantine.Nodup
    ∧ (∀ i, i ∈ g.quarantine ↔ p.ownerOf i = a ∧ (p.regions i).state = .quarantined)
    ∧ g.quarantine.Pairwise (fun i j => p.freedAt i < p.freedAt j)
    ∧ g.quarantine.length ≤ g.quarantineCap
  used : ∀ a g, p.heaps a = some g → g.stats.used = usedBy p a

/-- the invariant gives all of it but the counter -/
theorem RegInv.registered (h : RegInv p)
    (hused : ∀ a g, p.heaps a = some g → g.stats.used = usedBy p a) :
    Registered p := by
  have hout : ∀ i, (p.regions i).state ≠ .free → p.Mapped (p.regions i).mapping :=
    fun i hi => h.core.owned.of_has ⟨hi, rfl⟩
  refine ⟨h.core.null, h.alive, fun i hi => ?_, fun i j hij hi hj => ?_, fun m hm => ?_,
    fun a g hg => ?_, hused⟩
  · have hc := h.core.counts (p.regions i).mapping
    have ho : p.released _ < p.reserved _ := hout i hi
    omega
  · apply h.core.apart _ _ (hout i hi) (hout j hj)
    intro he
    exact hij (h.core.owned.unique _ i j ⟨hi, rfl⟩ ⟨hj, he.symm⟩)
  · have hc := h.core.counts m
    have ho : ¬ p.released m < p.reserved m := by
      intro hlt
      obtain ⟨i, hi⟩ := (h.core.owned.holder m).mp hlt
      exact hm i hi
    omega
  · obtain ⟨hq, hl, -⟩ := h.heap a g hg
    refine ⟨hq.order.imp fun hlt he => ?_, hq.mem, hq.order, hl⟩
    rw [he] at hlt
    exact lt_irrefl _ hlt

theorem RegInv.run {acts : List GAct} (hrun : Steps (GStep ps) Process.start acts p) : RegInv p :=
  hrun.invariant (I := RegInv) RegInv.start fun _ _ _ h hstep => h.step hstep

/-- **Slots, owners, mappings, queues and counters of any number of guard heaps stay in step; the
counter of used bytes is the sum exactly if the sum fits in a word.**  And a call on one instance
leaves the slots of the others. -/
theorem registered_iff {acts : List GAct} (hrun : Steps (GStep ps) Process.start acts p) :
    (Registered p ↔ ∀ a g, p.heaps a = some g → usedBy p a < 2 ^ 64)
      ∧ ∀ act p', GStep ps p act p' → ∀ i, p.ownerOf i ≠ 0 → p.ownerOf i ≠ act.this →
          p'.ownerOf i = p.ownerOf i ∧ p'.regions i = p.regions i := by
  have h := RegInv.run hrun
  refine ⟨⟨fun hr a g hg => ?_, fun hfit => h.registered fun a g hg => ?_⟩,
    fun act p' hstep i hi0 hi => ?_⟩
  · rw [← hr.used a g hg, (h.heap a g hg).used]
    exact Nat.mod_lt _ (by decide)
  · rw [(h.heap a g hg).used]
    exact Nat.mod_eq_of_lt (hfit a g hg)
  · have hs := step_others h hstep hi hi0
    exact ⟨(hs.owner i).mpr rfl, (hs.slot i rfl).1⟩

theorem findFreeSlot_eq {slot : Nat} (hlt : slot < kMaxRegions)
    (hfree : (p.regions slot).state = .free) (hnull : p.ownerOf slot = 0)
    (hbusy : ∀ j, j < slot → (p.regions j).state ≠ .free) :
    findFreeSlot p = some slot := by
  unfold findFreeSlot
  rw [List.find?_range_eq_some]
  refine ⟨by rw [hfree, hnull]; rfl, List.mem_range.mpr hlt, fun j hj => ?_⟩
  rw [decide_eq_false (hbusy j hj)]
  rfl

/-- a request that the system grants, with slack that lies in the mapping, is served -/
theorem allocate_serves (ps size alignment base : Nat) {slot : Nat} (hg : p.heaps this = some g)
    (hu : g.underflow = false) (hslot : findFreeSlot p = some slot)
    (hal : ¬ (askedAlignment alignment > ps ∨ hfIsPow2 (askedAlignment alignment) = false))
    (hbase : base ≠ 0) (hfill : fillsSlack ps base (totalBytes ps size alignment) (wadd base ps)
      (wadd (wadd base ps) (dataBytes ps size alignment))
      (wsub (wadd (wadd base ps) (dataBytes ps size alignment))
        (hfAlignUp (askedSize size) (askedAlignment alignment))) (askedSize size) = true) :
    ∃ user r g', allocate ps p this size alignment base
      = some (user, (p.occupy slot this r).setHeap this g')
      ∧ r.state = .live ∧ r.base = base ∧ r.total = totalBytes ps size alignment
      ∧ r.userSize = askedSize size ∧ g'.underflow = false
      ∧ g'.stats.used = wadd g.stats.used (askedSize size) := by
  unfold CppGuardHeap.allocate
  rw [hg, Option.bind_some, if_neg hal, if_neg hbase, hslot, hu]
  dsimp only
  rw [if_neg (by decide : ¬ false = true), if_neg (by rw [hfill]; decide)]
  exact ⟨_, _, _, rfl, rfl, rfl, rfl, rfl, rfl, rfl⟩

end

/-- one instance, no slot in use -/
def oneHeap : Process := construct Process.start 1 false 64

theorem oneHeap_reached (ps : Nat) :
    Steps (GStep ps) Process.start [.construct 1 false 64] oneHeap :=
  (Steps.nil _).snoc (GStep.construct (by decide) rfl)

theorem oneHeap_heap : oneHeap.heaps 1 = some ⟨false, 64, [], Stats.fresh 0⟩ := setHeap_self _ _ _

theorem oneHeap_slot : findFreeSlot oneHeap = some 0 :=
  findFreeSlot_eq (by decide +kernel) rfl rfl fun j hj => absurd hj (Nat.not_lt_zero j)

theorem registered_oneHeap : ∃ user p', allocate 4096 oneHeap 1 24 16 4096 = some (user, p')
    ∧ ((Registered p' ↔ ∀ a g, p'.heaps a = some g → usedBy p' a < 2 ^ 64)
      ∧ ∀ act p'', GStep 4096 p' act p'' → ∀ i, p'.ownerOf i ≠ 0 → p'.ownerOf i ≠ act.this →
          p''.ownerOf i = p'.ownerOf i ∧ p''.regions i = p'.regions i) := by
  obtain ⟨user, r, g, ha, -⟩ := allocate_serves 4096 24 16 4096
    oneHeap_heap rfl oneHeap_slot (by decide) (by decide) (by decide +kernel)
  have hstep : GStep 4096 oneHeap (.allocate 1 24 16 4096) ((oneHeap.occupy 0 1 r).setHeap 1 g) :=
    GStep.allocate (by decide)
      (fun _ => ⟨by decide +kernel, fun m hm => absurd hm (lt_irrefl 0)⟩) ha
  exact ⟨user, _, ha, registered_iff ((oneHeap_reached 4096).snoc hstep)⟩

/-- **Two requests whose rounded sizes wrap to one page of mapping are both served**, and the sizes
of the two live blocks add up to more than the counter of used bytes holds. -/
theorem used_wraps : ∃ acts p g, Steps (GStep 4096) Process.start acts p ∧ p.heaps 1 = some g
    ∧ g.stats.used = 2 ^ 64 - 8192 ∧ usedBy p 1 = 2 ^ 65 - 8192 := by
  have hz : usedBy oneHeap 1 = 0 := sumTo_zero kMaxRegions
  have hmax : kMaxRegions = 4096 := by decide +kernel
  have htotal : totalBytes 4096 (2 ^ 64 - 4096) 16 = 4096 := by decide +kernel
  have hasked : askedSize (2 ^ 64 - 4096) = 2 ^ 64 - 4096 := by decide +kernel
  -- the first block in slot 0
  obtain ⟨u, r, g, ha, h1, h2, h3, h4, h5, h6⟩ :=
    allocate_serves 4096 (2 ^ 64 - 4096) 16 4096
      oneHeap_heap rfl oneHeap_slot (by decide) (by decide) (by decide +kernel)
  have hstep : GStep 4096 oneHeap (.allocate 1 (2 ^ 64 - 4096) 16 4096)
      ((oneHeap.occupy 0 1 r).setHeap 1 g) :=
    GStep.allocate (by decide)
      (fun _ => ⟨by rw [htotal]; decide, fun m hm => absurd hm (lt_irrefl 0)⟩) ha
  have hfirst := oneHeap_reached 4096 |>.snoc hstep
  -- the second block in slot 1
  have hslot : findFreeSlot ((oneHeap.occupy 0 1 r).setHeap 1 g) = some 1 := by
    apply findFreeSlot_eq (by rw [hmax]; decide) rfl rfl
    intro j hj
    obtain rfl : j = 0 := by omega
    show ((oneHeap.occupy 0 1 r).regions 0).state ≠ .free
    rw [(occupy_self oneHeap 0 1 r).2, h1]
    decide
  obtain ⟨u', r', g', ha', k1, k2, k3, k4, k5, k6⟩ :=
    allocate_serves 4096 (2 ^ 64 - 4096) 16 8192
      (setHeap_self _ 1 g) h5 hslot (by decide) (by decide) (by decide +kernel)
  have hout : ∀ m, ((oneHeap.occupy 0 1 r).setHeap 1 g).Mapped m → m = (4096, 4096) := by
    intro m hm
    have hr : r.mapping = (4096, 4096) := by
      unfold Region.mapping
      rw [h2, h3, htotal]
    by_contra hne
    have h0 : 0 < (oneHeap.occupy 0 1 r).reserved m := hm
    rw [show (oneHeap.occupy 0 1 r).reserved m
      = 0 from update_of_ne (by rw [hr]; exact hne) _ _] at h0
    exact lt_irrefl 0 h0
  have hsecond := hfirst.snoc
    (GStep.allocate (by decide) (fun _ => ⟨by rw [htotal]; decide, fun m hm => by
    rw [hout m hm, htotal]
    exact Or.inr (by decide)⟩) ha')
  refine ⟨_, _, g', hsecond, setHeap_self _ 1 g', ?_, ?_⟩
  · rw [k6, h6, hasked]
    decide +kernel
  · have e1 : usedBy ((oneHeap.occupy 0 1 r).setHeap 1 g) 1 = usedBy oneHeap 1 + r.userSize :=
      usedBy_occupy (by rw [hmax]; decide) rfl h1
    have e2 : usedBy ((((oneHeap.occupy 0 1 r).setHeap 1 g).occupy 1 1 r').setHeap 1 g') 1
        = usedBy ((oneHeap.occupy 0 1 r).setHeap 1 g) 1 + r'.userSize :=
      usedBy_occupy (by rw [hmax]; decide) rfl k1
    rw [e2, e1, hz, h4, k4, hasked]
    decide

end HeapForge.CppGuardHeap
