import HeapForge.GuardHeap.Threads

/-!
# The lock-free registry loses nothing

* `RInv.allocate`, `RInv.deallocate`   a call begins;
* `RInv.advance`                       a thread goes on, one lemma for each place it can be at;
* `registry_races`                     **in every interleaving** an entry belongs to one block,
                                       every free finds its own, and when all threads are idle the
                                       walk and the counters are those of the blocks held.
-/

set_option linter.unusedSectionVars false
set_option linter.unusedVariables false

namespace HeapForge.GuardHeap
open Lib Function

-- the number of entries plays no part in the proofs, and its value should not be computed with
attribute [local irreducible] GH_MAX_REGIONS

section
variable {vm : Vm} {s s' : RSys} {phase : Nat → Phase} {pc : Nat → Pc} {q : Pc} {b c : Block}
  {l : List Block} {t i idx n u pk ptr base total size alignment : Nat} {spurious : Bool}
  {act : RAct} {acts : List RAct}

/-! ## the mappings -/

theorem Mapped.user_inj (h : Mapped l) (hb : b ∈ l) (hc : c ∈ l) (hu : b.user = c.user) :
    b = c := by
  by_contra hne
  have h1 := h.inside b hb
  have h2 := h.inside c hc
  have h3 := h.apart b hb c hc hne
  unfold Block.Apart at h3
  omega

theorem Mapped.erase (h : Mapped l) (b : Block) : Mapped (l.erase b) :=
  ⟨h.nodup.erase b, fun c hc => h.inside c (List.mem_of_mem_erase hc),
    fun c hc d hd => h.apart c (List.mem_of_mem_erase hc) d (List.mem_of_mem_erase hd)⟩

theorem Mapped.cons (h : Mapped l)
    (hb : 0 < b.user ∧ b.base ≤ b.user ∧ b.user < b.base + b.total ∧ b.size < 2 ^ 64)
    (hfresh : ∀ c ∈ l, b.Apart c) : b ∉ l ∧ Mapped (b :: l) := by
  have hnew : b ∉ l := fun hm => by
    have := hfresh b hm
    unfold Block.Apart at this
    omega
  refine ⟨hnew, List.nodup_cons.mpr ⟨hnew, h.nodup⟩, fun c hc => ?_, fun c hc d hd hne => ?_⟩
  · rcases List.mem_cons.mp hc with rfl | hc
    · exact hb
    · exact h.inside c hc
  · rcases List.mem_cons.mp hc with rfl | hcl
    · rcases List.mem_cons.mp hd with rfl | hdl
      · exact absurd rfl hne
      · exact hfresh d hdl
    · rcases List.mem_cons.mp hd with rfl | hdl
      · exact (hfresh c hcl).symm
      · exact h.apart c hcl d hdl hne

/-- the block that a request computes lies in its mapping -/
theorem ghBlock_inside (hsize : ghSize size + 3 * vm.pageSize ≤ 2 ^ 64)
    (hbase : (ghBlock vm size alignment).base ≠ 0) :
    0 < (ghBlock vm size alignment).user
      ∧ (ghBlock vm size alignment).base ≤ (ghBlock vm size alignment).user
      ∧ (ghBlock vm size alignment).user
        < (ghBlock vm size alignment).base + (ghBlock vm size alignment).total
      ∧ (ghBlock vm size alignment).size < 2 ^ 64 := by
  obtain ⟨d, base, hd, htotal, hb, -, hle, -, hlt⟩ := mapping_spec hsize hbase
  obtain ⟨h1, h2⟩ := ghPlace_bounds (ghAlignment alignment) hle hlt
  have hps := vm.pageSize_ge
  unfold ghBlock
  dsimp only
  rw [hb, htotal, hd]
  omega

/-! ## a call begins -/

theorem RInv.start : RInv RSys.start fun _ => .empty where
  mapped := ⟨List.nodup_nil, fun b hb => absurd hb (by simp [RSys.start]),
    fun b hb => absurd hb (by simp [RSys.start])⟩
  table := fun _ => rfl
  bounded := fun _ h => absurd rfl h
  claims := fun _ => trivial
  owners :=
    ⟨fun _ _ h => absurd h (by simp [Phase.owner]), fun _ _ _ h => absurd h (by simp [Phase.owner])⟩
  blocks :=
    ⟨fun _ _ h => absurd h (by simp [Phase.block]), fun _ _ _ h => absurd h (by simp [Phase.block]),
    fun _ _ h => absurd h (by simp [RSys.start, Pc.pending])⟩
  held := fun b => by simp [RSys.start]
  heldNodup := List.nodup_nil
  closed := fun c hc => absurd hc (by simp [RSys.start])
  used := by
    show 0 = sumTo (fun _ => 0) GH_MAX_REGIONS % 2 ^ 64
    rw [sumTo_zero, Nat.zero_mod]
  peak := ⟨Nat.le_refl _, fun _ _ h => absurd h (by simp [RSys.start, Pc.raising]),
    Or.inl (Nat.le_refl _)⟩

theorem pending_cases {t' : Nat} (h : (update pc t (.reserveSlot b i) t').pending = some c) :
    (t' = t ∧ b = c) ∨ (t' ≠ t ∧ (pc t').pending = some c) := by
  by_cases ht : t' = t
  · rw [ht, update_self] at h
    exact Or.inl ⟨ht, Option.some.inj h⟩
  · rw [update_of_ne ht] at h
    exact Or.inr ⟨ht, h⟩

/-- nobody else has a new mapping -/
theorem Blocks.arrive (h : Blocks phase pc l) (hnew : b ∉ l) :
    Blocks phase (update pc t (.reserveSlot b i)) (b :: l) where
  mem := fun j c hj => List.mem_cons_of_mem _ (h.mem j c hj)
  single := h.single
  pending := by
    intro t' c hc
    rcases pending_cases hc with ⟨rfl, rfl⟩ | ⟨ht, hold⟩
    · refine ⟨List.mem_cons_self, fun j hj => hnew (h.mem j b hj), fun t₂ ht₂ => ?_⟩
      rcases pending_cases ht₂ with ⟨rfl, -⟩ | ⟨-, hold⟩
      · rfl
      · exact absurd (h.pending t₂ b hold).1 hnew
    · obtain ⟨h1, h2, h3⟩ := h.pending t' c hold
      refine ⟨List.mem_cons_of_mem _ h1, h2, fun t₂ ht₂ => ?_⟩
      rcases pending_cases ht₂ with ⟨-, rfl⟩ | ⟨-, hold⟩
      · exact absurd h1 hnew
      · exact h3 t₂ hold

theorem RInv.allocate (h : RInv s phase) (hpc : s.pc t = .idle)
    (hb : 0 < b.user ∧ b.base ≤ b.user ∧ b.user < b.base + b.total ∧ b.size < 2 ^ 64)
    (hfresh : ∀ c ∈ s.mapped, b.Apart c) :
    RInv { s.goto t (.reserveSlot b 0) with mapped := b :: s.mapped } phase := by
  obtain ⟨hnew, hmapped⟩ := h.mapped.cons hb hfresh
  refine ⟨hmapped, h.table, h.bounded,
    claims_move h.claims fun j hj => absurd hj (Nat.not_lt_zero j), h.owners.move ?_,
    h.blocks.arrive hnew, h.held, h.heldNodup, h.closed, h.used, h.peak.move ?_⟩
  · rw [hpc]
    exact fun hc => absurd hc Bool.false_ne_true
  · rw [hpc]
    rfl

theorem RInv.deallocate (h : RInv s phase) (hpc : s.pc t = .idle) (hb : b ∈ s.held) :
    ∃ phase', RInv { s.goto t (.findByUser b.user 0) with held := s.held.erase b } phase' := by
  obtain ⟨idx, hidx⟩ := (h.held b).mp hb
  have hlt : idx < GH_MAX_REGIONS :=
    h.bounded idx (by rw [hidx]; exact fun hc => Phase.noConfusion hc)
  have hfree : ∀ t', (phase idx).owner = some t' → t' = t := fun t' ht => by
    rw [hidx] at ht
    exact absurd ht (by simp [Phase.owner])
  have hq : Claims (update phase idx (.leaving t b true)) s.peakBytes t (.findByUser b.user 0) :=
    ⟨idx, b, update_self .., rfl, Nat.zero_le _⟩
  have htable : s.table = update s.table idx (Phase.leaving t b true).entry := by
    refine (update_eq_self_iff.mpr ?_).symm
    rw [h.table idx, hidx]
    rfl
  refine ⟨update phase idx (.leaving t b true), h.mapped, ?_, bounded_change h.bounded hlt,
    claims_change h.claims hfree (fun hc => Phase.noConfusion hc) (Nat.le_refl _) hq,
    h.owners.change (fun i _ => h.none_mine (by rw [hpc]; rfl) i) fun t' ht =>
      ⟨(Option.some.inj ht).symm, rfl⟩,
    h.blocks.change (by rw [hidx]; rfl) (fun c hc => absurd hc (by simp [Pc.pending])), fun c => ?_,
    h.heldNodup.erase b, closed_change h.closed fun c => ?_,
    used_change h.used hlt (by rw [hidx]; rfl), ?_⟩
  · intro i
    show s.table i = _
    rw [htable]
    exact table_change _ h.table i
  · -- the block is not live any more, the others are
    show c ∈ s.held.erase b ↔ _
    rw [h.heldNodup.mem_erase_iff, h.held c]
    constructor
    · rintro ⟨hcb, i, hi⟩
      have hid : i ≠ idx := fun hc => hcb (by
        rw [hc, hidx] at hi
        exact (Phase.live.inj hi).symm)
      exact ⟨i, (update_of_ne hid _ _).trans hi⟩
    · rintro ⟨i, hi⟩
      by_cases hid : i = idx
      · rw [hid, update_self] at hi
        exact Phase.noConfusion hi
      · rw [update_of_ne hid] at hi
        refine ⟨fun hcb => hid ?_, i, hi⟩
        exact h.blocks.single i idx b (by rw [hi, hcb]; rfl) (by rw [hidx]; rfl)
  · rw [hidx]
    exact ⟨fun t' hc => Phase.noConfusion hc, fun hc => Phase.noConfusion hc⟩
  · exact h.peak.move (by rw [hpc]; rfl)

/-! ## a thread goes on -/

/-- what the thread's place says of the table -/
theorem RInv.claim (h : RInv s phase) (hpc : s.pc t = q) : Claims phase s.peakBytes t q :=
  hpc ▸ h.claims t

/-- the thread changes the entry that it has -/
theorem RInv.change (h : RInv s phase) {ph : Phase} (hown : (phase idx).owner = some t)
    (hne : ph ≠ .empty) (ho : ∀ t', ph.owner = some t' → t' = t ∧ q.busy = true)
    (hb : ph.block = (phase idx).block) (hp : q.pending = none)
    (hq : Claims (update phase idx ph) s'.peakBytes t q) (hpc : s'.pc = update s.pc t q)
    (hm : s'.mapped = s.mapped) (ht : s'.table = update s.table idx ph.entry)
    (hpk : s.peakBytes ≤ s'.peakBytes)
    (hheld : ∀ b, b ∈ s'.held ↔ ∃ i, update phase idx ph i = .live b) (hnd : s'.held.Nodup)
    (hclosed : ∀ c ∈ s'.closed, ∃ i b, c = (b.base, b.total)
      ∧ ((∃ t, update phase idx ph i = .leaving t b false) ∨ update phase idx ph i = .gone b))
    (hused : s'.usedBytes = sumTo (fun i => (update phase idx ph i).weight) GH_MAX_REGIONS % 2 ^ 64)
    (hpeak : Peak s'.pc s'.peakBytes s'.top) : RInv s' (update phase idx ph) where
  mapped := hm ▸ h.mapped
  table := fun i => by
    rw [ht]
    exact table_change _ h.table i
  bounded := bounded_change h.bounded (h.idx_lt hown)
  claims := hpc ▸ claims_change h.claims (h.only hown) hne hpk hq
  owners := hpc ▸ h.owners.change (h.mine hown) ho
  blocks := by
    rw [hpc, hm]
    exact h.blocks.change hb fun b hc => absurd (hp.symm.trans hc) (by simp)
  held := hheld
  heldNodup := hnd
  closed := hclosed
  used := hused
  peak := hpeak

/-- the entry looks as before -/
theorem RInv.table_same (h : RInv s phase) {ph : Phase} (he : ph.entry = (phase idx).entry) :
    s.table = update s.table idx ph.entry := by
  refine (update_eq_self_iff.mpr ?_).symm
  rw [h.table idx, he]

/-- a mapping gets its entry -/
theorem Blocks.place (h : Blocks phase pc l) (hpc : (pc t).pending = some b)
    (hempty : phase idx = .empty) (hq : q.pending = none) :
    Blocks (update phase idx (.taken t b 0)) (update pc t q) l := by
  obtain ⟨hmem, hnone, honly⟩ := h.pending t b hpc
  have hcases : ∀ i c, (update phase idx (Phase.taken t b 0) i).block = some c →
      (i = idx ∧ c = b) ∨ (i ≠ idx ∧ (phase i).block = some c) := by
    intro i c hi
    by_cases hid : i = idx
    · rw [hid, update_self] at hi
      exact Or.inl ⟨hid, (Option.some.inj hi).symm⟩
    · rw [update_of_ne hid] at hi
      exact Or.inr ⟨hid, hi⟩
  have hpend : ∀ {t' : Nat} {c : Block}, (update pc t q t').pending = some c →
      t' ≠ t ∧ (pc t').pending = some c := by
    intro t' c hc
    by_cases ht : t' = t
    · rw [ht, update_self, hq] at hc
      exact absurd hc (by simp)
    · rw [update_of_ne ht] at hc
      exact ⟨ht, hc⟩
  refine ⟨fun i c hi => ?_, fun i j c hi hj => ?_, fun t' c hc => ?_⟩
  · rcases hcases i c hi with ⟨-, rfl⟩ | ⟨-, hi⟩
    · exact hmem
    · exact h.mem i c hi
  · rcases hcases i c hi with ⟨rfl, rfl⟩ | ⟨-, hio⟩
    · rcases hcases j c hj with ⟨rfl, -⟩ | ⟨-, hjo⟩
      · rfl
      · exact absurd hjo (hnone j)
    · rcases hcases j c hj with ⟨-, rfl⟩ | ⟨-, hjo⟩
      · exact absurd hio (hnone i)
      · exact h.single i j c hio hjo
  · obtain ⟨ht, hold⟩ := hpend hc
    obtain ⟨h1, h2, h3⟩ := h.pending t' c hold
    refine ⟨h1, fun i hi => ?_, fun t₂ ht₂ => h3 t₂ (hpend ht₂).2⟩
    rcases hcases i c hi with ⟨-, rfl⟩ | ⟨-, hi⟩
    · exact ht (honly t' hold)
    · exact h2 i hi

/-- a mapping that got no entry goes back -/
theorem Blocks.giveBack (h : Blocks phase pc l) (hl : l.Nodup) (hpc : (pc t).pending = some b)
    (hq : q.pending = none) :
    Blocks phase (update pc t q) (l.erase b) := by
  obtain ⟨hmem, hnone, honly⟩ := h.pending t b hpc
  refine ⟨fun i c hi => ?_, h.single, fun t' c hc => ?_⟩
  · have hcb : c ≠ b := fun hcb => hnone i (hcb ▸ hi)
    exact (List.mem_erase_of_ne hcb).mpr (h.mem i c hi)
  · have hold : t' ≠ t ∧ (pc t').pending = some c := by
      by_cases ht : t' = t
      · rw [ht, update_self, hq] at hc
        exact absurd hc (by simp)
      · rw [update_of_ne ht] at hc
        exact ⟨ht, hc⟩
    obtain ⟨h1, h2, h3⟩ := h.pending t' c hold.2
    have hcb : c ≠ b := fun hcb => hold.1 (honly t' (hcb ▸ hold.2))
    refine ⟨(List.mem_erase_of_ne hcb).mpr h1, h2, fun t₂ ht₂ => h3 t₂ ?_⟩
    exact pending_of_update (fun d hd => absurd (hq.symm.trans hd) (by simp)) ht₂

theorem RInv.reserveSlot (h : RInv s phase) (hpc : s.pc t = .reserveSlot b i) :
    ∃ phase', RInv (s.advance t spurious) phase' := by
  have hclaim : ∀ j < i, phase j ≠ .empty := h.claim hpc
  have hpend : (s.pc t).pending = some b := by
    rw [hpc]
    rfl
  unfold RSys.advance
  rw [hpc]
  dsimp only
  by_cases hi : i < GH_MAX_REGIONS
  · rw [if_pos hi]
    by_cases hempty : (s.table i).state = .empty
    · -- the exchange succeeds
      have hph : phase i = .empty := by
        rw [h.table i] at hempty
        exact Phase.entry_empty.mp hempty
      have hentry : s.table i = ⟨0, 0, 0, 0, .empty⟩ := by
        rw [h.table i, hph]
        rfl
      rw [if_pos hempty, hentry]
      have hown : ∀ t', (phase i).owner = some t' → t' = t := fun t' ht => by
        rw [hph] at ht
        exact absurd ht (by simp [Phase.owner])
      have hq : Claims (update phase i (.taken t b 0)) s.peakBytes t (.fill b i 0) :=
        ⟨update_self .., Nat.zero_le _⟩
      refine ⟨update phase i (.taken t b 0), h.mapped,
        fun j => table_change (.taken t b 0) h.table j, bounded_change h.bounded hi,
        claims_change h.claims hown (fun hc => Phase.noConfusion hc) (Nat.le_refl _) hq,
        h.owners.change (fun j _ => h.none_mine (by rw [hpc]; rfl) j) fun t' ht =>
          ⟨(Option.some.inj ht).symm, rfl⟩,
        h.blocks.place hpend hph rfl,
        live_change h.held (fun c => ?_) fun c hc => Phase.noConfusion hc, h.heldNodup,
        closed_change h.closed fun c => ?_, used_change h.used hi (by rw [hph]; rfl),
        h.peak.move ?_⟩
      · rw [hph]
        exact fun hc => Phase.noConfusion hc
      · rw [hph]
        exact ⟨fun t' hc => Phase.noConfusion hc, fun hc => Phase.noConfusion hc⟩
      · rw [hpc]
        rfl
    · rw [if_neg hempty]
      refine ⟨phase, h.move (fun j hj => ?_) ?_ ?_ ?_⟩
      · rcases Nat.lt_succ_iff_lt_or_eq.mp hj with hj | rfl
        · exact hclaim j hj
        · intro hc
          rw [h.table j, hc] at hempty
          exact hempty rfl
      · rw [hpc]
        exact fun hc => absurd hc Bool.false_ne_true
      · rw [hpc]
        exact fun c hc => hc
      · rw [hpc]
        rfl
  · rw [if_neg hi]
    refine ⟨phase, h.mapped.erase b, h.table, h.bounded, claims_move h.claims trivial,
      h.owners.move ?_, h.blocks.giveBack h.mapped.nodup hpend rfl, h.held, h.heldNodup, h.closed,
      h.used, h.peak.move ?_⟩
    · rw [hpc]
      exact fun hc => absurd hc Bool.false_ne_true
    · rw [hpc]
      rfl

/-- a phase of the owner's that is neither live nor behind the protection -/
theorem taken_facts (hph : phase idx = .taken t b n) :
    (phase idx).owner = some t ∧ (∀ c, phase idx ≠ .live c)
    ∧ ∀ c, (∀ t', phase idx ≠ .leaving t' c false) ∧ phase idx ≠ .gone c := by
  rw [hph]
  exact ⟨rfl, fun c hc => Phase.noConfusion hc, fun c => ⟨fun t' hc => Phase.noConfusion hc,
    fun hc => Phase.noConfusion hc⟩⟩

theorem RInv.fill (h : RInv s phase) (hpc : s.pc t = .fill b idx n) :
    ∃ phase', RInv (s.advance t spurious) phase' := by
  obtain ⟨hph, hn⟩ : phase idx = .taken t b n ∧ n ≤ 4 := h.claim hpc
  obtain ⟨hown, hlive, hclosed⟩ := taken_facts hph
  have hraise : (s.pc t).raising = none := by
    rw [hpc]
    rfl
  have hentry : s.table idx = filled b n := by
    rw [h.table idx, hph]
    rfl
  have hw : (Phase.taken t b (n + 1)).weight = (phase idx).weight := by
    rw [hph]
    show (if 6 ≤ n + 1 then b.size else 0) = if 6 ≤ n then b.size else 0
    rw [if_neg (by omega), if_neg (by omega)]
  unfold RSys.advance
  rw [hpc]
  dsimp only
  rw [hentry]
  have hq : Claims (update phase idx (.taken t b (n + 1))) s.peakBytes t
      (if n < 4 then .fill b idx (n + 1) else .charge b idx) := by
    by_cases h4 : n < 4
    · rw [if_pos h4]
      exact ⟨update_self .., h4⟩
    · obtain rfl : n = 4 := by omega
      rw [if_neg h4]
      exact update_self ..
  refine ⟨update phase idx (.taken t b (n + 1)),
    h.change hown (fun hc => Phase.noConfusion hc) (fun t' ht => ⟨(Option.some.inj ht).symm, ?_⟩)
    (by rw [hph]; rfl) ?_ hq rfl rfl rfl (Nat.le_refl _)
      (live_change h.held hlive fun c hc => Phase.noConfusion hc)
    h.heldNodup (closed_change h.closed hclosed) (used_change h.used (h.idx_lt hown) hw)
      (h.peak.move ?_)⟩
  · split <;> rfl
  · split <;> rfl
  · rw [hraise]
    split <;> rfl

theorem RInv.charge (h : RInv s phase) (hpc : s.pc t = .charge b idx) :
    ∃ phase', RInv (s.advance t spurious) phase' := by
  have hph : phase idx = .taken t b 5 := h.claim hpc
  obtain ⟨hown, hlive, hclosed⟩ := taken_facts hph
  have hraise : (s.pc t).raising = none := by
    rw [hpc]
    rfl
  unfold RSys.advance
  rw [hpc]
  dsimp only
  have hq : Claims (update phase idx (.taken t b 6)) s.peakBytes t
      (.loadPeak b idx (wadd s.usedBytes b.size)) :=
    update_self ..
  refine ⟨update phase idx (.taken t b 6),
    h.change hown (fun hc => Phase.noConfusion hc) (fun t' ht => ⟨(Option.some.inj ht).symm, rfl⟩)
    (by rw [hph]; rfl) rfl hq rfl rfl (h.table_same (by rw [hph]; rfl)) (Nat.le_refl _)
    (live_change h.held hlive fun c hc => Phase.noConfusion hc)
    h.heldNodup (closed_change h.closed hclosed) ?_ ?_⟩
  · have hch := weight_change phase (.taken t b 6) (h.idx_lt hown)
    rw [hph, show (Phase.taken t b 5).weight = 0 from rfl,
      show (Phase.taken t b 6).weight = b.size from rfl, Nat.add_zero] at hch
    show wadd s.usedBytes b.size = _
    rw [hch, h.used]
    exact Nat.mod_add_mod ..
  · -- the thread that charges brings its own value to the peak
    have hle := h.peak.le
    refine ⟨Nat.le_trans hle (Nat.le_max_left ..), fun t' u hu => ?_, ?_⟩
    · have hu' : (update s.pc t (.loadPeak b idx (wadd s.usedBytes b.size)) t').raising
        = some u := hu
      by_cases ht : t' = t
      · rw [ht, update_self] at hu'
        rw [← Option.some.inj hu']
        exact Nat.le_max_right ..
      · rw [update_of_ne ht] at hu'
        exact Nat.le_trans (h.peak.raising t' u hu') (Nat.le_max_left ..)
    · show max s.top _ ≤ s.peakBytes
        ∨ ∃ t' u, (update s.pc t (.loadPeak b idx (wadd s.usedBytes b.size)) t').raising
        = some u ∧ max s.top _ ≤ u
      by_cases htop : s.top ≤ wadd s.usedBytes b.size
      · exact Or.inr ⟨t, _, by rw [update_self]; rfl, Nat.max_le.mpr ⟨htop, Nat.le_refl _⟩⟩
      · rw [Nat.max_eq_left (by omega)]
        rcases h.peak.pending with hp | ⟨t', u, hu, hle'⟩
        · exact Or.inl hp
        · have ht : t' ≠ t := fun hc => by
            rw [hc, hraise] at hu
            exact absurd hu (by simp)
          exact Or.inr ⟨t', u, by rw [update_of_ne ht]; exact hu, hle'⟩

/-- a thread is done with its value -/
theorem Peak.finish {peak peak' top : Nat} (h : Peak pc peak top) (hu : (pc t).raising = some u)
    (hpk : peak ≤ peak') (hle : u ≤ peak') (htop : peak' ≤ top) (hq : q.raising = none) :
    Peak (update pc t q) peak' top := by
  refine ⟨htop, fun t' v hv => ?_, ?_⟩
  · by_cases ht : t' = t
    · rw [ht, update_self, hq] at hv
      exact absurd hv (by simp)
    · rw [update_of_ne ht] at hv
      exact h.raising t' v hv
  · rcases h.pending with hp | ⟨t', v, hv, hle'⟩
    · exact Or.inl (Nat.le_trans hp hpk)
    · by_cases ht : t' = t
      · rw [ht] at hv
        obtain rfl := Option.some.inj (hu.symm.trans hv)
        exact Or.inl (Nat.le_trans hle' hle)
      · exact Or.inr ⟨t', v, by rw [update_of_ne ht]; exact hv, hle'⟩

theorem RInv.loadPeak (h : RInv s phase) (hpc : s.pc t = .loadPeak b idx u) :
    RInv (s.advance t spurious) phase := by
  have hph : phase idx = .taken t b 6 := h.claim hpc
  unfold RSys.advance
  rw [hpc]
  refine h.move ⟨hph, Nat.le_refl _⟩ (fun _ => rfl)
    (fun c hc => absurd hc (by simp [Pc.pending])) ?_
  rw [hpc]
  rfl

/-- the block is returned -/
theorem RInv.returned (h : RInv s phase) (hpc : s.pc t = .raisePeak b idx u pk)
    (hph : phase idx = .taken t b 6) (hp : s.peakBytes ≤ n) (hu : u ≤ n) (hn : n ≤ s.top) :
    RInv { s.goto t .idle with peakBytes := n, held := b :: s.held }
    (update phase idx (.live b)) := by
  obtain ⟨hown, hlive, hclosed⟩ := taken_facts hph
  have hraise : (s.pc t).raising = some u := by
    rw [hpc]
    rfl
  have hnew : ∀ j, phase j ≠ .live b := fun j hj => by
    have hji : j = idx := h.blocks.single j idx b (by rw [hj]; rfl) (by rw [hph]; rfl)
    exact hlive b (hji ▸ hj)
  refine h.change (q := .idle) hown (fun hc => Phase.noConfusion hc)
    (fun t' ht => absurd ht (by simp [Phase.owner]))
    (by rw [hph]; rfl) rfl trivial rfl rfl (h.table_same (by rw [hph]; rfl)) hp (fun c => ?_)
    (List.nodup_cons.mpr ⟨fun hm => ?_, h.heldNodup⟩) (closed_change h.closed hclosed)
    (used_change h.used (h.idx_lt hown) (by rw [hph]; rfl)) (h.peak.finish hraise hp hu hn rfl)
  · show c ∈ b :: s.held ↔ _
    rw [List.mem_cons, h.held c]
    constructor
    · rintro (rfl | ⟨j, hj⟩)
      · exact ⟨idx, update_self ..⟩
      · have hji : j ≠ idx := fun hc => hlive c (hc ▸ hj)
        exact ⟨j, (update_of_ne hji _ _).trans hj⟩
    · rintro ⟨j, hj⟩
      by_cases hji : j = idx
      · rw [hji, update_self] at hj
        exact Or.inl (Phase.live.inj hj).symm
      · rw [update_of_ne hji] at hj
        exact Or.inr ⟨j, hj⟩
  · obtain ⟨j, hj⟩ := (h.held b).mp hm
    exact hnew j hj

theorem RInv.raisePeak (h : RInv s phase) (hpc : s.pc t = .raisePeak b idx u pk) :
    ∃ phase', RInv (s.advance t spurious) phase' := by
  obtain ⟨hph, hpk⟩ : phase idx = .taken t b 6 ∧ pk ≤ s.peakBytes := h.claim hpc
  have hu : u ≤ s.top := h.peak.raising t u (by rw [hpc]; rfl)
  unfold RSys.advance
  rw [hpc]
  dsimp only
  by_cases hgt : u > pk
  · rw [if_pos hgt]
    by_cases hswap : s.peakBytes = pk ∧ spurious = false
    · rw [if_pos hswap]
      exact ⟨_, h.returned hpc hph (by omega) (Nat.le_refl u) hu⟩
    · rw [if_neg hswap]
      refine ⟨phase, h.move ⟨hph, Nat.le_refl _⟩ (fun _ => rfl)
        (fun c hc => absurd hc (by simp [Pc.pending])) ?_⟩
      rw [hpc]
      rfl
  · rw [if_neg hgt]
    exact ⟨_, h.returned hpc hph (Nat.le_refl _)
      (Nat.le_trans (Nat.le_of_not_gt hgt) hpk) h.peak.le⟩

/-- a pointer that is being freed is in the entry of its block, and in no other -/
theorem RInv.user_eq (h : RInv s phase) (hph : phase idx = .leaving t b true) :
    (s.table i).user = b.user ↔ i = idx := by
  have hb : b ∈ s.mapped := h.blocks.mem idx b (by rw [hph]; rfl)
  constructor
  · intro hu
    rw [h.table i] at hu
    rcases (phase i).entry_user with h0 | ⟨c, hc, hcu⟩
    · have := (h.mapped.inside b hb).1
      omega
    · have hcb : c = b := h.mapped.user_inj (h.blocks.mem i c hc) hb (hcu.symm.trans hu)
      exact h.blocks.single i idx b (hcb ▸ hc) (by rw [hph]; rfl)
  · rintro rfl
    rw [h.table i, hph]
    rfl

theorem RInv.findByUser (h : RInv s phase) (hpc : s.pc t = .findByUser ptr i) :
    RInv (s.advance t spurious) phase := by
  obtain ⟨idx, b, hph, hptr, hle⟩ : ∃ idx b, phase idx = .leaving t b true ∧ b.user = ptr
      ∧ i ≤ idx := h.claim hpc
  have hlt : idx < GH_MAX_REGIONS := h.idx_lt (t := t) (by rw [hph]; rfl)
  unfold RSys.advance
  rw [hpc]
  dsimp only
  rw [if_pos (Nat.lt_of_le_of_lt hle hlt)]
  by_cases hact : (s.table i).state = .active
  · rw [if_pos hact]
    refine h.move ⟨idx, b, hph, hptr, hle⟩ (fun _ => rfl)
      (fun c hc => absurd hc (by simp [Pc.pending])) ?_
    rw [hpc]
    rfl
  · rw [if_neg hact]
    -- the entry of the block is active, so it was another one
    have hne : i ≠ idx := fun hc => hact (by
      rw [h.table i, hc, hph]
      rfl)
    refine h.move ⟨idx, b, hph, hptr, by omega⟩ (fun _ => rfl)
      (fun c hc => absurd hc (by simp [Pc.pending])) ?_
    rw [hpc]
    rfl

theorem RInv.compareUser (h : RInv s phase) (hpc : s.pc t = .compareUser ptr i) :
    RInv (s.advance t spurious) phase := by
  obtain ⟨idx, b, hph, rfl, hle⟩ : ∃ idx b, phase idx = .leaving t b true ∧ b.user = ptr
      ∧ i ≤ idx := h.claim hpc
  unfold RSys.advance
  rw [hpc]
  dsimp only
  by_cases hu : (s.table i).user = b.user
  · obtain rfl := (h.user_eq hph).mp hu
    rw [if_pos hu]
    refine h.move ⟨b, hph⟩ (fun _ => rfl) (fun c hc => absurd hc (by simp [Pc.pending])) ?_
    rw [hpc]
    rfl
  · have hne : i ≠ idx := fun hc => hu ((h.user_eq hph).mpr hc)
    rw [if_neg hu]
    refine h.move ⟨idx, b, hph, rfl, by omega⟩ (fun _ => rfl)
      (fun c hc => absurd hc (by simp [Pc.pending])) ?_
    rw [hpc]
    rfl

theorem RInv.leaving_entry (h : RInv s phase) {charged : Bool}
    (hph : phase idx = .leaving t b charged) :
    s.table idx = b.entry .active := by
  rw [h.table idx, hph]
  rfl

theorem RInv.loadBase (h : RInv s phase) (hpc : s.pc t = .loadBase idx) :
    RInv (s.advance t spurious) phase := by
  obtain ⟨b, hph⟩ : ∃ b, phase idx = .leaving t b true := h.claim hpc
  unfold RSys.advance
  rw [hpc]
  dsimp only
  rw [h.leaving_entry hph]
  refine h.move ⟨b, hph, rfl⟩ (fun _ => rfl) (fun c hc => absurd hc (by simp [Pc.pending])) ?_
  rw [hpc]
  rfl

theorem RInv.loadTotal (h : RInv s phase) (hpc : s.pc t = .loadTotal idx base) :
    RInv (s.advance t spurious) phase := by
  obtain ⟨b, hph, hb⟩ : ∃ b, phase idx = .leaving t b true ∧ base = b.base := h.claim hpc
  unfold RSys.advance
  rw [hpc]
  dsimp only
  rw [h.leaving_entry hph]
  refine h.move ⟨b, hph, hb, rfl⟩ (fun _ => rfl) (fun c hc => absurd hc (by simp [Pc.pending])) ?_
  rw [hpc]
  rfl

theorem RInv.loadSize (h : RInv s phase) (hpc : s.pc t = .loadSize idx base total) :
    RInv (s.advance t spurious) phase := by
  obtain ⟨b, hph, hb, ht⟩ : ∃ b, phase idx = .leaving t b true ∧ base = b.base
      ∧ total = b.total := h.claim hpc
  unfold RSys.advance
  rw [hpc]
  dsimp only
  rw [h.leaving_entry hph]
  refine h.move ⟨b, hph, hb, ht, rfl⟩ (fun _ => rfl)
    (fun c hc => absurd hc (by simp [Pc.pending])) ?_
  rw [hpc]
  rfl

theorem RInv.discharge (h : RInv s phase) (hpc : s.pc t = .discharge idx base total size) :
    ∃ phase', RInv (s.advance t spurious) phase' := by
  obtain ⟨b, hph, hb, ht, rfl⟩ :
      ∃ b, phase idx = .leaving t b true ∧ base = b.base ∧ total = b.total ∧ size = b.size :=
    h.claim hpc
  have hown : (phase idx).owner = some t := by
    rw [hph]
    rfl
  have hsize := (h.mapped.inside b (h.blocks.mem idx b (by rw [hph]; rfl))).2.2.2
  unfold RSys.advance
  rw [hpc]
  dsimp only
  have hq : Claims (update phase idx (.leaving t b false)) s.peakBytes t
      (.protectAll idx base total) :=
    ⟨b, update_self .., hb, ht⟩
  refine ⟨update phase idx (.leaving t b false), h.change hown (fun hc => Phase.noConfusion hc)
    (fun t' ht => ⟨(Option.some.inj ht).symm, rfl⟩) (by rw [hph]; rfl) rfl hq rfl rfl
    (h.table_same (by rw [hph]; rfl)) (Nat.le_refl _)
    (live_change h.held (fun c => ?_) fun c hc => Phase.noConfusion hc) h.heldNodup
    (closed_change h.closed fun c => ?_) ?_ (h.peak.move ?_)⟩
  · rw [hph]
    exact fun hc => Phase.noConfusion hc
  · rw [hph]
    exact ⟨fun t' hc => absurd (Phase.leaving.inj hc).2.2 (by simp), fun hc => Phase.noConfusion hc⟩
  · have hch := weight_change phase (.leaving t b false) (h.idx_lt hown)
    rw [hph, show (Phase.leaving t b true).weight = b.size from rfl,
      show (Phase.leaving t b false).weight = 0 from rfl, Nat.add_zero] at hch
    show wsub s.usedBytes b.size = _
    rw [h.used, ← hch]
    generalize sumTo (fun i => (update phase idx (Phase.leaving t b false) i).weight)
      GH_MAX_REGIONS = w
    unfold wsub
    omega
  · rw [hpc]
    rfl

theorem RInv.protectAll (h : RInv s phase) (hpc : s.pc t = .protectAll idx base total) :
    RInv (s.advance t spurious) phase := by
  obtain ⟨b, hph, hb, ht⟩ : ∃ b, phase idx = .leaving t b false ∧ base = b.base
      ∧ total = b.total := h.claim hpc
  have hmove : RInv (s.goto t (.quarantine idx)) phase := by
    refine h.move ⟨b, hph⟩ (fun _ => rfl) (fun c hc => absurd hc (by simp [Pc.pending])) ?_
    rw [hpc]
    rfl
  unfold RSys.advance
  rw [hpc]
  refine ⟨hmove.mapped, hmove.table, hmove.bounded, hmove.claims, hmove.owners, hmove.blocks,
    hmove.held, hmove.heldNodup, fun c hc => ?_, hmove.used, hmove.peak⟩
  rcases List.mem_cons.mp hc with rfl | hc
  · exact ⟨idx, b, by rw [hb, ht], Or.inl ⟨t, hph⟩⟩
  · exact h.closed c hc

theorem RInv.quarantine (h : RInv s phase) (hpc : s.pc t = .quarantine idx) :
    ∃ phase', RInv (s.advance t spurious) phase' := by
  obtain ⟨b, hph⟩ : ∃ b, phase idx = .leaving t b false := h.claim hpc
  have hown : (phase idx).owner = some t := by
    rw [hph]
    rfl
  unfold RSys.advance
  rw [hpc]
  dsimp only
  rw [h.leaving_entry hph]
  refine ⟨update phase idx (.gone b), h.change (q := .idle) hown (fun hc => Phase.noConfusion hc)
    (fun t' ht => absurd ht (by simp [Phase.owner])) (by rw [hph]; rfl) rfl trivial rfl rfl rfl
      (Nat.le_refl _)
    (live_change h.held (fun c => ?_) fun c hc => Phase.noConfusion hc) h.heldNodup (fun c hc => ?_)
    (used_change h.used (h.idx_lt hown) (by rw [hph]; rfl)) (h.peak.move ?_)⟩
  · rw [hph]
    exact fun hc => Phase.noConfusion hc
  · -- what was protected before stays so
    obtain ⟨i, d, hcd, hi⟩ := h.closed c hc
    by_cases hid : i = idx
    · refine ⟨idx, b, ?_, Or.inr (update_self ..)⟩
      rw [hid, hph] at hi
      rcases hi with ⟨t', hi⟩ | hi
      · rw [hcd, (Phase.leaving.inj hi).2.1]
      · exact Phase.noConfusion hi
    · refine ⟨i, d, hcd, ?_⟩
      rw [update_of_ne hid]
      exact hi
  · rw [hpc]
    rfl

theorem RInv.advance (h : RInv s phase) (t : Nat) (spurious : Bool) :
    ∃ phase', RInv (s.advance t spurious) phase' := by
  cases hpc : s.pc t with
  | idle =>
    refine ⟨phase, ?_⟩
    unfold RSys.advance
    rw [hpc]
    exact h
  | reserveSlot b i => exact h.reserveSlot hpc
  | fill b idx n => exact h.fill hpc
  | charge b idx => exact h.charge hpc
  | loadPeak b idx u => exact ⟨phase, h.loadPeak hpc⟩
  | raisePeak b idx u pk => exact h.raisePeak hpc
  | findByUser ptr i => exact ⟨phase, h.findByUser hpc⟩
  | compareUser ptr i => exact ⟨phase, h.compareUser hpc⟩
  | loadBase idx => exact ⟨phase, h.loadBase hpc⟩
  | loadTotal idx base => exact ⟨phase, h.loadTotal hpc⟩
  | loadSize idx base total => exact ⟨phase, h.loadSize hpc⟩
  | discharge idx base total size => exact h.discharge hpc
  | protectAll idx base total => exact ⟨phase, h.protectAll hpc⟩
  | quarantine idx => exact h.quarantine hpc

theorem RInv.step (h : RInv s phase) (hstep : RStep s act s') : ∃ phase', RInv s' phase' := by
  cases hstep with
  | allocate hpc hsize hbase hfresh =>
    exact ⟨phase, h.allocate hpc (ghBlock_inside hsize hbase) hfresh⟩
  | deallocate hpc hb => exact h.deallocate hpc hb
  | advance t spurious => exact h.advance t spurious

theorem RInv.of_run (hrun : Steps RStep RSys.start acts s) : ∃ phase, RInv s phase :=
  hrun.invariant (I := fun s => ∃ phase, RInv s phase) ⟨_, RInv.start⟩ fun s act s' hI hstep => by
    obtain ⟨phase, h⟩ := hI
    exact h.step hstep

/-! ## all threads idle -/

/-- the heap as `gh_walk` and `gh_get_stats` read it -/
def RSys.heap (s : RSys) : GhHeap := ⟨s.table, s.usedBytes, s.peakBytes, 0, Mem.zero⟩

/-- the bytes of a walk, entry by entry -/
theorem usedSize_filterMap (f : Nat → Option BlockInfo) (n : Nat) :
    usedSize ((List.range n).filterMap f) = sumTo (fun i => usedSize (f i).toList) n := by
  induction n with
  | zero => rfl
  | succ n ih =>
    rw [List.range_succ, List.filterMap_append, usedSize_append, ih, sumTo_succ]
    congr 1

/-- nobody has an entry -/
theorem RInv.idle_phase (h : RInv s phase) (hidle : ∀ t, s.pc t = .idle) (i : Nat) :
    phase i = .empty ∨ (∃ b, phase i = .live b) ∨ ∃ b, phase i = .gone b := by
  have hno : ∀ t, (phase i).owner ≠ some t := fun t => h.none_mine (by rw [hidle t]; rfl) i
  cases hph : phase i with
  | empty => exact Or.inl rfl
  | taken t b n => exact absurd (by rw [hph]; rfl) (hno t)
  | live b => exact Or.inr (Or.inl ⟨b, rfl⟩)
  | leaving t b charged => exact absurd (by rw [hph]; rfl) (hno t)
  | gone b => exact Or.inr (Or.inr ⟨b, rfl⟩)

/-- what `gh_walk` makes of an entry -/
theorem RInv.idle_entry (h : RInv s phase) (hidle : ∀ t, s.pc t = .idle) (i : Nat) :
    ((s.table i).state = .active ↔ ∃ b, phase i = .live b)
      ∧ usedSize (if (s.table i).state = .active then
          some (⟨(s.table i).user, (s.table i).userSize, false⟩ : BlockInfo) else none).toList
            = (phase i).weight := by
  rw [h.table i]
  rcases h.idle_phase hidle i with hph | ⟨b, hph⟩ | ⟨b, hph⟩
  · rw [hph]
    exact ⟨⟨fun hc => RegionState.noConfusion hc, fun ⟨b, hc⟩ => Phase.noConfusion hc⟩, rfl⟩
  · rw [hph]
    exact ⟨⟨fun _ => ⟨b, rfl⟩, fun _ => rfl⟩, Nat.add_zero _⟩
  · rw [hph]
    exact ⟨⟨fun hc => RegionState.noConfusion hc, fun ⟨b, hc⟩ => Phase.noConfusion hc⟩, rfl⟩

theorem RInv.idle_walk (h : RInv s phase) (hidle : ∀ t, s.pc t = .idle) (x : BlockInfo) :
    x ∈ ghWalk s.heap ↔ ∃ b ∈ s.held, x = ⟨b.user, b.size, false⟩ := by
  unfold ghWalk
  rw [List.mem_filterMap]
  constructor
  · rintro ⟨i, -, hx⟩
    by_cases hact : (s.table i).state = .active
    · obtain ⟨b, hph⟩ := (h.idle_entry hidle i).1.mp hact
      have hx' : some (⟨(s.table i).user, (s.table i).userSize, false⟩ : BlockInfo) = some x :=
        (if_pos hact).symm.trans hx
      rw [h.table i, hph] at hx'
      exact ⟨b, (h.held b).mpr ⟨i, hph⟩, (Option.some.inj hx').symm⟩
    · exact absurd ((if_neg hact).symm.trans hx) (by simp)
  · rintro ⟨b, hb, rfl⟩
    obtain ⟨i, hph⟩ := (h.held b).mp hb
    have hlt : i < GH_MAX_REGIONS := h.bounded i (by rw [hph]; exact fun hc => Phase.noConfusion hc)
    have hentry : s.heap.table i = b.entry .active := by
      show s.table i = _
      rw [h.table i, hph]
      rfl
    refine ⟨i, List.mem_range.mpr hlt, ?_⟩
    rw [hentry]
    rfl

theorem RInv.idle_used (h : RInv s phase) (hidle : ∀ t, s.pc t = .idle) :
    s.usedBytes = usedSize (ghWalk s.heap) % 2 ^ 64 := by
  rw [h.used]
  unfold ghWalk
  rw [usedSize_filterMap]
  congr 1
  exact sumTo_congr fun i _ => (h.idle_entry hidle i).2.symm

theorem RInv.idle_peak (h : RInv s phase) (hidle : ∀ t, s.pc t = .idle) : s.peakBytes = s.top := by
  refine Nat.le_antisymm h.peak.le ?_
  rcases h.peak.pending with hp | ⟨t, u, hu, -⟩
  · exact hp
  · rw [hidle t] at hu
    exact absurd hu (by simp [Pc.raising])

/-- a protected range is that of a block which is not live -/
theorem RInv.closed_apart (h : RInv s phase) (hph : phase idx = .live b) {c : Nat × Nat}
    (hc : c ∈ s.closed) :
    b.base + b.total ≤ c.1 ∨ c.1 + c.2 ≤ b.base := by
  obtain ⟨i, d, rfl, hi⟩ := h.closed c hc
  have hblock : (phase i).block = some d := by
    rcases hi with ⟨t, hi⟩ | hi
    · rw [hi]
      rfl
    · rw [hi]
      rfl
  have hb : (phase idx).block = some b := by rw [hph]; rfl
  refine h.mapped.apart b (h.blocks.mem idx b hb) d (h.blocks.mem i d hblock) ?_
  rintro rfl
  obtain rfl : i = idx := h.blocks.single i idx b hblock hb
  rw [hph] at hi
  rcases hi with ⟨t, hi⟩ | hi
  · exact Phase.noConfusion hi
  · exact Phase.noConfusion hi

end

/-- **The registry in every interleaving of the threads.**  Every block that was returned and not
freed has an entry of its own with its data, and every range that a free has protected lies apart
from its mapping; a free that is under way finds its block before the end of the table, and a
request that reaches the end has met no empty entry.
Whenever all threads are idle, the walk lists the blocks held, `used_bytes` is their sum and
`peak_bytes` is the largest value an allocation has brought it to: no update is lost. -/
theorem registry_races {acts : List RAct} {s : RSys} (hrun : Steps RStep RSys.start acts s) :
    (∀ b ∈ s.held, (∀ c ∈ s.closed, b.base + b.total ≤ c.1 ∨ c.1 + c.2 ≤ b.base)
      ∧ ∃ idx < GH_MAX_REGIONS, s.table idx = b.entry .active
      ∧ ∀ i, (s.table i).user = b.user → i = idx)
    ∧ (∀ t ptr i, s.pc t = .findByUser ptr i → i < GH_MAX_REGIONS)
    ∧ (∀ t b, s.pc t = .reserveSlot b GH_MAX_REGIONS →
      ∀ i < GH_MAX_REGIONS, (s.table i).state ≠ .empty)
    ∧ ((∀ t, s.pc t = .idle) → (∀ x, x ∈ ghWalk s.heap ↔ ∃ b ∈ s.held, x = ⟨b.user, b.size, false⟩)
      ∧ s.usedBytes = usedSize (ghWalk s.heap) % 2 ^ 64 ∧ s.peakBytes = s.top) := by
  obtain ⟨phase, h⟩ := RInv.of_run hrun
  refine ⟨fun b hb => ?_, fun t ptr i hpc => ?_, fun t b hpc i hi hc => ?_,
    fun hidle => ⟨h.idle_walk hidle, h.idle_used hidle, h.idle_peak hidle⟩⟩
  · obtain ⟨idx, hph⟩ := (h.held b).mp hb
    have hmem : b ∈ s.mapped := h.blocks.mem idx b (by rw [hph]; rfl)
    have hlt : idx < GH_MAX_REGIONS :=
      h.bounded idx (by rw [hph]; exact fun hc => Phase.noConfusion hc)
    refine ⟨fun c hc => h.closed_apart hph hc, idx,
      hlt, by rw [h.table idx, hph]; rfl, fun i hu => ?_⟩
    · rw [h.table i] at hu
      rcases (phase i).entry_user with h0 | ⟨c, hc, hcu⟩
      · have := (h.mapped.inside b hmem).1
        omega
      · have hcb : c = b := h.mapped.user_inj (h.blocks.mem i c hc) hmem (hcu.symm.trans hu)
        exact h.blocks.single i idx b (hcb ▸ hc) (by rw [hph]; rfl)
  · have hclaim := h.claims t
    rw [hpc] at hclaim
    obtain ⟨idx, b, hph, -, hle⟩ := hclaim
    exact Nat.lt_of_le_of_lt hle (h.idx_lt (t := t) (by rw [hph]; rfl))
  · have hclaim := h.claims t
    rw [hpc] at hclaim
    rw [h.table i] at hc
    exact hclaim i hi (Phase.entry_empty.mp hc)

/-- a thread alone -/
theorem steps_alone (s : RSys) (t n : Nat) :
    Steps RStep s (List.replicate n (.advance t false)) ((fun s => s.advance t false)^[n] s) := by
  induction n with
  | zero => exact Steps.nil s
  | succ n ih =>
    rw [List.replicate_succ', iterate_succ_apply']
    exact ih.snoc (RStep.advance t false)

theorem advance_other (s : RSys) {t t' : Nat} (ht : t' ≠ t) (spurious : Bool) :
    (s.advance t spurious).pc t' = s.pc t' := by
  unfold RSys.advance
  split
  · rfl
  all_goals
    repeat' split
    all_goals exact update_of_ne ht _ _

/-- thread 0 has asked for 100 bytes, and gone on alone until they were returned -/
def oneReturned : RSys := (fun s => s.advance 0 false)^[9]
  { RSys.start.goto 0 (.reserveSlot (ghBlock sampleVm 100 16) 0)
    with mapped := [ghBlock sampleVm 100 16] }

theorem registry_races_one_block : ∃ acts, Steps RStep RSys.start acts oneReturned
    ∧ oneReturned.held = [ghBlock sampleVm 100 16]
    ∧ oneReturned.usedBytes = usedSize (ghWalk oneReturned.heap) % 2 ^ 64
    ∧ oneReturned.peakBytes = oneReturned.top := by
  have s1 : RStep RSys.start (.allocate 0 sampleVm 100 16)
      { RSys.start.goto 0 (.reserveSlot (ghBlock sampleVm 100 16) 0)
        with mapped := [ghBlock sampleVm 100 16] } :=
    RStep.allocate rfl (by decide) (by decide +kernel) fun c hc => absurd hc (by simp [RSys.start])
  have hrun := ((Steps.nil RSys.start).snoc s1).trans (steps_alone _ 0 9)
  have hidle : ∀ t, oneReturned.pc t = .idle := by
    intro t
    by_cases ht : t = 0
    · rw [ht]
      decide +kernel
    · unfold oneReturned
      simp only [iterate_succ_apply', iterate_zero_apply, advance_other _ ht]
      exact update_of_ne ht _ _
  exact ⟨_, hrun, by decide +kernel, (registry_races hrun).2.2.2 hidle |>.2⟩

end HeapForge.GuardHeap
