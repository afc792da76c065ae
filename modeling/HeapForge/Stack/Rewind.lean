import HeapForge.Stack.Lifo

/-!
# Markers

A rewind takes the top back to the marker and forgets which block is the last one: the blocks below
the marker stay allocated, and none of them can be given back afterwards.

* `Segments`       runs with rewinds: the blocks above the last marker are a chain, the others lie
                   below the marker;
* `rewind_top`     **if nothing wraps, a rewind gets back the top of its mark**, and the last
                   payload exactly if there was none;
* `Undoes`         what "everything since the mark is undone" asks for;
* `undoes_iff`     **that is so exactly if the mark was taken on the empty stack.**
-/

set_option linter.unusedSectionVars false
set_option linter.unusedVariables false

namespace HeapForge.Stack
open Lib

/-- the blocks above the last marker `t₀` are a chain, the others end at the marker or below -/
def Segments (vm : Vm) (s : StSys) : Prop :=
  ∃ t₀ above below, s.live = above ++ below ∧ LifoInv vm t₀ ST_NONE ⟨s.a, above⟩
    ∧ ∀ b ∈ below, 16 ≤ b.payload ∧ b.payload + b.size ≤ t₀

section
variable {vm : Vm} {s s' : StSys} {a a' : StAlloc} {act : StAct} {acts : List StAct} {b : StBlock}
  {t₀ l₀ marker p x : Nat}

/-- without a last block only NULL can be given back -/
theorem stDeallocate_none (hl : a.lastPayload = ST_NONE) (hm : a.mem < 2 ^ 64)
    (hp : p < ST_NONE) (h0 : wadd a.mem p ≠ 0) : stDeallocate a (wadd a.mem p) = none := by
  have e : wsub (wadd a.mem p) a.mem = p := by
    unfold ST_NONE at hp
    unfold wsub wadd
    omega
  have hne : p ≠ a.lastPayload := by
    rw [hl]
    omega
  unfold stDeallocate
  dsimp only
  rw [if_neg h0, e, if_pos hne]

theorem LifoInv.rewind (h : LifoInv vm t₀ l₀ s) (hr : hfStackRewind s.a marker = some a') :
    LifoInv vm marker ST_NONE ⟨a', []⟩ := by
  obtain ⟨hsame, -, hle, htop, hlast⟩ := hfStackRewind_spec hr
  have h1 := h.top_le
  refine ⟨h.room.same hsame, ?_, ?_, htop, hlast⟩
  · show a'.top ≤ a'.capacity
    rw [htop, hsame.2]
    omega
  · show a'.lastPayload < 2 ^ 64
    rw [hlast]
    decide

/-- the newest block lies below the marker: the assertion fails -/
theorem LifoInv.rewound (h : LifoInv vm t₀ ST_NONE ⟨a, []⟩) (hb : 16 ≤ b.payload)
    (hb' : b.payload + b.size ≤ t₀) : stDeallocate a (wadd a.mem b.payload) = none := by
  have hroom : a.mem + a.capacity < 2 ^ 64 := h.room.bound
  have hround : a.capacity + 2 * vm.pageSize ≤ 2 ^ 64 := h.room.rounding
  have hps := vm.pageSize_ge
  have htop : a.top ≤ a.capacity := h.top_le
  have hbase : t₀ ≤ a.top := h.chain.base_le
  have e : wadd a.mem b.payload = a.mem + b.payload := wadd_of_lt (by omega)
  have hlast : a.lastPayload = ST_NONE := h.chain.2
  apply stDeallocate_none hlast (by omega)
  · unfold ST_NONE
    omega
  · omega

theorem Segments.step (h : Segments vm s) (hs : LifoStep s act s') (hc : Calm s act) :
    Segments vm s' := by
  obtain ⟨t₀, above, below, hlive, hi, hb⟩ := h
  cases hs with
  | alloc ha hp =>
    exact ⟨t₀, _ :: above, below, congrArg (List.cons _) hlive, hi.alloc hc ha hp, hb⟩
  | refused ha => exact ⟨t₀, above, below, hlive, (hi.refused hc ha).2.2, hb⟩
  | @free c cs a' hl hf =>
    cases above with
    | nil =>
      have hcb := hb c (by rw [← show s.live = below from hlive, hl]; exact List.mem_cons_self)
      exact absurd (hf.symm.trans (hi.rewound hcb.1 hcb.2)) (by simp)
    | cons d ds =>
      obtain ⟨rfl, rfl⟩ := List.cons.inj (hl.symm.trans hlive)
      obtain ⟨a₁, h1, -, -, h2⟩ := hi.free rfl
      obtain rfl : a₁ = a' := Option.some.inj (h1.symm.trans hf)
      exact ⟨t₀, ds, below, rfl, h2, hb⟩
  | rewind hr =>
    refine ⟨_, [], _, (List.nil_append _).symm, hi.rewind hr, ?_⟩
    intro c hc'
    obtain ⟨hmem, hle⟩ := List.mem_filter.mp hc'
    refine ⟨?_, of_decide_eq_true hle⟩
    rw [hlive] at hmem
    cases List.mem_append.mp hmem with
    | inl h1 => exact (hi.inside h1).1
    | inr h1 => exact (hb c h1).1
  | @write c x v hw hx hx' =>
    refine ⟨t₀, above, below, hlive, hi.write ?_, hb⟩
    intro d hd
    rw [hlive] at hw
    cases List.mem_append.mp hw with
    | inl h1 => exact hi.payload_misses h1 hx hx' hd
    | inr h1 =>
      have h2 := (hb c h1).2
      have h3 : t₀ + 16 ≤ d.payload := (hi.chain.bounds hd).1
      show x < s.a.mem + d.payload - 16 ∨ _
      omega

end

/-- a step of a run in which no request wraps -/
def CalmRun (s : StSys) (act : StAct) (s' : StSys) : Prop := LifoStep s act s' ∧ Calm s act

section
variable {vm : Vm} {s s' : StSys} {a₀ : StAlloc} {acts acts' : List StAct} {handle : Bool} {m : Mem}
  {capacity : Nat}

theorem Segments.of_run (hc : hfStackCreate vm handle m capacity = some a₀)
    (hrun : Steps CalmRun ⟨a₀, []⟩ acts s) : Segments vm s := by
  have h0 : Segments vm ⟨a₀, []⟩ :=
    ⟨0, [], [], rfl, LifoInv.create hc, fun b hb => absurd hb List.not_mem_nil⟩
  exact hrun.invariant (I := Segments vm) h0 fun _ _ _ h hs => h.step hs.1 hs.2

/-- what is allocated after the mark in `s` piles up on the top of `s` -/
theorem LifoInv.since_mark (hc : hfStackCreate vm handle m capacity = some a₀)
    (hrun : Steps CalmRun ⟨a₀, []⟩ acts s)
    (hsince : Steps (fun s act s' => CalmRun s act s' ∧ ∀ marker, act ≠ .rewind marker)
      ⟨s.a, []⟩ acts' s') :
    LifoInv vm s.a.top s.a.lastPayload s' := by
  obtain ⟨t₀, above, below, -, hi, -⟩ := Segments.of_run hc hrun
  have h0 : LifoInv vm s.a.top s.a.lastPayload ⟨s.a, []⟩ :=
    ⟨hi.room, hi.top_le, hi.last_lt, rfl, rfl⟩
  exact hsince.invariant (I := LifoInv vm s.a.top s.a.lastPayload) h0 fun _ _ _ h hs =>
    h.step hs.1.1 hs.1.2 hs.2

/-- **A rewind gets the top back; the last payload only if there was none.** -/
theorem rewind_top (hc : hfStackCreate vm handle m capacity = some a₀)
    (hrun : Steps CalmRun ⟨a₀, []⟩ acts s)
    (hsince : Steps (fun s act s' => CalmRun s act s' ∧ ∀ marker, act ≠ .rewind marker)
      ⟨s.a, []⟩ acts' s') :
    ∃ a', hfStackRewind s'.a (hfStackMark s.a) = some a' ∧ a'.top = s.a.top
      ∧ (a'.lastPayload = s.a.lastPayload ↔ s.a.lastPayload = ST_NONE) := by
  have hle : s.a.top ≤ s'.a.top := (LifoInv.since_mark hc hrun hsince).chain.base_le
  unfold hfStackRewind hfStackMark
  rw [if_pos hle]
  exact ⟨_, rfl, rfl, eq_comm⟩

end

/-! ## everything since the mark -/

/-- give back blocks, the first of the list first -/
def freeAll (a : StAlloc) (bs : List StBlock) : Option StAlloc :=
  bs.foldlM (fun a b => stDeallocate a (wadd a.mem b.payload)) a

/-- after the rewind the top and the last payload are those of `s`, and the blocks live in `s` can
be given back down to the empty stack -/
def Undoes (s : StSys) (a : StAlloc) : Prop :=
  ∃ a', hfStackRewind a (hfStackMark s.a) = some a' ∧ a'.top = s.a.top
    ∧ a'.lastPayload = s.a.lastPayload
    ∧ ∃ a'', freeAll a' s.live = some a'' ∧ a''.top = 0 ∧ a''.lastPayload = ST_NONE

def StSys.Empty (s : StSys) : Prop := s.a.top = 0 ∧ s.a.lastPayload = ST_NONE ∧ s.live = []

/-- the blocks that users hold have pointers the allocator can tell from `ST_NONE` -/
structure Held (s : StSys) : Prop where
  mem_lt : s.a.mem < 2 ^ 64
  ptr : ∀ b ∈ s.live, b.payload < ST_NONE ∧ wadd s.a.mem b.payload ≠ 0

section
variable {vm : Vm} {s s' : StSys} {a₀ a : StAlloc} {act : StAct} {acts acts' : List StAct}
  {handle : Bool} {m : Mem} {capacity : Nat}

/-- whatever the alignment, no payload is `ST_NONE`: headers are placed at multiples of 8 -/
theorem stPayload_lt (a : StAlloc) (alignment : Nat) : stPayload a alignment < ST_NONE := by
  unfold stPayload ST_NONE
  dsimp only
  have h8 : 8 ∣ hfAlignUp a.top 8 := hfAlignUp_dvd (k := 3) a.top (by decide)
  have hn : 8 ∣ wadd (hfAlignUp a.top 8) ST_HDR :=
    (dvd_wadd (k := 3) (by decide)).mpr (Nat.dvd_add h8 (by decide))
  have hlt := wadd_lt (hfAlignUp a.top 8) ST_HDR
  generalize wadd (hfAlignUp a.top 8) ST_HDR = n at hn hlt
  have h1 : hfAlignUp n alignment ≤ wsub (wadd n alignment) 1 := Nat.and_le_left
  have h2 : hfAlignUp n alignment ≤ wnot (wsub alignment 1) := Nat.and_le_right
  unfold wnot at h2
  unfold wsub wadd at h1
  unfold wsub at h2
  omega

theorem Held.step (h : Held s) (hs : LifoStep s act s') : Held s' := by
  cases hs with
  | alloc ha hp =>
    obtain ⟨⟨hm, -⟩, ⟨h0, -⟩ | ⟨he, -⟩⟩ := stAllocate_spec ha
    · exact absurd h0 hp
    · refine ⟨lt_of_eq_of_lt hm h.mem_lt, fun b hb => ?_⟩
      rw [show (StSys.mk _ _).a.mem = s.a.mem from hm]
      cases List.mem_cons.mp hb with
      | inl hb => exact hb ▸ ⟨stPayload_lt _ _, he ▸ hp⟩
      | inr hb => exact h.ptr b hb
  | refused ha =>
    obtain ⟨⟨hm, -⟩, -⟩ := stAllocate_spec ha
    exact ⟨lt_of_eq_of_lt hm h.mem_lt, fun b hb => hm ▸ h.ptr b hb⟩
  | free hl hf =>
    have hb := h.ptr _ (hl ▸ List.mem_cons_self)
    obtain ⟨⟨hm, -⟩, -⟩ := stDeallocate_spec hb.2 hf
    exact ⟨lt_of_eq_of_lt hm h.mem_lt, fun b hb => hm ▸ h.ptr b (hl ▸ List.mem_cons_of_mem _ hb)⟩
  | rewind hr =>
    obtain ⟨⟨hm, -⟩, -⟩ := hfStackRewind_spec hr
    exact ⟨lt_of_eq_of_lt hm h.mem_lt, fun b hb => hm ▸ h.ptr b (List.mem_filter.mp hb).1⟩
  | write hw hx hx' => exact ⟨h.mem_lt, h.ptr⟩

theorem Held.of_run (hc : hfStackCreate vm handle m capacity = some a₀)
    (hrun : Steps LifoStep ⟨a₀, []⟩ acts s) : Held s := by
  have hroom := (Room.create hc).1.bound
  have h0 : Held ⟨a₀, []⟩ := ⟨by dsimp only; omega, fun b hb => absurd hb List.not_mem_nil⟩
  exact hrun.invariant (I := Held) h0 fun _ _ _ h hs => h.step hs

theorem Undoes.empty (h : Held s) (hmem : a.mem = s.a.mem) (hu : Undoes s a) : s.Empty := by
  obtain ⟨a', hr, h1, h2, a'', hf, h3, h4⟩ := hu
  obtain ⟨⟨hm, -⟩, -, -, -, hlast⟩ := hfStackRewind_spec hr
  have hl : s.live = [] := by
    cases hl : s.live with
    | nil => rfl
    | cons b bs =>
      -- the newest block cannot be given back any more
      have hb := h.ptr b (hl ▸ List.mem_cons_self)
      rw [← hmem, ← hm] at hb
      have hn := stDeallocate_none hlast (by rw [hm, hmem]; exact h.mem_lt) hb.1 hb.2
      rw [hl, freeAll, List.foldlM_cons, hn] at hf
      exact absurd hf (by simp)
  rw [hl] at hf
  obtain rfl := Option.some.inj hf
  exact ⟨h1.symm.trans h3, h2.symm.trans h4, hl⟩

theorem StSys.Empty.undoes (h : s.Empty) : Undoes s a := by
  obtain ⟨h1, h2, h3⟩ := h
  unfold Undoes hfStackRewind hfStackMark
  rw [h1, h2, h3, if_pos (Nat.zero_le _)]
  exact ⟨_, rfl, rfl, rfl, _, rfl, rfl, rfl⟩

theorem mem_of_run (hrun : Steps LifoStep s acts s') (h : Held s) : s'.a.mem = s.a.mem := by
  have hI := hrun.invariant (I := fun s' => Held s' ∧ s'.a.mem = s.a.mem) ⟨h, rfl⟩ ?_
  · exact hI.2
  · intro s₁ act s₂ h1 hs
    refine ⟨h1.1.step hs, ?_⟩
    cases hs with
    | alloc ha hp => exact (stAllocate_spec ha).1.1.trans h1.2
    | refused ha => exact (stAllocate_spec ha).1.1.trans h1.2
    | free hl hf =>
      exact (stDeallocate_spec (h1.1.ptr _ (hl ▸ List.mem_cons_self)).2 hf).1.1.trans h1.2
    | rewind hr => exact (hfStackRewind_spec hr).1.1.trans h1.2
    | write hw hx hx' => exact h1.2

/-- **A rewind undoes everything since the mark exactly if the mark was taken on the empty
stack.** -/
theorem undoes_iff (hc : hfStackCreate vm handle m capacity = some a₀)
    (hrun : Steps LifoStep ⟨a₀, []⟩ acts s) (hsince : Steps LifoStep ⟨s.a, []⟩ acts' s') :
    Undoes s s'.a ↔ s.Empty := by
  have hh := Held.of_run hc hrun
  have hstart : Held ⟨s.a, []⟩ := ⟨hh.mem_lt, fun b hb => absurd hb List.not_mem_nil⟩
  have hmem := mem_of_run hsince hstart
  exact ⟨fun hu => hu.empty hh hmem, fun he => he.undoes⟩

end

theorem undoes_emptyStack : Undoes ⟨emptyStack, []⟩ oneBlock :=
  (undoes_iff emptyStack_create (Steps.nil _) (Steps.snoc (Steps.nil _) oneBlock_step)).mpr
    ⟨rfl, rfl, rfl⟩

/-- the mark is taken with one block live; after the rewind that block cannot be given back -/
theorem rewind_strands_block :
    Steps LifoStep ⟨emptyStack, []⟩ [.alloc 24 16] ⟨oneBlock, [⟨16, 24⟩]⟩
    ∧ (stAllocate oneBlock 8 16).1 = 2 ^ 20 + 64
    ∧ oneBlock.lastPayload = 16
    ∧ (hfStackRewind (stAllocate oneBlock 8 16).2 (hfStackMark oneBlock)).map StAlloc.lastPayload
        = some ST_NONE
    ∧ ((hfStackRewind (stAllocate oneBlock 8 16).2 (hfStackMark oneBlock)).bind
        fun a => stDeallocate a (2 ^ 20 + 16)).isNone = true
    ∧ ¬ Undoes ⟨oneBlock, [⟨16, 24⟩]⟩ (stAllocate oneBlock 8 16).2 := by
  have hrun : Steps LifoStep ⟨emptyStack, []⟩ [.alloc 24 16] ⟨oneBlock, [⟨16, 24⟩]⟩ :=
    Steps.snoc (Steps.nil _) oneBlock_step
  have hmem : (stAllocate oneBlock 8 16).2.mem = oneBlock.mem := by decide +kernel
  refine ⟨hrun, by decide +kernel, by decide +kernel, by decide +kernel, by decide +kernel, ?_⟩
  intro hu
  exact absurd (hu.empty (Held.of_run emptyStack_create hrun) hmem).2.2 (List.cons_ne_nil _ _)

end HeapForge.Stack
