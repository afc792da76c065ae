import HeapForge.Buddy.Walk

/-!
# The layout of the buddy allocator

Which blocks the walk shows is determined by those in use: two runs that end with the same used
blocks end with the same walk, whatever was split and merged on the way.

* `walk_used_iff`     the used blocks of the walk are those of the live pointers;
* `live_of_frees`     what is live after some frees;
* `buddy_layout`      **the walk is a function of the capacity and the used blocks.**
-/

set_option linter.unusedSectionVars false
set_option linter.unusedVariables false

namespace HeapForge.Buddy
open Lib

section
variable {s s' : Sys} {bs bs' : List Block} {lists lists' : Nat → List Nat} {act : BdAct} {e : Live}
  {acts : List BdAct} {x k : Nat}

theorem Block.mem_info (b : Block) : b.info ∈ bs.map Block.info ↔ b ∈ bs := by
  constructor
  · intro h
    obtain ⟨c, hc, he⟩ := List.mem_map.mp h
    have h1 : c.off = b.off := congrArg BlockInfo.offset he
    have h2 : 2 ^ c.order = 2 ^ b.order := congrArg BlockInfo.size he
    have h3 : (!c.used) = !b.used := congrArg BlockInfo.isFree he
    have hcb : c = b := Block.ext' h1 (two_pow_inj h2) (by simpa using h3)
    exact hcb ▸ hc
  · exact List.mem_map_of_mem

/-- **The used blocks determine the walk.** -/
theorem SysInv.walk_unique (h : SysInv s bs lists) (h' : SysInv s' bs' lists')
    (hcap : s'.a.capacity = s.a.capacity)
    (hsame : ∀ b : Block, b.used = true → (b ∈ bs ↔ b ∈ bs')) :
    bdWalk s'.a = bdWalk s.a := by
  have hmx : s'.a.maxOrder = s.a.maxOrder :=
    two_pow_inj (by rw [← h'.inv.geo.cap, ← h.inv.geo.cap, hcap])
  have h'' := h'.inv.sys
  rw [hmx] at h''
  rw [bdWalk_eq h.inv, bdWalk_eq h'.inv, h.inv.sys.unique h'' h.inv.geo.max_lt hsame]

/-- the used blocks are those of the live pointers -/
theorem SysInv.used_iff (h : SysInv s bs lists) (ho : Owned s bs) {b : Block} (hb : b.used = true) :
    b ∈ bs ↔ ∃ e ∈ s.live, e.At s.a.mem b := by
  constructor
  · exact fun hm => ho b hm hb
  · rintro ⟨e, he, hat⟩
    obtain ⟨c, hc, hcat⟩ := h.live e he
    have h1 := hat.2.1
    have h2 := hcat.2.1
    have hcb : c = b := Block.ext' (by omega) (hcat.2.2.symm.trans hat.2.2) (hcat.1.trans hb.symm)
    exact hcb ▸ hc

/-- what is live after some frees -/
theorem live_of_frees (h : SysInv s bs lists) (ho : Owned s bs) (hrun : Steps BdStep s acts s')
    (hf : ∀ act ∈ acts, ∃ p, act = .free p) :
    ∃ bs' lists', SysInv s' bs' lists' ∧ Owned s' bs' ∧ Fixed s.a s'.a
      ∧ ∀ e, e ∈ s'.live ↔ e ∈ s.live ∧ BdAct.free e.ptr ∉ acts := by
  induction hrun with
  | nil => exact ⟨bs, lists, h, ho, ⟨rfl, rfl, rfl⟩, fun e => by simp⟩
  | @snoc s₁ s₂ acts act hrun hstep ih =>
    obtain ⟨bs₁, lists₁, h₁, ho₁, hfix, hl⟩ := ih fun act ha => hf act (List.mem_append_left _ ha)
    obtain ⟨bs₂, lists₂, h₂, hfix₂, ho₂⟩ := h₁.step hstep
    refine ⟨bs₂, lists₂, h₂, ho₂ ho₁, ⟨hfix₂.mem.trans hfix.mem, hfix₂.minOrder.trans hfix.minOrder,
      hfix₂.capacity.trans hfix.capacity⟩, fun e => ?_⟩
    obtain ⟨p, rfl⟩ := hf act (by simp)
    generalize hact : BdAct.free p = act at hstep
    cases hstep with
    | fail => exact absurd hact (by simp)
    | alloc => exact absurd hact (by simp)
    | write => exact absurd hact (by simp)
    | @free f a' hfm hr =>
      have hd := h₁.nodup.of_map _
      have hef : e ∈ s₁.live → (e = f ↔ e.ptr = f.ptr) := fun he =>
        ⟨fun heq => by rw [heq], fun heq => List.inj_on_of_nodup_map h₁.nodup he hfm heq⟩
      show e ∈ s₁.live.erase f ↔ _
      rw [hd.mem_erase_iff, hl e]
      simp only [List.mem_append, List.mem_singleton, BdAct.free.injEq, not_or]
      constructor
      · rintro ⟨hne, he, hna⟩
        exact ⟨he, hna, fun heq => hne ((hef ((hl e).mpr ⟨he, hna⟩)).mpr heq)⟩
      · rintro ⟨he, hna, hne⟩
        exact ⟨fun heq => hne ((hef ((hl e).mpr ⟨he, hna⟩)).mp heq), he, hna⟩

end

/-- **Canonical layout.**  The walk of every state of every run is determined by the capacity and
the used blocks: another run that has come to the same ones shows the same walk.  So after frees of
the same pointers in any order the walks agree, and when nothing is live one free block is left. -/
theorem buddy_layout {vm : Vm} {cs : Callocs} {m : Mem} {capacity minBlock : Nat} {a : BdAlloc}
    {acts : List BdAct} {s : Sys} (hc : capacity ≤ 2 ^ 63) (hm : minBlock ≤ 2 ^ 63)
    (hcreate : hfBuddyCreate vm cs m capacity minBlock = some a)
    (hrun : Steps BdStep (Sys.start a) acts s) :
    (bdWalk s.a).isSome = true
    ∧ (∀ (vm' : Vm) (cs' : Callocs) (m' : Mem) (capacity' minBlock' : Nat) (a' : BdAlloc)
        (acts' : List BdAct) (s' : Sys), capacity' ≤ 2 ^ 63 → minBlock' ≤ 2 ^ 63 →
        hfBuddyCreate vm' cs' m' capacity' minBlock' = some a' →
        Steps BdStep (Sys.start a') acts' s' → s'.a.capacity = s.a.capacity →
        (∀ w w', bdWalk s.a = some w → bdWalk s'.a = some w' →
          ∀ x k, (⟨x, 2 ^ k, false⟩ ∈ w ↔ ⟨x, 2 ^ k, false⟩ ∈ w')) →
        bdWalk s'.a = bdWalk s.a)
    ∧ (∀ (ptrs ptrs' : List Nat) (s₁ s₂ : Sys), (∀ p, p ∈ ptrs ↔ p ∈ ptrs') →
        Steps BdStep s (ptrs.map .free) s₁ → Steps BdStep s (ptrs'.map .free) s₂ →
        bdWalk s₂.a = bdWalk s₁.a)
    ∧ (s.live = [] → bdWalk s.a = some [⟨0, 2 ^ s.a.maxOrder, true⟩]) := by
  obtain ⟨bs, lists, h, ho⟩ := SysInv.of_run hc hm hcreate hrun
  refine ⟨by rw [bdWalk_eq h.inv]; rfl, ?_, ?_, fun hl => ?_⟩
  · intro vm' cs' m' capacity' minBlock' a' acts' s' hc' hm' hcreate' hrun' hcap hsame
    obtain ⟨bs', lists', h', -⟩ := SysInv.of_run hc' hm' hcreate' hrun'
    refine h.walk_unique h' hcap fun b hb => ?_
    have hinfo := hsame _ _ (bdWalk_eq h.inv) (bdWalk_eq h'.inv) b.off b.order
    have he : b.info = ⟨b.off, 2 ^ b.order, false⟩ := by
      unfold Block.info Block.size
      rw [hb]
      rfl
    rw [← he, Block.mem_info, Block.mem_info] at hinfo
    exact hinfo
  · intro ptrs ptrs' s₁ s₂ hp h1 h2
    have hfree : ∀ l : List Nat, ∀ act ∈ l.map BdAct.free, ∃ p, act = .free p := fun l act ha =>
      let ⟨p, _, he⟩ := List.mem_map.mp ha
      ⟨p, he.symm⟩
    obtain ⟨bs₁, lists₁, h₁, ho₁, hf₁, hl₁⟩ := live_of_frees h ho h1 (hfree ptrs)
    obtain ⟨bs₂, lists₂, h₂, ho₂, hf₂, hl₂⟩ := live_of_frees h ho h2 (hfree ptrs')
    refine h₁.walk_unique h₂ (hf₂.capacity.trans hf₁.capacity.symm) fun b hb => ?_
    rw [h₁.used_iff ho₁ hb, h₂.used_iff ho₂ hb, hf₁.mem, hf₂.mem]
    have hlive : ∀ e, e ∈ s₁.live ↔ e ∈ s₂.live := by
      intro e
      rw [hl₁, hl₂]
      simp [hp]
    simp only [hlive]
  · have hfree : ∀ b ∈ bs, b.used = false := by
      intro b hb
      by_contra hu
      obtain ⟨e, he, -⟩ := ho b hb (by simpa using hu)
      rw [hl] at he
      exact List.not_mem_nil he
    -- the whole heap is one aligned range without used blocks
    obtain ⟨b, hb, hf, h1, h2⟩ := free_block_around h.inv.sys h.inv.geo.max_lt le_rfl (dvd_zero _)
      (Nat.zero_add _).le fun b hb hu => absurd hu (by simp [hfree b hb])
    have hbd := h.inv.sys.bounds hb
    have hbs : bs = [b] := by
      refine h.inv.sys.tiles.ext
        ⟨by omega, b.size_pos, show 0 + b.size = 2 ^ s.a.maxOrder by omega⟩ fun c => ?_
      rw [List.mem_singleton]
      refine ⟨fun hc => ?_, fun e => e ▸ hb⟩
      have hcd := h.inv.sys.tiles.bounds hc
      exact h.inv.sys.tiles.eq_of_mem (x := c.off) hc hb (by omega) (by omega)
    have hinfo : b.info = ⟨0, 2 ^ s.a.maxOrder, true⟩ := by
      unfold Block.info
      rw [hf, show b.off = 0 by omega, show b.size = 2 ^ s.a.maxOrder by omega]
      rfl
    rw [bdWalk_eq h.inv, hbs, List.map_singleton, hinfo]

/-- a live pointer can be freed -/
theorem SysInv.exists_free {s : Sys} {bs : List Block} {lists : Nat → List Nat} {e : Live}
    (h : SysInv s bs lists) (he : e ∈ s.live) :
    ∃ s', BdStep s (.free e.ptr) s' ∧ s'.live = s.live.erase e := by
  obtain ⟨l₁, l₂, b, a', -, -, hcall, -⟩ := h.free_spec he
  exact ⟨_, BdStep.free he hcall, rfl⟩

/-- after a second request for 100 bytes, which gets the buddy -/
def sampleFull : Sys := ⟨(bdAllocate sampleState.a 100 16).2, [⟨2 ^ 20 + 144, 7⟩, ⟨2 ^ 20 + 16, 7⟩]⟩

theorem sampleFull_run : Steps BdStep (Sys.start sampleBuddy)
    [.alloc 100 16, .alloc 100 16] sampleFull := by
  have h1 : (bdAllocate sampleState.a 100 16).1 = 2 ^ 20 + 144 := by decide +kernel
  have h2 : orderFor sampleState.a (bdNeed 100 16) = 7 := by decide +kernel
  have h3 : BdStep sampleState (.alloc 100 16) ⟨(bdAllocate sampleState.a 100 16).2,
      [⟨2 ^ 20 + 144, orderFor sampleState.a (bdNeed 100 16)⟩, ⟨2 ^ 20 + 16, 7⟩]⟩ :=
    BdStep.alloc (by omega) (by omega) (Prod.ext h1 rfl) (by omega)
  rw [h2] at h3
  exact sample_run.snoc h3

/-- the two blocks can be freed in either order -/
theorem sampleFull_frees {e f : Live} (he : e ∈ sampleFull.live) (hf : f ∈ sampleFull.live.erase e)
    (hlast : (sampleFull.live.erase e).erase f = []) :
    ∃ s, Steps BdStep sampleFull ([e.ptr, f.ptr].map .free) s ∧ s.live = [] := by
  obtain ⟨bs, lists, h, -⟩ := SysInv.of_run (by omega) (by omega) sampleBuddy_create sampleFull_run
  obtain ⟨s₁, hs₁, hl₁⟩ := h.exists_free he
  obtain ⟨bs₁, lists₁, h₁, -⟩ :=
    SysInv.of_run (by omega) (by omega) sampleBuddy_create (sampleFull_run.snoc hs₁)
  obtain ⟨s₂, hs₂, hl₂⟩ := h₁.exists_free (e := f) (by rw [hl₁]; exact hf)
  exact ⟨s₂, ((Steps.nil _).snoc hs₁).snoc hs₂, by rw [hl₂, hl₁, hlast]⟩

/-- two buddies, freed in either order -/
theorem buddy_layout_two_blocks : ∃ s₁ s₂,
    Steps BdStep sampleFull ([2 ^ 20 + 16, 2 ^ 20 + 144].map .free) s₁
      ∧ Steps BdStep sampleFull ([2 ^ 20 + 144, 2 ^ 20 + 16].map .free) s₂
      ∧ bdWalk s₂.a = bdWalk s₁.a ∧ bdWalk s₁.a = some [⟨0, 2 ^ s₁.a.maxOrder, true⟩] := by
  obtain ⟨s₁, hrun₁, hl₁⟩ :=
    sampleFull_frees (e := ⟨2 ^ 20 + 16, 7⟩) (f := ⟨2 ^ 20 + 144, 7⟩) (by decide)
    (by decide) (by decide)
  obtain ⟨s₂, hrun₂, -⟩ := sampleFull_frees (e := ⟨2 ^ 20 + 144, 7⟩) (f := ⟨2 ^ 20 + 16, 7⟩)
    (by decide)
    (by decide) (by decide)
  obtain ⟨-, -, hsame, -⟩ := buddy_layout (by omega) (by omega) sampleBuddy_create sampleFull_run
  obtain ⟨-, -, -, hone⟩ :=
    buddy_layout (by omega) (by omega) sampleBuddy_create (sampleFull_run.trans hrun₁)
  refine ⟨s₁, s₂, hrun₁, hrun₂, hsame _ _ s₁ s₂ (fun p => ?_) hrun₁ hrun₂, hone hl₁⟩
  simp [or_comm]

end HeapForge.Buddy
