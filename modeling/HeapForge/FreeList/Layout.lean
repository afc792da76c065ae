import HeapForge.FreeList.Walk
import HeapForge.Lib.Gaps

/-!
# The layout of the free list is canonical

A free merges with both neighbours, and an allocation splits a block whose neighbours are used, so
two free blocks are never neighbours.  The free blocks are then the gaps between the used ones, and
the used ones determine the walk.

* `GapInv`              no two free blocks are neighbours, and every used block has a live pointer;
* `canonical_layout`    **the walk depends on the used blocks only;**
* `payload_preserved`   **no call writes into the payload of a block that stays live.**
-/

set_option linter.unusedSectionVars false
set_option linter.unusedVariables false

namespace HeapForge.FreeList
open Lib

def Blk.free (b : Blk) : Bool := !b.used

/-! ## neighbours -/

section
variable {bs bs' l₁ l₂ l₁' l₂' : List Blk} {b c u : Blk} {need : Nat}

theorem Blk.free_eq_false : b.free = false ↔ b.used = true := by
  rw [Blk.free, Bool.not_eq_false']

theorem Blk.free_eq_true : b.free = true ↔ b.used = false := by
  rw [Blk.free, Bool.not_eq_true']

/-- what is left of a block that was taken -/
theorem Blk.carve_cases {rest : List Blk} {h1 : 32 ≤ need} {h2 : need % 16 = 0}
    (h : b.carve need h1 h2 = u :: rest) : u.used = true ∧ u.addr = b.addr
      ∧ (rest = [] ∧ u.size = b.size ∧ b.size < need + 32
        ∨ ∃ r, rest = [r] ∧ r.used = false ∧ u.size = need ∧ need + 32 ≤ b.size) := by
  unfold Blk.carve at h
  split at h
  case isTrue h3 =>
    obtain ⟨rfl, rfl⟩ := List.cons.inj h
    exact ⟨rfl, rfl, Or.inr ⟨_, rfl, rfl, rfl, h3⟩⟩
  case isFalse h3 =>
    obtain ⟨rfl, rfl⟩ := List.cons.inj h
    exact ⟨rfl, rfl, Or.inl ⟨rfl, rfl, by omega⟩⟩

theorem Took.sparse (h : Took bs bs' need b u) (hs : Sparse Blk.free bs) : Sparse Blk.free bs' := by
  obtain ⟨l₁, l₂, rest, h1, h2, rfl, hb, -, hcarve, rfl⟩ := h
  obtain ⟨hu, -, hrest⟩ := Blk.carve_cases hcarve
  have hbf := Blk.free_eq_true.mpr hb
  have huf := Blk.free_eq_false.mpr hu
  obtain ⟨hl₁, hl₂, -, -⟩ := sparse_middle.mp hs
  refine sparse_middle.mpr ⟨hl₁, ?_, fun _ _ => Or.inr huf, fun _ _ => Or.inl huf⟩
  rcases hrest with ⟨rfl, -⟩ | ⟨r, rfl, -⟩
  · exact hl₂
  · exact List.isChain_cons.mpr ⟨fun c hc => Or.inr (hs.right hbf c hc), hl₂⟩

theorem MergedRight.sparse (h : MergedRight l₂ l₂') (hs : Sparse Blk.free l₂) :
    Sparse Blk.free l₂' ∧ ∀ c ∈ l₂'.head?, c.free = false := by
  rcases h with ⟨rfl, hc⟩ | ⟨c, rfl, hc⟩
  · exact ⟨hs, fun c h => Blk.free_eq_false.mpr (hc c h)⟩
  · exact ⟨hs.tail, (show Sparse Blk.free ([] ++ c :: l₂') from hs).right (Blk.free_eq_true.mpr hc)⟩

theorem MergedLeft.sparse (h : MergedLeft l₁ l₁') (hs : Sparse Blk.free l₁) :
    Sparse Blk.free l₁' ∧ ∀ c ∈ l₁'.getLast?, c.free = false := by
  rcases h with ⟨rfl, hc⟩ | ⟨c, rfl, hc⟩
  · exact ⟨hs, fun c h => Blk.free_eq_false.mpr (hc c h)⟩
  · exact ⟨(sparse_middle.mp hs).1,
      (show Sparse Blk.free (l₁' ++ c :: []) from hs).left (Blk.free_eq_true.mpr hc)⟩

theorem Gave.sparse (h : Gave bs bs' b) (hs : Sparse Blk.free bs) : Sparse Blk.free bs' := by
  obtain ⟨l₁, l₂, l₁', b', l₂', rfl, -, rfl, hb', hl, hr⟩ := h
  obtain ⟨hl₁, hl₂, -, -⟩ := sparse_middle.mp hs
  obtain ⟨h1, h2⟩ := hl.sparse hl₁
  obtain ⟨h3, h4⟩ := hr.sparse hl₂
  exact sparse_middle.mpr ⟨h1, h3, fun c hc => Or.inl (h2 c hc), fun c hc => Or.inr (h4 c hc)⟩

/-- the used blocks after an allocation: one more -/
theorem Took.used_iff (h : Took bs bs' need b u) (hc : c.used = true) : c ∈ bs'
    ↔ c = u ∨ c ∈ bs := by
  obtain ⟨l₁, l₂, rest, h1, h2, rfl, hb, -, hcarve, rfl⟩ := h
  obtain ⟨hu, -, hrest⟩ := Blk.carve_cases hcarve
  have hcr : c ∉ rest := by
    rcases hrest with ⟨rfl, -⟩ | ⟨r, rfl, hr, -⟩
    · exact List.not_mem_nil
    · rw [List.mem_singleton]
      rintro rfl
      rw [hr] at hc
      exact absurd hc (by simp)
  rw [mem_middle_free hc hb]
  simp only [List.mem_append, List.mem_cons]
  tauto

/-- the used blocks after a free: one less -/
theorem Gave.used_iff (h : Gave bs bs' b) (hd : bs.Nodup) (hc : c.used = true) :
    c ∈ bs' ↔ c ∈ bs ∧ c ≠ b := by
  obtain ⟨l₁, l₂, l₁', b', l₂', rfl, hb, rfl, hb', hl, hr⟩ := h
  rw [mem_middle_free hc hb', List.mem_append, (kept_left hl).2 c hc, (kept_right hr).2 c hc]
  have hnm := (List.nodup_cons.mp (List.nodup_middle.mp hd)).1
  rw [List.mem_append, not_or] at hnm
  simp only [List.mem_append, List.mem_cons]
  constructor
  · rintro (h1 | h1)
    · exact ⟨Or.inl h1, fun e => hnm.1 (e ▸ h1)⟩
    · exact ⟨Or.inr (Or.inr h1), fun e => hnm.2 (e ▸ h1)⟩
  · rintro ⟨h1 | h1 | h1, hne⟩
    · exact Or.inl h1
    · exact absurd h1 hne
    · exact Or.inr h1

end

/-! ## the invariant -/

structure GapInv (s : Sys) (bs : List Blk) (ring : List Nat) : Prop extends SysInv s bs ring where
  small : ∀ e ∈ s.live, e.align ≤ 16
  le_peak : s.a.stats.used ≤ s.a.stats.peakUsed
  nonempty : bs ≠ []
  sparse : Sparse Blk.free bs
  /-- every used block has its live pointer -/
  owned : ∀ b ∈ bs, b.used = true → ∃ e ∈ s.live, e.hdr = b.addr

section
variable {s s' : Sys} {bs bs' : List Blk} {ring : List Nat} {act : FlAct} {e : Live}

theorem LayoutStep.sparse (h : LayoutStep s bs s' bs') (hs : Sparse Blk.free bs) :
    Sparse Blk.free bs' := by
  rcases h with ⟨rfl, -⟩ | ⟨need, b, u, e, ht, -⟩ | ⟨b, e, hg, -⟩
  · exact hs
  · exact ht.sparse hs
  · exact hg.sparse hs

theorem LayoutStep.nonempty (h : LayoutStep s bs s' bs') (hs : bs ≠ []) : bs' ≠ [] := by
  rcases h with ⟨rfl, -⟩ | ⟨need, b, u, e, ⟨l₁, l₂, rest, h1, h2, -, -, -, -, rfl⟩, -⟩ |
    ⟨b, e, ⟨l₁, l₂, l₁', b', l₂', -, -, rfl, -⟩, -⟩
  · exact hs
  · simp
  · simp

theorem LayoutStep.owned (h : LayoutStep s bs s' bs') (hi : SysInv s bs ring)
    (ho : ∀ b ∈ bs, b.used = true → ∃ e ∈ s.live, e.hdr = b.addr) :
    ∀ b ∈ bs', b.used = true → ∃ e ∈ s'.live, e.hdr = b.addr := by
  intro c hc hcu
  rcases h with ⟨rfl, hl⟩ | ⟨need, b, u, e, ht, he, hl⟩ | ⟨b, e, hg, he, hb, hl⟩
  · rw [hl]
    exact ho c hc hcu
  · rw [hl]
    rcases (ht.used_iff hcu).mp hc with rfl | hc
    · exact ⟨e, List.mem_cons_self, he.symm⟩
    · obtain ⟨f, hf, hfe⟩ := ho c hc hcu
      exact ⟨f, List.mem_cons_of_mem _ hf, hfe⟩
  · rw [hl]
    have hbs : b ∈ bs := by
      obtain ⟨l₁, l₂, -, -, -, rfl, -⟩ := hg
      simp
    obtain ⟨hc, hne⟩ := (hg.used_iff hi.inv.heap.tiles.nodup hcu).mp hc
    obtain ⟨f, hf, hfe⟩ := ho c hc hcu
    refine ⟨f, (List.mem_erase_of_ne fun heq => hne ?_).mpr hf, hfe⟩
    exact hi.inv.heap.tiles.pos_inj hc hbs (by rw [← hfe, hb, heq])

/-- **One step.** -/
theorem GapInv.step (h : GapInv s bs ring) (hstep : SmallStep s act s') :
    ∃ bs' ring', GapInv s' bs' ring' ∧ LayoutStep s bs s' bs'
      ∧ ((∀ x v, act ≠ .write x v) → Frame s.a bs s'.a bs') := by
  obtain ⟨hst, hact⟩ := hstep
  obtain ⟨bs', ring', hsys', -, hp, hlay, hframe⟩ := h.toSysInv.step h.le_peak hst hact.requests
    fun e he _ => (resolveHeader_iff h.inv (h.live e he)).mpr (Or.inl (h.small e he))
  refine ⟨bs', ring', ⟨hsys', fun e he => ?_, ?_, hlay.nonempty h.nonempty, hlay.sparse h.sparse,
    hlay.owned h.toSysInv h.owned⟩, hlay, hframe⟩
  · rcases hst.live_cases he with he | ⟨size, rfl⟩
    · exact h.small e he
    · exact hact
  · have hp' : s'.a.stats.peakUsed = max s.a.stats.peakUsed s'.a.stats.used := hp
    omega

theorem GapInv.create {vm : Vm} {handle : Bool} {m : Mem} {capacity : Nat} {policy : FitPolicy}
    {a : FlAlloc} (h : hfFreeListCreate vm handle m capacity policy = some a) :
    ∃ bs ring, GapInv (Sys.start a) bs ring := by
  obtain ⟨b, ring, hb, hsys, hu, hp⟩ := create_block h
  refine ⟨[b], ring, hsys, by simp [Sys.start], ?_, by simp, List.isChain_singleton b, ?_⟩
  · show a.stats.used ≤ a.stats.peakUsed
    omega
  · intro c hc hcu
    rw [List.mem_singleton.mp hc, hb] at hcu
    exact absurd hcu (by simp)

/-- **Every run.** -/
theorem GapInv.of_run {vm : Vm} {handle : Bool} {m : Mem} {capacity : Nat} {policy : FitPolicy}
    {a : FlAlloc} {acts : List FlAct} (h : hfFreeListCreate vm handle m capacity policy = some a)
    (hrun : Steps SmallStep (Sys.start a) acts s) : ∃ bs ring, GapInv s bs ring :=
  hrun.invariant (I := fun s => ∃ bs ring, GapInv s bs ring) (GapInv.create h) fun _ _ _
    ⟨_, _, h⟩ hs =>
    let ⟨bs', ring', h', _⟩ := h.step hs
    ⟨bs', ring', h'⟩

/-! ## the walk -/

/-- the walk tiles the heap, and no two neighbours in it are free -/
theorem GapInv.walk (h : GapInv s bs ring) :
    ∃ w, flWalk s.a = some w ∧ Tiles BlockInfo.offset BlockInfo.size 0 w s.a.capacity
      ∧ Sparse BlockInfo.isFree w ∧ w = bs.map (Blk.info s.a.mem) := by
  refine ⟨_, flWalk_eq h.inv.heap, ?_, ?_, rfl⟩
  · exact h.inv.repInv.tiles
  · exact (List.isChain_map _).mpr h.sparse

theorem blockInfo_ext (b c : BlockInfo) (h1 : b.offset = c.offset) (h2 : b.size = c.size)
    (h3 : b.isFree = c.isFree) : b = c := by
  cases b
  cases c
  simp_all

/-- nothing is live: nothing is used -/
theorem GapInv.all_free (h : GapInv s bs ring) (hl : s.live = []) : ∀ b ∈ bs, b.used = false := by
  intro b hb
  by_contra hu
  obtain ⟨e, he, -⟩ := h.owned b hb (by simpa using hu)
  rw [hl] at he
  exact List.not_mem_nil he

end

/-- **Canonical layout.**  In every state of every run the free blocks of the walk are the maximal
gaps between the used ones; a state of another run over the same capacity with the same used blocks
has the same walk; and when nothing is live the heap is one free block and `used` is 0. -/
theorem canonical_layout {vm : Vm} {handle : Bool} {m : Mem} {capacity : Nat} {policy : FitPolicy}
    {a : FlAlloc} {acts : List FlAct} {s : Sys}
    (hcreate : hfFreeListCreate vm handle m capacity policy = some a)
    (hrun : Steps SmallStep (Sys.start a) acts s) :
    (∃ w, flWalk s.a = some w ∧ ∀ x n, ⟨x, n, true⟩ ∈ w ↔
        Gap BlockInfo.offset BlockInfo.size BlockInfo.isFree 0 s.a.capacity w x n)
    ∧ (∀ (vm' : Vm) (handle' : Bool) (m' : Mem) (capacity' : Nat) (policy' : FitPolicy)
      (a' : FlAlloc)
        (acts' : List FlAct) (s' : Sys), hfFreeListCreate vm' handle' m' capacity' policy'
          = some a' →
        Steps SmallStep (Sys.start a') acts' s' → s'.a.capacity = s.a.capacity →
        (∀ w w', flWalk s.a = some w → flWalk s'.a = some w' →
          ∀ x n, (⟨x, n, false⟩ ∈ w ↔ ⟨x, n, false⟩ ∈ w')) →
        flWalk s'.a = flWalk s.a)
    ∧ (s.live = [] → flWalk s.a = some [⟨0, s.a.capacity, true⟩] ∧ s.a.stats.used = 0) := by
  obtain ⟨bs, ring, h⟩ := GapInv.of_run hcreate hrun
  obtain ⟨w, hw, ht, hs, hwb⟩ := h.walk
  refine ⟨⟨w, hw, fun x n => ?_⟩, ?_, fun hl => ?_⟩
  · rw [hs.gap_iff ht]
    constructor
    · exact fun hm => ⟨_, hm, rfl, rfl, rfl⟩
    · rintro ⟨b, hb, h1, rfl, rfl⟩
      rw [← h1]
      exact hb
  · intro vm' handle' m' capacity' policy' a' acts' s' hcreate' hrun' hcap hsame
    obtain ⟨bs', ring', h'⟩ := GapInv.of_run hcreate' hrun'
    obtain ⟨w', hw', ht', hs', -⟩ := h'.walk
    rw [hcap] at ht'
    have heq : w = w' := hs.unique blockInfo_ext hs' ht ht' fun b hb => by
      have := hsame w w' hw hw' b.offset b.size
      rw [← hb] at this
      exact this
    rw [hw, hw', heq]
  · have hfree := h.all_free hl
    have hused : s.a.stats.used = 0 := by
      rw [h.inv.used, usedSum, List.filter_eq_nil_iff.mpr fun b hb => by rw [hfree b hb]; simp]
      rfl
    obtain ⟨b, hb⟩ := List.exists_mem_of_ne_nil bs h.nonempty
    have hcap : 0 < s.a.capacity := by
      have h1 := h.inv.heap.place hb
      have h2 := b.size_ge
      omega
    have heq : w = [⟨0, s.a.capacity, true⟩] := by
      refine hs.unique blockInfo_ext (List.isChain_singleton _) ht
        ⟨rfl, hcap, Nat.zero_add _⟩ fun c hc => ?_
      refine iff_of_false (fun hm => ?_) fun hm => ?_
      · rw [hwb] at hm
        obtain ⟨b, hb, rfl⟩ := List.mem_map.mp hm
        have h1 : (!b.used) = false := hc
        rw [hfree b hb] at h1
        exact absurd h1 (by simp)
      · rw [List.mem_singleton.mp hm] at hc
        exact absurd hc (by simp)
    exact ⟨heq ▸ hw, hused⟩

theorem canonical_layout_one_block :
    ∃ w, flWalk sampleState.a = some w ∧ ∀ x n, ⟨x, n, true⟩ ∈ w ↔
      Gap BlockInfo.offset BlockInfo.size BlockInfo.isFree 0 sampleState.a.capacity w x n :=
  (canonical_layout sampleHeap_create (Steps.snoc (Steps.nil _) ⟨sample_alloc, le_refl 16⟩)).1

/-! ## payloads -/

/-- a call other than a free of `e` -/
def QuietStep (e : Live) (s : Sys) (act : FlAct) (s' : Sys) : Prop :=
  SmallStep s act s' ∧ act ≠ .free e.ptr ∧ ∀ x v, act ≠ .write x v

section
variable {s s' : Sys} {bs bs' : List Blk} {ring : List Nat} {act : FlAct} {e f : Live} {b : Blk}

theorem FlStep.keeps_live (h : FlStep s act s') (he : e ∈ s.live) (hne : act ≠ .free e.ptr) :
    e ∈ s'.live := by
  cases h with
  | fail => exact he
  | alloc => exact List.mem_cons_of_mem _ he
  | free hf hd => exact (List.mem_erase_of_ne fun heq => hne (by rw [heq])).mpr he
  | write => exact he

/-- the block of a pointer that stays live stays -/
theorem LayoutStep.keeps (h : LayoutStep s bs s' bs') (hi : SysInv s bs ring) (hb : b ∈ bs)
    (hu : b.used = true) (he : e ∈ s.live) (heb : e.hdr = b.addr) (he' : e ∈ s'.live) :
    b ∈ bs' := by
  rcases h with ⟨rfl, -⟩ | ⟨need, c, u, f, ht, -⟩ | ⟨c, f, hg, hf, hcf, hl⟩
  · exact hb
  · exact (ht.used_iff hu).mpr (Or.inr hb)
  · refine (hg.used_iff hi.inv.heap.tiles.nodup hu).mpr ⟨hb, ?_⟩
    rintro rfl
    have hef : e = f := hi.hdr_inj he hf (heb.trans hcf)
    rw [hl, hef] at he'
    exact (hi.nodup.of_map _).not_mem_erase he'

/-- what holds of `b` and its bytes `m` while `e` is live -/
structure Kept (s : Sys) (e : Live) (b : Blk) (m : Mem) : Prop where
  inv : ∃ bs ring, GapInv s bs ring ∧ b ∈ bs
  used : b.used = true
  live : e ∈ s.live
  hdr : e.hdr = b.addr
  bytes : ∀ x, b.addr + 16 ≤ x → x < b.addr + b.size → s.a.heap x = m x

theorem Kept.step {m : Mem} (h : Kept s e b m) (hstep : QuietStep e s act s') : Kept s' e b m := by
  obtain ⟨⟨bs, ring, hi, hb⟩, hu, he, heb, hm⟩ := h
  obtain ⟨hst, hne, hw⟩ := hstep
  obtain ⟨bs', ring', hi', hlay, hframe⟩ := hi.step hst
  have he' := hst.1.keeps_live he hne
  have hb' := hlay.keeps hi.toSysInv hb hu he heb he'
  exact ⟨⟨bs', ring', hi', hb'⟩, hu, he', heb,
    fun x h1 h2 => (hframe hw b hb hb' hu x h1 h2).trans (hm x h1 h2)⟩

/-- the block of a live pointer, as its header says -/
theorem GapInv.block (h : GapInv s bs ring) (he : e ∈ s.live) :
    ∃ b ∈ bs, b.used = true ∧ b.addr = e.hdr ∧ hdrSize s.a.heap e.hdr = b.size := by
  obtain ⟨b, hb, hu, ha, -⟩ := (h.live e he).block
  exact ⟨b, hb, hu, ha, ha ▸ h.inv.heap.hdrSize hb⟩

end

/-- **User data is preserved.**  No byte of the payload of a live block changes while calls of
`fl_allocate` and of `fl_deallocate` for other pointers follow; the payloads of different live
blocks are disjoint and lie inside the heap. -/
theorem payload_preserved {vm : Vm} {handle : Bool} {m : Mem} {capacity : Nat} {policy : FitPolicy}
    {a : FlAlloc} {acts : List FlAct} {s : Sys}
    (hcreate : hfFreeListCreate vm handle m capacity policy = some a)
    (hrun : Steps SmallStep (Sys.start a) acts s) :
    (∀ e ∈ s.live, ∀ acts' s', Steps (QuietStep e) s acts' s' → ∀ x, e.hdr + 16 ≤ x →
        x < e.hdr + hdrSize s.a.heap e.hdr → s'.a.heap x = s.a.heap x)
    ∧ (∀ e ∈ s.live, ∀ f ∈ s.live, e ≠ f →
        e.hdr + hdrSize s.a.heap e.hdr ≤ f.hdr + 16 ∨ f.hdr + hdrSize s.a.heap f.hdr ≤ e.hdr + 16)
    ∧ ∀ e ∈ s.live, s.a.mem ≤ e.hdr + 16
    ∧ e.hdr + hdrSize s.a.heap e.hdr ≤ s.a.mem + s.a.capacity := by
  obtain ⟨bs, ring, h⟩ := GapInv.of_run hcreate hrun
  refine ⟨fun e he acts' s' hrun' x h1 h2 => ?_, fun e he f hf hne => ?_, fun e he => ?_⟩
  · obtain ⟨b, hb, hu, ha, hsz⟩ := h.block he
    have hkept : Kept s e b s.a.heap := ⟨⟨bs, ring, h, hb⟩, hu, he, ha.symm, fun _ _ _ => rfl⟩
    have hkept' : Kept s' e b s.a.heap :=
      hrun'.invariant (I := fun s' => Kept s' e b s.a.heap) hkept fun _ _ _ hk hs => hk.step hs
    exact hkept'.bytes x (by omega) (by omega)
  · obtain ⟨b, hb, -, ha, hsz⟩ := h.block he
    obtain ⟨c, hc, -, hca, hcsz⟩ := h.block hf
    have hbc : b ≠ c := by
      rintro rfl
      exact hne (h.hdr_inj he hf (by omega))
    have := h.inv.heap.apart hb hc hbc
    omega
  · obtain ⟨b, hb, -, ha, hsz⟩ := h.block he
    have := h.inv.heap.place hb
    omega

theorem payload_preserved_one_block :
    (⟨2 ^ 20 + 16, 2 ^ 20, 16⟩ : Live) ∈ sampleState.live
      ∧ ∀ acts' s', Steps (QuietStep ⟨2 ^ 20 + 16, 2 ^ 20, 16⟩) sampleState acts' s' →
      ∀ x, 2 ^ 20 + 16 ≤ x →
        x < 2 ^ 20 + hdrSize sampleState.a.heap (2 ^ 20) → s'.a.heap x = sampleState.a.heap x :=
  ⟨List.mem_cons_self, (payload_preserved sampleHeap_create
    (Steps.snoc (Steps.nil _) ⟨sample_alloc, le_refl 16⟩)).1 _ List.mem_cons_self⟩

end HeapForge.FreeList
