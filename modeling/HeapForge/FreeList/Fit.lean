import HeapForge.FreeList.Layout

/-!
# Fit completeness of the free list

A request is refused exactly if no range of the heap could hold it; otherwise the policy decides
which block is taken.

* `ReadFrom`        the list, read from any of its nodes;
* `Choice`          the node that each policy takes;
* `flReserve_choice`  `find_fit` takes it;
* `fit_complete`    **refusal, choice and size of the reserved block.**
-/

set_option linter.unusedSectionVars false
set_option linter.unusedVariables false

namespace HeapForge.FreeList
open Lib

/-! ## the three policies -/

/-- `l` is the circular list `ring` read from the node `start` -/
def ReadFrom (ring : List Nat) (start : Nat) (l : List Nat) : Prop :=
  ∃ l₁ l₂, ring = l₁ ++ l₂ ∧ l = l₂ ++ l₁ ∧ l.head? = some start

/-- `n` is the first node of `l` whose block is large enough -/
def FirstFit (m : Mem) (need : Nat) (l : List Nat) (n : Nat) : Prop :=
  ∃ r₁ r₂, l = r₁ ++ n :: r₂ ∧ need ≤ nodeSize m n ∧ ∀ x ∈ r₁, nodeSize m x < need

/-- the node `n` that the policy takes -/
def Choice (a : FlAlloc) (ring : List Nat) (need n : Nat) : Prop :=
  match a.policy with
  | .first => ∃ l, ReadFrom ring a.freeHead l ∧ FirstFit a.heap need l n
  | .next => ∃ l, ReadFrom ring a.cursor l ∧ FirstFit a.heap need l n
  | .best => n ∈ ring ∧ need ≤ nodeSize a.heap n
    ∧ ∀ x ∈ ring, need ≤ nodeSize a.heap x → nodeSize a.heap n ≤ nodeSize a.heap x

section
variable {a a' : FlAlloc} {ring l : List Nat} {bs : List Blk} {need start n h : Nat} {m : Mem}

/-- a search returns the first node that fits -/
theorem firstFit_of_find (hf : l.find? (fun x => decide (need ≤ nodeSize m x)) = some n) :
    FirstFit m need l n := by
  obtain ⟨h1, r₁, r₂, h2, h3⟩ := List.find?_eq_some_iff_append.mp hf
  exact ⟨r₁, r₂, h2, by simpa using h1, fun x hx => by simpa using h3 x hx⟩

theorem searchLoop_first (hr : FreeRing a ring) (hs : start ∈ ring) (hf : ring.length ≤ a.capacity)
    (he : searchLoop a.heap need start a.capacity start = some n) (hn : n ≠ 0) :
    ∃ l, ReadFrom ring start l ∧ FirstFit a.heap need l n := by
  obtain ⟨l₁, l₂, rfl⟩ := List.append_of_mem hs
  have hrot : Ring (nodeNext a.heap) (nodePrev a.heap) ([] ++ start :: (l₂ ++ l₁)) :=
    hr.links.rotate
  have hd : ((start :: l₂) ++ l₁).Nodup := List.nodup_append_comm.mp hr.nodup
  have hlen : (l₂ ++ l₁).length < a.capacity := by
    simp only [List.length_append, List.length_cons] at hf ⊢
    omega
  rw [searchLoop_eq hrot hd rfl hlen] at he
  refine ⟨start :: (l₂ ++ l₁), ⟨l₁, start :: l₂, rfl, rfl, rfl⟩, firstFit_of_find ?_⟩
  cases hfind : (start :: (l₂ ++ l₁)).find? fun x => decide (need ≤ nodeSize a.heap x) with
  | none =>
    rw [hfind] at he
    exact absurd (Option.some.inj he).symm hn
  | some b =>
    rw [hfind] at he
    exact he

/-- **`find_fit` takes the node of its policy.** -/
theorem findFit_choice (hr : FreeRing a ring) (hf : ring.length ≤ a.capacity)
    (he : findFit a need = some (n, a')) (hn : n ≠ 0) : Choice a ring need n := by
  unfold findFit at he
  by_cases hne : ring = []
  · rw [if_pos (hr.freeHead_eq_zero.mpr hne)] at he
    exact absurd (congrArg Prod.fst (Option.some.inj he)).symm hn
  rw [if_neg fun e => hne (hr.freeHead_eq_zero.mp e)] at he
  have hcur := hr.cursor_mem hne
  unfold Choice
  cases hp : a.policy with
  | first =>
    rw [hp] at he
    obtain ⟨n', hn', heq⟩ := Option.map_eq_some_iff.mp he
    obtain rfl : n' = n := congrArg Prod.fst heq
    refine searchLoop_first hr ?_ hf hn' hn
    rw [hr.head]
    cases ring with
    | nil => exact absurd rfl hne
    | cons b l => exact List.mem_cons_self
  | best =>
    rw [hp] at he
    cases ring with
    | nil => exact absurd rfl hne
    | cons b l =>
      have hb : a.freeHead = b := hr.head
      have hlinks : Ring (nodeNext a.heap) (nodePrev a.heap) ([] ++ b :: l) := hr.links
      have hloop := bestLoop_eq hlinks hr.nodup rfl need a.capacity hf (0, 2 ^ 64 - 1)
      rw [← hb] at hloop
      dsimp only at he
      rw [hloop, Option.map_some, hb] at he
      have hfst := congrArg Prod.fst (Option.some.inj he)
      rcases foldl_bestStep a.heap need (b :: l) with ⟨h1, -⟩ | ⟨x, hx, h1, h2, h3⟩
      · rw [h1] at hfst
        exact absurd hfst.symm hn
      · rw [h1] at hfst
        obtain rfl : x = n := hfst
        exact ⟨hx, h2, h3⟩
  | next =>
    rw [hp] at he
    have hc0 : a.cursor ≠ 0 := Nat.pos_iff_ne_zero.mp (hr.node _ hcur).2.1
    simp only [hc0, ne_eq, not_false_eq_true, if_true] at he
    obtain ⟨n', hn', heq⟩ := Option.map_eq_some_iff.mp he
    by_cases hz : n' = 0
    · rw [if_pos hz] at heq
      exact absurd (congrArg Prod.fst heq).symm hn
    · rw [if_neg hz] at heq
      obtain rfl : n' = n := congrArg Prod.fst heq
      exact searchLoop_first hr hcur hf hn' hn

/-- the block reserved is the one of the node taken -/
theorem flReserve_choice (hi : Inv a bs bs ring) (hr : flReserve a need = some (h, a'))
    (hh : h ≠ 0) :
    Choice a ring need (h + 16) := by
  have hcount : Inv (countAlloc a) bs bs ring := hi.withStats rfl
  obtain ⟨n, a₁, hfind, hcase⟩ := findFit_spec hcount.list hcount.length_le need
  unfold flReserve at hr
  rw [hfind, Option.map_some] at hr
  dsimp only at hr
  rcases hcase with ⟨rfl, -, -⟩ | ⟨hn, -, -⟩
  · rw [if_pos rfl] at hr
    exact absurd (congrArg Prod.fst (Option.some.inj hr)).symm hh
  · obtain ⟨b, hb, -, rfl⟩ := (hcount.tied n).mp hn
    rw [if_neg (by omega), hcount.heap.headerOf hb] at hr
    obtain rfl : b.addr = h := congrArg Prod.fst (Option.some.inj hr)
    exact show Choice (countAlloc a) ring need (b.addr + 16) from
      findFit_choice hcount.list hcount.length_le hfind (by omega)

end

/-! ## completeness -/

/-- a range of at least `need` bytes of the heap meets no used block -/
def Room (w : List BlockInfo) (capacity need : Nat) : Prop :=
  ∃ x n, need ≤ n ∧ x + n ≤ capacity ∧ Clear BlockInfo.offset BlockInfo.size BlockInfo.isFree w x n

/-- there is room exactly if a free block is large enough -/
theorem room_iff {w : List BlockInfo} {capacity need : Nat} (hn : 0 < need)
    (ht : Tiles BlockInfo.offset BlockInfo.size 0 w capacity) (hs : Sparse BlockInfo.isFree w) :
    Room w capacity need ↔ ∃ b ∈ w, b.isFree = true ∧ need ≤ b.size := by
  constructor
  · rintro ⟨x, n, h1, h2, h3⟩
    obtain ⟨b, hb, hf, h4, h5⟩ := hs.range_in ht (by omega) (Nat.zero_le x) h2 h3
    exact ⟨b, hb, hf, by omega⟩
  · rintro ⟨b, hb, hf, h1⟩
    exact ⟨b.offset, b.size, h1, (ht.bounds hb).2.1,
      fun c hc hcf => (ht.apart_free hb hf hc hcf).symm⟩

section
variable {s : Sys} {bs : List Blk} {ring : List Nat} {size alignment : Nat}

/-- the two outcomes of an allocation with a small alignment -/
theorem GapInv.alloc (h : GapInv s bs ring) (size : Nat) (hal : alignment ≤ 16) :
    (flAllocate s.a size alignment = some (0, countFailed (countAlloc s.a))
      ∧ ∀ b ∈ bs, b.used = false → b.size < flNeed size alignment)
    ∨ ∃ p a', flAllocate s.a size alignment = some (p, a') ∧ p ≠ 0
      ∧ Choice s.a ring (flNeed size alignment) p
      ∧ (∃ b ∈ bs, b.used = false ∧ flNeed size alignment ≤ b.size)
      ∧ hdrUsed a'.heap (p - 16) = true ∧ flNeed size alignment ≤ hdrSize a'.heap (p - 16)
      ∧ hdrSize a'.heap (p - 16) < flNeed size alignment + 32 := by
  rcases h.toSysInv.alloc size (Or.inl hal) with hfail |
    ⟨p, hdr, a', a'', bs', ring', he, hp0, hr, hsys, -, ⟨b, u, hua, htook⟩, -⟩
  · exact Or.inl hfail
  · have hpl : p = hdr + 16 := (hsys.live _ List.mem_cons_self).small hal
    have hu : u ∈ bs' := by
      obtain ⟨l₁, l₂, rest, h1, h2, -, -, -, -, rfl⟩ := htook
      simp
    have hpos := (hsys.inv.heap.place hu).2.1
    have hsz := hsys.inv.heap.hdrSize hu
    have hus := hsys.inv.heap.hdrUsed hu
    rw [hua] at hsz hus
    obtain ⟨l₁, l₂, rest, h1, h2, rfl, hbf, hle, hcarve, -⟩ := htook
    obtain ⟨huu, -, hsize⟩ := Blk.carve_cases hcarve
    refine Or.inr ⟨p, a', he, hp0, ?_, ⟨b, by simp, hbf, hle⟩, ?_⟩
    · rw [hpl]
      exact flReserve_choice h.inv hr (by omega)
    · rw [hpl, Nat.add_sub_cancel]
      refine ⟨hus.trans huu, ?_⟩
      have hsz' : hdrSize a'.heap hdr = u.size := hsz
      rcases hsize with ⟨-, h3, h4⟩ | ⟨r, -, -, h3, h4⟩ <;> omega

/-- refusal, said about the walk -/
theorem GapInv.refused_iff (h : GapInv s bs ring) (size : Nat) (hal : alignment ≤ 16) :
    (∃ a', flAllocate s.a size alignment = some (0, a')) ↔
      ¬ ∃ w, flWalk s.a = some w ∧ Room w s.a.capacity (flNeed size alignment) := by
  obtain ⟨w, hw, ht, hs, hwb⟩ := h.walk
  have hneed : 0 < flNeed size alignment :=
    Nat.lt_of_lt_of_le (by decide) (flNeed_ge size alignment)
  have hroom : (∃ w, flWalk s.a = some w ∧ Room w s.a.capacity (flNeed size alignment)) ↔
      ∃ b ∈ bs, b.used = false ∧ flNeed size alignment ≤ b.size := by
    constructor
    · rintro ⟨w', hw', hr⟩
      obtain rfl := Option.some.inj (hw'.symm.trans hw)
      obtain ⟨i, hi, hf, hle⟩ := (room_iff hneed ht hs).mp hr
      rw [hwb] at hi
      obtain ⟨b, hb, rfl⟩ := List.mem_map.mp hi
      exact ⟨b, hb, Blk.free_eq_true.mp hf, hle⟩
    · rintro ⟨b, hb, hf, hle⟩
      refine ⟨w, hw, (room_iff hneed ht hs).mpr ⟨b.info s.a.mem, ?_, Blk.free_eq_true.mpr hf, hle⟩⟩
      rw [hwb]
      exact List.mem_map_of_mem hb
  rw [hroom]
  rcases h.alloc size hal with ⟨he, hno⟩ | ⟨p, a', he, hp0, -, hb, -⟩
  · refine iff_of_true ⟨_, he⟩ ?_
    rintro ⟨b, hb, hf, hle⟩
    have := hno b hb hf
    omega
  · refine iff_of_false ?_ (not_not_intro hb)
    rintro ⟨a₂, he₂⟩
    exact hp0 (congrArg Prod.fst (Option.some.inj (he.symm.trans he₂)))

end

/-- **Fit completeness.**  In every state of every run and for every policy and size the search
ends; the request is refused exactly if no range of `need` bytes avoids the used blocks, and then
only two counters change; otherwise the policy's block is taken, and what is reserved has at least
`need` and less than `need + 32` bytes.  In any other run that has come to the same walk, whatever
its policy, the same requests are refused. -/
theorem fit_complete {vm : Vm} {handle : Bool} {m : Mem} {capacity : Nat} {policy : FitPolicy}
    {a : FlAlloc} {acts : List FlAct} {s : Sys}
    (hcreate : hfFreeListCreate vm handle m capacity policy = some a)
    (hrun : Steps SmallStep (Sys.start a) acts s) (size alignment : Nat) (hal : alignment ≤ 16) :
    ∃ w ring, RepInv s.a w ring
    ∧ (flAllocate s.a size alignment).isSome = true
    ∧ ((∃ a', flAllocate s.a size alignment = some (0, a')) ↔
        ¬ Room w s.a.capacity (flNeed size alignment))
    ∧ (∀ a', flAllocate s.a size alignment = some (0, a') → a' = countFailed (countAlloc s.a))
    ∧ (∀ p a', flAllocate s.a size alignment = some (p, a') → p ≠ 0 →
        Choice s.a ring (flNeed size alignment) p
        ∧ hdrUsed a'.heap (p - 16) = true ∧ flNeed size alignment ≤ hdrSize a'.heap (p - 16)
        ∧ hdrSize a'.heap (p - 16) < flNeed size alignment + 32)
    ∧ ∀ (vm' : Vm) (handle' : Bool) (m' : Mem) (capacity' : Nat) (policy' : FitPolicy)
    (a₁ : FlAlloc)
        (acts' : List FlAct) (s' : Sys), hfFreeListCreate vm' handle' m' capacity' policy'
          = some a₁ →
        Steps SmallStep (Sys.start a₁) acts' s' → flWalk s'.a = flWalk s.a →
        ((∃ a', flAllocate s.a size alignment = some (0, a')) ↔
          ∃ a', flAllocate s'.a size alignment = some (0, a')) := by
  obtain ⟨bs, ring, h⟩ := GapInv.of_run hcreate hrun
  obtain ⟨w, hw, ht, hs, hwb⟩ := h.walk
  have hrep := h.inv.repInv
  rw [← hwb] at hrep
  have hroom : ∀ need, (∃ w, flWalk s.a = some w ∧ Room w s.a.capacity need)
    ↔ Room w s.a.capacity need :=
    fun need => ⟨fun ⟨w', hw', hr⟩ => Option.some.inj (hw'.symm.trans hw) ▸ hr,
      fun hr => ⟨w, hw, hr⟩⟩
  refine ⟨w, ring, hrep, ?_, ?_, ?_, ?_, ?_⟩
  · rcases h.alloc size hal with ⟨he, -⟩ | ⟨p, a', he, -⟩
    · rw [he]
      rfl
    · rw [he]
      rfl
  · rw [h.refused_iff size hal, hroom]
  · intro a' he'
    rcases h.alloc size hal with ⟨he, -⟩ | ⟨p, a₂, he, hp0, -⟩
    · exact congrArg Prod.snd (Option.some.inj (he'.symm.trans he))
    · exact absurd (congrArg Prod.fst (Option.some.inj (he.symm.trans he'))) hp0
  · intro p a' he' hp
    rcases h.alloc size hal with ⟨he, -⟩ | ⟨p₂, a₂, he, -, hch, -, hres⟩
    · exact absurd (congrArg Prod.fst (Option.some.inj (he'.symm.trans he))) hp
    · obtain ⟨rfl, rfl⟩ := Prod.mk.inj (Option.some.inj (he.symm.trans he'))
      exact ⟨hch, hres⟩
  · intro vm' handle' m' capacity' policy' a₁ acts' s' hcreate' hrun' hsame
    obtain ⟨bs', ring', h'⟩ := GapInv.of_run hcreate' hrun'
    obtain ⟨w', hw', ht', -, -⟩ := h'.walk
    have hcap : s'.a.capacity = s.a.capacity := by
      obtain rfl := Option.some.inj (hw'.symm.trans (hsame.trans hw))
      exact ht'.end_unique ht
    rw [h.refused_iff size hal, h'.refused_iff size hal, hsame, hcap]

theorem fit_complete_one_block :
    ∃ w ring, RepInv sampleState.a w ring
    ∧ (flAllocate sampleState.a 64 16).isSome = true
    ∧ ((∃ a', flAllocate sampleState.a 64 16 = some (0, a')) ↔
        ¬ Room w sampleState.a.capacity (flNeed 64 16)) := by
  obtain ⟨w, ring, h1, h2, h3, -⟩ := fit_complete sampleHeap_create
    (Steps.snoc (Steps.nil _) ⟨sample_alloc, le_refl 16⟩) 64 16 (le_refl 16)
  exact ⟨w, ring, h1, h2, h3⟩

end HeapForge.FreeList
