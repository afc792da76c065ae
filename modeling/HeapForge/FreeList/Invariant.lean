import HeapForge.FreeList.Blocks

/-!
# The representation invariant and the operations

`Inv a bs act ring`: the heap of `a` is made of the blocks `bs`; the circular list `ring` holds
the nodes of the free blocks of `act`, a part of `bs`; `used` is the sum of the used blocks of
`act`.  Between two operations `act` is all of `bs`.  While an operation has a block in its
hands, `act` is the rest: this is what each line of `fl_allocate` and `fl_deallocate` keeps.

No operation writes into the payload of a block that stays used (`UsedPayload`).
-/

set_option linter.unusedSectionVars false
set_option linter.unusedVariables false

namespace HeapForge.FreeList
open Lib

def usedSum (bs : List Blk) : Nat := ((bs.filter Blk.used).map Blk.size).sum

/-- `ring` holds the nodes of the free blocks of `act` -/
def Tied (act : List Blk) (ring : List Nat) : Prop :=
  ∀ n, n ∈ ring ↔ ∃ b ∈ act, b.used = false ∧ n = b.addr + 16

/-- the byte `x` is payload of a used block -/
def UsedPayload (act : List Blk) (x : Nat) : Prop :=
  ∃ u ∈ act, u.used = true ∧ u.addr + 16 ≤ x ∧ x < u.addr + u.size

structure Inv (a : FlAlloc) (bs act : List Blk) (ring : List Nat) : Prop where
  heap : Heap a bs
  list : FreeRing a ring
  tied : Tied act ring
  sub : ∀ b ∈ act, b ∈ bs
  used : a.stats.used = usedSum act

/-! ## bookkeeping -/

section
variable {a a' : FlAlloc} {bs bs' act l₁ l₂ : List Blk} {ring r₁ r₂ hs : List Nat} {b c : Blk}
  {n x need : Nat}

theorem usedSum_append (l₁ l₂ : List Blk) : usedSum (l₁ ++ l₂) = usedSum l₁ + usedSum l₂ := by
  unfold usedSum
  rw [List.filter_append, List.map_append, List.sum_append]

theorem usedSum_cons_used (hb : b.used = true) : usedSum (b :: l₁) = b.size + usedSum l₁ := by
  unfold usedSum
  rw [List.filter_cons_of_pos hb, List.map_cons, List.sum_cons]

theorem usedSum_cons_free (hb : b.used = false) : usedSum (b :: l₁) = usedSum l₁ := by
  unfold usedSum
  rw [List.filter_cons_of_neg (by simp [hb])]

theorem usedSum_middle_free (hb : b.used = false) :
    usedSum (l₁ ++ b :: l₂) = usedSum (l₁ ++ l₂) := by
  rw [usedSum_append, usedSum_append, usedSum_cons_free hb]

theorem usedSum_middle_used (hb : b.used = true) :
    usedSum (l₁ ++ b :: l₂) = b.size + usedSum (l₁ ++ l₂) := by
  rw [usedSum_append, usedSum_append, usedSum_cons_used hb]
  omega

theorem Heap.usedSum_le (h : Heap a bs) : usedSum bs ≤ a.capacity := by
  have h1 := h.tiles.sum_le Blk.used
  unfold usedSum
  omega

/-- two blocks of one tiling with different addresses -/
theorem Heap.apart (h : Heap a bs) (hb : b ∈ bs) (hc : c ∈ bs) (hne : b ≠ c) :
    b.addr + b.size ≤ c.addr ∨ c.addr + c.size ≤ b.addr := by
  by_contra hcon
  have h1 := h.tiles.bounds hb
  have h2 := h.tiles.bounds hc
  by_cases hle : b.addr ≤ c.addr
  · exact hne (h.tiles.eq_of_mem hb hc (x := c.addr) (by omega) (by omega))
  · exact hne (h.tiles.eq_of_mem hb hc (x := b.addr) (by omega) (by omega))

theorem Heap.ne_middle (h : Heap a (l₁ ++ b :: l₂)) (hc : c ∈ l₁ ++ l₂) : c ≠ b := by
  rintro rfl
  have hd := List.nodup_middle.mp h.tiles.nodup
  exact (List.nodup_cons.mp hd).1 hc

/-- a node lies behind the header of its own block, so it is no header -/
theorem Inv.addr_notMem (h : Inv a bs act ring) (hb : b ∈ bs) : b.addr ∉ ring := by
  intro hn
  obtain ⟨c, hc, -, e⟩ := (h.tied _).mp hn
  have hc' := h.sub c hc
  have hge := c.size_ge
  have hbs := b.size_ge
  by_cases hbc : b = c
  · subst hbc
    omega
  · have := h.heap.apart hb hc' hbc
    omega

theorem Inv.length_le (h : Inv a bs act ring) : ring.length ≤ a.capacity := by
  have hsub : ring ⊆ bs.map fun b => b.addr + 16 := by
    intro n hn
    obtain ⟨c, hc, -, e⟩ := (h.tied n).mp hn
    exact List.mem_map.mpr ⟨c, h.sub c hc, e.symm⟩
  have h1 := (List.subperm_of_subset h.list.nodup hsub).length_le
  have h2 := h.heap.tiles.length_le
  rw [List.length_map] at h1
  omega

theorem Tied.add_used (h : Tied (l₁ ++ l₂) ring) (hb : b.used = true) :
    Tied (l₁ ++ b :: l₂) ring := by
  intro n
  rw [h n]
  constructor
  · rintro ⟨c, hc, h1, h2⟩
    exact ⟨c, List.mem_append.mpr ((List.mem_append.mp hc).imp_right (List.mem_cons_of_mem b)), h1,
      h2⟩
  · rintro ⟨c, hc, h1, h2⟩
    refine ⟨c, ?_, h1, h2⟩
    rcases List.mem_append.mp hc with hc | hc
    · exact List.mem_append_left _ hc
    · rcases List.mem_cons.mp hc with rfl | hc
      · rw [hb] at h1
        exact absurd h1 (by simp)
      · exact List.mem_append_right _ hc

theorem Tied.drop_used (h : Tied (l₁ ++ b :: l₂) ring) (hb : b.used = true) :
    Tied (l₁ ++ l₂) ring := by
  intro n
  rw [h n]
  constructor
  · rintro ⟨c, hc, h1, h2⟩
    refine ⟨c, ?_, h1, h2⟩
    rcases List.mem_append.mp hc with hc | hc
    · exact List.mem_append_left _ hc
    · rcases List.mem_cons.mp hc with rfl | hc
      · rw [hb] at h1
        exact absurd h1 (by simp)
      · exact List.mem_append_right _ hc
  · rintro ⟨c, hc, h1, h2⟩
    exact ⟨c, List.mem_append.mpr ((List.mem_append.mp hc).imp_right (List.mem_cons_of_mem b)), h1,
      h2⟩

theorem Tied.insert (h : Tied (l₁ ++ l₂) ring) (hb : b.used = false) :
    Tied (l₁ ++ b :: l₂) (ringInsert (b.addr + 16) ring) := by
  intro n
  rw [mem_ringInsert, h n]
  constructor
  · rintro (rfl | ⟨c, hc, h1, h2⟩)
    · exact ⟨b, by simp, hb, rfl⟩
    · exact ⟨c, List.mem_append.mpr ((List.mem_append.mp hc).imp_right (List.mem_cons_of_mem b)),
        h1, h2⟩
  · rintro ⟨c, hc, h1, h2⟩
    rcases List.mem_append.mp hc with hc | hc
    · exact Or.inr ⟨c, List.mem_append_left _ hc, h1, h2⟩
    · rcases List.mem_cons.mp hc with rfl | hc
      · exact Or.inl h2
      · exact Or.inr ⟨c, List.mem_append_right _ hc, h1, h2⟩

theorem UsedPayload.mono (hsub : ∀ u ∈ l₁, u.used = true → u ∈ l₂) (h : UsedPayload l₁ x) :
    UsedPayload l₂ x := by
  obtain ⟨u, hu, h1, h2⟩ := h
  exact ⟨u, hsub u hu h1, h1, h2⟩

/-- the allocator's own places: headers, and what lies in a block that is not in use -/
theorem Inv.outside (h : Inv a bs act ring) (hx : UsedPayload act x)
    (hh : ∀ n ∈ hs, ∃ c ∈ bs, n = c.addr
      ∨ (c.used = false ∧ c.addr ≤ n ∧ n + 16 ≤ c.addr + c.size)) :
    Outside hs x := by
  obtain ⟨u, hu, h1, h2, h3⟩ := hx
  intro n hn
  obtain ⟨c, hc, hcase⟩ := hh n hn
  have hge := c.size_ge
  by_cases e : u = c
  · subst e
    rcases hcase with rfl | ⟨hf, -⟩
    · omega
    · rw [h1] at hf
      exact absurd hf (by simp)
  · have := h.heap.apart (h.sub u hu) hc e
    omega

theorem Inv.outside_ring (h : Inv a bs act ring) (hx : UsedPayload act x) : Outside ring x := by
  refine h.outside hx fun n hn => ?_
  obtain ⟨c, hc, hf, e⟩ := (h.tied n).mp hn
  have := c.size_ge
  exact ⟨c, h.sub c hc, Or.inr ⟨hf, by omega, by omega⟩⟩

/-! ## the list operations -/

/-- a free block leaves the list -/
theorem Inv.unlink (h : Inv a bs (l₁ ++ c :: l₂) ring) (hc : c.used = false)
    (hd : c ∉ l₁ ++ l₂) :
    ∃ ring', Inv (flUnlink a (c.addr + 16)) bs (l₁ ++ l₂) ring' ∧ c.addr + 16 ∉ ring'
      ∧ Mem.SameOn (UsedPayload (l₁ ++ l₂)) a.heap (flUnlink a (c.addr + 16)).heap := by
  have hcm : c ∈ l₁ ++ c :: l₂ := by simp
  have hn : c.addr + 16 ∈ ring := (h.tied _).mpr ⟨c, hcm, hc, rfl⟩
  obtain ⟨r₁, r₂, rfl⟩ := List.append_of_mem hn
  obtain ⟨hr, hs⟩ := flUnlink_spec h.list
  obtain ⟨hnd, hout⟩ := h.list.split_nodup
  have hmem : ∀ n, n ∈ r₁ ++ r₂ ↔ n ∈ r₁ ++ (c.addr + 16) :: r₂ ∧ n ≠ c.addr + 16 := by
    intro n
    constructor
    · intro hm
      exact ⟨List.mem_append.mpr ((List.mem_append.mp hm).imp_right (List.mem_cons_of_mem _)),
        fun e => hout (e ▸ hm)⟩
    · rintro ⟨hm, hne⟩
      rcases List.mem_append.mp hm with hm | hm
      · exact List.mem_append_left _ hm
      · exact List.mem_append_right _ (List.mem_of_ne_of_mem hne hm)
  have hsup : ∀ d ∈ l₁ ++ l₂, d ∈ l₁ ++ c :: l₂ := fun d hd' =>
    List.mem_append.mpr ((List.mem_append.mp hd').imp_right (List.mem_cons_of_mem c))
  refine ⟨r₁ ++ r₂, ⟨?_, hr, ?_, fun d hd' => h.sub d (hsup d hd'), ?_⟩, hout, ?_⟩
  · exact h.heap.of_sameOn hs (fun n hm => (h.list.node n hm).1) (fun d hd' => h.addr_notMem hd')
      flUnlink_mem flUnlink_capacity
  · intro n
    rw [hmem n, h.tied n]
    constructor
    · rintro ⟨⟨d, hd1, hf, rfl⟩, hne⟩
      refine ⟨d, ?_, hf, rfl⟩
      rcases List.mem_append.mp hd1 with hd1 | hd1
      · exact List.mem_append_left _ hd1
      · exact List.mem_append_right _ (List.mem_of_ne_of_mem (fun e => hne (by rw [e])) hd1)
    · rintro ⟨d, hd1, hf, rfl⟩
      refine ⟨⟨d, hsup d hd1, hf, rfl⟩, fun e => hd ?_⟩
      have e' : d = c := h.heap.tiles.pos_inj (h.sub d (hsup d hd1)) (h.sub c hcm) (by omega)
      exact e' ▸ hd1
  · rw [flUnlink_stats, h.used, usedSum_middle_free hc]
  · exact hs.mono fun x hx => h.outside_ring (hx.mono fun u hu _ => hsup u hu)

/-- a free block enters the list -/
theorem Inv.insert (h : Inv a bs (l₁ ++ l₂) ring) (hb : b ∈ bs) (hf : b.used = false)
    (hd : b ∉ l₁ ++ l₂) :
    Inv (flInsert a (b.addr + 16)) bs (l₁ ++ b :: l₂) (ringInsert (b.addr + 16) ring)
      ∧ Mem.SameOn (UsedPayload (l₁ ++ l₂)) a.heap (flInsert a (b.addr + 16)).heap := by
  obtain ⟨h16, hpos, -, -, hlt⟩ := h.heap.place hb
  have hge := b.size_ge
  have hn : b.addr + 16 ∉ ring := by
    intro hn
    obtain ⟨c, hc, -, e⟩ := (h.tied _).mp hn
    have e' : b = c := h.heap.tiles.pos_inj hb (h.sub c hc) (by omega)
    exact hd (e' ▸ hc)
  obtain ⟨hr, hs⟩ := flInsert_spec h.list hn (by omega) (by omega) (by omega)
  have hal : ∀ n ∈ (b.addr + 16) :: ring, n % 16 = 0 := by
    intro n hm
    rcases List.mem_cons.mp hm with rfl | hm
    · omega
    · exact (h.list.node n hm).1
  refine ⟨⟨?_, hr, h.tied.insert hf, ?_, ?_⟩, ?_⟩
  · refine h.heap.of_sameOn hs hal (fun d hd' hm => ?_) rfl rfl
    rcases List.mem_cons.mp hm with e | hm
    · by_cases hdb : d = b
      · subst hdb
        omega
      · have := h.heap.apart hd' hb hdb
        have := d.size_ge
        omega
    · exact h.addr_notMem hd' hm
  · intro d hd'
    rcases List.mem_append.mp hd' with hd' | hd'
    · exact h.sub d (List.mem_append_left _ hd')
    · rcases List.mem_cons.mp hd' with rfl | hd'
      · exact hb
      · exact h.sub d (List.mem_append_right _ hd')
  · rw [flInsert_stats, h.used, usedSum_middle_free hf]
  · refine hs.mono fun x hx => h.outside hx fun n hm => ?_
    rcases List.mem_cons.mp hm with rfl | hm
    · exact ⟨b, hb, Or.inr ⟨hf, by omega, by omega⟩⟩
    · obtain ⟨c, hc, hcf, e⟩ := (h.tied n).mp hm
      have := c.size_ge
      exact ⟨c, h.sub c hc, Or.inr ⟨hcf, by omega, by omega⟩⟩

/-- the headers change, the list does not -/
theorem Inv.rebuild {m : Mem} (h : Inv a bs act ring) (hb : Heap { a with heap := m } bs')
    (hsame : Mem.SameOn (Outside hs) a.heap m) (hal : ∀ n ∈ hs, n % 16 = 0)
    (hn : ∀ n ∈ ring, n ∉ hs) (hsub : ∀ b ∈ act, b ∈ bs') : Inv
      { a with heap := m } bs' act ring where
  heap := hb
  list := h.list.of_sameOn hsame hal hn rfl rfl
  tied := h.tied
  sub := hsub
  used := h.used

theorem Inv.withStats (h : Inv a bs act ring) {s : Stats} (hs : s.used = a.stats.used) :
    Inv { a with stats := s } bs act ring where
  heap := ⟨h.heap.mem_pos, h.heap.mem_mod, h.heap.bound, h.heap.seg⟩
  list := h.list.congr rfl rfl fun _ _ => ⟨rfl, rfl⟩
  tied := h.tied
  sub := h.sub
  used := hs.trans h.used

theorem Inv.withCursor (h : Inv a bs act ring) {k : Nat} (hk : k ∈ ring) :
    Inv (a.withCursor k) bs act ring where
  heap := ⟨h.heap.mem_pos, h.heap.mem_mod, h.heap.bound, h.heap.seg⟩
  list := ⟨h.list.nodup, h.list.node, h.list.links, h.list.head,
    fun e => absurd hk (by simp [e]), fun _ => hk⟩
  tied := h.tied
  sub := h.sub
  used := h.used

/-- the block in hand is used now and is charged -/
theorem Inv.charge (h : Inv a (l₁ ++ b :: l₂) (l₁ ++ l₂) ring) (hb : b.used = true) :
    Inv (chargeUsed a b.size) (l₁ ++ b :: l₂) (l₁ ++ b :: l₂) ring
      ∧ (chargeUsed a b.size).stats.used = a.stats.used + b.size
      ∧ (chargeUsed a b.size).stats.peakUsed
        = max a.stats.peakUsed (chargeUsed a b.size).stats.used := by
  have hsum : a.stats.used + b.size = usedSum (l₁ ++ b :: l₂) := by
    rw [h.used, usedSum_middle_used hb]
    omega
  have hle := h.heap.usedSum_le
  have hbd := h.heap.bound
  have hw : wadd a.stats.used b.size = a.stats.used + b.size := wadd_of_lt (by omega)
  have hu : (chargeUsed a b.size).stats.used = a.stats.used + b.size := hw
  refine ⟨⟨⟨h.heap.mem_pos, h.heap.mem_mod, h.heap.bound, h.heap.seg⟩,
    h.list.congr rfl rfl fun _ _ => ⟨rfl, rfl⟩, h.tied.add_used hb, fun _ hc => hc,
    hu.trans hsum⟩, hu, ?_⟩
  rw [hu]
  show (if wadd a.stats.used b.size > a.stats.peakUsed then wadd a.stats.used b.size
    else a.stats.peakUsed) = _
  rw [hw]
  split <;> omega

/-! ## allocation -/

theorem mem_middle_free {u : Blk} (hu : u.used = true) (hb : b.used = false) :
    u ∈ l₁ ++ b :: l₂ ↔ u ∈ l₁ ++ l₂ := by
  have hne : u ≠ b := by
    rintro rfl
    rw [hb] at hu
    exact absurd hu (by simp)
  rw [List.mem_append, List.mem_append, List.mem_cons, or_iff_right hne]

theorem UsedPayload.drop_free (hc : c.used = false) (h : UsedPayload (l₁ ++ c :: l₂) x) :
    UsedPayload (l₁ ++ l₂) x :=
  h.mono fun v hv hvu => (mem_middle_free hvu hc).mp hv

/-- what becomes of a free block that is taken for `need` bytes -/
def Blk.carve (b : Blk) (need : Nat) (h1 : 32 ≤ need) (h2 : need % 16 = 0) : List Blk :=
  if h3 : need + 32 ≤ b.size then [b.front need h1 h2, b.rest need h2 h3]
  else [{ b with used := true }]

@[simp] theorem flSplit_stats {h : Nat} : (flSplit a h need).stats = a.stats := by
  unfold flSplit; dsimp only; split <;> rfl
@[simp] theorem flSplit_mem {h : Nat} : (flSplit a h need).mem = a.mem := by
  unfold flSplit; dsimp only; split <;> rfl
@[simp] theorem flSplit_capacity {h : Nat} : (flSplit a h need).capacity = a.capacity := by
  unfold flSplit; dsimp only; split <;> rfl

theorem Inv.split (h : Inv a (l₁ ++ b :: l₂) (l₁ ++ l₂) ring) (hf : b.used = false)
    (h1 : 32 ≤ need) (h2 : need % 16 = 0) (hle : need ≤ b.size) :
    ∃ u rest ring', b.carve need h1 h2 = u :: rest ∧ u.used = true ∧ u.addr = b.addr
      ∧ Inv (flSplit a b.addr need) (l₁ ++ u :: (rest ++ l₂)) (l₁ ++ (rest ++ l₂)) ring'
      ∧ Mem.SameOn (UsedPayload (l₁ ++ l₂)) a.heap (flSplit a b.addr need).heap := by
  have hb : b ∈ l₁ ++ b :: l₂ := by simp
  obtain ⟨h16, hpos, -, -, hlt⟩ := h.heap.place hb
  have hal : ∀ d ∈ l₁ ++ b :: l₂, d.addr % 16 = 0 := fun d hd => (h.heap.place hd).1
  by_cases h3 : need + 32 ≤ b.size
  · have hcarve : b.carve need h1 h2 = [b.front need h1 h2, b.rest need h2 h3] := dif_pos h3
    -- the headers first, then the rest goes into the list
    have hcut := h.heap.cut h1 h2 h3
    have hsame := h.heap.cut_sameOn need
    have hhs : ∀ n ∈ b.addr :: (b.addr + need) :: l₂.map Blk.addr, n % 16 = 0 := by
      intro n hn
      simp only [List.mem_cons, List.mem_map] at hn
      rcases hn with rfl | rfl | ⟨d, hd, rfl⟩
      · exact h16
      · omega
      · exact hal d (by simp [hd])
    have hring : ∀ n ∈ ring, n ∉ b.addr :: (b.addr + need) :: l₂.map Blk.addr := by
      intro n hn hm
      obtain ⟨d, hd, -, e⟩ := (h.tied n).mp hn
      have hdg := d.size_ge
      have hda := h.heap.apart (h.sub d hd) hb (h.heap.ne_middle hd)
      simp only [List.mem_cons, List.mem_map] at hm
      rcases hm with rfl | rfl | ⟨c, hc, rfl⟩
      · exact h.addr_notMem hb hn
      · omega
      · exact h.addr_notMem (b := c) (by simp [hc]) hn
    have hinv := h.rebuild hcut hsame hhs hring (fun d hd =>
      List.mem_append.mpr ((List.mem_append.mp hd).imp_right fun hd =>
        List.mem_cons_of_mem _ (List.mem_cons_of_mem _ hd)))
    have hrest : b.rest need h2 h3 ∉ l₁ ++ l₂ := by
      intro hm
      have := h.heap.apart (h.sub _ hm) hb (h.heap.ne_middle hm)
      have e : (b.rest need h2 h3).addr = b.addr + need := rfl
      have := (b.rest need h2 h3).size_ge
      omega
    obtain ⟨hins, hsame'⟩ := hinv.insert (b := b.rest need h2 h3) (by simp) rfl hrest
    refine ⟨_, _, ringInsert (b.addr + need + 16) ring, hcarve, rfl, rfl, ?_, ?_⟩
    · rw [flSplit_cut h.heap h2 h3]
      exact hins
    · rw [flSplit_cut h.heap h2 h3]
      refine Mem.SameOn.trans (hsame.mono fun x hx => h.outside hx fun n hn => ?_) hsame'
      simp only [List.mem_cons, List.mem_map] at hn
      rcases hn with rfl | rfl | ⟨d, hd, rfl⟩
      · exact ⟨b, hb, Or.inl rfl⟩
      · exact ⟨b, hb, Or.inr ⟨hf, by omega, by omega⟩⟩
      · exact ⟨d, by simp [hd], Or.inl rfl⟩
  · have hcarve : b.carve need h1 h2 = [{ b with used := true }] := dif_neg h3
    have hw := flSplit_whole h.heap hle (by omega)
    have hsame : Mem.SameOn (Outside [b.addr]) a.heap (hdrSet a.heap b.addr b.size true) :=
      sameOn_hdrSet (List.mem_singleton_self _)
    refine ⟨_, _, ring, hcarve, rfl, rfl, ?_, ?_⟩
    · rw [hw]
      refine h.rebuild (h.heap.mark true) hsame ?_ ?_ ?_
      · intro n hn
        rw [List.mem_singleton.mp hn]
        exact h16
      · intro n hn hm
        rw [List.mem_singleton.mp hm] at hn
        exact h.addr_notMem hb hn
      · exact fun d hd => List.mem_append.mpr
          ((List.mem_append.mp hd).imp_right (List.mem_cons_of_mem _))
    · rw [hw]
      refine hsame.mono fun x hx => h.outside hx fun n hn => ?_
      rw [List.mem_singleton.mp hn]
      exact ⟨b, hb, Or.inl rfl⟩

/-- the free block `b` is taken for `need` bytes; `u` is what is used of it -/
def Took (bs bs' : List Blk) (need : Nat) (b u : Blk) : Prop :=
  ∃ l₁ l₂ rest h1 h2, bs = l₁ ++ b :: l₂ ∧ b.used = false ∧ need ≤ b.size
    ∧ b.carve need h1 h2 = u :: rest ∧ bs' = l₁ ++ u :: (rest ++ l₂)

/-- **`fl_allocate` on the block list.**  It fails if no free block is large enough; otherwise it
takes such a block, and the invariant holds again. -/
theorem Inv.reserve (h : Inv a bs bs ring) (h1 : 32 ≤ need) (h2 : need % 16 = 0) :
    (flReserve a need = some (0, countFailed (countAlloc a))
      ∧ ∀ b ∈ bs, b.used = false → b.size < need)
    ∨ ∃ l₁ b l₂ u rest a' ring', bs = l₁ ++ b :: l₂ ∧ b.used = false ∧ need ≤ b.size
      ∧ b.carve need h1 h2 = u :: rest ∧ u.used = true ∧ u.addr = b.addr
      ∧ flReserve a need = some (u.addr, a')
      ∧ Inv a' (l₁ ++ u :: (rest ++ l₂)) (l₁ ++ u :: (rest ++ l₂)) ring'
      ∧ Mem.SameOn (UsedPayload bs) a.heap a'.heap
      ∧ a'.stats.peakUsed = max a.stats.peakUsed a'.stats.used
      ∧ a'.mem = a.mem ∧ a'.capacity = a.capacity := by
  have hcount : Inv (countAlloc a) bs bs ring := h.withStats rfl
  obtain ⟨n, a₁, hfind, hcase⟩ := findFit_spec hcount.list hcount.length_le need
  rcases hcase with ⟨rfl, rfl, hnone⟩ | ⟨hn, hfit, k, hk, rfl⟩
  · refine Or.inl ⟨?_, fun b hb hf => ?_⟩
    · unfold flReserve
      rw [hfind]
      rfl
    · have := hnone (b.addr + 16) ((hcount.tied _).mpr ⟨b, hb, hf, rfl⟩)
      rwa [hcount.heap.nodeSize hb] at this
  · obtain ⟨b, hb, hf, rfl⟩ := (hcount.tied n).mp hn
    rw [hcount.heap.nodeSize hb] at hfit
    have hhdr := hcount.heap.headerOf hb
    obtain ⟨l₁, l₂, rfl⟩ := List.append_of_mem hb
    have hcur := hcount.withCursor hk
    have hout : b ∉ l₁ ++ l₂ := fun hm => hcur.heap.ne_middle hm rfl
    obtain ⟨ring₁, hun, -, hs1⟩ := hcur.unlink hf hout
    obtain ⟨u, rest, ring₂, hcarve, hu, hua, hsp, hs2⟩ := hun.split hf h1 h2 hfit
    obtain ⟨hch, -, hpeak⟩ := hsp.charge hu
    refine Or.inr
      ⟨l₁, b, l₂, u, rest, _, ring₂, rfl, hf, hfit, hcarve, hu, hua, ?_, hch, ?_, ?_, ?_, ?_⟩
    · unfold flReserve
      rw [hfind, Option.map_some]
      dsimp only
      have hsz := hsp.heap.hdrSize (b := u) (by simp)
      rw [if_neg (by omega), hhdr, ← hsz, hua]
    · exact (hs1.trans hs2).mono fun x hx => hx.drop_free hf
    · rw [hpeak, flSplit_stats, flUnlink_stats]
      rfl
    · show (flSplit _ _ _).mem = _
      rw [flSplit_mem, flUnlink_mem]
      rfl
    · show (flSplit _ _ _).capacity = _
      rw [flSplit_capacity, flUnlink_capacity]
      rfl

/-! ## deallocation -/

theorem Inv.release (h : Inv a (l₁ ++ b :: l₂) (l₁ ++ b :: l₂) ring) (hu : b.used = true) :
    Inv (flRelease a b.addr) (l₁ ++ { b with used := false } :: l₂) (l₁ ++ l₂) ring
      ∧ Mem.SameOn (UsedPayload (l₁ ++ l₂)) a.heap (flRelease a b.addr).heap := by
  have hb : b ∈ l₁ ++ b :: l₂ := by simp
  have hsup : ∀ d ∈ l₁ ++ l₂, d ∈ l₁ ++ b :: l₂ := fun d hd =>
    List.mem_append.mpr ((List.mem_append.mp hd).imp_right (List.mem_cons_of_mem b))
  have hsame : Mem.SameOn (Outside [b.addr]) a.heap (hdrSet a.heap b.addr b.size false) :=
    sameOn_hdrSet (List.mem_singleton_self _)
  have e : flRelease a b.addr =
      { a with
        stats := { a.stats with used := wsub a.stats.used b.size }
        heap := hdrSet a.heap b.addr b.size false } := by
    unfold flRelease
    rw [h.heap.hdrSize hb]
  have hsub : wsub a.stats.used b.size = usedSum (l₁ ++ l₂) := by
    have h1 := h.heap.usedSum_le
    have h2 := h.heap.bound
    have h3 : usedSum (l₁ ++ b :: l₂) = b.size + usedSum (l₁ ++ l₂) := usedSum_middle_used hu
    rw [h.used, wsub_of_le (by omega) (by omega)]
    omega
  have hm := h.heap.mark false
  rw [e]
  refine ⟨⟨⟨hm.mem_pos, hm.mem_mod, hm.bound, hm.seg⟩, ?_, h.tied.drop_used hu, ?_, hsub⟩, ?_⟩
  · refine h.list.of_sameOn (l := [b.addr]) hsame ?_ ?_ rfl rfl
    · intro n hn
      rw [List.mem_singleton.mp hn]
      exact (h.heap.place hb).1
    · intro n hn hm
      rw [List.mem_singleton.mp hm] at hn
      exact h.addr_notMem hb hn
  · exact fun d hd => List.mem_append.mpr
      ((List.mem_append.mp hd).imp_right (List.mem_cons_of_mem _))
  · refine hsame.mono fun x hx => h.outside (hx.mono fun v hv _ => hsup v hv) fun n hn => ?_
    rw [List.mem_singleton.mp hn]
    exact ⟨b, hb, Or.inl rfl⟩

/-- after the unlinking the cursor does not point to the node any more -/
theorem Inv.takeOut (h : Inv a bs (l₁ ++ c :: l₂) ring) (hc : c.used = false) (hd : c ∉ l₁ ++ l₂) :
    ∃ ring', Inv (flTakeOut a c.addr) bs (l₁ ++ l₂) ring'
      ∧ Mem.SameOn (UsedPayload (l₁ ++ l₂)) a.heap (flTakeOut a c.addr).heap := by
  obtain ⟨ring', h', hout, hs⟩ := h.unlink hc hd
  have hnode := h.heap.payloadNode (h.sub c (by simp))
  have hcur : (flUnlink a (c.addr + 16)).cursor ≠ c.addr + 16 := by
    by_cases hr : ring' = []
    · rw [h'.list.cursor_nil hr]
      omega
    · intro e
      exact hout (e ▸ h'.list.cursor_mem hr)
  have e : flTakeOut a c.addr = flUnlink a (c.addr + 16) := by
    unfold flTakeOut
    rw [hnode]
    exact if_neg hcur
  rw [e]
  exact ⟨ring', h', hs⟩

/-- two free neighbours that are in no list become one -/
theorem Inv.absorb (h : Inv a (l₁ ++ b :: c :: l₂) (l₁ ++ l₂) ring) (hb : b.used = false) :
    Inv (flAbsorb a b.addr c.addr) (l₁ ++ b.join c :: l₂) (l₁ ++ l₂) ring
      ∧ Mem.SameOn (UsedPayload (l₁ ++ l₂)) a.heap (flAbsorb a b.addr c.addr).heap := by
  have hbm : b ∈ l₁ ++ b :: c :: l₂ := by simp
  have hl₂ : ∀ d ∈ l₂, d ∈ l₁ ++ b :: c :: l₂ := fun d hd => by simp [hd]
  have hsame := h.heap.join_sameOn
  rw [flAbsorb_eq h.heap]
  refine ⟨h.rebuild h.heap.join hsame ?_ ?_ ?_, hsame.mono fun x hx => h.outside hx fun n hn => ?_⟩
  · intro n hn
    rcases List.mem_cons.mp hn with rfl | hn
    · exact (h.heap.place hbm).1
    · obtain ⟨d, hd, rfl⟩ := List.mem_map.mp hn
      exact (h.heap.place (hl₂ d hd)).1
  · intro n hn hm
    rcases List.mem_cons.mp hm with rfl | hm
    · exact h.addr_notMem hbm hn
    · obtain ⟨d, hd, rfl⟩ := List.mem_map.mp hm
      exact h.addr_notMem (hl₂ d hd) hn
  · exact fun d hd => List.mem_append.mpr
      ((List.mem_append.mp hd).imp_right (List.mem_cons_of_mem _))
  · rcases List.mem_cons.mp hn with rfl | hn
    · exact ⟨b, hbm, Or.inl rfl⟩
    · obtain ⟨d, hd, rfl⟩ := List.mem_map.mp hn
      exact ⟨d, hl₂ d hd, Or.inl rfl⟩

/-- the blocks behind a freed one, before and after merging -/
def MergedRight (l l' : List Blk) : Prop :=
  (l' = l ∧ ∀ c ∈ l.head?, c.used = true) ∨ ∃ c, l = c :: l' ∧ c.used = false

/-- the blocks in front of it -/
def MergedLeft (l l' : List Blk) : Prop :=
  (l' = l ∧ ∀ c ∈ l.getLast?, c.used = true) ∨ ∃ c, l = l' ++ [c] ∧ c.used = false

theorem Inv.mergeNext (h : Inv a (l₁ ++ b :: l₂) (l₁ ++ l₂) ring) (hb : b.used = false) :
    ∃ b' l₂' ring', Inv (flMergeNext a b.addr) (l₁ ++ b' :: l₂') (l₁ ++ l₂') ring'
      ∧ b'.addr = b.addr ∧ b'.used = false
      ∧ MergedRight l₂ l₂'
      ∧ Mem.SameOn (UsedPayload (l₁ ++ l₂)) a.heap (flMergeNext a b.addr).heap := by
  have hnext := h.heap.nextPhys
  cases l₂ with
  | nil =>
    have e : flMergeNext a b.addr = a := if_neg (fun hcon => hcon.1 hnext)
    rw [e]
    exact ⟨b, [], ring, h, rfl, hb, Or.inl ⟨rfl, by simp⟩, Mem.SameOn.refl⟩
  | cons c l₂ =>
    have hnb : nextPhys a b.addr = c.addr := hnext
    have hcm : c ∈ l₁ ++ b :: c :: l₂ := by simp
    have hc0 := (h.heap.place hcm).2.1
    have hused := h.heap.hdrUsed hcm
    cases hc : c.used with
    | true =>
      have e : flMergeNext a b.addr = a := by
        refine if_neg (fun hcon => ?_)
        have h1 := hcon.2
        rw [hnb, hused, hc] at h1
        exact absurd h1 (by simp)
      rw [e]
      exact ⟨b, c :: l₂, ring, h, rfl, hb, Or.inl ⟨rfl, by simpa using hc⟩, Mem.SameOn.refl⟩
    | false =>
      have e : flMergeNext a b.addr = flAbsorb (flTakeOut a c.addr) b.addr c.addr := by
        unfold flMergeNext
        rw [hnb]
        exact if_pos ⟨by omega, hused.trans hc⟩
      have hd : c ∉ l₁ ++ l₂ := by
        have h1 := h.heap.tiles.nodup
        rw [show l₁ ++ b :: c :: l₂ = (l₁ ++ [b]) ++ c :: l₂ by simp] at h1
        have h2 := (List.nodup_cons.mp (List.nodup_middle.mp h1)).1
        exact fun hm => h2 (List.mem_append.mpr
          ((List.mem_append.mp hm).imp_left (List.mem_append_left [b])))
      obtain ⟨ring', h', hs⟩ := h.takeOut hc hd
      obtain ⟨h'', hs'⟩ := h'.absorb hb
      rw [e]
      exact ⟨b.join c, l₂, ring', h'', rfl, rfl, Or.inr ⟨c, rfl, hc⟩,
        (hs.trans hs').mono fun x hx => hx.drop_free hc⟩

theorem Inv.mergePrev (h : Inv a (l₁ ++ b :: l₂) (l₁ ++ l₂) ring) (hb : b.used = false) :
    ∃ l₁' b' ring', (flMergePrev a b.addr).1 = b'.addr
      ∧ Inv (flMergePrev a b.addr).2 (l₁' ++ b' :: l₂) (l₁' ++ l₂) ring'
      ∧ b'.used = false
      ∧ MergedLeft l₁ l₁'
      ∧ Mem.SameOn (UsedPayload (l₁ ++ l₂)) a.heap (flMergePrev a b.addr).2.heap := by
  have hprev := h.heap.prevPhys
  rcases List.eq_nil_or_concat' l₁ with rfl | ⟨l, p, rfl⟩
  · have e : flMergePrev a b.addr = (b.addr, a) := by
      unfold flMergePrev
      dsimp only
      rw [if_neg (fun hcon => hcon.1 hprev)]
    rw [e]
    exact ⟨[], b, ring, rfl, h, hb, Or.inl ⟨rfl, by simp⟩, Mem.SameOn.refl⟩
  · rw [lastAddr_append] at hprev
    have hpm : p ∈ l ++ [p] ++ b :: l₂ := by simp
    have hp0 := (h.heap.place hpm).2.1
    have hused := h.heap.hdrUsed hpm
    cases hp : p.used with
    | true =>
      have e : flMergePrev a b.addr = (b.addr, a) := by
        unfold flMergePrev
        dsimp only
        rw [hprev, hused, hp, if_neg (fun hcon => absurd hcon.2 (by simp))]
      rw [e]
      exact ⟨l ++ [p], b, ring, rfl, h, hb, Or.inl ⟨rfl, by simpa using hp⟩, Mem.SameOn.refl⟩
    | false =>
      have e : flMergePrev a b.addr = (p.addr, flAbsorb (flTakeOut a p.addr) p.addr b.addr) := by
        have hcond : p.addr ≠ 0 ∧ hdrUsed a.heap p.addr = false := ⟨by omega, hused.trans hp⟩
        unfold flMergePrev
        dsimp only
        rw [hprev, if_pos hcond]
      have hl : l ++ [p] ++ l₂ = l ++ p :: l₂ := by simp
      have hl' : l ++ [p] ++ b :: l₂ = l ++ p :: b :: l₂ := by simp
      rw [hl, hl'] at h
      have hd : p ∉ l ++ l₂ := by
        have h2 := (List.nodup_cons.mp (List.nodup_middle.mp h.heap.tiles.nodup)).1
        exact fun hm => h2 (List.mem_append.mpr
          ((List.mem_append.mp hm).imp_right (List.mem_cons_of_mem b)))
      obtain ⟨ring', h', hs⟩ := h.takeOut hp hd
      obtain ⟨h'', hs'⟩ := h'.absorb hp
      rw [e, hl]
      exact ⟨l, p.join b, ring', rfl, h'', rfl, Or.inr ⟨p, rfl, hp⟩,
        (hs.trans hs').mono fun x hx => hx.drop_free hp⟩

/-- merging takes a free block away on one side: the used ones stay -/
theorem kept_right {l l' : List Blk} (h : MergedRight l l') :
    usedSum l' = usedSum l ∧ ∀ u : Blk, u.used = true → (u ∈ l' ↔ u ∈ l) := by
  rcases h with ⟨rfl, -⟩ | ⟨c, rfl, hc⟩
  · exact ⟨rfl, fun _ _ => Iff.rfl⟩
  · refine ⟨(usedSum_cons_free hc).symm, fun u hu => ⟨List.mem_cons_of_mem c, fun hm =>
      List.mem_of_ne_of_mem (fun e => ?_) hm⟩⟩
    rw [e, hc] at hu
    exact absurd hu (by simp)

theorem kept_left {l l' : List Blk} (h : MergedLeft l l') :
    usedSum l' = usedSum l ∧ ∀ u : Blk, u.used = true → (u ∈ l' ↔ u ∈ l) := by
  rcases h with ⟨rfl, -⟩ | ⟨c, rfl, hc⟩
  · exact ⟨rfl, fun _ _ => Iff.rfl⟩
  · refine ⟨?_, fun u hu => ?_⟩
    · rw [usedSum_append, usedSum_cons_free hc]
      rfl
    · rw [List.mem_append, List.mem_singleton]
      refine ⟨Or.inl, fun hm => hm.resolve_right (fun e => ?_)⟩
      rw [e, hc] at hu
      exact absurd hu (by simp)

/-- the used block `b` is freed and joined with its free neighbours -/
def Gave (bs bs' : List Blk) (b : Blk) : Prop :=
  ∃ l₁ l₂ l₁' b' l₂', bs = l₁ ++ b :: l₂ ∧ b.used = true ∧ bs' = l₁' ++ b' :: l₂' ∧ b'.used = false
    ∧ MergedLeft l₁ l₁' ∧ MergedRight l₂ l₂'

/-- **`fl_deallocate` on the block list.**  The used block at `b.addr` is freed and joined with
its free neighbours; the other used blocks and their payloads are as before. -/
theorem Inv.freeBlock (h : Inv a (l₁ ++ b :: l₂) (l₁ ++ b :: l₂) ring) (hu : b.used = true) :
    ∃ bs' ring', Inv (flFreeBlock a b.addr) bs' bs' ring'
      ∧ Gave (l₁ ++ b :: l₂) bs' b
      ∧ (∀ u : Blk, u.used = true → (u ∈ bs' ↔ u ∈ l₁ ++ l₂))
      ∧ usedSum bs' = usedSum (l₁ ++ l₂)
      ∧ Mem.SameOn (UsedPayload (l₁ ++ l₂)) a.heap (flFreeBlock a b.addr).heap := by
  obtain ⟨h1, s1⟩ := h.release hu
  obtain ⟨b₂, l₂', ring₂, h2, ha2, hf2, hc2, s2⟩ := h1.mergeNext rfl
  obtain ⟨l₁', b₃, ring₃, ha3, h3, hf3, hc3, s3⟩ := h2.mergePrev hf2
  have hout : b₃ ∉ l₁' ++ l₂' := fun hm => h3.heap.ne_middle hm rfl
  obtain ⟨h4, s4⟩ := h3.insert (by simp) hf3 hout
  have hnode := h3.heap.payloadNode (b := b₃) (by simp)
  have e : flFreeBlock a b.addr = flInsert (flMergePrev (flMergeNext (flRelease a b.addr) b.addr)
      b₂.addr).2 (b₃.addr + 16) := by
    unfold flFreeBlock
    rw [← hnode, ← ha3, ha2]
  obtain ⟨hsum₂, hkeep₂⟩ := kept_right hc2
  obtain ⟨hsum₁, hkeep₁⟩ := kept_left hc3
  have hkeep : ∀ u : Blk, u.used = true → (u ∈ l₁' ++ l₂' ↔ u ∈ l₁ ++ l₂) := fun u huu => by
    rw [List.mem_append, List.mem_append, hkeep₁ u huu, hkeep₂ u huu]
  have hm2 : ∀ x, UsedPayload (l₁ ++ l₂) x → UsedPayload (l₁ ++ l₂') x := fun x hx =>
    hx.mono fun u hm huu => by
      rw [List.mem_append, hkeep₂ u huu]
      exact List.mem_append.mp hm
  have hm3 : ∀ x, UsedPayload (l₁ ++ l₂) x → UsedPayload (l₁' ++ l₂') x := fun x hx =>
    hx.mono fun u hm huu => (hkeep u huu).mpr hm
  refine ⟨l₁' ++ b₃ :: l₂', ringInsert (b₃.addr + 16) ring₃, ?_,
    ⟨l₁, l₂, l₁', b₃, l₂', rfl, hu, rfl, hf3, hc3, hc2⟩, fun u huu => ?_, ?_, ?_⟩
  · rw [e]
    exact h4
  · rw [mem_middle_free huu hf3, hkeep u huu]
  · rw [usedSum_middle_free hf3, usedSum_append, usedSum_append, hsum₁, hsum₂]
  · rw [e]
    exact ((s1.trans s2).trans (s3.mono hm2)).trans (s4.mono hm3)

end

end HeapForge.FreeList
