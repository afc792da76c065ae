import HeapForge.Buddy.Refine
import HeapForge.RustBuddy.Impl

/-!
# The Rust allocator keeps the same buddy system

`RInv a bs act lists ex` ties the fields to the abstract system.  The stacks hold more than the
lists: `live` says that the list is what is left of the stack without its stale entries, and
`stale` that a stale entry lies in a block of a larger order.  So no block of its own order starts
there, and none can before the larger block is split; but that happens only after every stack below
has been emptied.  `quiet` says that only first slots of free blocks read "free"; the slots in
`ex`, that of a block just popped, are left out.

* `isFreeAt_iff`     what the map says about an offset is what the lists say;
* `RInv.pushFree`, `RInv.pop`, `RInv.mark`, `RInv.mergeStep`   one lemma for each change;
* `allocate_fail`, `allocate_carve`, `deallocate_spec`         the calls do what the system does.
-/

set_option linter.unusedSectionVars false
set_option linter.unusedVariables false

namespace HeapForge.RustBuddy
open Lib Function Buddy

/-! ## bytes of the map -/

/-- the byte reads "valid and not used" -/
def FreeCode (enc : Nat) : Prop := enc &&& VALID ≠ 0 ∧ enc &&& USED = 0

theorem encFree_eq : ∀ k < 64, k % 256 ||| VALID = encFree k := by decide

theorem encUsed_eq : ∀ k < 64, k % 256 ||| USED ||| VALID = encUsed k := by decide

theorem freeCode_enc (b : Block) (h : b.order < 64) : FreeCode b.enc ↔ b.used = false := by
  obtain ⟨-, h2, h3⟩ := b.enc_decode h
  exact ⟨fun hc => h3.mp hc.2, fun hu => ⟨h2, h3.mpr hu⟩⟩

theorem not_freeCode_zero : ¬ FreeCode 0 := fun h => h.1 rfl

/-! ## the invariant -/

structure RGeo (a : Inner) : Prop where
  base_pos : 0 < a.base
  bound : a.base + 2 ^ a.maxOrder < 2 ^ 64
  cap : a.capacity = 2 ^ a.maxOrder
  max_lt : a.maxOrder < 64

/-- `x` lies in a block of an order above `k` -/
def Covered (bs : List Block) (k x : Nat) : Prop :=
  ∃ b ∈ bs, k < b.order ∧ b.off ≤ x ∧ x < b.off + b.size

structure RInv (a : Inner) (bs act : List Block) (lists : Nat → List Nat) (ex : List Nat) :
    Prop where
  geo : RGeo a
  sys : BInv (floorOrder a.minOrder) a.maxOrder bs act lists
  entry : ∀ b ∈ act, a.orderMap (b.off >>> a.minOrder) = b.enc
  quiet : ∀ s, s ∉ ex → (∀ b ∈ act, b.off >>> a.minOrder ≠ s) → ¬ FreeCode (a.orderMap s)
  live : ∀ k, (a.freeLists k).filter (fun x => decide (x ∈ lists k)) = lists k
  stale : ∀ k, ∀ x ∈ a.freeLists k, x ∉ lists k → Covered bs k x
  aligned : ∀ k, ∀ x ∈ a.freeLists k, 2 ^ a.minOrder ∣ x
  tags : ∀ b ∈ act, b.used = true → a.heap.load64 (a.base + b.off) = b.order

theorem Covered.rehand {l₁ l₂ : List Block} {b c : Block} {k x : Nat}
    (h : Covered (l₁ ++ b :: l₂) k x) (ho : c.off = b.off) (hk : c.order = b.order) :
    Covered (l₁ ++ c :: l₂) k x := by
  obtain ⟨e, he, h1, h2, h3⟩ := h
  rcases mem_middle_iff.mp he with rfl | he
  · have hs : c.size = e.size := by unfold Block.size; rw [hk]
    exact ⟨c, by simp, by omega, by omega, by omega⟩
  · exact ⟨e, mem_middle_of_mem he, h1, h2, h3⟩

/-- `a'` has the geometry, the counters and the memory of `a` -/
structure Kept (a a' : Inner) : Prop where
  base : a'.base = a.base
  capacity : a'.capacity = a.capacity
  minOrder : a'.minOrder = a.minOrder
  maxOrder : a'.maxOrder = a.maxOrder
  stats : a'.stats = a.stats
  heap : a'.heap = a.heap

section
variable {a a' a'' : Inner} {bs bs' act act' l₁ l₂ : List Block} {lists lists' : Nat → List Nat}
  {ex : List Nat} {b c : Block} {x k d j o : Nat}

theorem Kept.refl : Kept a a := ⟨rfl, rfl, rfl, rfl, rfl, rfl⟩

theorem Kept.trans (h : Kept a a') (h' : Kept a' a'') : Kept a a'' :=
  ⟨h'.base.trans h.base, h'.capacity.trans h.capacity, h'.minOrder.trans h.minOrder,
    h'.maxOrder.trans h.maxOrder, h'.stats.trans h.stats, h'.heap.trans h.heap⟩

theorem restack_kept (f : Nat → List Nat) : Kept a { a with freeLists := f } :=
  ⟨rfl, rfl, rfl, rfl, rfl, rfl⟩

theorem remap_kept (f : Nat → Nat) : Kept a { a with orderMap := f } :=
  ⟨rfl, rfl, rfl, rfl, rfl, rfl⟩

theorem RGeo.congr (h : RGeo a) (h1 : a'.base = a.base) (h2 : a'.capacity = a.capacity)
    (h3 : a'.maxOrder = a.maxOrder) : RGeo a' :=
  ⟨h1 ▸ h.base_pos, by rw [h1, h3]; exact h.bound, by rw [h2, h3]; exact h.cap, h3 ▸ h.max_lt⟩

theorem RInv.restat (h : RInv a bs act lists ex) (st : Stats) :
    RInv { a with stats := st } bs act lists ex :=
  ⟨h.geo.congr rfl rfl rfl, h.sys, h.entry, h.quiet, h.live, h.stale, h.aligned, h.tags⟩

/-- **What the map says.**  An offset at a slot reads "free, of order `k`" exactly if it is on the
list of that order. -/
theorem isFreeAt_iff (h : RInv a bs act lists []) (hx : 2 ^ a.minOrder ∣ x) :
    isFreeAt a x k = true ↔ x ∈ lists k := by
  have hfl := floorOrder_ge a.minOrder
  have hmx := h.geo.max_lt
  have hcode : isFreeAt a x k = true ↔ FreeCode (a.orderMap (slot a x))
      ∧ a.orderMap (slot a x) &&& ORDER_MASK = k := by
    unfold isFreeAt FreeCode
    simp [and_assoc]
  rw [hcode, h.sys.mem]
  constructor
  · rintro ⟨hf, ho⟩
    -- the slot is the first slot of an active block
    have hex : ∃ b ∈ act, b.off >>> a.minOrder = slot a x := by
      by_contra hno
      exact h.quiet _ (by simp) (fun b hb he => hno ⟨b, hb, he⟩) hf
    obtain ⟨b, hb, he⟩ := hex
    have hbb := h.sys.sub b hb
    have hord := (h.sys.orders b hbb).2
    have hent := h.entry b hb
    rw [he] at hent
    rw [hent] at hf ho
    refine ⟨b, hb, (freeCode_enc b (by omega)).mp hf, ?_,
      shiftRight_inj (h.sys.slot_dvd hfl.1 hbb) hx he⟩
    exact (b.enc_decode (by omega)).1.symm.trans ho
  · rintro ⟨b, hb, hf, rfl, rfl⟩
    have hord := (h.sys.orders b (h.sys.sub b hb)).2
    have hent : a.orderMap (slot a b.off) = b.enc := h.entry b hb
    rw [hent]
    exact ⟨(freeCode_enc b (by omega)).mpr hf, (b.enc_decode (by omega)).1⟩

/-! ## push -/

/-- **A block is pushed** whose offset is not on the stack yet. -/
theorem RInv.pushFree (h : RInv a bs act lists ex)
    (hn : BInv (floorOrder a.minOrder) a.maxOrder bs' act'
      (update lists b.order (b.off :: lists b.order)))
    (hf : b.used = false) (hact : ∀ c, c ∈ act' ↔ c = b ∨ c ∈ act) (hout : b ∉ act)
    (hnew : b.off ∉ a.freeLists b.order)
    (hcov : ∀ k, ∀ x ∈ a.freeLists k, Covered bs k x → Covered bs' k x) :
    RInv (pushFree a b.off b.order) bs' act'
    (update lists b.order (b.off :: lists b.order)) ex := by
  have hfl := floorOrder_ge a.minOrder
  have hba : b ∈ act' := (hact b).mpr (Or.inl rfl)
  have hbm := hn.sub b hba
  have hmx := h.geo.max_lt
  have hbo := (hn.orders b hbm).2
  refine ⟨h.geo.congr rfl rfl rfl, hn, ?_, ?_, ?_, ?_, ?_, ?_⟩
  · intro c hc
    show update a.orderMap (b.off >>> a.minOrder) (b.order % 256 ||| VALID) (c.off >>> a.minOrder)
      = c.enc
    by_cases e : c = b
    · rw [e, update_self, encFree_eq _ (by omega)]
      unfold Block.enc
      rw [hf]
      rfl
    · rw [update_of_ne fun he => e (hn.slot_inj hfl.1 (hn.sub c hc) hbm he)]
      exact h.entry c (((hact c).mp hc).resolve_left e)
  · intro s hs hno
    have hsb : b.off >>> a.minOrder ≠ s := hno b hba
    show ¬ FreeCode (update a.orderMap (b.off >>> a.minOrder) (b.order % 256 ||| VALID) s)
    rw [update_of_ne hsb.symm]
    exact h.quiet s hs fun c hc => hno c ((hact c).mpr (Or.inr hc))
  · intro k
    show (update a.freeLists b.order (b.off :: a.freeLists b.order) k).filter _ = _
    by_cases e : k = b.order
    · subst e
      rw [update_self, update_self, List.filter_cons_of_pos (by simp)]
      have h1 : (a.freeLists b.order).filter (fun x => decide (x ∈ b.off :: lists b.order))
          = (a.freeLists b.order).filter (fun x => decide (x ∈ lists b.order)) := by
        refine List.filter_congr fun x hx => ?_
        have hne : x ≠ b.off := fun e => hnew (e ▸ hx)
        simp [hne]
      rw [h1, h.live b.order]
    · rw [update_of_ne e, update_of_ne e]
      exact h.live k
  · intro k x hx hno
    have hx' : x ∈ update a.freeLists b.order (b.off :: a.freeLists b.order) k := hx
    by_cases e : k = b.order
    · subst e
      rw [update_self] at hx' hno
      have hne : x ≠ b.off := fun e => hno (e ▸ List.mem_cons_self)
      have hxs := List.mem_of_ne_of_mem hne hx'
      exact hcov _ x hxs (h.stale _ x hxs fun hm => hno (List.mem_cons_of_mem _ hm))
    · rw [update_of_ne e] at hx' hno
      exact hcov k x hx' (h.stale k x hx' hno)
  · intro k x hx
    have hx' : x ∈ update a.freeLists b.order (b.off :: a.freeLists b.order) k := hx
    by_cases e : k = b.order
    · subst e
      rw [update_self] at hx'
      rcases List.mem_cons.mp hx' with rfl | hx'
      · exact hn.slot_dvd hfl.1 hbm
      · exact h.aligned _ x hx'
    · rw [update_of_ne e] at hx'
      exact h.aligned k x hx'
  · intro c hc hu
    have hcb : c ≠ b := by
      rintro rfl
      rw [hf] at hu
      exact absurd hu (by simp)
    exact h.tags c (((hact c).mp hc).resolve_left hcb) hu

theorem pushFree_kept (off : Nat) : Kept a (pushFree a off k) := ⟨rfl, rfl, rfl, rfl, rfl, rfl⟩

/-! ## pop -/

/-- the loop drops what is not on the list -/
theorem popLoop_nil {S : List Nat} (hS : ∀ x ∈ S, ¬ isFreeAt a x k = true) :
    popLoop a k S = (none, []) := by
  induction S with
  | nil => rfl
  | cons y S ih =>
    unfold popLoop
    rw [if_neg (hS y List.mem_cons_self)]
    exact ih fun x hx => hS x (List.mem_cons_of_mem _ hx)

/-- and stops at the first entry that is -/
theorem popLoop_cons {S L t : List Nat} (hS : ∀ x ∈ S, isFreeAt a x k = true ↔ x ∈ L)
    (hL : S.filter (fun x => decide (x ∈ L)) = x :: t) :
    ∃ rest, popLoop a k S = (some x, rest) ∧ rest.filter (fun x => decide (x ∈ L)) = t
      ∧ ∀ y ∈ rest, y ∈ S := by
  induction S with
  | nil => exact absurd hL (by simp)
  | cons y S ih =>
    unfold popLoop
    by_cases hy : y ∈ L
    · rw [if_pos ((hS y List.mem_cons_self).mpr hy)]
      rw [List.filter_cons_of_pos (by simpa using hy)] at hL
      obtain ⟨rfl, ht⟩ := List.cons.inj hL
      exact ⟨S, rfl, ht, fun z hz => List.mem_cons_of_mem _ hz⟩
    · rw [if_neg fun e => hy ((hS y List.mem_cons_self).mp e)]
      rw [List.filter_cons_of_neg (by simpa using hy)] at hL
      obtain ⟨rest, e1, e2, e3⟩ := ih (fun z hz => hS z (List.mem_cons_of_mem _ hz)) hL
      exact ⟨rest, e1, e2, fun z hz => List.mem_cons_of_mem _ (e3 z hz)⟩

theorem RInv.stack_iff (h : RInv a bs act lists []) (hx : x ∈ a.freeLists k) :
    isFreeAt a x k = true ↔ x ∈ lists k :=
  isFreeAt_iff h (h.aligned k x hx)

/-- popping from a stack without a current entry empties it -/
theorem RInv.pop_none (h : RInv a bs bs lists []) (hl : lists k = []) :
    popFree a k = (none, { a with freeLists := update a.freeLists k [] })
      ∧ RInv { a with freeLists := update a.freeLists k [] } bs bs lists [] := by
  have hpop : popLoop a k (a.freeLists k) = (none, []) := by
    refine popLoop_nil fun x hx hf => ?_
    have := (h.stack_iff hx).mp hf
    rw [hl] at this
    exact absurd this (by simp)
  have hsub : ∀ j, ∀ x ∈ update a.freeLists k [] j, x ∈ a.freeLists j := by
    intro j x hx
    by_cases e : j = k
    · rw [e, update_self] at hx
      exact absurd hx (by simp)
    · rwa [update_of_ne e] at hx
  refine ⟨by unfold popFree; rw [hpop], h.geo.congr rfl rfl rfl, h.sys, h.entry, h.quiet, ?_,
    fun j x hx => h.stale j x (hsub j x hx), fun j x hx => h.aligned j x (hsub j x hx), h.tags⟩
  intro j
  show (update a.freeLists k [] j).filter _ = _
  by_cases e : j = k
  · rw [e, update_self, hl]
    rfl
  · rw [update_of_ne e]
    exact h.live j

/-- **Popping** from another stack gives the head of the list. -/
theorem RInv.pop_some {hx : 2 ^ o ∣ x} {t : List Nat}
    (h : RInv a (l₁ ++ ⟨x, o, false, hx⟩ :: l₂) (l₁ ++ ⟨x, o, false, hx⟩ :: l₂) lists [])
    (hl : lists o = x :: t) :
    ∃ rest, popFree a o = (some x, { a with freeLists := update a.freeLists o rest })
      ∧ RInv { a with freeLists := update a.freeLists o rest } (l₁ ++ ⟨x, o, false, hx⟩ :: l₂)
        (l₁ ++ l₂)
        (update lists o t) [x >>> a.minOrder] := by
  have hbm : (⟨x, o, false, hx⟩ : Block) ∈ l₁ ++ ⟨x, o, false, hx⟩ :: l₂ := by simp
  have hlive := h.live o
  rw [hl] at hlive
  obtain ⟨rest, hpop, hrest, hsub⟩ := popLoop_cons (a := a) (k := o) (S := a.freeLists o)
    (L := x :: t) (fun y hy => by rw [h.stack_iff hy, hl]) hlive
  have hnd := h.sys.nodup o
  rw [hl] at hnd
  have hxt := (List.nodup_cons.mp hnd).1
  have hxr : x ∉ rest := by
    intro hm
    refine hxt ?_
    rw [← hrest]
    exact List.mem_filter.mpr ⟨hm, by simp⟩
  have hrest' : rest.filter (fun y => decide (y ∈ t)) = t := by
    rw [← hrest]
    refine List.filter_congr fun y hy => ?_
    have hne : y ≠ x := fun e => hxr (e ▸ hy)
    rw [hrest]
    simp [hne]
  have hsub' : ∀ j, ∀ y ∈ update a.freeLists o rest j, y ∈ a.freeLists j := by
    intro j y hy
    by_cases e : j = o
    · rw [e, update_self] at hy
      rw [e]
      exact hsub y hy
    · rwa [update_of_ne e] at hy
  have hout : (⟨x, o, false, hx⟩ : Block) ∉ l₁ ++ l₂ := fun hm => h.sys.ne_middle hm rfl
  have hsys := h.sys.unlink rfl hout
  have her : update lists o ((lists o).erase x) = update lists o t := by
    rw [hl, List.erase_cons_head]
  refine ⟨rest, by unfold popFree; rw [hpop], h.geo.congr rfl rfl rfl, her ▸ hsys,
    fun c hc => h.entry c (mem_middle_of_mem hc), ?_, ?_, ?_,
    fun j y hy => h.aligned j y (hsub' j y hy), fun c hc => h.tags c (mem_middle_of_mem hc)⟩
  · intro s hs hno
    refine h.quiet s (by simp) fun c hc => ?_
    rcases mem_middle_iff.mp hc with rfl | hc
    · exact fun e => hs (by simpa using e.symm)
    · exact hno c hc
  · intro j
    show (update a.freeLists o rest j).filter _ = _
    by_cases e : j = o
    · subst e
      rw [update_self, update_self]
      exact hrest'
    · rw [update_of_ne e, update_of_ne e]
      exact h.live j
  · intro j y hy hno
    refine h.stale j y (hsub' j y hy) fun hm => ?_
    by_cases e : j = o
    · subst e
      rw [update_self] at hno
      rw [hl] at hm
      have hyr : y ∈ rest := by
        have hy' : y ∈ update a.freeLists j rest j := hy
        rwa [update_self] at hy'
      rcases List.mem_cons.mp hm with rfl | hm
      · exact hxr hyr
      · exact hno hm
    · rw [update_of_ne e] at hno
      exact hno hm

/-! ## the scan -/

/-- over empty lists the scan fails, and empties the stacks -/
theorem scan_fail (h : RInv a bs bs lists []) (fuel : Nat)
    (he : ∀ j, o ≤ j → j ≤ a.maxOrder → lists j = []) :
    ∃ a', scan fuel a o = (none, a') ∧ RInv a' bs bs lists [] ∧ Kept a a' := by
  induction fuel generalizing a o with
  | zero => exact ⟨a, rfl, h, Kept.refl⟩
  | succ fuel ih =>
    unfold scan
    by_cases ho : o > a.maxOrder
    · rw [if_pos ho]
      exact ⟨a, rfl, h, Kept.refl⟩
    · obtain ⟨hp, hinv⟩ := h.pop_none (he o le_rfl (by omega))
      rw [if_neg ho, hp]
      obtain ⟨a', e1, e2, e3⟩ := ih (o := o + 1) hinv fun j h1 h2 => he j (by omega) h2
      exact ⟨a', e1, e2, (restack_kept _).trans e3⟩

/-- **The scan** finds the head of the first nonempty list; the stacks it passed are empty. -/
theorem scan_some {hx : 2 ^ (k + d) ∣ x} {t : List Nat} (fuel : Nat)
    (h : RInv a (l₁ ++ ⟨x, k + d, false, hx⟩ :: l₂) (l₁ ++ ⟨x, k + d, false, hx⟩ :: l₂) lists [])
    (hl : lists (k + d) = x :: t) (hle : k + d ≤ a.maxOrder)
    (he : ∀ j, k ≤ j → j < k + d → lists j = []) (ho : k ≤ o ∧ o ≤ k + d) (hf : k + d < fuel + o)
    (hempty : ∀ j, k ≤ j → j < o → a.freeLists j = []) :
    ∃ a', scan fuel a o = (some (x, k + d), a')
      ∧ RInv a' (l₁ ++ ⟨x, k + d, false, hx⟩ :: l₂) (l₁ ++ l₂) (update lists (k + d) t)
        [x >>> a.minOrder]
      ∧ (∀ j, k ≤ j → j < k + d → a'.freeLists j = []) ∧ Kept a a' := by
  induction fuel generalizing a o with
  | zero => omega
  | succ fuel ih =>
    unfold scan
    rw [if_neg (by omega)]
    by_cases e : o = k + d
    · subst e
      obtain ⟨rest, hp, hinv⟩ := h.pop_some hl
      rw [hp]
      refine ⟨_, rfl, hinv, fun j h1 h2 => ?_, restack_kept _⟩
      show update a.freeLists (k + d) rest j = []
      rw [update_of_ne (by omega)]
      exact hempty j h1 h2
    · obtain ⟨hp, hinv⟩ := h.pop_none (he o ho.1 (by omega))
      rw [hp]
      obtain ⟨a', e1, e2, e3, e4⟩ :=
        ih (o := o + 1) hinv hle (by omega) (by omega) fun j h1 h2 => by
        show update a.freeLists o [] j = []
        by_cases e' : j = o
        · rw [e', update_self]
        · rw [update_of_ne e']
          exact hempty j h1 (by omega)
      exact ⟨a', e1, e2, e3, (restack_kept _).trans e4⟩

/-! ## splitting and marking -/

/-- splitting the block in hand keeps what is covered, if no entry has the order of the halves -/
theorem Covered.split {u : Bool} {hx : 2 ^ (j + 1) ∣ x} {y : Nat} (hne : k ≠ j)
    (h : Covered (l₁ ++ ⟨x, j + 1, u, hx⟩ :: l₂) k y) :
    Covered (l₁ ++ ⟨x, j, u, dvd_of_dvd_succ hx⟩ :: upperBlock x j hx :: l₂) k y := by
  obtain ⟨c, hc, hk, h1, h2⟩ := h
  rcases mem_middle_iff.mp hc with rfl | hc
  · have hk' : k < j + 1 := hk
    have h1' : x ≤ y := h1
    have h2' : y < x + 2 ^ (j + 1) := h2
    rw [pow_succ] at h2'
    by_cases hy : y < x + 2 ^ j
    · exact ⟨⟨x, j, u, dvd_of_dvd_succ hx⟩, by simp, by show k < j; omega, h1, hy⟩
    · refine ⟨upperBlock x j hx, by simp, by show k < j; omega, by show x + 2 ^ j ≤ y; omega, ?_⟩
      show y < x + 2 ^ j + 2 ^ j
      omega
  · exact ⟨c, mem_middle_of_mem (mem_middle_of_mem hc), hk, h1, h2⟩

theorem RInv.splitLoop {u : Bool} {hx : 2 ^ (k + d) ∣ x}
    (h : RInv a (l₁ ++ ⟨x, k + d, u, hx⟩ :: l₂) (l₁ ++ l₂) lists ex)
    (hk : floorOrder a.minOrder ≤ k) (hempty : ∀ j, k ≤ j → j < k + d → a.freeLists j = []) :
    RInv (splitLoop x k d a)
        (l₁ ++ ⟨x, k, u, (pow_dvd_pow 2 (Nat.le_add_right k d)).trans hx⟩ :: splitBlocks x
          k d hx l₂)
        (l₁ ++ splitBlocks x k d hx l₂) (splitLists x k d lists) ex
      ∧ Kept a (splitLoop x k d a) := by
  induction d generalizing a l₂ lists with
  | zero => exact ⟨h, Kept.refl⟩
  | succ d ih =>
    have hs : BInv (floorOrder a.minOrder) a.maxOrder
        (l₁ ++ ⟨x, k + d, u, dvd_of_dvd_succ hx⟩ :: upperBlock x (k + d) hx :: l₂)
        (l₁ ++ upperBlock x (k + d) hx :: l₂)
        (update lists (k + d) ((x + 2 ^ (k + d)) :: lists (k + d))) :=
      BInv.split h.sys h.geo.max_lt (by omega)
    have hz := hempty (k + d) (by omega) (by omega)
    have hp := h.pushFree (b := upperBlock x (k + d) hx) hs rfl (fun c => mem_middle_iff)
      (upperBlock_notMem h.sys) (by show _ ∉ a.freeLists (k + d); rw [hz]; simp)
      fun j y hy hc => Covered.split (fun e => by rw [e, hz] at hy; exact absurd hy (by simp)) hc
    obtain ⟨i1, i2⟩ := ih hp hk fun j h1 h2 => by
      show update a.freeLists (k + d) _ j = []
      rw [update_of_ne (by omega)]
      exact hempty j h1 (by omega)
    exact ⟨i1, (pushFree_kept _).trans i2⟩

/-- **The block in hand is marked used and gets its tag.** -/
theorem RInv.mark (a' : Inner)
    (h : RInv a (l₁ ++ b :: l₂) (l₁ ++ l₂) lists [b.off >>> a.minOrder]) (hu : b.used = true)
    (hbase : a'.base = a.base) (hcap : a'.capacity = a.capacity) (hmin : a'.minOrder = a.minOrder)
    (hmax : a'.maxOrder = a.maxOrder) (hlists : a'.freeLists = a.freeLists)
    (hmap : a'.orderMap = update a.orderMap (b.off >>> a.minOrder)
      (b.order % 256 ||| USED ||| VALID))
    (hheap : a'.heap = a.heap.store64 (a.base + b.off) b.order) :
    RInv a' (l₁ ++ b :: l₂) (l₁ ++ b :: l₂) lists [] := by
  have hbm : b ∈ l₁ ++ b :: l₂ := by simp
  have hfl := floorOrder_ge a.minOrder
  have hmx := h.geo.max_lt
  have hbo := (h.sys.orders b hbm).2
  refine ⟨h.geo.congr hbase hcap hmax, ?_, ?_, ?_, ?_, ?_, ?_, ?_⟩
  · rw [hmin, hmax]
    exact h.sys.put_used hu
  · intro c hc
    rw [hmap, hmin]
    rcases mem_middle_iff.mp hc with rfl | hc'
    · rw [update_self, encUsed_eq _ (by omega)]
      unfold Block.enc
      rw [hu]
      rfl
    · rw [update_of_ne fun he => h.sys.ne_middle hc' (h.sys.slot_inj hfl.1 hc hbm he)]
      exact h.entry c hc'
  · intro s _ hno
    rw [hmin] at hno
    have hsb := hno b hbm
    rw [hmap, update_of_ne hsb.symm]
    exact h.quiet s (by simpa using hsb.symm) fun c hc => hno c (mem_middle_of_mem hc)
  · intro k
    rw [hlists]
    exact h.live k
  · intro k y hy
    rw [hlists] at hy
    exact h.stale k y hy
  · intro k y hy
    rw [hlists] at hy
    rw [hmin]
    exact h.aligned k y hy
  · intro c hc hcu
    rw [hheap, hbase]
    rcases mem_middle_iff.mp hc with rfl | hc'
    · exact Mem.load64_store64_same (by omega)
    · have hpc := h.sys.place hfl.2 hc
      have hpb := h.sys.place hfl.2 hbm
      have hap := h.sys.apart hc hbm (h.sys.ne_middle hc')
      rw [Mem.load64_store64_of_disjoint (by omega)]
      exact h.tags c hc' hcu

/-! ## requests -/

/-- no list from the order on has a block: the request fails -/
theorem allocate_fail {size align : Nat} (h : RInv a bs bs lists [])
    (hk : orderFor a (needFor size align) = k) (he : ∀ j, k ≤ j → j ≤ a.maxOrder → lists j = []) :
    ∃ a', allocate a size align = (none, a') ∧ RInv a' bs bs lists []
      ∧ Kept (countFailed (countAlloc a)) a' := by
  have h1 : RInv (countAlloc a) bs bs lists [] := h.restat _
  have hk' : orderFor (countAlloc a) (needFor size align) = k := hk
  unfold allocate
  dsimp only
  rw [hk']
  by_cases ho : k > (countAlloc a).maxOrder
  · rw [if_pos ho]
    exact ⟨_, rfl, h1.restat _, Kept.refl⟩
  · obtain ⟨a', e1, e2, e3⟩ := scan_fail h1 ((countAlloc a).maxOrder + 2) he
    rw [if_neg ho, e1]
    refine ⟨_, rfl, e2.restat _, e3.base, e3.capacity, e3.minOrder, e3.maxOrder, ?_, e3.heap⟩
    unfold countFailed
    dsimp only
    rw [e3.stats]

/-- **Carving a block** out of the head of the first nonempty list. -/
theorem allocate_carve {size align : Nat} {hx : 2 ^ (k + d) ∣ x} {t : List Nat}
    (h : RInv a (l₁ ++ ⟨x, k + d, false, hx⟩ :: l₂) (l₁ ++ ⟨x, k + d, false, hx⟩ :: l₂) lists [])
    (hk : orderFor a (needFor size align) = k) (hfl : floorOrder a.minOrder ≤ k)
    (hl : lists (k + d) = x :: t) (hle : k + d ≤ a.maxOrder)
    (he : ∀ j, k ≤ j → j < k + d → lists j = []) :
    ∃ a', allocate a size align = (some (a.base + x + 16), a')
      ∧ RInv a'
        (l₁ ++ ⟨x, k, true, (pow_dvd_pow 2 (Nat.le_add_right k d)).trans hx⟩ :: splitBlocks x
          k d hx l₂)
        (l₁ ++ ⟨x, k, true, (pow_dvd_pow 2 (Nat.le_add_right k d)).trans hx⟩ :: splitBlocks x
          k d hx l₂)
        (splitLists x k d (update lists (k + d) t)) []
      ∧ a'.base = a.base ∧ a'.minOrder = a.minOrder ∧ a'.maxOrder = a.maxOrder
      ∧ a'.stats = (chargeUsed (countAlloc a) (2 ^ k)).stats := by
  have h1 : RInv (countAlloc a) (l₁ ++ ⟨x, k + d, false, hx⟩ :: l₂)
    (l₁ ++ ⟨x, k + d, false, hx⟩ :: l₂) lists [] := h.restat _
  have hk' : orderFor (countAlloc a) (needFor size align) = k := hk
  have hmx : (countAlloc a).maxOrder = a.maxOrder := rfl
  obtain ⟨a₁, e1, hinv, hempty, hkept⟩ := scan_some ((countAlloc a).maxOrder + 2) h1 hl
    (by omega) he ⟨le_rfl, Nat.le_add_right k d⟩ (by omega) (fun j h1 h2 => by omega)
  obtain ⟨hs, hsk⟩ := hinv.splitLoop (by rw [hkept.minOrder]; exact hfl) hempty
  have hk2 := hkept.trans hsk
  unfold allocate carve
  dsimp only
  rw [hk', if_neg (by omega), e1]
  dsimp only
  rw [Nat.add_sub_cancel_left]
  generalize splitLoop x k d a₁ = a₂ at hs hsk hk2
  have hr : RInv a₂
      (l₁ ++ ⟨x, k, true, (pow_dvd_pow 2 (Nat.le_add_right k d)).trans hx⟩ :: splitBlocks x
        k d hx l₂)
      (l₁ ++ splitBlocks x k d hx l₂) (splitLists x k d (update lists (k + d) t))
      [x >>> (countAlloc a).minOrder] :=
    ⟨hs.geo, hs.sys.rehand rfl rfl, hs.entry, hs.quiet, hs.live,
      fun j y hy hno => (hs.stale j y hy hno).rehand rfl rfl, hs.aligned, hs.tags⟩
  rw [← hk2.minOrder] at hr
  have hb2 : a₂.base = a.base := hk2.base
  have hm := hr.mark { chargeUsed (markUsed a₂ x k) (2 ^ k) with
    heap := (chargeUsed (markUsed a₂ x k) (2 ^ k)).heap.store64 (a₂.base + x) k }
    rfl rfl rfl rfl rfl rfl rfl rfl
  refine ⟨_, Prod.ext ?_ rfl, hm, hk2.base, hk2.minOrder, hk2.maxOrder, ?_⟩
  · show some (a₂.base + x + 16) = some (a.base + x + 16)
    rw [hb2]
  · show (chargeUsed (markUsed a₂ x k) (2 ^ k)).stats = _
    unfold chargeUsed markUsed
    dsimp only
    rw [hk2.stats]

/-! ## giving a block back -/

/-- the state in which the loop of merges starts: the block is in hand -/
theorem RInv.hold (h : RInv a (l₁ ++ b :: l₂) (l₁ ++ b :: l₂) lists []) (hu : b.used = true)
    (n : Nat) :
    RInv (releaseUsed a n) (Mid.mk l₁ b.freed l₂ lists).blocks (Mid.mk l₁ b.freed l₂ lists).rest
      (Mid.mk l₁ b.freed l₂ lists).lists [] := by
  have hbm : b ∈ l₁ ++ b :: l₂ := by simp
  have hmx := h.geo.max_lt
  have hbo := (h.sys.orders b hbm).2
  refine ⟨h.geo.congr rfl rfl rfl, (h.sys.take hu).rehand rfl rfl,
    fun c hc => h.entry c (mem_middle_of_mem hc), ?_, h.live,
    fun k x hx hno => (h.stale k x hx hno).rehand rfl rfl, h.aligned,
    fun c hc => h.tags c (mem_middle_of_mem hc)⟩
  intro s _ hno
  by_cases e : b.off >>> a.minOrder = s
  · -- the byte of the block itself still reads "used"
    have hent : (releaseUsed a n).orderMap s = b.enc := e ▸ h.entry b hbm
    rw [hent, freeCode_enc b (by omega), hu]
    simp
  · refine h.quiet s (by simp) fun c hc => ?_
    rcases mem_middle_iff.mp hc with rfl | hc
    · exact e
    · exact hno c hc

/-- a larger block in hand covers what it took in -/
theorem Covered.mergeStep {s : Mid} {mn mx y : Nat} (h : BInv mn mx s.blocks s.rest s.lists)
    (hmx : mx < 64) (hb : s.buddyFree mx) (hc : Covered s.blocks k y) :
    Covered s.mergeStep.blocks k y := by
  have hbm : s.hand ∈ s.blocks := by unfold Mid.blocks; simp
  have hjm : s.hand.joined ∈ s.mergeStep.blocks := by unfold Mid.blocks; simp [Mid.mergeStep]
  obtain ⟨c, r₁, r₂, hcf, hco, hcoff, hrest, hrest', -⟩ := h.mergeStep_rest hmx hb
  have hlt := hb.1
  have hjs : s.hand.joined.size = s.hand.size + s.hand.size := by
    show 2 ^ (s.hand.order + 1) = 2 ^ s.hand.order + 2 ^ s.hand.order
    rw [pow_succ]
    omega
  have hsz : s.hand.size = 2 ^ s.hand.order := rfl
  have hcs : c.size = s.hand.size := by unfold Block.size; rw [hco]
  have hj := s.hand.joined_cases (by omega) (h.off_lt hmx hbm)
  rw [← hcoff] at hj
  obtain ⟨e, he, hk, h1, h2⟩ := hc
  have hcase : e = s.hand ∨ e = c ∨ e ∈ r₁ ++ r₂ := by
    rcases mem_middle_iff.mp he with e1 | e1
    · exact Or.inl e1
    · have e2 : e ∈ s.rest := e1
      rw [hrest] at e2
      exact Or.inr (mem_middle_iff.mp e2)
  rcases hcase with rfl | rfl | he
  · exact ⟨_, hjm, by show k < s.hand.order + 1; omega, by omega, by omega⟩
  · exact ⟨_, hjm, by show k < s.hand.order + 1; omega, by omega, by omega⟩
  · rw [← hrest'] at he
    exact ⟨e, mem_middle_of_mem he, hk, h1, h2⟩

theorem Covered.mergeStep_buddy {s : Mid} {mn mx y : Nat} (h : BInv mn mx s.blocks s.rest s.lists)
    (hmx : mx < 64) (hb : s.buddyFree mx) (hy : y = buddy s.hand.off s.hand.order) :
    Covered s.mergeStep.blocks s.hand.order y := by
  have hbm : s.hand ∈ s.blocks := by unfold Mid.blocks; simp
  have hlt := hb.1
  have h0 := Nat.two_pow_pos s.hand.order
  have hjs : s.hand.joined.size = 2 ^ s.hand.order + 2 ^ s.hand.order := by
    show 2 ^ (s.hand.order + 1) = _
    rw [pow_succ]
    omega
  have hj := s.hand.joined_cases (by omega) (h.off_lt hmx hbm)
  have hmem : s.hand.joined ∈ s.mergeStep.blocks := by
    unfold Mid.blocks
    simp [Mid.mergeStep]
  exact ⟨s.hand.joined, hmem, Nat.lt_succ_self _, by omega, by omega⟩

/-- **One round of the loop**: the buddy's byte is cleared, its entry stays on the stack. -/
theorem RInv.mergeStep {s : Mid} (h : RInv a s.blocks s.rest s.lists [])
    (hb : s.buddyFree a.maxOrder) :
    RInv { a with orderMap := update a.orderMap (slot a (buddy s.hand.off s.hand.order)) 0 }
      s.mergeStep.blocks s.mergeStep.rest s.mergeStep.lists [] := by
  have hmx := h.geo.max_lt
  have hfl := floorOrder_ge a.minOrder
  obtain ⟨c, r₁, r₂, hcf, hco, hcoff, hrest, hrest', hout⟩ := h.sys.mergeStep_rest hmx hb
  have hca : c ∈ s.rest := by rw [hrest]; simp
  have hcb := h.sys.sub c hca
  have hsub : ∀ e ∈ s.mergeStep.rest, e ∈ s.rest := fun e he => by
    rw [hrest'] at he
    rw [hrest]
    exact mem_middle_of_mem he
  have hjm : s.hand.joined ∈ s.mergeStep.blocks := by unfold Mid.blocks; simp [Mid.mergeStep]
  rw [← hcoff]
  refine ⟨h.geo.congr rfl rfl rfl, (h.sys.mergeStep hmx hb).1, ?_, ?_, ?_, ?_, h.aligned,
    fun e he => h.tags e (hsub e he)⟩
  · intro e he
    have hne : e ≠ c := by
      rintro rfl
      rw [hrest'] at he
      exact hout he
    show update a.orderMap (c.off >>> a.minOrder) 0 (e.off >>> a.minOrder) = e.enc
    rw [update_of_ne fun eq => hne (h.sys.slot_inj hfl.1 (h.sys.sub e (hsub e he)) hcb eq)]
    exact h.entry e (hsub e he)
  · intro sl _ hno
    show ¬ FreeCode (update a.orderMap (c.off >>> a.minOrder) 0 sl)
    by_cases e : sl = c.off >>> a.minOrder
    · rw [e, update_self]
      exact not_freeCode_zero
    · rw [update_of_ne e]
      refine h.quiet sl (by simp) fun f hf => ?_
      rw [hrest] at hf
      rcases mem_middle_iff.mp hf with rfl | hf
      · exact fun eq => e eq.symm
      · exact hno f (by rw [hrest']; exact hf)
  · intro j
    show (a.freeLists j).filter (fun x => decide (x ∈ update s.lists s.hand.order _ j))
      = update s.lists s.hand.order _ j
    by_cases e : j = s.hand.order
    · subst e
      have hnd := h.sys.nodup s.hand.order
      rw [update_self, hnd.erase_eq_filter]
      conv_rhs => rw [← h.live s.hand.order, List.filter_filter]
      refine List.filter_congr fun x _ => ?_
      by_cases h1 : x ∈ s.lists s.hand.order
      · by_cases h2 : x = buddy s.hand.off s.hand.order <;> simp [h1, h2]
      · simp [h1]
    · rw [update_of_ne e]
      exact h.live j
  · intro j x hx hno
    by_cases hm : x ∈ s.lists j
    · -- the entry of the buddy has just become stale
      have hnot : x ∉ update s.lists s.hand.order ((s.lists s.hand.order).erase
        (buddy s.hand.off s.hand.order)) j := hno
      have ej : j = s.hand.order := by
        by_contra hne
        rw [update_of_ne hne] at hnot
        exact hnot hm
      subst ej
      rw [update_self, (h.sys.nodup _).mem_erase_iff] at hnot
      have ex : x = c.off := by
        rw [hcoff]
        by_contra hne
        exact hnot ⟨hne, hm⟩
      refine Covered.mergeStep_buddy h.sys hmx hb ?_
      rw [ex, hcoff]
    · exact Covered.mergeStep h.sys hmx hb (h.stale j x hx hm)

theorem mergeLoop_spec {s : Mid} (h : RInv a s.blocks s.rest s.lists []) (fuel : Nat) :
    ∃ a', mergeLoop fuel a s.hand.off s.hand.order
        = (a', (s.mergeUp a.maxOrder fuel).hand.off, (s.mergeUp a.maxOrder fuel).hand.order)
      ∧ RInv a' (s.mergeUp a.maxOrder fuel).blocks (s.mergeUp a.maxOrder fuel).rest
        (s.mergeUp a.maxOrder fuel).lists []
      ∧ Kept a a' := by
  induction fuel generalizing a s with
  | zero => exact ⟨a, rfl, h, Kept.refl⟩
  | succ fuel ih =>
    have hmx := h.geo.max_lt
    have hbm : s.hand ∈ s.blocks := by unfold Mid.blocks; simp
    have hfl := floorOrder_ge a.minOrder
    unfold mergeLoop Mid.mergeUp
    dsimp only
    by_cases hlt : s.hand.order < a.maxOrder
    · have hbud : 2 ^ a.minOrder ∣ buddy s.hand.off s.hand.order :=
        (pow_dvd_pow 2 (hfl.1.trans (h.sys.orders s.hand hbm).1)).trans (buddy_dvd s.hand.dvd)
      rw [if_pos hlt]
      by_cases hb : s.buddyFree a.maxOrder
      · rw [if_pos ((isFreeAt_iff h hbud).mpr hb.2), if_pos hb]
        obtain ⟨a', e, hinv, hkept⟩ := ih (h.mergeStep hb)
        have hoff : s.mergeStep.hand.off = parent s.hand.off s.hand.order :=
          s.hand.joined_parent (by omega) (h.sys.off_lt hmx hbm)
        rw [hoff] at e
        exact ⟨a', e, hinv, (remap_kept _).trans hkept⟩
      · rw [if_neg (fun e => hb ⟨hlt, (isFreeAt_iff h hbud).mp e⟩), if_neg hb]
        exact ⟨a, rfl, h, Kept.refl⟩
    · rw [if_neg hlt, if_neg (fun hb => hlt hb.1)]
      exact ⟨a, rfl, h, Kept.refl⟩

/-- **A used block is given back.** -/
theorem deallocate_spec (h : RInv a (l₁ ++ b :: l₂) (l₁ ++ b :: l₂) lists []) (hu : b.used = true) :
    ∃ a', deallocate a (a.base + b.off + 16) = some a'
      ∧ RInv a' (releaseMid a.maxOrder l₁ b l₂ lists).blocks
        (releaseMid a.maxOrder l₁ b l₂ lists).blocks (releaseMid a.maxOrder l₁ b l₂ lists).put []
      ∧ Kept (releaseUsed a b.size) a' := by
  have hbm : b ∈ l₁ ++ b :: l₂ := by simp
  have hfl := floorOrder_ge a.minOrder
  have hbo := h.sys.orders b hbm
  have hmx := h.geo.max_lt
  have hbound := h.geo.bound
  have hpl := h.sys.place hfl.2 hbm
  have hp1 : wsub (a.base + b.off + 16) BD_HDR = a.base + b.off := by
    rw [wsub_of_le (by unfold BD_HDR; omega) (by omega)]
    unfold BD_HDR
    omega
  have hp2 : wsub (a.base + b.off) a.base = b.off := by
    rw [wsub_of_le (by omega) (by omega)]
    omega
  have htag : tagOf a (a.base + b.off) = b.order := by
    unfold tagOf
    rw [h.tags b hbm hu]
    exact Nat.mod_eq_of_lt (by omega)
  obtain ⟨a₁, e, hinv, hkept⟩ := mergeLoop_spec (h.hold hu b.size) (a.maxOrder - b.order)
  have hmid : Mid.mergeUp a.maxOrder (a.maxOrder - b.order) ⟨l₁, b.freed, l₂, lists⟩
    = releaseMid a.maxOrder l₁ b l₂ lists := rfl
  rw [show (releaseUsed a b.size).maxOrder = a.maxOrder from rfl, hmid] at e hinv
  have hmx1 : a₁.maxOrder = a.maxOrder := hkept.maxOrder
  generalize hR : releaseMid a.maxOrder l₁ b l₂ lists = R at e hinv
  have hRu : R.hand.used = false := hR ▸ releaseMid_used
  have hRd : ¬ R.buddyFree a₁.maxOrder := by
    rw [hmx1]
    exact hR ▸ releaseMid_done
  have hRm : R.hand ∈ R.blocks := by unfold Mid.blocks; simp
  have hput := hinv.sys.put_merged hRu hRd
  -- an entry of the same order at the same place would be current or lie in a larger block
  have hnew : R.hand.off ∉ a₁.freeLists R.hand.order := by
    intro hm
    have hpos := R.hand.size_pos
    by_cases hl : R.hand.off ∈ R.lists R.hand.order
    · obtain ⟨c, hc, -, -, hco⟩ := (hinv.sys.mem _ _).mp hl
      exact hinv.sys.ne_middle hc (hinv.sys.off_inj (hinv.sys.sub c hc) hRm hco)
    · obtain ⟨c, hc, hlt, h1, h2⟩ := hinv.stale _ _ hm hl
      have hch : c = R.hand := hinv.sys.tiles.eq_of_mem hc hRm ⟨h1, h2⟩ ⟨le_rfl, by omega⟩
      rw [hch] at hlt
      omega
  have hp := hinv.pushFree hput hRu (fun c => mem_middle_iff)
    (fun hm => hinv.sys.ne_middle hm rfl) hnew (fun _ _ _ hc => hc)
  have hdone : deallocate a (a.base + b.off + 16)
      = some (RustBuddy.pushFree a₁ R.hand.off R.hand.order) := by
    unfold deallocate
    dsimp only
    have e' : mergeLoop (a.maxOrder - b.order) (releaseUsed a (2 ^ b.order)) b.off b.order
      = (a₁, R.hand.off, R.hand.order) := e
    rw [hp1, htag, hp2, if_pos ⟨hfl.1.trans hbo.1, hbo.2⟩, e']
  exact ⟨_, hdone, hp, hkept.trans (pushFree_kept _)⟩

end

end HeapForge.RustBuddy
