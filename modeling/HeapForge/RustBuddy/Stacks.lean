import HeapForge.Lib.Run
import HeapForge.RustBuddy.Equiv

/-!
# The stacks of the Rust buddy allocator stay small

Merging leaves the buddy's entry on its stack.  No request can add a second one: before it splits a
block it has scanned, and emptied, every stack that it pushes to.  Giving back a block adds an entry
that is not there yet, since an entry left over lies in a larger block.

* `StackOk`             no stack has an entry twice, and an entry is an aligned offset in the heap;
* `StackOk.allocate`    a request keeps that, whatever the map says;
* `StackOk.deallocate`  so does giving back a block of a buddy system;
* `stacks_bounded`      **what the stacks hold in every run in which blocks hold their tag;**
* `stack_twice`         a run in which they do not, and an entry is there twice.
-/

set_option linter.unusedSectionVars false
set_option linter.unusedVariables false

namespace HeapForge.RustBuddy
open Lib Function Buddy

structure StackOk (a : Inner) : Prop where
  nodup : ∀ k, (a.freeLists k).Nodup
  place : ∀ k, ∀ x ∈ a.freeLists k, 2 ^ k ∣ x ∧ x + 2 ^ k ≤ a.capacity

section
variable {a a' : Inner} {bs act : List Block} {lists : Nat → List Nat}
  {x k o d blk order size align : Nat}

/-! ## popping and pushing -/

theorem popLoop_suffix (a : Inner) (k : Nat) (S : List Nat) : (popLoop a k S).2 <:+ S := by
  induction S with
  | nil => exact List.suffix_refl []
  | cons y S ih =>
    unfold popLoop
    split
    · exact List.suffix_cons y S
    · exact ih.trans (List.suffix_cons y S)

theorem popLoop_empties {S : List Nat} (h : (popLoop a k S).1 = none) : (popLoop a k S).2 = [] := by
  induction S with
  | nil => rfl
  | cons y S ih =>
    unfold popLoop at h ⊢
    split at h
    · exact absurd h (by simp)
    · next hy =>
      rw [if_neg hy]
      exact ih h

theorem popLoop_current {S : List Nat} (h : (popLoop a k S).1 = some x) :
    x ∈ S ∧ isFreeAt a x k = true := by
  induction S with
  | nil => exact absurd h (by simp [popLoop])
  | cons y S ih =>
    unfold popLoop at h
    split at h
    · next hy =>
      obtain rfl : y = x := Option.some.inj h
      exact ⟨List.mem_cons_self, hy⟩
    · obtain ⟨h1, h2⟩ := ih h
      exact ⟨List.mem_cons_of_mem y h1, h2⟩

theorem StackOk.restat (h : StackOk a) (st : Stats) : StackOk { a with stats := st } :=
  ⟨h.nodup, h.place⟩

/-- a stack loses entries -/
theorem StackOk.cut (h : StackOk a) {S : List Nat} (hS : S <:+ a.freeLists k) :
    StackOk { a with freeLists := update a.freeLists k S } := by
  have hsub : ∀ j, update a.freeLists k S j <:+ a.freeLists j := by
    intro j
    by_cases e : j = k
    · rw [e, update_self]
      exact hS
    · have hj : update a.freeLists k S j = a.freeLists j := update_of_ne e S a.freeLists
      exact hj.symm ▸ List.suffix_refl _
  exact ⟨fun j => (h.nodup j).sublist (hsub j).sublist,
    fun j y hy => h.place j y ((hsub j).subset hy)⟩

theorem StackOk.popFree (h : StackOk a) (k : Nat) : StackOk (popFree a k).2 :=
  h.cut (popLoop_suffix a k _)

theorem StackOk.pushFree (h : StackOk a) (hnew : x ∉ a.freeLists k) (hd : 2 ^ k ∣ x)
    (hb : x + 2 ^ k ≤ a.capacity) : StackOk (pushFree a x k) := by
  constructor
  · intro j
    show (update a.freeLists k (x :: a.freeLists k) j).Nodup
    by_cases e : j = k
    · rw [e, update_self]
      exact List.nodup_cons.mpr ⟨hnew, h.nodup k⟩
    · rw [update_of_ne e]
      exact h.nodup j
  · intro j y hy
    have hy' : y ∈ update a.freeLists k (x :: a.freeLists k) j := hy
    by_cases e : j = k
    · rw [e, update_self] at hy'
      rw [e]
      rcases List.mem_cons.mp hy' with rfl | hy'
      · exact ⟨hd, hb⟩
      · exact h.place k y hy'
    · rw [update_of_ne e] at hy'
      exact h.place j y hy'

/-! ## requests -/

/-- **The scan empties the stacks it passes**, and what it finds is aligned. -/
theorem StackOk.scan (h : StackOk a) (fuel o : Nat)
    (hempty : ∀ j, k ≤ j → j < o → a.freeLists j = []) :
    StackOk (scan fuel a o).2 ∧ (scan fuel a o).2.capacity = a.capacity
      ∧ ∀ blk o', (scan fuel a o).1 = some (blk, o') →
      o ≤ o' ∧ 2 ^ o' ∣ blk ∧ blk + 2 ^ o' ≤ a.capacity
        ∧ ∀ j, k ≤ j → j < o' → (scan fuel a o).2.freeLists j = [] := by
  induction fuel generalizing a o with
  | zero => exact ⟨h, rfl, fun blk o' e => absurd e (by simp [RustBuddy.scan])⟩
  | succ fuel ih =>
    unfold RustBuddy.scan
    by_cases ho : o > a.maxOrder
    · rw [if_pos ho]
      exact ⟨h, rfl, fun blk o' e => absurd e (by simp)⟩
    · rw [if_neg ho]
      have hok := h.popFree o
      have hother : ∀ j, j ≠ o → (RustBuddy.popFree a o).2.freeLists j = a.freeLists j :=
        fun j hj => update_of_ne hj _ _
      cases hp : RustBuddy.popFree a o with
      | mk r a₁ =>
        have hfst : (popLoop a o (a.freeLists o)).1 = r := congrArg Prod.fst hp
        have hsnd : (RustBuddy.popFree a o).2 = a₁ := congrArg Prod.snd hp
        have hcap : a₁.capacity = a.capacity := by
          rw [← hsnd]
          rfl
        rw [hp] at hok hother
        cases r with
        | some off =>
          refine ⟨hok, hcap, fun blk o' e => ?_⟩
          obtain ⟨rfl, rfl⟩ := Prod.mk.inj (Option.some.inj e)
          obtain ⟨hd, hb⟩ := h.place o off (popLoop_current hfst).1
          refine ⟨le_rfl, hd, hb, fun j h1 h2 => ?_⟩
          exact (hother j (by omega)).trans (hempty j h1 h2)
        | none =>
          have hnil : a₁.freeLists o = [] := by
            rw [← hsnd]
            exact (update_self o _ a.freeLists).trans (popLoop_empties hfst)
          obtain ⟨h1, h2, h3⟩ := ih hok (o + 1) fun j hj1 hj2 => by
            by_cases e : j = o
            · rw [e, hnil]
            · exact (hother j e).trans (hempty j hj1 (by omega))
          refine ⟨h1, h2.trans hcap, fun blk o' e => ?_⟩
          obtain ⟨e1, e2, e3, e4⟩ := h3 blk o' e
          exact ⟨by omega, e2, hcap ▸ e3, e4⟩

theorem pushFree_freeLists_of_ne {j : Nat} (hj : j ≠ k) :
    (pushFree a x k).freeLists j = a.freeLists j :=
  update_of_ne hj _ _

/-- splitting pushes one entry to each of some empty stacks -/
theorem StackOk.splitLoop (h : StackOk a) (hd : 2 ^ (order + d) ∣ blk)
    (hb : blk + 2 ^ (order + d) ≤ a.capacity)
    (hempty : ∀ j, order ≤ j → j < order + d → a.freeLists j = []) :
    StackOk (splitLoop blk order d a) := by
  induction d generalizing a with
  | zero => exact h
  | succ d ih =>
    have hpow : 2 ^ (order + (d + 1)) = 2 ^ (order + d) + 2 ^ (order + d) := by
      rw [← Nat.add_assoc, pow_succ]
      omega
    have hd' : 2 ^ (order + d) ∣ blk := (pow_dvd_pow 2 (by omega)).trans hd
    have hz : a.freeLists (order + d) = [] := hempty _ (by omega) (by omega)
    have hpush : StackOk (RustBuddy.pushFree a (blk + 2 ^ (order + d)) (order + d)) := by
      apply h.pushFree
      · rw [hz]
        exact List.not_mem_nil
      · exact Nat.dvd_add hd' (dvd_refl _)
      · omega
    unfold RustBuddy.splitLoop
    apply ih hpush hd'
    · show blk + 2 ^ (order + d) ≤ a.capacity
      omega
    · intro j h1 h2
      rw [pushFree_freeLists_of_ne (by omega)]
      exact hempty j h1 (by omega)

/-- **A request keeps the stacks in order.** -/
theorem StackOk.allocate (h : StackOk a) (size align : Nat) :
    StackOk (allocate a size align).2 := by
  have h0 : StackOk (countAlloc a) := h.restat _
  unfold RustBuddy.allocate
  dsimp only
  split
  · exact h0.restat _
  · obtain ⟨h1, h2, h3⟩ := h0.scan ((countAlloc a).maxOrder + 2)
      (orderFor (countAlloc a) (needFor size align))
      (k := orderFor (countAlloc a) (needFor size align)) fun j h1 h2 => by omega
    cases hs : RustBuddy.scan ((countAlloc a).maxOrder + 2) (countAlloc a)
        (orderFor (countAlloc a) (needFor size align)) with
    | mk r a₁ =>
      rw [hs] at h1 h2 h3
      cases r with
      | none => exact h1.restat _
      | some p =>
        obtain ⟨blk, o'⟩ := p
        obtain ⟨e1, e2, e3, e4⟩ := h3 blk o' rfl
        generalize orderFor (countAlloc a) (needFor size align) = order at e1 e4
        obtain ⟨d, rfl⟩ : ∃ d, o' = order + d := ⟨o' - order, by omega⟩
        have hsplit : StackOk (RustBuddy.splitLoop blk order d a₁) :=
          h1.splitLoop e2 (by rw [h2]; exact e3) e4
        dsimp only [carve]
        rw [Nat.add_sub_cancel_left]
        exact ⟨hsplit.nodup, hsplit.place⟩

/-! ## giving a block back -/

theorem mergeLoop_kept (fuel : Nat) (a : Inner) (off order : Nat) :
    (mergeLoop fuel a off order).1.freeLists = a.freeLists
      ∧ (mergeLoop fuel a off order).1.capacity = a.capacity
      ∧ (mergeLoop fuel a off order).1.maxOrder = a.maxOrder
      ∧ (order ≤ a.maxOrder → (mergeLoop fuel a off order).2.2 ≤ a.maxOrder) := by
  induction fuel generalizing a off order with
  | zero => exact ⟨rfl, rfl, rfl, id⟩
  | succ fuel ih =>
    unfold mergeLoop
    split
    · next hlt =>
      dsimp only
      split
      · obtain ⟨h1, h2, h3, h4⟩ :=
          ih { a with orderMap := update a.orderMap (slot a (buddy off order)) 0 }
          (parent off order) (order + 1)
        exact ⟨h1, h2, h3, fun _ => h4 hlt⟩
      · exact ⟨rfl, rfl, rfl, id⟩
    · exact ⟨rfl, rfl, rfl, id⟩

/-- what was pushed last is on the list -/
theorem pushed_listed (h : RInv (pushFree a x k) bs act lists []) (hk : k < 64) : x ∈ lists k := by
  have hmem : x ∈ (pushFree a x k).freeLists k := by
    show x ∈ update a.freeLists k (x :: a.freeLists k) k
    rw [update_self]
    exact List.mem_cons_self
  obtain ⟨e1, e2, e3⟩ := encFree_decode k hk
  rw [← isFreeAt_iff h (h.aligned k x hmem)]
  have hbyte : (pushFree a x k).orderMap (slot (pushFree a x k) x) = encFree k := by
    show update a.orderMap (slot a x) (k % 256 ||| VALID) (slot a x) = encFree k
    rw [update_self, encFree_eq k hk]
  unfold isFreeAt
  rw [hbyte]
  simp [show encFree k &&& VALID ≠ 0 from e2, show encFree k &&& USED = 0 from e3,
    show encFree k &&& ORDER_MASK = k from e1]

/-- and was not on the stack before -/
theorem pushed_fresh (h : RInv (pushFree a x k) bs act lists []) (hk : k < 64) :
    x ∉ a.freeLists k := by
  have hx := pushed_listed h hk
  have hlive : (update a.freeLists k (x :: a.freeLists k) k).filter (fun y => decide (y ∈ lists k))
      = lists k :=
    h.live k
  have hnd := h.sys.nodup k
  rw [← hlive, update_self, List.filter_cons_of_pos (by simpa using hx)] at hnd
  intro hm
  exact (List.nodup_cons.mp hnd).1 (List.mem_filter.mpr ⟨hm, by simpa using hx⟩)

/-- **Giving back a block keeps the stacks in order.** -/
theorem StackOk.deallocate {ptr : Nat} (h : StackOk a) (hd : deallocate a ptr = some a')
    (hinv : RInv a' bs bs lists []) : StackOk a' := by
  unfold RustBuddy.deallocate at hd
  dsimp only at hd
  generalize tagOf a (wsub ptr BD_HDR) = order at hd
  generalize wsub (wsub ptr BD_HDR) a.base = off at hd
  split at hd
  · next hord =>
    have hrel : (releaseUsed a (2 ^ order)).freeLists = a.freeLists
        ∧ (releaseUsed a (2 ^ order)).capacity = a.capacity
        ∧ (releaseUsed a (2 ^ order)).maxOrder = a.maxOrder := ⟨rfl, rfl, rfl⟩
    obtain ⟨e1, e2, e3, e4⟩ :=
      mergeLoop_kept (a.maxOrder - order) (releaseUsed a (2 ^ order)) off order
    rw [hrel.1] at e1
    rw [hrel.2.1] at e2
    rw [hrel.2.2] at e3 e4
    have hle := e4 hord.2
    generalize mergeLoop (a.maxOrder - order) (releaseUsed a (2 ^ order)) off order
      = r at hd e1 e2 e3 hle
    obtain rfl := Option.some.inj hd
    have hmx : r.1.maxOrder < 64 := hinv.geo.max_lt
    have hk : r.2.2 < 64 := by
      rw [e3] at hmx
      exact lt_of_le_of_lt hle hmx
    have hr : StackOk r.1 := ⟨fun j => e1 ▸ h.nodup j, fun j y hy => e2 ▸ h.place j y (e1 ▸ hy)⟩
    -- the entry is that of a block
    obtain ⟨b, hb, -, hbo, hbx⟩ := (hinv.sys.mem _ _).mp (pushed_listed hinv hk)
    have hbound := hinv.sys.bounds hb
    have hcap : r.1.capacity = 2 ^ r.1.maxOrder := hinv.geo.cap
    apply hr.pushFree (pushed_fresh hinv hk)
    · rw [← hbo, ← hbx]
      exact b.dvd
    · rw [hcap, ← hbo, ← hbx]
      exact hbound
  · exact absurd hd (by simp)

/-- **So a stack has room in the heap.** -/
theorem StackOk.length_le (h : StackOk a) (k : Nat) :
    (a.freeLists k).length ≤ a.capacity >>> k := by
  have h0 := Nat.two_pow_pos k
  have hnd : ((a.freeLists k).map (· / 2 ^ k)).Nodup := by
    apply (h.nodup k).map_on
    intro x hx y hy e
    exact Nat.div_left_inj (h.place k x hx).1 (h.place k y hy).1 |>.mp e
  have hsub : (a.freeLists k).map (· / 2 ^ k) ⊆ List.range (a.capacity >>> k) := by
    intro q hq
    obtain ⟨x, hx, rfl⟩ := List.mem_map.mp hq
    obtain ⟨⟨q, rfl⟩, hb⟩ := h.place k x hx
    rw [List.mem_range, Nat.shiftRight_eq_div_pow]
    show 2 ^ k * q / 2 ^ k < a.capacity / 2 ^ k
    rw [Nat.mul_div_cancel_left q h0, Nat.lt_iff_add_one_le, Nat.le_div_iff_mul_le h0, Nat.add_mul,
      Nat.one_mul, Nat.mul_comm q]
    exact hb
  have hle := (List.subperm_of_subset hnd hsub).length_le
  rwa [List.length_map, List.length_range] at hle

end

/-! ## runs -/

/-- a live pointer and the order of its block -/
structure RLive where
  ptr : Nat
  order : Nat
  deriving DecidableEq

structure RSys where
  r : Inner
  live : List RLive

inductive RAct
  | alloc (size align : Nat)
  | free (ptr : Nat)
  | write (addr : Nat) (byte : BitVec 8)

inductive RStep (s : RSys) : RAct → RSys → Prop
  | refuse {size align : Nat} {r' : Inner} (h : allocate s.r size align = (none, r')) :
    RStep s (.alloc size align) ⟨r', s.live⟩
  | alloc {size align p : Nat} {r' : Inner} (h : allocate s.r size align = (some p, r')) :
    RStep s (.alloc size align) ⟨r', ⟨p, orderFor s.r (needFor size align)⟩ :: s.live⟩
  | free {e : RLive} {r' : Inner} (he : e ∈ s.live) (h : deallocate s.r e.ptr = some r') :
    RStep s (.free e.ptr) ⟨r', s.live.erase e⟩
  | write {e : RLive} {x : Nat} {v : BitVec 8} (he : e ∈ s.live) (h1 : e.ptr ≤ x)
    (h2 : x + 16 < e.ptr + 2 ^ e.order) : RStep s (.write x v) ⟨s.r.writeByte x v, s.live⟩

/-- the order computed for a request is that of a block with room for its tag -/
def HoldsTag (s : RSys) : RAct → Prop
  | .alloc size align => 4 ≤ orderFor s.r (needFor size align)
  | _ => True

/-- as it always is when the smallest block has room for a header -/
theorem HoldsTag.of_minOrder {s : RSys} (h : 4 ≤ s.r.minOrder) (act : RAct) : HoldsTag s act := by
  cases act with
  | alloc size align => exact h.trans (le_max_right _ _)
  | free ptr => trivial
  | write addr byte => trivial

def TaggedStep (s : RSys) (act : RAct) (s' : RSys) : Prop := RStep s act s' ∧ HoldsTag s act

/-- the block of a live pointer -/
def RLive.At (e : RLive) (base : Nat) (b : Block) : Prop :=
  b.used = true ∧ e.ptr = base + b.off + 16 ∧ e.order = b.order

structure StInv (s : RSys) (bs : List Block) (lists : Nat → List Nat) : Prop where
  inv : RInv s.r bs bs lists []
  ok : StackOk s.r
  live : ∀ e ∈ s.live, ∃ b ∈ bs, e.At s.r.base b
  nodup : (s.live.map RLive.ptr).Nodup

section
variable {s s' : RSys} {bs l₁ l₂ : List Block} {lists : Nat → List Nat} {e : RLive} {act : RAct}
  {size align p x k : Nat} {r' : Inner}

/-- such an order is possible -/
theorem floor_le_orderFor (h : 4 ≤ orderFor s.r (needFor size align)) :
    floorOrder s.r.minOrder ≤ orderFor s.r (needFor size align) :=
  max_le (le_max_right _ _) h

/-- **A request**: refused, or a block is carved that no live pointer has. -/
theorem StInv.alloc_cases (h : StInv s bs lists) (ht : HoldsTag s (.alloc size align)) :
    (∃ r', allocate s.r size align = (none, r') ∧ StInv ⟨r', s.live⟩ bs lists)
    ∨ ∃ p r' bs' lists', allocate s.r size align = (some p, r')
      ∧ StInv ⟨r', ⟨p, orderFor s.r (needFor size align)⟩ :: s.live⟩ bs' lists' := by
  have hok := h.ok.allocate size align
  have hfl := floor_le_orderFor ht
  generalize hk : orderFor s.r (needFor size align) = k at hfl ⊢
  rcases least_order lists s.r.maxOrder k with hempty | ⟨d, x, t, hle, hl, hmin⟩
  · left
    obtain ⟨r', e1, hr, hkept⟩ := allocate_fail h.inv hk hempty
    rw [e1] at hok
    refine ⟨r', e1, hr, hok, ?_, h.nodup⟩
    show ∀ e ∈ s.live, ∃ b ∈ bs, e.At r'.base b
    rw [hkept.base]
    exact h.live
  · right
    obtain ⟨hx, l₁, l₂, hbs⟩ := h.inv.sys.head_block hl
    have hr := h.inv
    rw [hbs] at hr
    obtain ⟨r', e1, hrinv, hbase, -⟩ := allocate_carve hr hk hfl hl hle hmin
    rw [e1] at hok
    refine ⟨_, r', _, _, e1, hrinv, hok, ?_, ?_⟩
    · intro e he
      show ∃ b ∈ _, e.At r'.base b
      rw [hbase]
      rcases List.mem_cons.mp he with rfl | he
      · exact ⟨_, List.mem_append_right _ List.mem_cons_self, rfl, rfl, rfl⟩
      · obtain ⟨b, hb, hat⟩ := h.live e he
        have hfil : (l₁ ++ splitBlocks x k d hx l₂).filter Block.used = bs.filter Block.used := by
          rw [splitBlocks_middle_used, hbs, filter_middle_free rfl]
        exact ⟨b, mem_middle_of_mem ((mem_iff_of_filter_used hfil hat.1).mpr hb), hat⟩
    · rw [List.map_cons, List.nodup_cons]
      refine ⟨fun hm => ?_, h.nodup⟩
      obtain ⟨e, he, hep⟩ := List.mem_map.mp hm
      obtain ⟨b, hb, hub, hp, -⟩ := h.live e he
      have hep' : e.ptr = s.r.base + x + 16 := hep
      -- the block carved from was free
      have hfree : b = ⟨x, k + d, false, hx⟩ :=
        h.inv.sys.off_inj hb (by rw [hbs]; simp) (by show b.off = x; omega)
      rw [hfree] at hub
      exact absurd hub (by simp)

theorem StInv.free_spec (h : StInv s bs lists) (he : e ∈ s.live)
    (hd : deallocate s.r e.ptr = some r') :
    ∃ bs' lists', StInv ⟨r', s.live.erase e⟩ bs' lists' := by
  obtain ⟨b, hb, hu, hp, ho⟩ := h.live e he
  obtain ⟨l₁, l₂, rfl⟩ := List.append_of_mem hb
  obtain ⟨r'', e2, hrinv, hrk⟩ := deallocate_spec h.inv hu
  rw [← hp, hd] at e2
  obtain rfl := Option.some.inj e2
  have hbase : r'.base = s.r.base := hrk.base
  refine ⟨_, _, hrinv, h.ok.deallocate hd hrinv, ?_, h.nodup.sublist (List.erase_sublist.map _)⟩
  intro e' he'
  have hne : e'.ptr ≠ e.ptr := key_ne_of_mem_erase h.nodup he he'
  obtain ⟨f, hf, hat⟩ := h.live e' (List.mem_of_mem_erase he')
  have hfb : f ≠ b := by
    rintro rfl
    exact hne (hat.2.1.trans hp.symm)
  refine ⟨f, h.inv.sys.released_mem h.inv.geo.max_lt hu hf hfb hat.1, ?_⟩
  show e'.At r'.base f
  rw [hbase]
  exact hat

theorem StInv.write (h : StInv s bs lists) (he : e ∈ s.live) (h1 : e.ptr ≤ x)
    (h2 : x + 16 < e.ptr + 2 ^ e.order) (v : BitVec 8) :
    StInv ⟨s.r.writeByte x v, s.live⟩ bs lists := by
  obtain ⟨b, hb, -, hp, ho⟩ := h.live e he
  have hin : x < s.r.base + b.off + b.size := by
    show x < s.r.base + b.off + 2 ^ b.order
    rw [← ho]
    omega
  exact ⟨h.inv.payload hb (hp ▸ h1) hin v, ⟨h.ok.nodup, h.ok.place⟩, h.live, h.nodup⟩

/-- **Every step whose block holds its tag keeps the invariant.** -/
theorem StInv.step (h : StInv s bs lists) (hs : TaggedStep s act s') :
    ∃ bs' lists', StInv s' bs' lists' := by
  obtain ⟨hs, ht⟩ := hs
  cases hs with
  | refuse ha =>
    rcases h.alloc_cases ht with ⟨r', e1, hinv⟩ | ⟨p, r', bs', lists', e1, -⟩
    · rw [ha] at e1
      obtain rfl := (Prod.mk.inj e1).2
      exact ⟨_, _, hinv⟩
    · rw [ha] at e1
      exact absurd (Prod.mk.inj e1).1 (by simp)
  | alloc ha =>
    rcases h.alloc_cases ht with ⟨r', e1, -⟩ | ⟨p, r', bs', lists', e1, hinv⟩
    · rw [ha] at e1
      exact absurd (Prod.mk.inj e1).1 (by simp)
    · rw [ha] at e1
      obtain ⟨hp, rfl⟩ := Prod.mk.inj e1
      obtain rfl := Option.some.inj hp
      exact ⟨_, _, hinv⟩
  | free he hd => exact h.free_spec he hd
  | write he h1 h2 => exact ⟨_, _, h.write he h1 h2 _⟩

theorem StInv.create {vm : Vm} {m : Mem} {capacity minBlock : Nat} {a : Inner}
    (hc : capacity < 2 ^ 64) (hm : minBlock < 2 ^ 64) (hnew : new vm m capacity minBlock = some a) :
    ∃ bs lists, StInv ⟨a, []⟩ bs lists := by
  obtain ⟨a₀, rfl, hg, hle, hl, ho, -⟩ := new_geo hc hm hnew
  have hsome : StackOk a₀ := by
    refine ⟨fun k => ?_, fun k x hx => ?_⟩
    · rw [hl k]
      exact List.nodup_nil
    · rw [hl k] at hx
      exact absurd hx List.not_mem_nil
  have hok : StackOk (RustBuddy.pushFree a₀ 0 a₀.maxOrder) := by
    apply hsome.pushFree
    · rw [hl]
      exact List.not_mem_nil
    · exact dvd_zero _
    · rw [hg.cap, Nat.zero_add]
  exact ⟨_, _, new_inv hg hle hl ho, hok, by simp, List.nodup_nil⟩

theorem StInv.of_run {s₀ : RSys} {acts : List RAct} (h : ∃ bs lists, StInv s₀ bs lists)
    (hrun : Steps TaggedStep s₀ acts s) : ∃ bs lists, StInv s bs lists := by
  refine hrun.invariant (I := fun s => ∃ bs lists, StInv s bs lists) h ?_
  intro s act s' hs hstep
  obtain ⟨bs, lists, hinv⟩ := hs
  exact hinv.step hstep

end

/-! ## the stacks against the walk -/

section
variable {s : RSys} {bs : List Block} {lists : Nat → List Nat} {x k : Nat}

/-- the free blocks of the walk stand in the lists -/
theorem StInv.mem_walk (h : StInv s bs lists) :
    (⟨x, 2 ^ k, true⟩ : BlockInfo) ∈ bs.map Block.info ↔ x ∈ lists k := by
  rw [h.inv.sys.mem, List.mem_map]
  refine exists_congr fun b => and_congr_right fun _ => ?_
  unfold Block.info Block.size
  rw [BlockInfo.mk.injEq, Bool.not_eq_true', Nat.pow_right_inj (le_refl 2)]
  tauto

theorem StInv.listed (h : StInv s bs lists) (hx : x ∈ lists k) : x ∈ s.r.freeLists k := by
  rw [← h.inv.live k] at hx
  exact (List.mem_filter.mp hx).1

/-- an entry that is out of date lies in a larger block -/
theorem StInv.stale_inside (h : StInv s bs lists) (hx : x ∈ s.r.freeLists k) (hno : x ∉ lists k) :
    ∃ b ∈ bs.map Block.info, 2 ^ k < b.size ∧ b.offset ≤ x ∧ x + 2 ^ k ≤ b.offset + b.size := by
  obtain ⟨b, hb, hlt, h1, h2⟩ := h.inv.stale k x hx hno
  have h0 := Nat.two_pow_pos k
  have hin := dyadic_nested (h.ok.place k x hx).1 b.dvd hlt.le (p := x) ⟨le_rfl, by omega⟩ ⟨h1, h2⟩
  exact ⟨b.info, List.mem_map_of_mem hb, Nat.pow_lt_pow_right (by decide) hlt, h1, hin.2⟩

theorem StInv.pop_free (h : StInv s bs lists) {r' : Inner} (hp : popFree s.r k = (some x, r')) :
    x ∈ lists k := by
  obtain ⟨hx, hf⟩ := popLoop_current (congrArg Prod.fst hp)
  exact (h.inv.stack_iff hx).mp hf

end

/-- **The stacks of the free blocks stay free of duplicates and bounded.**  In every run from a new
allocator, whatever users write into their payloads, if every block that is handed out has room for
its tag: a stack holds an offset once, it holds every free block of its order, its other entries
lie inside larger blocks, it is no longer than the blocks of its order are many, and what is popped
from it is free. -/
theorem stacks_bounded {vm : Vm} {m : Mem} {capacity minBlock : Nat} {a : Inner} {acts : List RAct}
    {s : RSys} (hc : capacity < 2 ^ 64) (hm : minBlock < 2 ^ 64)
    (hnew : new vm m capacity minBlock = some a) (hrun : Steps TaggedStep ⟨a, []⟩ acts s) :
    ∃ w, walk s.r = some w ∧ ∀ k, (s.r.freeLists k).Nodup
      ∧ (∀ x, ⟨x, 2 ^ k, true⟩ ∈ w → x ∈ s.r.freeLists k)
      ∧ (∀ x ∈ s.r.freeLists k, ⟨x, 2 ^ k, true⟩ ∉ w →
        ∃ b ∈ w, 2 ^ k < b.size ∧ b.offset ≤ x ∧ x + 2 ^ k ≤ b.offset + b.size)
      ∧ (s.r.freeLists k).length ≤ s.r.capacity >>> k
      ∧ ∀ x r', popFree s.r k = (some x, r') → ⟨x, 2 ^ k, true⟩ ∈ w := by
  obtain ⟨bs, lists, h⟩ := StInv.of_run (StInv.create hc hm hnew) hrun
  refine ⟨bs.map Block.info, walk_eq h.inv, fun k => ⟨h.ok.nodup k, ?_, ?_, h.ok.length_le k, ?_⟩⟩
  · intro x hx
    exact h.listed (h.mem_walk.mp hx)
  · intro x hx hno
    exact h.stale_inside hx fun hl => hno (h.mem_walk.mpr hl)
  · intro x r' hp
    exact h.mem_walk.mpr (h.pop_free hp)

theorem stacks_bounded_one_block :
    ∃ r p, allocate sampleInner 100 16 = (some p, r) ∧ ∀ k, (r.freeLists k).Nodup := by
  obtain ⟨p, r, e⟩ : ∃ p r, allocate sampleInner 100 16 = (some p, r) :=
    ⟨2 ^ 20 + 16, (allocate sampleInner 100 16).2, Prod.ext (by decide +kernel) rfl⟩
  have hs : TaggedStep ⟨sampleInner, []⟩ (.alloc 100 16) _ :=
    ⟨RStep.alloc e, HoldsTag.of_minOrder (by decide) _⟩
  obtain ⟨w, -, h⟩ := stacks_bounded (by omega) (by omega) sampleInner_new
    (Steps.snoc (Steps.nil _) hs)
  exact ⟨r, p, e, fun k => (h k).1⟩

/-! ## blocks smaller than their tag -/

/-- an action as it is computed; the users write nothing -/
def RSys.exec (s : RSys) : RAct → Option RSys
  | .alloc size align =>
    match allocate s.r size align with
    | (none, r') => some ⟨r', s.live⟩
    | (some p, r') => some ⟨r', ⟨p, orderFor s.r (needFor size align)⟩ :: s.live⟩
  | .free p => do
    let e ← s.live.find? (·.ptr = p)
    let r' ← deallocate s.r p
    some ⟨r', s.live.erase e⟩
  | .write _ _ => none

theorem RSys.exec_step (s : RSys) (act : RAct) (s' : RSys) (h : s.exec act = some s') :
    RStep s act s' := by
  cases act with
  | alloc size align =>
    unfold RSys.exec at h
    dsimp only at h
    split at h
    · next r' e =>
      obtain rfl := Option.some.inj h
      exact RStep.refuse e
    · next p r' e =>
      obtain rfl := Option.some.inj h
      exact RStep.alloc e
  | free p =>
    obtain ⟨e, he, h⟩ := Option.bind_eq_some_iff.mp h
    obtain ⟨r', hd, h⟩ := Option.bind_eq_some_iff.mp h
    obtain rfl := Option.some.inj h
    obtain rfl : e.ptr = p := by simpa using List.find?_some he
    exact RStep.free (List.mem_of_find?_eq_some he) hd
  | write x v => exact absurd h (by simp [RSys.exec])

/-- the smallest block size wraps to 0: blocks of one byte, whose tags overlap -/
def wrappedInner : Inner :=
  pushFree ⟨2 ^ 20, 4096, 0, 12, fun _ => [], fun _ => 0, Stats.fresh 4096, Mem.zero⟩ 0 12

theorem wrappedInner_new : new sampleVm Mem.zero 4096 (2 ^ 64 - 1) = some wrappedInner := by
  have h1 : nextPow2 (max (2 ^ 64 - 1) (BD_HDR + 16)) = 0 := by decide +kernel
  have h2 : nextPow2 (max (max 4096 0) sampleVm.pageSize) = 4096 := by decide +kernel
  have h3 : vmReserve sampleVm 4096 = 2 ^ 20 := by decide +kernel
  have h4 : log2Floor 0 = 0 := by decide +kernel
  have h5 : log2Floor 4096 = 12 := by decide +kernel
  unfold new
  dsimp only
  rw [h1, h2, h3, h4, h5, if_neg (by decide), if_pos (by decide)]
  rfl

/-- requests whose sizes wrap to 8, 1 and 2 bytes with the header, and frees: the tag of the block
at 2 overwrites that of the block at 8 -/
def wrappedCalls : List RAct :=
  [.alloc (2 ^ 64 - 8) 1, .alloc (2 ^ 64 - 15) 1, .alloc (2 ^ 64 - 15) 1, .free (2 ^ 20 + 16),
    .free (2 ^ 20 + 24), .free (2 ^ 20 + 25), .alloc (2 ^ 64 - 14) 1, .alloc (2 ^ 64 - 8) 1,
    .alloc (2 ^ 64 - 14) 1, .free (2 ^ 20 + 24)]

/-- **Where a block is smaller than its tag, a stack can hold an offset twice.** -/
theorem stack_twice :
    ∃ s, new sampleVm Mem.zero 4096 (2 ^ 64 - 1) = some wrappedInner
      ∧ Steps RStep ⟨wrappedInner, []⟩ wrappedCalls s ∧ s.r.freeLists 0 = [8, 8] := by
  have h : ((wrappedCalls.foldlM RSys.exec ⟨wrappedInner, []⟩).map fun s => s.r.freeLists 0)
      = some [8, 8] := by
    decide +kernel
  obtain ⟨s, hs, hl⟩ := Option.map_eq_some_iff.mp h
  exact ⟨s, wrappedInner_new, Steps.of_foldlM RSys.exec_step hs, hl⟩

end HeapForge.RustBuddy
