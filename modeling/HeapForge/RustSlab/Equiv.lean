import HeapForge.RustSlab.Impl
import HeapForge.Slab.Partition

/-!
# The magazine and the stack

One C slab allocator used by one thread and one Rust slab allocator of the same sizes get the same
requests.  The magazine followed by the central list is the Rust stack: a batch moves the border
between the two and changes nothing else.

* `slotOf`           the slab number and the slot index of a pointer;
* `Pair`, `PairStep` both allocators side by side;
* `Coupled`          stock and stack are the same slots in the same order;
* `slabs_agree`      **the two agree on every answer, the counters and the walk.**
-/

set_option linter.unusedSectionVars false
set_option linter.unusedVariables false

namespace HeapForge.RustSlab
open Lib Function Slab

/-! ## slots by number -/

/-- the slab that holds `p`, and the index of the slot in it -/
def slotOf (objSize slabBytes : Nat) : List Nat → Nat → Option (Nat × Nat)
  | [], _ => none
  | b :: slabs, p =>
    if b ≤ p ∧ p < b + slabBytes then some (0, (p - b) / objSize)
    else (slotOf objSize slabBytes slabs p).map fun q => (q.1 + 1, q.2)

/-- the address of slot `q.2` of slab `q.1` -/
def addr (s : Shape) (q : Nat × Nat) : Nat := s.slabs.getD q.1 0 + q.2 * s.objSize

/-- the slot numbers that exist -/
def InRange (s : Shape) (q : Nat × Nat) : Prop := q.1 < s.slabs.length ∧ q.2 < s.slotsPerSlab

/-- the slots of the next slab -/
def nextSlots (s : Shape) : List (Nat × Nat) :=
  (List.range s.slotsPerSlab).map fun i => (s.slabs.length, i)

section
variable {slabs : List Nat} {objSize slabBytes b : Nat} {q : Nat × Nat} {s : Shape}

theorem InRange.add (h : InRange s q) : InRange (s.add b) q := by
  refine ⟨?_, h.2⟩
  rw [Shape.add, List.length_append]
  exact Nat.lt_add_right _ h.1

theorem addr_add (h : InRange s q) : addr (s.add b) q = addr s q := by
  rw [addr, addr, Shape.add, List.getD_append _ _ _ _ h.1]

theorem addr_nextSlots : (nextSlots s).map (addr (s.add b)) = s.slots b := by
  rw [nextSlots, List.map_map]
  refine List.map_congr_left fun i _ => ?_
  simp [addr, Shape.add]

theorem nextSlots_inRange : ∀ q ∈ nextSlots s, InRange (s.add b) q := by
  intro q hq
  obtain ⟨i, hi, rfl⟩ := List.mem_map.mp hq
  refine ⟨?_, List.mem_range.mp hi⟩
  simp [Shape.add]

theorem slotOf_getD (hobj : 0 < objSize) (hq : q.1 < slabs.length) (hlt : q.2 * objSize < slabBytes)
    (hap : slabs.Pairwise fun b c => b + slabBytes ≤ c ∨ c + slabBytes ≤ b) :
    slotOf objSize slabBytes slabs (slabs.getD q.1 0 + q.2 * objSize) = some q := by
  obtain ⟨k, i⟩ := q
  dsimp only at hlt ⊢
  induction slabs generalizing k with
  | nil => exact absurd hq (Nat.not_lt_zero _)
  | cons b slabs ih =>
    obtain ⟨h1, h2⟩ := List.pairwise_cons.mp hap
    rw [slotOf]
    cases k with
    | zero =>
      rw [List.getD_cons_zero, if_pos (by omega), Nat.add_sub_cancel_left,
        Nat.mul_div_cancel _ hobj]
    | succ k =>
      have hk : k < slabs.length := Nat.lt_of_succ_lt_succ hq
      have hmem : slabs.getD k 0 ∈ slabs := by
        rw [List.getD_eq_getElem _ _ hk]
        exact List.getElem_mem hk
      have hb := h1 _ hmem
      rw [List.getD_cons_succ, if_neg (by omega), ih h2 k hk]
      rfl

theorem slotOf_addr (h : s.Ok) (hq : InRange s q) :
    slotOf s.objSize s.slabBytes s.slabs (addr s q) = some q := by
  refine slotOf_getD (Nat.lt_of_lt_of_le (by decide) h.obj_ge) hq.1 ?_ ?_
  · have := h.slot_le hq.2
    have := h.obj_ge
    omega
  · exact h.nodup.imp_of_mem fun hb hc hne => h.apart _ hb _ hc hne

theorem addr_isSlot (hq : InRange s q) : s.IsSlot (addr s q) := by
  refine ⟨s.slabs.getD q.1 0, ?_, q.2, hq.2, rfl⟩
  rw [List.getD_eq_getElem _ _ hq.1]
  exact List.getElem_mem hq.1

end

/-! ## the same slots on two sides -/

/-- the slots `l` of one side and `l'` of the other have the numbers `pos`, in this order -/
structure SameSlots (s s' : Shape) (l l' : List Nat) (pos : List (Nat × Nat)) : Prop where
  ok : s.Ok
  ok' : s'.Ok
  objSize : s'.objSize = s.objSize
  slabBytes : s'.slabBytes = s.slabBytes
  slots : s'.slotsPerSlab = s.slotsPerSlab
  count : s'.slabs.length = s.slabs.length
  range : ∀ q ∈ pos, InRange s q
  left : l = pos.map (addr s)
  right : l' = pos.map (addr s')

section
variable {s s' : Shape} {l l' : List Nat} {pos : List (Nat × Nat)} {q : Nat × Nat} {b b' x y : Nat}

theorem SameSlots.inRange (h : SameSlots s s' l l' pos) (hq : InRange s q) : InRange s' q :=
  ⟨by rw [h.count]; exact hq.1, by rw [h.slots]; exact hq.2⟩

theorem SameSlots.nil_iff (h : SameSlots s s' l l' pos) : l = [] ↔ l' = [] := by
  rw [h.left, h.right, List.map_eq_nil_iff, List.map_eq_nil_iff]

/-- no slot is at address 0 -/
theorem SameSlots.right_ne_zero (h : SameSlots s s' l l' pos) : ∀ x ∈ l', x ≠ 0 := by
  intro x hx
  rw [h.right] at hx
  obtain ⟨q, hq, rfl⟩ := List.mem_map.mp hx
  exact Nat.pos_iff_ne_zero.mp (h.ok'.slot_addr (addr_isSlot (h.inRange (h.range q hq)))).1

/-- both sides grow by a slab -/
theorem SameSlots.grow (h : SameSlots s s' l l' pos) (hok : (s.add b).Ok) (hok' : (s'.add b').Ok) :
    SameSlots (s.add b) (s'.add b') (s.slots b) (s'.slots b') (nextSlots s) where
  ok := hok
  ok' := hok'
  objSize := h.objSize
  slabBytes := h.slabBytes
  slots := h.slots
  count := by
    rw [Shape.add, Shape.add, List.length_append, List.length_append, h.count]
    rfl
  range := nextSlots_inRange
  left := addr_nextSlots.symm
  right := by
    rw [← addr_nextSlots (s := s'), nextSlots, nextSlots, h.slots, h.count]

theorem SameSlots.pop (h : SameSlots s s' (x :: l) (y :: l') pos) :
    ∃ q pos', InRange s q ∧ x = addr s q ∧ y = addr s' q ∧ SameSlots s s' l l' pos' := by
  cases hp : pos with
  | nil =>
    have := h.left
    rw [hp] at this
    exact absurd this (by simp)
  | cons q pos' =>
    have h1 := h.left
    have h2 := h.right
    rw [hp, List.map_cons, List.cons.injEq] at h1 h2
    exact ⟨q, pos', h.range q (hp ▸ List.mem_cons_self), h1.1, h2.1, { h with
      range := fun r hr => h.range r (hp ▸ List.mem_cons_of_mem _ hr)
      left := h1.2
      right := h2.2 }⟩

theorem SameSlots.push (h : SameSlots s s' l l' pos) (hq : InRange s q) :
    SameSlots s s' (addr s q :: l) (addr s' q :: l') (q :: pos) :=
  { h with
    range := List.forall_mem_cons.mpr ⟨hq, h.range⟩
    left := by rw [List.map_cons, ← h.left]
    right := by rw [List.map_cons, ← h.right] }

/-- two addresses of a slot have its number -/
theorem SameSlots.slotOf_eq (h : SameSlots s s' l l' pos) (hq : InRange s q) :
    slotOf s.objSize s.slabBytes s.slabs (addr s q) = some q
      ∧ slotOf s'.objSize s'.slabBytes s'.slabs (addr s' q) = some q :=
  ⟨slotOf_addr h.ok hq, slotOf_addr h.ok' (h.inRange hq)⟩

end

/-! ## what the Rust calls do -/

def Inner.shape (g : Inner) : Shape := ⟨g.objSize, g.slabBytes, g.slabBytes / g.objSize, g.slabs⟩

/-- the mapping is aligned and apart from the slabs in use -/
def FreshRegion (g : Inner) (region : Nat) : Prop :=
  Fresh (fun _ => some g.shape) region g.slabBytes

section
variable {g : Inner} {region size n base obj : Nat}

theorem pushLoop_eq (free : List Nat) (h : ∀ i < n, base + i * obj < 2 ^ 64) :
    pushLoop base obj n free = (List.range n).map (base + · * obj) ++ free := by
  induction n generalizing free with
  | zero => rfl
  | succ n ih =>
    have hn := h n (Nat.lt_succ_self n)
    rw [pushLoop, ih _ fun i hi => h i (Nat.lt_succ_of_lt hi), wmul_of_lt (by omega), wadd_of_lt hn,
      List.range_succ, List.map_append, List.append_assoc]
    rfl

theorem walkLoop_eq (slabBytes : Nat) (slabs : List Nat) (off remaining : Nat) :
    walkLoop slabBytes slabs off remaining
      = Slab.walkLoop slabBytes slabs.length off remaining := by
  induction slabs generalizing off remaining with
  | nil => rfl
  | cons b slabs ih =>
    have hmin : min remaining slabBytes = if remaining
        < slabBytes then remaining else slabBytes := by
      rw [Nat.min_def]
      split <;> split <;> omega
    rw [walkLoop, List.length_cons, Slab.walkLoop, ih, hmin]
    simp only [Nat.pos_iff_ne_zero, gt_iff_lt]

/-- the slots of the new slab are on top -/
theorem grow_eq (hok : g.shape.Ok) (hr : region ≠ 0) (hf : FreshRegion g region) :
    grow g region =
      { g with
        free := g.shape.slots region ++ g.free
        stats := { g.stats with capacity := wadd g.stats.capacity g.slabBytes }
        slabs := g.slabs ++ [region] } := by
  have hpush : pushLoop region g.objSize (g.slabBytes / g.objSize) g.free = _ := pushLoop_eq g.free
    fun i hi => by
      have h1 : i * g.objSize + g.objSize ≤ g.slabBytes := hok.slot_le hi
      have h2 := hf.base.2.2
      omega
  rw [grow, if_neg hr, hpush]
  rfl

/-- the state left by a call that took a slot off the stack and left `rest` on it -/
structure Popped (g : Inner) (region : Nat) (rest : List Nat) (g' : Inner) : Prop where
  objSize : g'.objSize = g.objSize
  slabBytes : g'.slabBytes = g.slabBytes
  slabs : g'.slabs = if g.free = [] then g.slabs ++ [region] else g.slabs
  free : g'.free = rest
  used : g'.stats.used = wadd g.stats.used g.objSize
  peakUsed : g'.stats.peakUsed = max g.stats.peakUsed (wadd g.stats.used g.objSize)
  capacity : g'.stats.capacity =
    if g.free = [] then wadd g.stats.capacity g.slabBytes else g.stats.capacity
  failedAllocs : g'.stats.failedAllocs = g.stats.failedAllocs

theorem allocate_large (hsize : g.objSize < size) :
    allocate g region size = (none, countFailed (countAlloc g)) := by
  rw [allocate]
  exact if_pos hsize

theorem popFree_cons {p : Nat} {rest : List Nat} (h : g.free = p :: rest) (hp : p ≠ 0) :
    popFree g = (some p, chargeUsed { g with free := rest }) := by
  rw [popFree, h]
  dsimp only
  rw [if_neg hp]

/-- **`allocate`**: the top of the stack, after growing if it was empty. -/
theorem allocate_spec (hok : g.shape.Ok) (hgrant : g.free = [] → region ≠ 0 ∧ FreshRegion g region)
    (h0 : ∀ p ∈ g.free, p ≠ 0) (hsize : size ≤ g.objSize) :
    ∃ p rest, p :: rest = (if g.free = [] then g.shape.slots region else g.free)
      ∧ (allocate g region size).1 = some p ∧ Popped g region rest (allocate g region size).2 := by
  have hlarge : ¬ size > (countAlloc g).objSize := Nat.not_lt.mpr hsize
  rw [allocate, if_neg hlarge]
  by_cases hnil : g.free = []
  · obtain ⟨hr, hf⟩ := hgrant hnil
    obtain ⟨p, rest, hslots⟩ := List.exists_cons_of_ne_nil (hok.slots_ne_nil region)
    have hp : p ≠ 0 := by
      obtain ⟨i, -, hi⟩ := Shape.mem_slots.mp
        (hslots ▸ List.mem_cons_self : p ∈ g.shape.slots region)
      have := hf.base.1
      omega
    have hgrow := grow_eq (g := countAlloc g) hok hr hf
    have hfree : (grow (countAlloc g) region).free = p :: rest := by
      rw [hgrow]
      show g.shape.slots region ++ g.free = p :: rest
      rw [hnil, List.append_nil, hslots]
    rw [if_pos (show (countAlloc g).free = [] from hnil), popFree_cons hfree hp, hgrow, if_pos hnil]
    refine ⟨p, rest, hslots.symm, rfl, ?_⟩
    constructor
    case slabs => exact (if_pos hnil).symm
    case capacity => exact (if_pos hnil).symm
    all_goals rfl
  · obtain ⟨p, rest, hfree⟩ := List.exists_cons_of_ne_nil hnil
    have hp : p ≠ 0 := h0 p (hfree ▸ List.mem_cons_self)
    rw [if_neg (show ¬ (countAlloc g).free = [] from hnil),
      popFree_cons (g := countAlloc g) (show (countAlloc g).free = p :: rest from hfree) hp,
      if_neg hnil]
    refine ⟨p, rest, hfree.symm, rfl, ?_⟩
    constructor
    case slabs => exact (if_neg hnil).symm
    case capacity => exact (if_neg hnil).symm
    all_goals rfl

end

/-! ## side by side -/

structure Pair where
  s : Sys
  r : Inner
  /-- the objects that both have handed out -/
  live : List (Nat × Nat)

/-- both allocators get the request; an object is live if both have given one -/
def Pair.allocate (p : Pair) (a : SlAlloc) (size : Nat) (os : Os) (region : Nat) : Pair where
  s := p.s.alloc 0 0 a size os
  r := (RustSlab.allocate p.r region size).2
  live := match (slAllocate os (p.s.call 0 a) size).1, (RustSlab.allocate p.r region size).1 with
    | 0, _ => p.live
    | _, none => p.live
    | q + 1, some q' => (q + 1, q') :: p.live

inductive PairAct
  | alloc (size : Nat) (os : Os) (region : Nat)
  | free (e : Nat × Nat)
  | write (x i : Nat) (b : BitVec 8)

/-- every request that the two calls make to their systems succeeds, with memory that is not in
use -/
structure Granted (p : Pair) (a : SlAlloc) (size : Nat) (os : Os) (region : Nat) : Prop where
  granted : Plenty p.s (.alloc 0 0 size os)
  fresh : os.mem ≠ 0 → Fresh p.s.shape os.mem a.slabBytes
  region : size ≤ p.r.objSize → p.r.free = [] → region ≠ 0 ∧ FreshRegion p.r region

inductive PairStep : Pair → PairAct → Pair → Prop
  | alloc {p : Pair} {a : SlAlloc} {size region : Nat} {os : Os} (h : p.s.sl 0 = some a)
      (hg : Granted p a size os region) : PairStep p (.alloc size os region)
      (p.allocate a size os region)
  | free {p : Pair} {a : SlAlloc} {e : Nat × Nat} (h : p.s.sl 0 = some a) (he : e ∈ p.live) :
      PairStep p (.free e) ⟨p.s.free 0 0 a e.1, deallocate p.r e.2, p.live.erase e⟩
  | write {p : Pair} {a : SlAlloc} {e : Nat × Nat} {i : Nat} {b : BitVec 8} (h : p.s.sl 0 = some a)
      (he : e ∈ p.live) (hi : i < a.objSize) :
      PairStep p (.write e.1 i b) { p with s := { p.s with heap := p.s.heap.setByte (e.1 + i) b } }

/-- the counters an observer compares -/
def SameStats (c r : Stats) : Prop :=
  c.used = r.used ∧ c.peakUsed = r.peakUsed ∧ c.capacity = r.capacity
  ∧ c.failedAllocs = r.failedAllocs

/-- the two pointers of a live object have one slot number -/
def Twins (s s' : Shape) (e : Nat × Nat) : Prop := ∃ q, InRange s q ∧ e = (addr s q, addr s' q)

structure Coupled (p : Pair) (L : Places) (a : SlAlloc) (pos : List (Nat × Nat)) : Prop where
  one : OneInv p.s L a
  same : SameSlots a.shape p.r.shape (stock L 0 0) p.r.free pos
  live : ∀ e ∈ p.live, (e.1, 0) ∈ p.s.live ∧ Twins a.shape p.r.shape e
  nodup : (p.live.map Prod.fst).Nodup
  stats : SameStats a.stats p.r.stats

section
variable {p p' : Pair} {L : Places} {a : SlAlloc} {pos : List (Nat × Nat)} {e : Nat × Nat}
  {size region : Nat} {os : Os} {act : PairAct}

/-! ### an allocation -/

theorem Pair.allocate_live {x y : Nat} (h1 : (slAllocate os (p.s.call 0 a) size).1 = x) (hx : x ≠ 0)
    (h2 : (RustSlab.allocate p.r region size).1 = some y) :
    (p.allocate a size os region).live = (x, y) :: p.live := by
  rw [Pair.allocate]
  dsimp only
  rw [h1, h2]
  cases x with
  | zero => exact absurd rfl hx
  | succ x => rfl

theorem Pair.allocate_live_none (h1 : (slAllocate os (p.s.call 0 a) size).1 = 0) :
    (p.allocate a size os region).live = p.live := by
  rw [Pair.allocate]
  dsimp only
  rw [h1]

theorem countFailed_stats (h : SameStats a.stats p.r.stats) :
    SameStats (Slab.countFailed (Slab.countAlloc a)).stats
    (countFailed (countAlloc p.r)).stats := by
  obtain ⟨h1, h2, h3, h4⟩ := h
  exact ⟨h1, h2, h3, congrArg (wadd · 1) h4⟩

/-- a request that is too large fails on both sides -/
theorem Coupled.alloc_large (h : Coupled p L a pos) (hg : Granted p a size os region)
    (hsize : a.objSize < size) :
    (slAllocate os (p.s.call 0 a) size).1 = 0 ∧ (RustSlab.allocate p.r region size).1 = none
      ∧ Coupled (p.allocate a size os region) L (Slab.countFailed (Slab.countAlloc a)) pos := by
  rcases h.one.alloc hg.fresh hg.granted with
    ⟨heq, -, hone⟩ | ⟨hle, -⟩
  swap
  · omega
  have hr : RustSlab.allocate p.r region size = (none, countFailed (countAlloc p.r)) :=
    allocate_large (lt_of_eq_of_lt h.same.objSize hsize)
  have hs : (p.allocate a size os region).s.live = p.s.live := by
    rw [Pair.allocate, Sys.alloc, heq]
    rfl
  have hr2 : (p.allocate a size os region).r = countFailed (countAlloc p.r) := by
    rw [Pair.allocate, hr]
  refine ⟨by rw [heq], by rw [hr], hone, ?_, ?_, ?_, ?_⟩
  · rw [countFailed_same, hr2]
    exact h.same
  · rw [Pair.allocate_live_none (congrArg Prod.fst heq), countFailed_same, hs, hr2]
    exact h.live
  · rw [Pair.allocate_live_none (congrArg Prod.fst heq)]
    exact h.nodup
  · rw [hr2]
    exact countFailed_stats h.stats

/-- what both sides have in stock when they look for a slot -/
theorem Coupled.grown (h : Coupled p L a pos) (hg : Granted p a size os region)
    (hsize : size ≤ a.objSize) :
    ∃ pos', SameSlots (if stock L 0 0 = [] then a.shape.add os.mem else a.shape)
        (if stock L 0 0 = [] then p.r.shape.add region else p.r.shape)
        (grownStock os a (stock L 0 0))
        (if p.r.free = [] then p.r.shape.slots region else p.r.free) pos'
      ∧ ∀ e, Twins a.shape p.r.shape e →
        Twins (if stock L 0 0 = [] then a.shape.add os.mem else a.shape)
          (if stock L 0 0 = [] then p.r.shape.add region else p.r.shape) e := by
  by_cases hnil : stock L 0 0 = []
  · obtain ⟨h1, h2⟩ := h.one.asks hnil
    have hfresh := hg.fresh (hg.granted a h.one.sl hsize h1 h2).1
    have hregion := hg.region (hsize.trans_eq h.same.objSize.symm) (h.same.nil_iff.mp hnil)
    have hok := h.same.ok.add (P := p.s.pointers) h.one.shape hfresh
    have hone : (⟨fun _ => some p.r.shape, fun _ => 0, fun _ => 0, fun _ => 0⟩ : Pointers).shape 0
        = some p.r.shape := rfl
    have hok' := h.same.ok'.add hone hregion.2
    rw [grownStock, if_pos hnil, if_pos hnil, if_pos hnil, if_pos (h.same.nil_iff.mp hnil)]
    refine ⟨_, h.same.grow hok hok', ?_⟩
    rintro e ⟨q, hq, rfl⟩
    exact ⟨q, hq.add, by rw [addr_add hq, addr_add (h.same.inRange hq)]⟩
  · rw [grownStock, if_neg hnil, if_neg hnil, if_neg hnil,
      if_neg fun e => hnil (h.same.nil_iff.mpr e)]
    exact ⟨pos, h.same, fun e he => he⟩

/-- **The same slot on both sides.** -/
theorem Coupled.alloc (h : Coupled p L a pos) (hg : Granted p a size os region)
    (hsize : size ≤ a.objSize) :
    ∃ x y L' pos', (slAllocate os (p.s.call 0 a) size).1 = x ∧ x ≠ 0
      ∧ (RustSlab.allocate p.r region size).1 = some y
      ∧ Twins (slAllocate os (p.s.call 0 a) size).2.a.shape
      (RustSlab.allocate p.r region size).2.shape (x, y)
      ∧ Coupled (p.allocate a size os region) L' (slAllocate os (p.s.call 0 a) size).2.a pos' := by
  rcases h.one.alloc hg.fresh hg.granted with
    ⟨-, hlt, -⟩ | ⟨-, L', hserv, hone⟩
  · omega
  obtain ⟨y, rest, hstack, hrust, hpop⟩ := allocate_spec h.same.ok'
    (hg.region (hsize.trans_eq h.same.objSize.symm)) h.same.right_ne_zero
      (hsize.trans_eq h.same.objSize.symm)
  obtain ⟨pos₁, hsame, htwins⟩ := h.grown hg hsize
  rw [← hserv.stock, ← hstack] at hsame
  obtain ⟨q, pos', hq, hx, hy, hsame'⟩ := hsame.pop
  -- the shapes after the two calls
  have hs : (slAllocate os (p.s.call 0 a) size).2.a.shape =
      if stock L 0 0 = [] then a.shape.add os.mem else a.shape := hserv.shape.trans (grown_shape ..)
  have hs' : (RustSlab.allocate p.r region size).2.shape =
      if stock L 0 0 = [] then p.r.shape.add region else p.r.shape := by
    rw [Inner.shape, hpop.objSize, hpop.slabBytes, hpop.slabs]
    by_cases hnil : stock L 0 0 = []
    · rw [if_pos hnil, if_pos (h.same.nil_iff.mp hnil)]
      rfl
    · rw [if_neg hnil, if_neg fun e => hnil (h.same.nil_iff.mpr e)]
      rfl
  rw [← hs, ← hs'] at hsame' htwins
  rw [← hs] at hq hx
  rw [← hs'] at hy
  have hnew : Twins (slAllocate os (p.s.call 0 a) size).2.a.shape
    (RustSlab.allocate p.r region size).2.shape
      ((slAllocate os (p.s.call 0 a) size).1, y) := ⟨q, hq, by rw [← hx, ← hy]⟩
  have hlive : (p.allocate a size os region).live
      = ((slAllocate os (p.s.call 0 a) size).1, y) :: p.live :=
    Pair.allocate_live rfl hserv.ne_zero hrust
  refine ⟨_, y, L', pos', rfl, hserv.ne_zero, hrust, hnew, hone, ?_, ?_, ?_, ?_⟩
  · rw [show (p.allocate a size os region).r.free = rest from hpop.free]
    exact hsame'
  · intro e he
    have hsys : (p.allocate a size os region).s.live =
        ((slAllocate os (p.s.call 0 a) size).1, 0) :: p.s.live :=
      hone.sys.live.symm.trans (hserv.live.trans (by rw [h.one.sys.live]))
    rw [hlive] at he
    rw [hsys]
    rcases List.mem_cons.mp he with rfl | he
    · exact ⟨List.mem_cons_self, hnew⟩
    · exact ⟨List.mem_cons_of_mem _ (h.live e he).1, htwins e (h.live e he).2⟩
  · rw [hlive, List.map_cons]
    refine List.nodup_cons.mpr ⟨fun hm => ?_, h.nodup⟩
    obtain ⟨e, he, hex⟩ := List.mem_map.mp hm
    exact hserv.fresh (e.1, 0) (h.one.sys.live ▸ (h.live e he).1) hex
  · obtain ⟨h1, h2, h3, h4⟩ := h.stats
    have hobj : p.r.objSize = a.objSize := h.same.objSize
    have hbytes : p.r.slabBytes = a.slabBytes := h.same.slabBytes
    rw [show (p.allocate a size os region).r = (RustSlab.allocate p.r region size).2 from rfl,
      hserv.stats]
    refine ⟨?_, ?_, ?_, ?_⟩
    · rw [chargeUsed_used, grown_used, grown_objSize, hpop.used, h1, hobj]
    · rw [chargeUsed_peakUsed, grown_used, grown_objSize, grown_peakUsed, hpop.peakUsed,
        h1, h2, hobj]
    · rw [chargeUsed_capacity, grown_capacity, hpop.capacity, h3, hbytes]
      exact if_congr h.same.nil_iff rfl rfl
    · rw [chargeUsed_failedAllocs, grown_failedAllocs, hpop.failedAllocs, h4]

/-! ### a free, a write -/

theorem Coupled.free (h : Coupled p L a pos) (he : e ∈ p.live) :
    ∃ L' pos', Coupled ⟨p.s.free 0 0 a e.1, deallocate p.r e.2, p.live.erase e⟩ L'
    (releaseUsed a) pos' := by
  obtain ⟨hx, q, hq, heq⟩ := h.live e he
  have hnd : p.live.Nodup := h.nodup.of_map _
  have hstock : stock { L with
      live := L.live.erase (e.1, 0)
      cache := update L.cache 0 ((e.1, 0) :: L.cache 0)
      place := update L.place e.1 (.cached 0) } 0 0 = e.1 :: stock L 0 0 := by
    rw [stock, stock]
    dsimp only
    rw [update_self]
    rfl
  refine ⟨_, q :: pos, h.one.free hx 0, ?_, ?_, ?_, ?_⟩
  · have h1 : e.1 = addr a.shape q := congrArg Prod.fst heq
    have h2 : e.2 = addr p.r.shape q := congrArg Prod.snd heq
    rw [hstock, releaseUsed_shape, h1, h2]
    exact h.same.push hq
  · intro e' he'
    obtain ⟨hne, he'⟩ := hnd.mem_erase_iff.mp he'
    obtain ⟨h1, h2⟩ := h.live e' he'
    refine ⟨(List.mem_erase_of_ne fun hee => hne ?_).mpr h1, ?_⟩
    · exact List.inj_on_of_nodup_map h.nodup he' he (Prod.mk.inj hee).1
    · rw [releaseUsed_shape]
      exact h2
  · exact h.nodup.sublist (List.erase_sublist.map _)
  · obtain ⟨h1, h2, h3, h4⟩ := h.stats
    refine ⟨?_, h2, h3, h4⟩
    exact congrArg₂ wsub h1 h.same.objSize.symm

/-- **Every step keeps the coupling.** -/
theorem Coupled.step (h : Coupled p L a pos) (hstep : PairStep p act p') :
    ∃ L' a' pos', Coupled p' L' a' pos' := by
  cases hstep with
  | @alloc b size region os hb hg =>
    obtain ⟨-, rfl⟩ := h.one.only hb
    rcases Nat.lt_or_ge b.objSize size with hlt | hle
    · exact ⟨_, _, _, (h.alloc_large hg hlt).2.2⟩
    · obtain ⟨x, y, L', pos', -, -, -, -, h'⟩ := h.alloc hg hle
      exact ⟨_, _, _, h'⟩
  | free hb he =>
    obtain ⟨-, rfl⟩ := h.one.only hb
    obtain ⟨L', pos', h'⟩ := h.free he
    exact ⟨_, _, _, h'⟩
  | write hb he hi =>
    obtain ⟨-, rfl⟩ := h.one.only hb
    exact ⟨L, _, pos,
      ⟨⟨h.one.sys.write h.one.sl (h.live _ he).1 hi _, h.one.count, h.one.sl⟩, h.one.used,
      h.one.capacity⟩, h.same, h.live, h.nodup, h.stats⟩

end

/-! ## agreement -/

/-- **What an observer compares**: the counters, the walk, the numbers of the live slots, and the
answer to every request. -/
structure Agree (p : Pair) (a : SlAlloc) : Prop where
  stats : SameStats a.stats p.r.stats
  walk : slWalk a = walk p.r
  live : ∀ e ∈ p.live, ∃ q, slotOf a.objSize a.slabBytes a.slabs e.1 = some q
    ∧ slotOf p.r.objSize p.r.slabBytes p.r.slabs e.2 = some q
  alloc : ∀ size os region c r', Granted p a size os region →
    (slAllocate os (p.s.call 0 a) size).2.a = c →
    (allocate p.r region size).2 = r' →
    ((slAllocate os (p.s.call 0 a) size).1 = 0 ∧ (allocate p.r region size).1 = none)
    ∨ ∃ x y q, (slAllocate os (p.s.call 0 a) size).1 = x ∧ x ≠ 0
    ∧ (allocate p.r region size).1 = some y
      ∧ slotOf c.objSize c.slabBytes c.slabs x = some q
      ∧ slotOf r'.objSize r'.slabBytes r'.slabs y = some q

theorem Coupled.agree {p : Pair} {L : Places} {a : SlAlloc} {pos : List (Nat × Nat)}
    (h : Coupled p L a pos) :
    Agree p a where
  stats := h.stats
  walk := by
    have hcount : p.r.slabs.length = a.slabs.length := h.same.count
    have hbytes : p.r.slabBytes = a.slabBytes := h.same.slabBytes
    rw [slWalk, walk, walkLoop_eq, hcount, hbytes, ← h.stats.1]
    rfl
  live := by
    intro e he
    obtain ⟨-, q, hq, rfl⟩ := h.live e he
    exact ⟨q, h.same.slotOf_eq hq⟩
  alloc := by
    rintro size os region _ _ hg rfl rfl
    rcases Nat.lt_or_ge a.objSize size with hlt | hle
    · obtain ⟨h1, h2, -⟩ := h.alloc_large hg hlt
      exact Or.inl ⟨h1, h2⟩
    · obtain ⟨x, y, L', pos', h1, h2, h3, ⟨q, hq, hxy⟩, h'⟩ := h.alloc hg hle
      obtain ⟨rfl, rfl⟩ := Prod.mk.inj hxy
      exact Or.inr ⟨_, _, q, h1, h2, h3, h'.same.slotOf_eq hq⟩

theorem new_spec {vm : Vm} {objectSize slabBytes : Nat} {g : Inner}
    (h : new vm objectSize slabBytes = some g) :
    g.slabs = [] ∧ g.free = [] ∧ g.stats = Stats.fresh 0 := by
  rw [new] at h
  generalize hfAlignUp (max objectSize 8) HF_DEFAULT_ALIGN = obj at h
  generalize hfAlignUp (if slabBytes = 0 then 64 * 1024 else slabBytes) vm.pageSize = bytes at h
  by_cases hz : obj = 0 ∨ bytes / obj = 0
  · rw [if_pos hz] at h
    exact absurd h (by simp)
  · rw [if_neg hz] at h
    obtain rfl := Option.some.inj h
    exact ⟨rfl, rfl, rfl⟩

/-- nothing is in stock without a slab -/
theorem stock_nil {s : Sys} {L : Places} {a : SlAlloc} (h : OneInv s L a) (h0 : a.slabs = []) :
    stock L 0 0 = [] := by
  have hno : ∀ x, ¬ a.shape.IsSlot x := by
    rintro x ⟨b, hb, -⟩
    exact absurd (h0 ▸ hb : b ∈ []) List.not_mem_nil
  refine List.append_eq_nil_iff.mpr ⟨?_, ?_⟩
  · exact List.eq_nil_iff_forall_not_mem.mpr fun x hx => hno x (h.mem_cache.mp hx).1
  · exact List.eq_nil_iff_forall_not_mem.mpr fun x hx =>
      hno x ((h.sys.places.central_mem 0 _ h.shape x).mp hx).1

/-- **The batched magazine is a plain stack.**  One C slab allocator used by one thread and a Rust
slab allocator with the same sizes, all requests to the systems granted, agree in every state of
every run. -/
theorem slabs_agree {vm vm' : Vm} {handle : Bool}
    {objectSize slabBytes objectSize' slabBytes' : Nat} {a₀ : SlAlloc} {g₀ : Inner}
    {acts : List PairAct} {p : Pair} (hc : hfSlabCreate vm handle objectSize slabBytes = some a₀)
    (hr : new vm' objectSize' slabBytes' = some g₀) (hobj : g₀.objSize = a₀.objSize)
    (hbytes : g₀.slabBytes = a₀.slabBytes)
    (hrun : Steps PairStep ⟨Sys.init.create a₀, g₀, []⟩ acts p) :
    ∃ a, p.s.sl 0 = some a ∧ Agree p a := by
  have hstart : ∃ L a pos, Coupled ⟨Sys.init.create a₀, g₀, []⟩ L a pos := by
    obtain ⟨hok, hslabs, -, hst, hslots⟩ := hfSlabCreate_spec hc
    obtain ⟨hslabs', hfree', hst'⟩ := new_spec hr
    obtain ⟨L, hone⟩ := OneInv.create hc
    have hshape : g₀.shape = a₀.shape := by
      rw [Inner.shape, SlAlloc.shape, hobj, hbytes, hslabs, hslabs', hslots]
    refine ⟨L, a₀, [], hone, ?_, ?_, List.nodup_nil, ?_⟩
    · rw [stock_nil hone hslabs]
      dsimp only
      rw [hshape, hfree']
      exact ⟨hok, hok, rfl, rfl, rfl, rfl, fun q hq => absurd hq List.not_mem_nil, rfl, rfl⟩
    · exact fun e he => absurd he List.not_mem_nil
    · dsimp only
      rw [hst, hst']
      exact ⟨rfl, rfl, rfl, rfl⟩
  obtain ⟨L, a, pos, h⟩ : ∃ L a pos, Coupled p L a pos := by
    refine hrun.invariant (I := fun p => ∃ L a pos, Coupled p L a pos) hstart ?_
    rintro p act p' ⟨L, a, pos, h⟩ hs
    exact h.step hs
  exact ⟨a, h.one.sl, h.agree⟩

/-- slots of 2048 bytes on the Rust side -/
def sampleInner : Inner := ⟨2048, 4096, [], [], Stats.fresh 0⟩

theorem sampleInner_new : new sampleVm 2048 4096 = some sampleInner := by decide +kernel

theorem slabs_agree_one_slot :
    ∃ a, (Pair.allocate ⟨sampleOne, sampleInner, []⟩ sampleSlab 100 sampleOs (2 ^ 21)).s.sl
    0 = some a
      ∧ Agree (Pair.allocate ⟨sampleOne, sampleInner, []⟩ sampleSlab 100 sampleOs (2 ^ 21)) a :=
  slabs_agree sampleSlab_create sampleInner_new rfl rfl
    ((Steps.nil _).snoc (.alloc (a := sampleSlab) rfl ⟨fun _ _ _ _ _ => ⟨by decide, rfl⟩,
      fun _ => sampleOne_fresh, fun _ _ => ⟨by decide, by decide, fun _ s hs c hc => by
        obtain rfl := Option.some.inj hs
        exact absurd hc List.not_mem_nil⟩⟩))

end HeapForge.RustSlab
