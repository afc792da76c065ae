import HeapForge.Slab.Impl
import HeapForge.Slab.Places

/-!
# The calls move slots

A call of the slab allocator works on one allocator and on the magazine of its thread; the other
allocators and magazines stand still.  Each part of a call is one of the moves of the places.

* `CallInv`             the pointers of a call in progress, and all others, follow the places;
* `linkLoop_spec`, `tailLoop_spec`   what the two loops do to the lists;
* `CallInv.allocate`    the slot that `slAllocate` returns, and what is left;
* `CallInv.deallocate`  the slot goes to the magazine.
-/

set_option linter.unusedSectionVars false
set_option linter.unusedVariables false

namespace HeapForge.Slab
open Lib Function

def SlAlloc.shape (a : SlAlloc) : Shape := ⟨a.objSize, a.slabBytes, a.slotsPerSlab, a.slabs⟩

/-! ## the counters are no pointers

A projection of a record with new counters is stated once, by matching on the record. -/

theorem countAlloc_shape : ∀ a : SlAlloc, (countAlloc a).shape = a.shape
  | ⟨_, _, _, _, _, _, _⟩ => rfl

theorem countFailed_shape : ∀ a : SlAlloc, (countFailed a).shape = a.shape
  | ⟨_, _, _, _, _, _, _⟩ => rfl

theorem chargeUsed_shape : ∀ a : SlAlloc, (chargeUsed a).shape = a.shape
  | ⟨_, _, _, _, _, _, _⟩ => rfl

theorem releaseUsed_shape : ∀ a : SlAlloc, (releaseUsed a).shape = a.shape
  | ⟨_, _, _, _, _, _, _⟩ => rfl

theorem countAlloc_centralFree : ∀ a : SlAlloc, (countAlloc a).centralFree = a.centralFree
  | ⟨_, _, _, _, _, c, _⟩ => (rfl : c = c)

theorem countFailed_centralFree : ∀ a : SlAlloc, (countFailed a).centralFree = a.centralFree
  | ⟨_, _, _, _, _, c, _⟩ => (rfl : c = c)

theorem chargeUsed_centralFree : ∀ a : SlAlloc, (chargeUsed a).centralFree = a.centralFree
  | ⟨_, _, _, _, _, c, _⟩ => (rfl : c = c)

theorem releaseUsed_centralFree : ∀ a : SlAlloc, (releaseUsed a).centralFree = a.centralFree
  | ⟨_, _, _, _, _, c, _⟩ => (rfl : c = c)

theorem countAlloc_slabCap : ∀ a : SlAlloc, (countAlloc a).slabCap = a.slabCap
  | ⟨_, _, _, _, c, _, _⟩ => (rfl : c = c)

theorem countAlloc_objSize (a : SlAlloc) : (countAlloc a).objSize = a.objSize :=
  congrArg Shape.objSize (countAlloc_shape a)

theorem countAlloc_slabs (a : SlAlloc) : (countAlloc a).slabs = a.slabs :=
  congrArg Shape.slabs (countAlloc_shape a)

/-! ## the two loops -/

section
variable {m : Mem} {mem obj n head p q i fuel : Nat} {l : List Nat}

theorem slotAt_eq (h : mem + i * obj < 2 ^ 64) : slotAt mem obj i = mem + i * obj := by
  rw [slotAt, wmul_of_lt (by omega), wadd_of_lt h]

/-- the first slot comes last, so it is the head -/
theorem linkLoop_head {r : Mem × Nat} (hm : mem < 2 ^ 64) (hn : 0 < n) :
    (linkLoop mem obj n r).2 = mem := by
  obtain ⟨k, rfl⟩ := Nat.exists_eq_succ_of_ne_zero (Nat.pos_iff_ne_zero.mp hn)
  obtain ⟨m, head⟩ := r
  clear hn
  induction k generalizing m head with
  | zero =>
    show wadd mem (wmul 0 obj) = mem
    rw [wmul, Nat.zero_mul, Nat.zero_mod]
    exact wadd_of_lt hm
  | succ k ih => exact ih _ _

/-- the slots come in address order in front of the list -/
theorem linkLoop_spec (hm : mem % 16 = 0) (hobj : obj % 16 = 0) (h0 : 0 < obj)
    (hlt : mem + n * obj < 2 ^ 64) (h : SList 0 (nodeNext m) head l)
    (hl : ∀ x ∈ l, x % 16 = 0 ∧ x < 2 ^ 64) (hd : ∀ i < n, mem + i * obj ∉ l) :
    SList 0 (nodeNext (linkLoop mem obj n (m, head)).1) (linkLoop mem obj n (m, head)).2
        ((List.range n).map (mem + · * obj) ++ l)
      ∧ ∀ y, y % 16 = 0 → (∀ i < n, y ≠ mem + i * obj) →
        nodeNext (linkLoop mem obj n (m, head)).1 y = nodeNext m y := by
  -- each round puts the slot in front and leaves a smaller problem
  induction n generalizing m head l with
  | zero => exact ⟨h, fun y _ _ => rfl⟩
  | succ n ih =>
    have hle : mem + n * obj < 2 ^ 64 := by
      rw [Nat.add_mul] at hlt
      omega
    have hslot : slotAt mem obj n = mem + n * obj := slotAt_eq hle
    have hmod : ∀ i, (mem + i * obj) % 16 = 0 := fun i => by
      rw [Nat.add_mod, hm, Nat.mul_mod, hobj, Nat.mul_zero]
    have hhead : head < 2 ^ 64 := by
      rw [h.head]
      cases l with
      | nil => exact Nat.two_pow_pos 64
      | cons x l => exact (hl x List.mem_cons_self).2
    have hnx : ∀ y, y % 16 = 0 → nodeNext (setNext m (mem + n * obj) head) y =
        update (nodeNext m) (mem + n * obj) head y := fun y hy => nodeNext_setNext (hmod n) hy hhead
    have hpush : SList 0 (nodeNext (setNext m (mem + n * obj) head)) (mem + n * obj)
        ((mem + n * obj) :: l) := by
      refine (h.push (hd n (Nat.lt_succ_self n))).congr fun y hy => hnx y ?_
      rcases List.mem_cons.mp hy with rfl | hy
      · exact hmod n
      · exact (hl y hy).1
    have hstep : linkLoop mem obj (n + 1) (m, head) =
        linkLoop mem obj n (setNext m (mem + n * obj) head, mem + n * obj) := by
      rw [linkLoop, hslot]
    rw [hstep]
    obtain ⟨h1, h2⟩ := ih hle hpush
      (fun x hx => (List.mem_cons.mp hx).elim (fun e => e ▸ ⟨hmod n, hle⟩) (hl x))
      fun i hi hmem => by
        rcases List.mem_cons.mp hmem with he | hmem
        · exact absurd (Nat.mul_right_cancel h0 (Nat.add_left_cancel he)) (Nat.ne_of_lt hi)
        · exact hd i (Nat.lt_succ_of_lt hi) hmem
    refine ⟨?_, fun y hy hne => ?_⟩
    · rw [List.range_succ, List.map_append, List.append_assoc]
      exact h1
    · rw [h2 y hy fun i hi => hne i (Nat.lt_succ_of_lt hi), hnx y hy]
      exact update_of_ne (hne n (Nat.lt_succ_self n)) _ _

/-- the loop stops `fuel` slots behind the head, or at the end of the list -/
theorem tailLoop_spec (fuel n : Nat) (h : SList 0 (nodeNext m) q (q :: l)) (h0 : 0 ∉ l) :
    (∃ l₁, l₁ ++ [(tailLoop m fuel q n).1] = q :: l.take fuel)
      ∧ (tailLoop m fuel q n).2 = n + (l.take fuel).length := by
  induction fuel generalizing q l n with
  | zero => exact ⟨⟨[], rfl⟩, rfl⟩
  | succ fuel ih =>
    rw [tailLoop]
    cases l with
    | nil =>
      have hnil : nodeNext m q = 0 := h.2
      rw [if_neg (not_not_intro hnil)]
      exact ⟨⟨[], rfl⟩, rfl⟩
    | cons x l =>
      have hx : nodeNext m q = x := h.2.1
      rw [hx, if_pos fun e : x = 0 => h0 (by rw [e]; exact List.mem_cons_self)]
      obtain ⟨⟨l₁, h1⟩, h2⟩ := ih (q := x) (n := n + 1) ⟨rfl, h.2.2⟩
        fun hm => h0 (List.mem_cons_of_mem _ hm)
      refine ⟨⟨q :: l₁, by rw [List.cons_append, h1, List.take_succ_cons]⟩, ?_⟩
      rw [h2, List.take_succ_cons, List.length_cons]
      omega

end

/-! ## a call in progress -/

/-- the other allocators have the shapes `S` and the heads `H`, the other threads the magazines
`M` -/
def CallInv (S : Nat → Option Shape) (H M : Nat → Nat) (t id : Nat) (c : Call)
    (L : Places) : Prop :=
  PInv ⟨update S id (some c.a.shape), update H id c.a.centralFree, update M t c.mag,
    nodeNext c.heap⟩ L

/-- the slots the thread would be given by the allocator, in order -/
def stock (L : Places) (t id : Nat) : List Nat := (L.cache t).map Prod.fst ++ L.central id

/-- the system's answer to a call of `sl_grow` -/
structure Os.Ok (os : Os) (S : Nat → Option Shape) (c : Call) : Prop where
  fresh : os.mem ≠ 0 → Fresh S os.mem c.a.slabBytes
  room : os.mem ≠ 0 → c.a.slabCount = c.a.slabCap → os.realloc = true

section
variable {S : Nat → Option Shape} {H M : Nat → Nat} {t id x q : Nat} {c c' : Call} {L : Places}
  {os : Os} {l : List Nat} {rest : List (Nat × Nat)}

theorem CallInv.congr (h : CallInv S H M t id c L) (h1 : c'.a.shape = c.a.shape)
    (h2 : c'.a.centralFree = c.a.centralFree) (h3 : c'.mag = c.mag) (h4 : c'.heap = c.heap) :
    CallInv S H M t id c' L := by
  rw [CallInv, h1, h2, h3, h4]
  exact h

theorem CallInv.ok (h : CallInv S H M t id c L) : c.a.shape.Ok :=
  h.regions.ok id _ (update_self id _ S)

theorem CallInv.mag_eq (h : CallInv S H M t id c L) : c.mag = headPtr (L.cache t) :=
  (update_self t c.mag M).symm.trans (PInv.mag h t)

theorem CallInv.mag_eq_zero (h : CallInv S H M t id c L) : c.mag = 0 ↔ L.cache t = [] := by
  have := PInv.mag_eq_zero (t := t) h
  simpa only [update_self] using this

theorem CallInv.centralFree_eq_zero (h : CallInv S H M t id c L) :
    c.a.centralFree = 0 ↔ L.central id = [] := by
  have := PInv.head_eq_zero h (update_self id _ S)
  simpa only [update_self] using this

theorem CallInv.central_links (h : CallInv S H M t id c L) :
    SList 0 (nodeNext c.heap) c.a.centralFree (L.central id) := by
  have := PInv.links h id ⟨_, update_self id _ S⟩
  simpa only [update_self] using this

/-- the words in memory may be given as a function instead -/
theorem CallInv.of_words (nx : Nat → Nat)
    (h : PInv ⟨update S id (some c.a.shape), update H id c.a.centralFree, update M t c.mag, nx⟩ L)
    (hn : ∀ y, y % 16 = 0 → nodeNext c.heap y = nx y) : CallInv S H M t id c L :=
  h.rewire fun j s y hs hy _ => hn y ((h.regions.ok j s hs).slot_addr hy).2.1

/-! ### growing -/

/-- with room in the array the slab is recorded -/
theorem slGrow_eq (hmem : os.mem ≠ 0) (hroom : c.a.slabCount = c.a.slabCap → os.realloc = true) :
    ∃ cap, slGrow os c =
      ⟨recordSlab { c.a with centralFree :=
          (linkLoop os.mem c.a.objSize c.a.slotsPerSlab (c.heap, c.a.centralFree)).2 } os.mem cap,
        (linkLoop os.mem c.a.objSize c.a.slotsPerSlab (c.heap, c.a.centralFree)).1, c.mag⟩ := by
  rw [slGrow, if_neg hmem]
  dsimp only
  split
  case isTrue hfull =>
    rw [if_pos (hroom hfull)]
    exact ⟨_, rfl⟩
  case isFalse => exact ⟨_, rfl⟩

theorem CallInv.grow (h : CallInv S H M t id c L) (hmem : os.mem ≠ 0)
    (hos : os.Ok (update S id (some c.a.shape)) c) :
    CallInv S H M t id (slGrow os c)
      { L with
        central := update L.central id (c.a.shape.slots os.mem ++ L.central id)
        place := fun x => if x ∈ c.a.shape.slots os.mem then .central else L.place x }
      ∧ (slGrow os c).a.shape = c.a.shape.add os.mem ∧ (slGrow os c).mag = c.mag
      ∧ (slGrow os c).a.stats = (recordSlab c.a os.mem 0).stats := by
  have hs : update S id (some c.a.shape) id = some c.a.shape := update_self ..
  have hfr := hos.fresh hmem
  have hok := h.ok
  have hend : os.mem + c.a.slotsPerSlab * c.a.objSize < 2 ^ 64 := by
    have h1 := hfr.base.2.2
    have h2 : c.a.slotsPerSlab * c.a.objSize ≤ c.a.slabBytes := hok.fits
    omega
  have hslots : ∀ y ∈ L.central id, c.a.shape.IsSlot y := fun y hy => (PInv.central_slot h hs hy).1
  have hmod : c.a.objSize % 16 = 0 := hok.obj_mod
  obtain ⟨hlist, hframe⟩ := linkLoop_spec (n := c.a.slotsPerSlab) hfr.base.2.1 hmod
    (Nat.lt_of_lt_of_le (by decide) hok.obj_ge) hend h.central_links
    (fun y hy => by
      have := hok.slot_addr (hslots y hy)
      omega)
    fun i hi hy => hfr.not_isSlot (P := ⟨update S id (some c.a.shape), H, M, nodeNext c.heap⟩)
      h.regions hs hs (Shape.mem_slots.mpr ⟨i, hi, rfl⟩) (hslots _ hy)
  have hhead : (linkLoop os.mem c.a.objSize c.a.slotsPerSlab (c.heap, c.a.centralFree)).2
      = os.mem :=
    linkLoop_head (by omega) hok.slots_pos
  obtain ⟨cap, hgrow⟩ := slGrow_eq hmem (hos.room hmem)
  rw [hgrow]
  refine ⟨?_, rfl, rfl, rfl⟩
  rw [hhead] at hlist
  have := PInv.grow h hs hfr hlist fun j s y hsj hy =>
    hframe y ((h.regions.ok j s hsj).slot_addr hy).2.1 fun i hi hyi =>
      hfr.not_isSlot (P := ⟨update S id (some c.a.shape), H, M, nodeNext c.heap⟩)
        h.regions hs hsj (Shape.mem_slots.mpr ⟨i, hi, hyi⟩) hy
  rw [update_idem, update_idem] at this
  have hfirst : (recordSlab { c.a with centralFree :=
      (linkLoop os.mem c.a.objSize c.a.slotsPerSlab (c.heap, c.a.centralFree)).2 }
      os.mem cap).centralFree = os.mem := hhead
  rw [CallInv, hfirst]
  exact this

/-! ### refilling -/

theorem takeBatch_shape (c : Call) : (takeBatch c).a.shape = c.a.shape := by
  simp only [takeBatch, SlAlloc.shape]

theorem takeBatch_mag (c : Call) : (takeBatch c).mag = c.a.centralFree := by
  rw [takeBatch]

theorem takeBatch_centralFree (c : Call) :
    (takeBatch c).a.centralFree = nodeNext c.heap (batchTail c).1 := by
  rw [takeBatch]

theorem takeBatch_heap (c : Call) : (takeBatch c).heap = setNext c.heap (batchTail c).1 0 := by
  rw [takeBatch]

theorem takeBatch_objSize (c : Call) : (takeBatch c).a.objSize = c.a.objSize := by
  rw [takeBatch]

theorem takeBatch_stats (c : Call) : (takeBatch c).a.stats = c.a.stats := by
  rw [takeBatch]

/-- the batch of at most `k + 1` slots -/
theorem CallInv.takeBatch {k : Nat} (hk : SL_BATCH - 1 = k) (h : CallInv S H M t id c L)
    (hc : L.cache t = []) (hcent : L.central id = q :: l) :
    CallInv S H M t id (takeBatch c)
      { L with
        central := update L.central id (l.drop k)
        cache := update L.cache t ((q :: l.take k).map (·, id))
        place := fun x => if x ∈ q :: l.take k then .cached t else L.place x }
      ∧ (batchTail c).2 = 1 + (l.take k).length := by
  have hs : update S id (some c.a.shape) id = some c.a.shape := update_self ..
  have hlinks := h.central_links
  rw [hcent] at hlinks
  have hq : c.a.centralFree = q := hlinks.1
  have hslot : ∀ y ∈ q :: l, c.a.shape.IsSlot y := fun y hy =>
    (PInv.central_slot h hs (hcent ▸ hy)).1
  have h0 : 0 ∉ l := fun hm => by
    have := (h.ok.slot_addr (hslot 0 (List.mem_cons_of_mem _ hm))).1
    omega
  have hbt : batchTail c = tailLoop c.heap k q 1 := by rw [batchTail, hk, hq]
  obtain ⟨⟨l₁, hl₁⟩, hn⟩ := tailLoop_spec k 1 (hq ▸ hlinks) h0
  rw [← hbt] at hl₁ hn
  refine ⟨?_, hn⟩
  have hcut : L.central id = l₁ ++ (batchTail c).1 :: l.drop k := by
    rw [hcent, List.append_cons, hl₁, List.cons_append, List.take_append_drop]
  have htail : (batchTail c).1 ∈ q :: l := by
    rw [← hcent, hcut]
    simp
  have hbatch := PInv.batch h hs hc hcut
  dsimp only at hbatch
  rw [hl₁, update_idem, update_idem, update_self] at hbatch
  refine CallInv.of_words (update (nodeNext c.heap) (batchTail c).1 0) ?_ fun y hy => ?_
  · rw [takeBatch_shape, takeBatch_centralFree, takeBatch_mag]
    exact hbatch
  · rw [takeBatch_heap]
    exact nodeNext_setNext (h.ok.slot_addr (hslot _ htail)).2.1 hy (Nat.two_pow_pos 64)

/-! ### popping -/

theorem CallInv.popMagazine (h : CallInv S H M t id c L) (hc : L.cache t = (x, id) :: rest) :
    popMagazine c = (x, { c with a := chargeUsed c.a, mag := nodeNext c.heap x })
      ∧ CallInv S H M t id { c with a := chargeUsed c.a, mag := nodeNext c.heap x }
        { L with
          live := (x, id) :: L.live
          cache := update L.cache t rest
          place := update L.place x .live } := by
  have hmag : c.mag = x := by
    rw [h.mag_eq, hc]
    rfl
  have hne : c.mag ≠ 0 := fun e => by
    rw [h.mag_eq_zero, hc] at e
    exact absurd e (by simp)
  refine ⟨by rw [Slab.popMagazine, if_neg hne, hmag], ?_⟩
  have := PInv.pop h (update_self id _ S) hc
  rw [update_idem] at this
  rw [CallInv]
  dsimp only
  rw [chargeUsed_shape, chargeUsed_centralFree]
  exact this

/-! ### the two calls -/

/-- how many slots `sl_refill` moves to the magazine -/
def taken (os : Os) (c : Call) : Nat :=
  let c := if c.a.centralFree = 0 then slGrow os c else c
  if c.a.centralFree = 0 then 0 else (batchTail c).2

/-- the allocator, after growing if nothing is in stock -/
def grown (os : Os) (a : SlAlloc) (l : List Nat) : SlAlloc :=
  if l = [] then recordSlab a os.mem 0 else a

/-- the slots in stock, after growing if there are none -/
def grownStock (os : Os) (a : SlAlloc) (l : List Nat) : List Nat :=
  if l = [] then a.shape.slots os.mem else l

theorem chargeUsed_stats {a b : SlAlloc} (h1 : a.stats = b.stats) (h2 : a.objSize = b.objSize) :
    (chargeUsed a).stats = (chargeUsed b).stats := by
  rw [chargeUsed, chargeUsed]
  dsimp only
  rw [h1, h2]

theorem Shape.Ok.slots_ne_nil {s : Shape} (h : s.Ok) (b : Nat) : s.slots b ≠ [] := by
  have := h.slots_pos
  simp [Shape.slots]
  omega

theorem chargeUsed_used (a : SlAlloc) :
    (chargeUsed a).stats.used = wadd a.stats.used a.objSize := by
  rw [chargeUsed]

theorem chargeUsed_capacity (a : SlAlloc) : (chargeUsed a).stats.capacity = a.stats.capacity := by
  rw [chargeUsed]

theorem chargeUsed_peakUsed (a : SlAlloc) :
    (chargeUsed a).stats.peakUsed = max a.stats.peakUsed (wadd a.stats.used a.objSize) := by
  rw [chargeUsed, Nat.max_def]
  dsimp only
  split <;> split <;> omega

theorem chargeUsed_failedAllocs (a : SlAlloc) :
    (chargeUsed a).stats.failedAllocs = a.stats.failedAllocs := by
  rw [chargeUsed]

theorem grown_peakUsed (os : Os) (a : SlAlloc) (l : List Nat) :
    (grown os (countAlloc a) l).stats.peakUsed = a.stats.peakUsed := by
  rw [grown, countAlloc]
  split <;> rfl

theorem grown_failedAllocs (os : Os) (a : SlAlloc) (l : List Nat) :
    (grown os (countAlloc a) l).stats.failedAllocs = a.stats.failedAllocs := by
  rw [grown, countAlloc]
  split <;> rfl

theorem grown_objSize (os : Os) (a : SlAlloc) (l : List Nat) :
    (grown os (countAlloc a) l).objSize = a.objSize := by
  rw [grown, countAlloc]
  split <;> rfl

theorem grown_used (os : Os) (a : SlAlloc) (l : List Nat) :
    (grown os (countAlloc a) l).stats.used = a.stats.used := by
  rw [grown, countAlloc]
  split <;> rfl

theorem grown_capacity (os : Os) (a : SlAlloc) (l : List Nat) :
    (grown os (countAlloc a) l).stats.capacity =
      if l = [] then wadd a.stats.capacity a.slabBytes else a.stats.capacity := by
  rw [grown, countAlloc]
  split <;> rfl

theorem grown_shape (os : Os) (a : SlAlloc) (l : List Nat) :
    (grown os (countAlloc a) l).shape = if l = [] then a.shape.add os.mem else a.shape := by
  rw [grown]
  split
  case isTrue => exact congrArg (Shape.add · os.mem) (countAlloc_shape a)
  case isFalse => exact countAlloc_shape a

/-- a refill cuts the central list, which has grown before if it was empty -/
theorem CallInv.refill (h : CallInv S H M t id c L)
    (hos : L.central id = [] → os.Ok (update S id (some c.a.shape)) c)
    (hgive : L.central id = [] → os.mem ≠ 0) :
    ∃ c' L', slRefill os c = Slab.takeBatch c' ∧ taken os c = (batchTail c').2
      ∧ CallInv S H M t id c' L' ∧ L'.live = L.live ∧ L'.cache = L.cache
      ∧ L'.central id = grownStock os c.a (L.central id) ∧ L'.central id ≠ []
      ∧ c'.a.shape = (grown os c.a (L.central id)).shape
      ∧ c'.a.stats = (grown os c.a (L.central id)).stats := by
  rw [slRefill, taken, grown, grownStock]
  by_cases hcf : c.a.centralFree = 0
  · have hnil := h.centralFree_eq_zero.mp hcf
    obtain ⟨h1, h2, -, h3⟩ := h.grow (hgive hnil) (hos hnil)
    have hcent : c.a.shape.slots os.mem ++ L.central id = c.a.shape.slots os.mem := by
      rw [hnil, List.append_nil]
    have hlist : update L.central id (c.a.shape.slots os.mem ++ L.central id) id =
        c.a.shape.slots os.mem := by rw [update_self, hcent]
    have hne : (slGrow os c).a.centralFree ≠ 0 := fun e =>
      h.ok.slots_ne_nil os.mem (hlist.symm.trans (h1.centralFree_eq_zero.mp e))
    rw [if_pos hcf, if_neg hne, if_neg hne, if_pos hnil, if_pos hnil]
    exact ⟨slGrow os c, _, rfl, rfl, h1, rfl, rfl, hlist,
      fun e => h.ok.slots_ne_nil os.mem (hlist.symm.trans e), h2, h3⟩
  · have hne : L.central id ≠ [] := fun e => hcf (h.centralFree_eq_zero.mpr e)
    rw [if_neg hcf, if_neg hcf, if_neg hcf, if_neg hne, if_neg hne]
    exact ⟨c, L, rfl, rfl, h, rfl, rfl, rfl, hne, rfl, rfl⟩

/-- what is left of a call that returned `q` from the stock `l`: `a` is the allocator before it was
charged, `k` slots came from the central list -/
structure Served (S : Nat → Option Shape) (H M : Nat → Nat) (t id : Nat) (L : Places) (a : SlAlloc)
    (l : List Nat) (k : Nat) (r : Nat × Call) (L' : Places) : Prop where
  inv : CallInv S H M t id r.2 L'
  shape : r.2.a.shape = a.shape
  stats : r.2.a.stats = (chargeUsed a).stats
  live : L'.live = (r.1, id) :: L.live
  stock : r.1 :: stock L' t id = l
  others : ∀ t', t' ≠ t → L'.cache t' = L.cache t'
  owners : (L'.cache t).map Prod.snd =
    if L.cache t = [] then List.replicate (k - 1) id else ((L.cache t).map Prod.snd).tail

/-- the first slot of a magazine -/
theorem CallInv.take_cached (h : CallInv S H M t id c L) (hc : L.cache t = (x, id) :: rest)
    (k : Nat) :
    ∃ L', Served S H M t id L c.a (stock L t id) k (Slab.popMagazine c) L' := by
  obtain ⟨h1, h2⟩ := h.popMagazine hc
  rw [h1]
  refine ⟨_, h2, chargeUsed_shape _, rfl, rfl, ?_, fun t' ht => update_of_ne ht _ _, ?_⟩
  · rw [stock, stock, hc]
    simp
  · rw [if_neg (by rw [hc]; simp), hc]
    simp

/-- the first slot of a batch -/
theorem CallInv.take_batched (h : CallInv S H M t id c L) (hc : L.cache t = [])
    (hne : L.central id ≠ []) :
    ∃ L', Served S H M t id L c.a (L.central id) (batchTail c).2
      (Slab.popMagazine (Slab.takeBatch c)) L' := by
  obtain ⟨q, l, hcent⟩ := List.exists_cons_of_ne_nil hne
  obtain ⟨k, hk⟩ : ∃ k, SL_BATCH - 1 = k := ⟨_, rfl⟩
  obtain ⟨hbatch, hn⟩ := h.takeBatch hk hc hcent
  have htop : update L.cache t ((q :: l.take k).map (·, id)) t
      = (q, id) :: (l.take k).map (·, id) :=
    update_self ..
  obtain ⟨h1, h2⟩ := hbatch.popMagazine htop
  rw [h1, hn]
  refine ⟨_, h2, (chargeUsed_shape _).trans (takeBatch_shape c),
    chargeUsed_stats (takeBatch_stats c) (takeBatch_objSize c), rfl, ?_, ?_, ?_⟩
  · rw [stock, hcent]
    dsimp only
    rw [update_self, update_self, List.map_map,
      show Prod.fst ∘ (fun x : Nat => (x, id)) = fun x => x from rfl, List.map_id',
        List.take_append_drop]
  · intro t' ht
    dsimp only
    rw [update_of_ne ht, update_of_ne ht]
  · rw [if_pos hc]
    dsimp only
    rw [update_self, List.map_map, Nat.add_sub_cancel_left]
    exact List.map_const' ..

/-- no memory, no slots -/
theorem taken_eq_zero (hcf : c.a.centralFree = 0) (hmem : os.mem = 0) : taken os c = 0 := by
  rw [taken, if_pos hcf, slGrow, if_pos hmem, if_pos hcf]

/-- the slot returned is one of the allocator -/
theorem Served.isSlot {a : SlAlloc} {k : Nat} {r : Nat × Call} {L' : Places}
    (h : Served S H M t id L a l k r L') : a.shape.IsSlot r.1 ∧ L'.place r.1 = .live := by
  have hs : update S id (some r.2.a.shape) id = some r.2.a.shape := update_self ..
  have hlive : (r.1, id) ∈ L'.live := by rw [h.live]; exact List.mem_cons_self
  rw [← h.shape]
  exact (PInv.live_mem h.inv id _ hs r.1).mp hlive

theorem Served.ne_zero {a : SlAlloc} {k : Nat} {r : Nat × Call} {L' : Places}
    (h : Served S H M t id L a l k r L') : r.1 ≠ 0 := by
  have hok := h.inv.ok
  rw [h.shape] at hok
  exact Nat.pos_iff_ne_zero.mp (hok.slot_addr h.isSlot.1).1

/-- it was not live before, for no allocator -/
theorem Served.fresh {a : SlAlloc} {k : Nat} {r : Nat × Call} {L' : Places}
    (h : Served S H M t id L a l k r L') : ∀ e ∈ L.live, e.1 ≠ r.1 := by
  intro e he hx
  have hs : update S id (some r.2.a.shape) id = some r.2.a.shape := update_self ..
  have hm : e ∈ L'.live := by rw [h.live]; exact List.mem_cons_of_mem _ he
  obtain ⟨s', hs'⟩ := PInv.owned h.inv e hm
  have hslot := ((PInv.live_mem h.inv e.2 s' hs' e.1).mp hm).1
  have hown : e.2 = id := PInv.regions h.inv |>.owner_unique hs' hs hslot (by
    rw [hx, h.shape]
    exact h.isSlot.1)
  have hnd := PInv.live_nodup h.inv
  rw [h.live] at hnd
  refine (List.nodup_cons.mp hnd).1 ?_
  rwa [← hx, ← hown]

theorem Os.Ok.countAlloc (hos : os.Ok S c) : os.Ok S { c with a := countAlloc c.a } where
  fresh := fun hm => by
    rw [show (Slab.countAlloc c.a).slabBytes = c.a.slabBytes from
      congrArg Shape.slabBytes (countAlloc_shape c.a)]
    exact hos.fresh hm
  room := fun hm => by
    rw [SlAlloc.slabCount, countAlloc_slabs, countAlloc_slabCap]
    exact hos.room hm

/-- **`slAllocate`.**  The request is too large, or nothing is in stock and the system gives no
memory; otherwise the first slot in stock is returned, after growing if there was none. -/
theorem CallInv.allocate (h : CallInv S H M t id c L) {size : Nat}
    (hown : size ≤ c.a.objSize → ∀ e ∈ (L.cache t).head?, e.2 = id)
    (hos : size ≤ c.a.objSize → stock L t id = [] → os.Ok (update S id (some c.a.shape)) c) :
    (slAllocate os c size = (0, { c with a := countFailed (countAlloc c.a) })
        ∧ (c.a.objSize < size ∨ stock L t id = [] ∧ os.mem = 0))
      ∨ (size ≤ c.a.objSize ∧ (stock L t id = [] → os.mem ≠ 0)
        ∧ ∃ L', Served S H M t id L (grown os (countAlloc c.a) (stock L t id))
          (grownStock os c.a (stock L t id)) (taken os { c with a := countAlloc c.a })
          (slAllocate os c size) L') := by
  have hca : CallInv S H M t id { c with a := countAlloc c.a } L :=
    h.congr (countAlloc_shape c.a) (countAlloc_centralFree c.a) rfl rfl
  rw [slAllocate]
  dsimp only
  rw [countAlloc_objSize]
  by_cases hsize : size > c.a.objSize
  · rw [if_pos hsize]
    exact Or.inl ⟨rfl, Or.inl hsize⟩
  rw [if_neg hsize]
  cases hc : L.cache t with
  | cons e rest =>
    obtain ⟨x, j⟩ := e
    obtain rfl : j = id := hown (Nat.le_of_not_lt hsize) (x, j) (by rw [hc]; rfl)
    have hstock : stock L t j ≠ [] := by simp [stock, hc]
    have hmag : c.mag ≠ 0 := fun e => by
      rw [h.mag_eq_zero, hc] at e
      exact absurd e (by simp)
    rw [if_neg hmag, grown, grownStock, if_neg hstock, if_neg hstock]
    exact Or.inr ⟨Nat.le_of_not_lt hsize, fun e => absurd e hstock, hca.take_cached hc _⟩
  | nil =>
    have hstock : stock L t id = L.central id := by rw [stock, hc]; rfl
    rw [if_pos (h.mag_eq_zero.mpr hc), hstock]
    by_cases hgive : L.central id = [] ∧ os.mem = 0
    · obtain ⟨hnil, hmem⟩ := hgive
      have hcf : (countAlloc c.a).centralFree = 0 := hca.centralFree_eq_zero.mpr hnil
      have hrefill : slRefill os { c with a := countAlloc c.a }
          = { c with a := countAlloc c.a } := by
        rw [slRefill]
        dsimp only
        rw [if_pos hcf, slGrow, if_pos hmem, if_pos hcf]
      rw [hrefill, Slab.popMagazine, if_pos (h.mag_eq_zero.mpr hc)]
      exact Or.inl ⟨rfl, Or.inr ⟨hnil, hmem⟩⟩
    · have hgive' : L.central id = [] → os.mem ≠ 0 := fun h1 h2 => hgive ⟨h1, h2⟩
      obtain ⟨c', L₁, h1, h2, h3, h4, h5, h6, h7, h8, h9⟩ := hca.refill
        (fun hnil => by
          rw [countAlloc_shape]
          exact (hos (Nat.le_of_not_lt hsize) (hstock.trans hnil)).countAlloc) hgive'
      obtain ⟨L', hL'⟩ := h3.take_batched (h5 ▸ hc) h7
      refine Or.inr ⟨Nat.le_of_not_lt hsize, hgive', L', ?_⟩
      rw [h1, h2]
      refine ⟨hL'.inv, hL'.shape.trans h8, hL'.stats.trans (chargeUsed_stats h9 ?_), ?_, ?_, ?_, ?_⟩
      · exact congrArg Shape.objSize h8
      · rw [hL'.live, h4]
      · rw [hL'.stock, h6, grownStock, grownStock, countAlloc_shape]
      · intro t' ht
        rw [hL'.others t' ht, h5]
      · rw [hL'.owners, h5]

/-- **`slDeallocate`** of a live slot. -/
theorem CallInv.deallocate (h : CallInv S H M t id c L) (hx : (x, id) ∈ L.live) :
    (slDeallocate c x).a = releaseUsed c.a
      ∧ CallInv S H M t id (slDeallocate c x)
        { L with
          live := L.live.erase (x, id)
          cache := update L.cache t ((x, id) :: L.cache t)
          place := update L.place x (.cached t) } := by
  have hs : update S id (some c.a.shape) id = some c.a.shape := update_self ..
  obtain ⟨h0, h16, -⟩ := h.ok.slot_addr ((PInv.live_mem h id _ hs x).mp hx).1
  have hmag : c.mag < 2 ^ 64 := by
    rw [h.mag_eq]
    cases hc : L.cache t with
    | nil => exact Nat.two_pow_pos 64
    | cons e rest => exact (PInv.addr h t e (by rw [hc]; simp)).2
  rw [slDeallocate, if_neg (Nat.pos_iff_ne_zero.mp h0)]
  refine ⟨rfl, ?_⟩
  have hpush := PInv.push h hx t
  dsimp only at hpush
  rw [update_idem, update_self] at hpush
  refine CallInv.of_words (update (nodeNext c.heap) x c.mag) ?_ fun y hy => ?_
  · dsimp only
    rw [releaseUsed_shape, releaseUsed_centralFree]
    exact hpush
  · exact nodeNext_setNext h16 hy hmag

end

end HeapForge.Slab
