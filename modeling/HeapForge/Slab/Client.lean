import Mathlib.Data.List.Nodup
import HeapForge.Lib.Objects
import HeapForge.Slab.Run

/-!
# Slab allocators serve objects, to any number of threads

All threads and all allocators of a process share one memory; free slots are linked through their
first words, in the central lists and in the magazines.  None of this is seen by the clients.

* `Sys.held`        the bytes of the live slots;
* `events`          what the clients see of a step; a destroyed allocator takes its objects along;
* `LiveByte`        where the lists are never written: `CallInv.sameOn_allocate`,
                    `CallInv.sameOn_deallocate`;
* `SysInv.seen`     one step of the process is a step of the objects;
* `slab_objects`    **every run**, whichever thread makes each call.
-/

set_option linter.unusedSectionVars false
set_option linter.unusedVariables false

namespace HeapForge.Slab
open Lib Function

/-- a live slot belongs to its client as a whole, whatever was asked for -/
def Sys.extent (s : Sys) (e : Nat × Nat) : Extent := ⟨e.1, ((s.sl e.2).map SlAlloc.objSize).getD 0⟩

def Sys.held (s : Sys) : List Extent := s.live.map s.extent

def events (s : Sys) : Act → List Event
  | .create .. => []
  | .alloc t id size os =>
    match s.sl id with
    | none => []
    | some a =>
      let p := (slAllocate os (s.call t a) size).1
      if p = 0 then [.refuse size] else [.grant p a.objSize]
  | .free _ _ x => [.release x]
  | .destroy id => (s.live.filter fun e => e.2 = id).map fun e => .release e.1
  | .write _ x i b => [.write x i b]

/-- a careful step, with what the clients see of it -/
def Seen (s : Sys) (evs : List Event) (s' : Sys) : Prop :=
  ∃ act, CarefulStep s act s' ∧ events s act = evs

/-! ## the bytes that the lists leave alone -/

/-- a byte of a live slot -/
def LiveByte (S : Nat → Option Shape) (live : List (Nat × Nat)) (x : Nat) : Prop :=
  ∃ e ∈ live, ∃ s, S e.2 = some s ∧ e.1 ≤ x ∧ x < e.1 + s.objSize

section
variable {P : Pointers} {S : Nat → Option Shape} {H M : Nat → Nat} {L L' : Places} {s s' : Shape}
  {c : Call} {os : Os} {live : List (Nat × Nat)} {e : Nat × Nat} {mem obj n t id x y q size : Nat}
  {l : List Nat}

/-- a grown allocator has slots of the same size -/
theorem LiveByte.regrown (h : LiveByte (update S id (some s)) live x)
    (hs : s'.objSize = s.objSize) :
    LiveByte (update S id (some s')) live x := by
  obtain ⟨e, he, r, hr, h1, h2⟩ := h
  refine ⟨e, he, ?_⟩
  by_cases hid : e.2 = id
  · rw [hid, update_self] at hr
    obtain rfl := Option.some.inj hr
    rw [hid, update_self]
    exact ⟨s', rfl, h1, hs ▸ h2⟩
  · rw [update_of_ne hid] at hr
    rw [update_of_ne hid]
    exact ⟨r, hr, h1, h2⟩

/-- a live slot and another slot -/
theorem PInv.live_apart (h : PInv P L) (he : e ∈ L.live) (hs : P.shape e.2 = some s)
    (hs' : P.shape id = some s') (hy : s'.IsSlot y) (hne : e.1 ≠ y) :
    e.1 + s.objSize ≤ y ∨ y + s'.objSize ≤ e.1 := by
  have hslot : s.IsSlot e.1 := ((h.live_mem e.2 s hs e.1).mp he).1
  by_cases hid : e.2 = id
  · rw [hid] at hs
    obtain rfl := Option.some.inj (hs.symm.trans hs')
    exact (h.regions.ok id s hs).slot_apart hslot hy hne
  · exact h.regions.slot_apart hs hs' hid hslot hy

/-- the link of a slot that is not live is no byte of a live one -/
theorem PInv.sameOn_link (h : PInv P L) (hs : P.shape id = some s) (hy : s.IsSlot y)
    (hlive : ∀ e ∈ live, e ∈ L.live ∧ e.1 ≠ y) (m : Mem) (v : Nat) :
    Mem.SameOn (LiveByte P.shape live) m (setNext m y v) := by
  refine Mem.sameOn_store64 fun x hx => ?_
  obtain ⟨e, he, r, hr, h1, h2⟩ := hx
  have hap := h.live_apart (hlive e he).1 hr hs hy (hlive e he).2
  have hobj := (h.regions.ok id s hs).obj_ge
  omega

/-- the loop writes into the new slab only -/
theorem linkLoop_sameOn {r : Mem × Nat} (hobj : 8 ≤ obj) (hlt : mem + n * obj < 2 ^ 64) :
    Mem.SameOn (fun x => x < mem ∨ mem + n * obj ≤ x) r.1 (linkLoop mem obj n r).1 := by
  induction n generalizing r with
  | zero => exact Mem.SameOn.refl
  | succ n ih =>
    have hmul : (n + 1) * obj = n * obj + obj := Nat.succ_mul n obj
    obtain ⟨m, head⟩ := r
    have hslot : slotAt mem obj n = mem + n * obj := slotAt_eq (by omega)
    rw [linkLoop, hslot]
    refine Mem.SameOn.trans ?_ ((ih (by omega)).mono fun x hx => ?_)
    · exact Mem.sameOn_store64 fun x hx => by omega
    · omega

theorem CallInv.sameOn_grow (h : CallInv S H M t id c L) (hmem : os.mem ≠ 0)
    (hos : os.Ok (update S id (some c.a.shape)) c) :
    Mem.SameOn (LiveByte (update S id (some c.a.shape)) L.live) c.heap (slGrow os c).heap := by
  have hfr := hos.fresh hmem
  have hfits : c.a.slotsPerSlab * c.a.objSize ≤ c.a.slabBytes := h.ok.fits
  have hobj : 16 ≤ c.a.objSize := h.ok.obj_ge
  have hend := hfr.base.2.2
  obtain ⟨cap, hgrow⟩ := slGrow_eq hmem (hos.room hmem)
  rw [hgrow]
  refine (linkLoop_sameOn (r := (c.heap, c.a.centralFree)) (by omega) (by omega)).mono
    fun x hx => ?_
  obtain ⟨e, he, s, hs, h1, h2⟩ := hx
  obtain ⟨b, hb, i, hi, hx⟩ := ((PInv.live_mem h e.2 s hs e.1).mp he).1
  have hap := hfr.apart e.2 s hs b hb
  have hle := (h.regions.ok e.2 s hs).slot_le hi
  omega

/-- the batch ends in a slot of the central list -/
theorem CallInv.batchTail_mem (h : CallInv S H M t id c L) (hcent : L.central id = q :: l) :
    (batchTail c).1 ∈ L.central id := by
  have hlinks := h.central_links
  rw [hcent] at hlinks
  have hq : c.a.centralFree = q := hlinks.1
  have h0 : 0 ∉ l := fun hm => by
    have hm' : 0 ∈ L.central id := by rw [hcent]; exact List.mem_cons_of_mem _ hm
    have := (h.ok.slot_addr (PInv.central_slot h (update_self id _ S) hm').1).1
    omega
  obtain ⟨⟨l₁, hl₁⟩, -⟩ := tailLoop_spec (SL_BATCH - 1) 1 (hq ▸ hlinks) h0
  have hmem : (batchTail c).1 ∈ q :: l.take (SL_BATCH - 1) := by
    rw [← hl₁, batchTail, hq]
    exact List.mem_append_right _ List.mem_cons_self
  rw [hcent]
  rcases List.mem_cons.mp hmem with he | he
  · rw [he]
    exact List.mem_cons_self
  · exact List.mem_cons_of_mem _ (List.mem_of_mem_take he)

theorem CallInv.sameOn_takeBatch (h : CallInv S H M t id c L) (hne : L.central id ≠ []) :
    Mem.SameOn (LiveByte (update S id (some c.a.shape)) L.live) c.heap (Slab.takeBatch c).heap := by
  obtain ⟨q, l, hcent⟩ := List.exists_cons_of_ne_nil hne
  have hs : update S id (some c.a.shape) id = some c.a.shape := update_self ..
  obtain ⟨hslot, hplace⟩ := PInv.central_slot h hs (h.batchTail_mem hcent)
  rw [takeBatch_heap]
  refine PInv.sameOn_link h hs hslot (fun e he => ⟨he, fun hx => ?_⟩) c.heap 0
  obtain ⟨r, hr⟩ := PInv.owned h e he
  have hlive := ((PInv.live_mem h e.2 r hr e.1).mp he).2
  rw [hx, hplace] at hlive
  exact absurd hlive (by simp)

theorem CallInv.sameOn_refill (h : CallInv S H M t id c L) (os : Os)
    (hos : L.central id = [] → os.Ok (update S id (some c.a.shape)) c) :
    Mem.SameOn (LiveByte (update S id (some c.a.shape)) L.live) c.heap (slRefill os c).heap := by
  rw [slRefill]
  by_cases hcf : c.a.centralFree = 0
  · have hnil := h.centralFree_eq_zero.mp hcf
    rw [if_pos hcf]
    by_cases hmem : os.mem = 0
    · rw [slGrow, if_pos hmem, if_pos hcf]
      exact Mem.SameOn.refl
    · have hgrow := h.sameOn_grow hmem (hos hnil)
      obtain ⟨h1, h2, -, -⟩ := h.grow hmem (hos hnil)
      by_cases hcf' : (slGrow os c).a.centralFree = 0
      · rw [if_pos hcf']
        exact hgrow
      · rw [if_neg hcf']
        have hne : update L.central id (c.a.shape.slots os.mem ++ L.central id) id ≠ [] :=
          fun e => hcf' (h1.centralFree_eq_zero.mpr e)
        refine hgrow.trans ((h1.sameOn_takeBatch hne).mono fun x hx => hx.regrown ?_)
        rw [h2]
        rfl
  · have hne : L.central id ≠ [] := fun e => hcf (h.centralFree_eq_zero.mpr e)
    rw [if_neg hcf, if_neg hcf]
    exact h.sameOn_takeBatch hne

theorem popMagazine_heap (c : Call) : (Slab.popMagazine c).2.heap = c.heap := by
  rw [Slab.popMagazine]
  split <;> rfl

/-- **A request writes into no live slot**, of no allocator. -/
theorem CallInv.sameOn_allocate (h : CallInv S H M t id c L)
    (hos : size ≤ c.a.objSize → stock L t id = [] → os.Ok (update S id (some c.a.shape)) c) :
    Mem.SameOn (LiveByte (update S id (some c.a.shape)) L.live) c.heap
    (slAllocate os c size).2.heap := by
  have hca : CallInv S H M t id { c with a := countAlloc c.a } L :=
    h.congr (countAlloc_shape c.a) (countAlloc_centralFree c.a) rfl rfl
  rw [slAllocate]
  dsimp only
  rw [countAlloc_objSize]
  by_cases hsize : size > c.a.objSize
  · rw [if_pos hsize]
    exact Mem.SameOn.refl
  · rw [if_neg hsize, popMagazine_heap]
    by_cases hmag : c.mag = 0
    · rw [if_pos hmag]
      have hcache := h.mag_eq_zero.mp hmag
      have hrefill := hca.sameOn_refill os fun hnil => by
        rw [countAlloc_shape]
        refine (hos (Nat.le_of_not_lt hsize) ?_).countAlloc
        rw [stock, hcache, hnil]
        rfl
      rw [countAlloc_shape] at hrefill
      exact hrefill
    · rw [if_neg hmag]
      exact Mem.SameOn.refl

/-- a free writes into the slot that is freed -/
theorem CallInv.sameOn_deallocate (h : CallInv S H M t id c L) (hx : (x, id) ∈ L.live) :
    Mem.SameOn (LiveByte (update S id (some c.a.shape)) (L.live.erase (x, id))) c.heap
      (slDeallocate c x).heap := by
  have hs : update S id (some c.a.shape) id = some c.a.shape := update_self ..
  have hslot := ((PInv.live_mem h id _ hs x).mp hx).1
  have h0 := (h.ok.slot_addr hslot).1
  rw [slDeallocate, if_neg (Nat.pos_iff_ne_zero.mp h0)]
  refine PInv.sameOn_link h hs hslot (fun e he => ?_) c.heap c.mag
  have hmem := List.mem_of_mem_erase he
  refine ⟨hmem, fun hex => ?_⟩
  obtain ⟨r, hr⟩ := PInv.owned h e hmem
  have hid : e.2 = id := PInv.regions h |>.owner_unique hr hs
    ((PInv.live_mem h e.2 r hr e.1).mp hmem).1
    (hex ▸ hslot)
  have hself : e = (x, id) := Prod.ext hex hid
  rw [hself] at he
  exact (PInv.live_nodup h).not_mem_erase he

end

/-! ## the live slots as ranges -/

section
variable {s s' : Sys} {L : Places} {t id x size : Nat} {a : SlAlloc} {c : Call} {os : Os}
  {act : Act} {e e' : Nat × Nat}

theorem Sys.extent_eq (h : s.sl e.2 = some a) : s.extent e = ⟨e.1, a.objSize⟩ := by
  rw [Sys.extent, h]
  rfl

/-- a call changes no object size -/
theorem Sys.extent_put (ha : s.sl id = some a) (ho : c.a.objSize = a.objSize) :
    (s.put t id c).extent = s.extent := by
  funext e
  by_cases hid : e.2 = id
  · have h1 : (s.put t id c).sl e.2 = some c.a := by rw [hid]; exact update_self ..
    rw [Sys.extent_eq h1, Sys.extent_eq (hid ▸ ha), ho]
  · have h1 : (s.put t id c).sl e.2 = s.sl e.2 := update_of_ne hid ..
    rw [Sys.extent, Sys.extent, h1]

theorem SysInv.owner (h : SysInv s L) (he : e ∈ s.live) :
    ∃ a, s.sl e.2 = some a ∧ a.shape.Ok ∧ a.shape.IsSlot e.1 := by
  obtain ⟨r, hr⟩ := h.places.owned e (h.live ▸ he)
  have hslot := ((h.places.live_mem e.2 r hr e.1).mp (h.live ▸ he)).1
  obtain ⟨a, ha, rfl⟩ := Option.map_eq_some_iff.mp hr
  exact ⟨a, ha, h.places.regions.ok e.2 _ hr, hslot⟩

/-- a live address belongs to one allocator -/
theorem SysInv.eq_of_ptr (h : SysInv s L) (he : e ∈ s.live) (he' : e' ∈ s.live) (hp : e.1 = e'.1) :
    e = e' := by
  obtain ⟨a, ha, -, hslot⟩ := h.owner he
  obtain ⟨a', ha', -, hslot'⟩ := h.owner he'
  exact Prod.ext hp
    (h.places.regions.owner_unique (Sys.shape_eq ha) (Sys.shape_eq ha') hslot (hp ▸ hslot'))

theorem SysInv.apart (h : SysInv s L) : s.held.Pairwise Extent.Apart := by
  refine pairwise_apart ?_ fun e he f hf hne => ?_
  · rw [Sys.held, List.map_map]
    have hnd : s.live.Nodup := h.live ▸ h.places.live_nodup
    exact hnd.map_on fun e he e' he' hp => h.eq_of_ptr he he' hp
  · obtain ⟨e, hel, rfl⟩ := List.mem_map.mp he
    obtain ⟨f, hfl, rfl⟩ := List.mem_map.mp hf
    obtain ⟨a, ha, -, -⟩ := h.owner hel
    obtain ⟨b, hb, -, hslot⟩ := h.owner hfl
    rw [Sys.extent_eq ha, Sys.extent_eq hb] at *
    exact h.places.live_apart (h.live ▸ hel) (Sys.shape_eq ha) (Sys.shape_eq hb) hslot hne

/-- a held byte is a byte of a live slot -/
theorem SysInv.liveByte (h : SysInv s L) {live : List (Nat × Nat)} (hl : ∀ e ∈ live, e ∈ s.live)
    (hx : Held (live.map s.extent) x) : LiveByte s.shape live x := by
  obtain ⟨f, hf, h1, h2⟩ := hx
  obtain ⟨e, he, rfl⟩ := List.mem_map.mp hf
  obtain ⟨a, ha, -, -⟩ := h.owner (hl e he)
  rw [Sys.extent_eq ha] at h1 h2
  exact ⟨e, he, a.shape, Sys.shape_eq ha, h1, h2⟩

/-! ## a step of the process is a step of the objects -/

theorem SysInv.seen_alloc (h : SysInv s L) (ha : s.sl id = some a)
    (hc : Careful s (.alloc t id size os)) (hos : os.mem ≠ 0 → Fresh s.shape os.mem a.slabBytes) :
    Steps ObjStep (objects s.heap s.held) (events s (.alloc t id size os))
      (objects (s.alloc t id a size os).heap (s.alloc t id a size os).held) := by
  have hshape : update s.shape id (some a.shape) = s.shape :=
    (update_eq_self_iff ..).mpr (Sys.shape_eq ha).symm
  have hsame : Mem.SameOn (LiveByte s.shape L.live) s.heap
      (slAllocate os (s.call t a) size).2.heap := by
    rw [← hshape]
    exact (h.callInv ha t).sameOn_allocate fun hs hstock => (h.careful ha hc hos hs).2 hstock
  rw [h.live] at hsame
  have hheld : Mem.SameOn (Held s.held) s.heap (slAllocate os (s.call t a) size).2.heap :=
    hsame.mono fun x hx => h.liveByte (fun _ he => he) hx
  rw [events, ha]
  dsimp only
  rcases h.alloc ha hc hos with ⟨heq, -, -⟩ | ⟨hsize, -, L', hserv, hinv⟩
  · have hzero : (slAllocate os (s.call t a) size).1 = 0 := congrArg Prod.fst heq
    have hobj : (slAllocate os (s.call t a) size).2.a.objSize = a.objSize := by
      rw [heq]
      exact congrArg Shape.objSize ((countFailed_shape _).trans (countAlloc_shape a))
    have hlist : (s.alloc t id a size os).held = s.held := by
      rw [Sys.alloc, Sys.held]
      dsimp only
      rw [if_pos hzero]
      exact congrArg (List.map · s.live) (Sys.extent_put (t := t) ha hobj)
    rw [if_pos hzero, hlist, show (s.alloc t id a size os).heap
      = (slAllocate os (s.call t a) size).2.heap from rfl, objects_congr hheld]
    exact (Steps.nil _).snoc (ObjStep.refuse size)
  · have hobj : (slAllocate os (s.call t a) size).2.a.objSize = a.objSize :=
      (congrArg Shape.objSize hserv.shape).trans (grown_objSize ..)
    have hne := hserv.ne_zero
    have hlist : (s.alloc t id a size os).held
        = ⟨(slAllocate os (s.call t a) size).1, a.objSize⟩ :: s.held := by
      rw [Sys.alloc, Sys.held]
      dsimp only
      rw [if_neg hne, List.map_cons]
      refine congrArg₂ List.cons ?_ (congrArg (List.map · s.live) (Sys.extent_put (t := t) ha hobj))
      exact (congrFun (Sys.extent_put (t := t) ha hobj) _).trans (Sys.extent_eq ha)
    rw [if_neg hne, hlist, show (s.alloc t id a size os).heap
      = (slAllocate os (s.call t a) size).2.heap from rfl, objects_cons, objects_congr hheld]
    refine (Steps.nil _).snoc
      (ObjStep.grant (objects_of_notMem fun f hf => ?_) (contents_length _ _))
    obtain ⟨e, he, rfl⟩ := List.mem_map.mp hf
    exact hserv.fresh e (h.live ▸ he)

theorem SysInv.seen_free (h : SysInv s L) (ha : s.sl id = some a) (hx : (x, id) ∈ s.live)
    (t : Nat) :
    Steps ObjStep (objects s.heap s.held) [.release x]
      (objects (s.free t id a x).heap (s.free t id a x).held) := by
  have hshape : update s.shape id (some a.shape) = s.shape :=
    (update_eq_self_iff ..).mpr (Sys.shape_eq ha).symm
  have hsame := (h.callInv ha t).sameOn_deallocate (h.live ▸ hx)
  have hsame' : Mem.SameOn (LiveByte s.shape (L.live.erase (x, id))) s.heap
      (slDeallocate (s.call t a) x).heap := by
    rw [← hshape]
    exact hsame
  rw [h.live] at hsame'
  have hobj : (slDeallocate (s.call t a) x).a.objSize = a.objSize := by
    rw [((h.callInv ha t).deallocate (h.live ▸ hx)).1]
    exact congrArg Shape.objSize (releaseUsed_shape a)
  have hself : s.extent (x, id) = ⟨x, a.objSize⟩ := Sys.extent_eq ha
  have hmem : (⟨x, a.objSize⟩ : Extent) ∈ s.held := hself ▸ List.mem_map_of_mem hx
  have hlist : (s.free t id a x).held = s.held.erase ⟨x, a.objSize⟩ := by
    have h1 : (s.free t id a x).held = (s.live.erase (x, id)).map s.extent :=
      congrArg (List.map · (s.live.erase (x, id))) (Sys.extent_put (t := t) ha hobj)
    rw [h1, Sys.held, ← hself]
    -- the address alone tells the slots apart
    exact map_erase_of_inj (e := (x, id)) fun e he hc => h.eq_of_ptr he hx (congrArg Extent.ptr hc)
  have hkeep : Mem.SameOn (Held (s.held.erase ⟨x, a.objSize⟩)) s.heap
      (slDeallocate (s.call t a) x).heap := by
    have h1 : s.held.erase ⟨x, a.objSize⟩ = (s.live.erase (x, id)).map s.extent := by
      rw [← hlist]
      exact congrArg (List.map · (s.live.erase (x, id))) (Sys.extent_put (t := t) ha hobj)
    rw [h1]
    exact hsame'.mono fun y hy => h.liveByte (fun _ he => List.mem_of_mem_erase he) hy
  rw [hlist, show (s.free t id a x).heap = (slDeallocate (s.call t a) x).heap from rfl,
    objects_congr hkeep, objects_erase h.apart hmem]
  exact (Steps.nil _).snoc (ObjStep.release (objects_of_mem h.apart hmem))

theorem SysInv.seen_create (h : SysInv s L) :
    objects (s.create a).heap (s.create a).held = objects s.heap s.held := by
  have hlist : (s.create a).held = s.held := List.map_congr_left fun e he => by
    obtain ⟨b, hb, -, -⟩ := h.owner he
    have hne : e.2 ≠ s.count := Nat.ne_of_lt (h.id_lt hb)
    have hb' : (s.create a).sl e.2 = some b := (update_of_ne hne _ _).trans hb
    rw [Sys.extent_eq hb, Sys.extent_eq hb']
  rw [hlist]
  rfl

/-- the objects of a destroyed allocator go -/
theorem SysInv.seen_destroy (h : SysInv s L) (id : Nat) :
    Steps ObjStep (objects s.heap s.held) (events s (.destroy id))
      (objects (s.destroy id).heap (s.destroy id).held) := by
  have hgone : ∀ e ∈ s.live, s.extent e ∈ (s.live.filter fun e => e.2 = id).map s.extent
    ↔ e.2 = id := by
    intro e he
    constructor
    · intro hm
      obtain ⟨f, hf, hfe⟩ := List.mem_map.mp hm
      obtain ⟨hfl, hfid⟩ := List.mem_filter.mp hf
      rw [← h.eq_of_ptr hfl he (congrArg Extent.ptr hfe)]
      exact of_decide_eq_true hfid
    · exact fun hid => List.mem_map_of_mem (List.mem_filter.mpr ⟨he, decide_eq_true hid⟩)
  have hnd : ((s.live.filter fun e => e.2 = id).map s.extent).Nodup := by
    have hlive : s.live.Nodup := h.live ▸ h.places.live_nodup
    exact (hlive.filter _).map_on fun e he f hf hef =>
      h.eq_of_ptr (List.mem_of_mem_filter he) (List.mem_of_mem_filter hf) (congrArg Extent.ptr hef)
  have hlist : (s.destroy id).held
      = s.held.filter (· ∉ (s.live.filter fun e => e.2 = id).map s.extent) := by
    have hfilter : (s.live.filter fun e => e.2 ≠ id)
        = s.live.filter fun e => s.extent e ∉ (s.live.filter fun e => e.2 = id).map s.extent :=
      List.filter_congr fun e he => decide_eq_decide.mpr (not_congr (hgone e he)).symm
    rw [Sys.held, Sys.held, List.filter_map]
    show (s.live.filter fun e => e.2 ≠ id).map (s.destroy id).extent = _
    rw [List.map_congr_left (g := s.extent) fun e he => ?_, hfilter]
    · rfl
    · have hne : e.2 ≠ id := of_decide_eq_true (List.mem_filter.mp he).2
      rw [Sys.extent, Sys.extent, show (s.destroy id).sl e.2 = s.sl e.2 from update_of_ne hne ..]
  rw [hlist, show (s.destroy id).heap = s.heap from rfl, events]
  have hrun := releases (m := s.heap) h.apart hnd fun f hf => by
    obtain ⟨e, he, rfl⟩ := List.mem_map.mp hf
    exact List.mem_map_of_mem (List.mem_of_mem_filter he)
  rwa [List.map_map] at hrun

theorem SysInv.seen_write (h : SysInv s L) (ha : s.sl id = some a) (hx : (x, id) ∈ s.live) {i : Nat}
    (hi : i < a.objSize) (b : BitVec 8) :
    Steps ObjStep (objects s.heap s.held) [.write x i b]
    (objects (s.heap.setByte (x + i) b) s.held) := by
  have hself : s.extent (x, id) = ⟨x, a.objSize⟩ := Sys.extent_eq ha
  have hmem : (⟨x, a.objSize⟩ : Extent) ∈ s.held := hself ▸ List.mem_map_of_mem hx
  have hset := objects_setByte (m := s.heap) (v := b) h.apart hmem hi
  refine (Steps.nil _).snoc (hset ▸ ObjStep.write (objects_of_mem h.apart hmem) ?_)
  rw [contents_length]
  exact hi

/-- **One careful step**, of any thread on any allocator. -/
theorem SysInv.seen (h : SysInv s L) (hstep : Step s act s') (hc : Careful s act) :
    Steps ObjStep (objects s.heap s.held) (events s act) (objects s'.heap s'.held) := by
  cases hstep with
  | create hcr =>
    rw [h.seen_create]
    exact Steps.nil _
  | alloc ha hos => exact h.seen_alloc ha hc hos
  | free ha hx => exact h.seen_free ha hx _
  | destroy ha => exact h.seen_destroy _
  | write ha hx hi => exact h.seen_write ha hx hi _

end

/-- **Threads that share slab allocators see objects of their own.**  In every run of careful calls,
by any threads on any allocators in any order, with allocators created and destroyed in between:
what the clients see is a run of independent objects, and a request that fits a slot is refused only
if the system gives no memory. -/
theorem slab_objects {evss : List (List Event)} {s : Sys} (hrun : Steps Seen Sys.init evss s) :
    Steps ObjStep noObjects evss.flatten (objects s.heap s.held)
      ∧ ∀ t id a size os, s.sl id = some a → size ≤ a.objSize → os.mem ≠ 0 →
      Fresh s.shape os.mem a.slabBytes →
        Careful s (.alloc t id size os) → (slAllocate os (s.call t a) size).1 ≠ 0 := by
  have hall : (∃ L, SysInv s L) ∧ Steps ObjStep noObjects evss.flatten (objects s.heap s.held) := by
    refine hrun.invariant_trace (I := fun evss s => (∃ L, SysInv s L)
      ∧ Steps ObjStep noObjects evss.flatten (objects s.heap s.held))
        ⟨⟨_, SysInv.init⟩, Steps.nil _⟩ ?_
    rintro evss s evs s' ⟨⟨L, hL⟩, hobjs⟩ ⟨act, ⟨hstep, hc⟩, rfl⟩
    refine ⟨hL.step hstep hc, ?_⟩
    rw [List.flatten_append, List.flatten_singleton]
    exact hobjs.trans (hL.seen hstep hc)
  obtain ⟨⟨L, hL⟩, hobjs⟩ := hall
  refine ⟨hobjs, fun t id a size os ha hsize hmem hfr hc => ?_⟩
  rcases hL.alloc ha hc (fun _ => hfr) with ⟨-, hwhy, -⟩ | ⟨-, -, L', hserv, -⟩
  · rcases hwhy with hlarge | ⟨-, h0⟩
    · omega
    · exact absurd h0 hmem
  · exact hserv.ne_zero

/-- an allocator is created, thread 0 takes a slot of it and the last byte of the slot is written -/
theorem slab_objects_one_slot : ∃ s, Steps Seen Sys.init
      [[], [.grant (2 ^ 20) 2048], [.write (2 ^ 20) 2047 0x21#8]] s
    ∧ Steps ObjStep noObjects [.grant (2 ^ 20) 2048, .write (2 ^ 20) 2047 0x21#8]
    (objects s.heap s.held) := by
  have hp : (slAllocate sampleOs (sampleOne.call 0 sampleSlab) 100).1 = 2 ^ 20 := by decide +kernel
  have hcare : Careful sampleOne (.alloc 0 0 100 sampleOs) := by
    intro a _ _
    exact ⟨fun hmag => absurd rfl hmag, fun _ _ _ _ => rfl⟩
  have hone : sampleOne.sl 0 = some sampleSlab := rfl
  have s1 : Seen Sys.init [] sampleOne :=
    ⟨.create sampleVm true 2048 4096, ⟨.create sampleSlab_create, trivial⟩, rfl⟩
  have s2 : Seen sampleOne [.grant (2 ^ 20) 2048]
      (sampleOne.alloc 0 0 sampleSlab 100 sampleOs) := by
    refine ⟨.alloc 0 0 100 sampleOs, ⟨.alloc hone fun _ => sampleOne_fresh, hcare⟩, ?_⟩
    rw [events, hone]
    dsimp only
    rw [hp, if_neg (by omega)]
    rfl
  have hlive : (2 ^ 20, 0) ∈ (sampleOne.alloc 0 0 sampleSlab 100 sampleOs).live := by
    rw [Sys.alloc]
    dsimp only
    rw [hp, if_neg (by omega)]
    exact List.mem_cons_self
  have hobj : (slAllocate sampleOs (sampleOne.call 0 sampleSlab) 100).2.a.objSize = 2048 := by
    decide +kernel
  have s3 :=
    (⟨.write 0 (2 ^ 20) 2047 0x21#8,
    ⟨.write Sys.alloc_sl hlive (by rw [hobj]; omega), trivial⟩, rfl⟩ :
    Seen (sampleOne.alloc 0 0 sampleSlab 100 sampleOs) [.write (2 ^ 20) 2047 0x21#8] _)
  have hrun := (((Steps.nil _).snoc s1).snoc s2).snoc s3
  exact ⟨_, hrun, (slab_objects hrun).1⟩

end HeapForge.Slab
