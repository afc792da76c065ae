import HeapForge.Lib.Run
import HeapForge.Slab.Refine

/-!
# Slab allocators in one process

Any number of allocators, any number of threads, calls in any order.  Each call holds the mutex of
its allocator, and the magazine belongs to the thread, so a run is a sequence of whole calls.

* `Sys`, `Step`          the process and what can happen in it;
* `Sys.tags`             which allocator each slot in a magazine was put there through;
* `Careful`              a call pops the magazine only if its own allocator filled it;
* `SysInv`               the places follow every careful step;
* `magazine_isolated`    **then a call returns a slot of its own allocator, and none that is live.**
-/

set_option linter.unusedSectionVars false
set_option linter.unusedVariables false

namespace HeapForge.Slab
open Lib Function

/-! ## the process -/

structure Sys where
  heap : Mem
  /-- `tl_magazine` of each thread -/
  mag : Nat → Nat
  /-- the allocators that live; number `count` is the next to be created -/
  sl : Nat → Option SlAlloc
  count : Nat
  /-- the pointers handed out and not freed, each with its allocator -/
  live : List (Nat × Nat)
  /-- for every slot in a magazine the allocator of the call that put it there -/
  tags : Nat → List Nat

def Sys.init : Sys := ⟨Mem.zero, fun _ => 0, fun _ => none, 0, [], fun _ => []⟩

def Sys.shape (s : Sys) (id : Nat) : Option Shape := (s.sl id).map SlAlloc.shape

/-- what a call by thread `t` on the allocator `a` works on -/
def Sys.call (s : Sys) (t : Nat) (a : SlAlloc) : Call := ⟨a, s.heap, s.mag t⟩

/-- the process after a call by thread `t` on allocator `id` -/
def Sys.put (s : Sys) (t id : Nat) (c : Call) : Sys :=
  { s with heap := c.heap, mag := update s.mag t c.mag, sl := update s.sl id (some c.a) }

/-- a slot leaves the magazine; an empty one is filled before -/
def tagsAlloc (os : Os) (c : Call) (id size : Nat) (tags : List Nat) : List Nat :=
  if size > c.a.objSize then tags
  else if tags = [] then List.replicate (taken os { c with a := countAlloc c.a } - 1) id
  else tags.tail

def Sys.alloc (s : Sys) (t id : Nat) (a : SlAlloc) (size : Nat) (os : Os) : Sys :=
  let r := slAllocate os (s.call t a) size
  { s.put t id r.2 with
    live := if r.1 = 0 then s.live else (r.1, id) :: s.live
    tags := update s.tags t (tagsAlloc os (s.call t a) id size (s.tags t)) }

def Sys.free (s : Sys) (t id : Nat) (a : SlAlloc) (x : Nat) : Sys :=
  { s.put t id (slDeallocate (s.call t a) x) with
    live := s.live.erase (x, id)
    tags := update s.tags t (id :: s.tags t) }

def Sys.create (s : Sys) (a : SlAlloc) : Sys :=
  { s with sl := update s.sl s.count (some a), count := s.count + 1 }

/-- the memory goes back to the system; nobody empties the magazines -/
def Sys.destroy (s : Sys) (id : Nat) : Sys :=
  { s with sl := update s.sl id none, live := s.live.filter fun e => e.2 ≠ id }

inductive Act
  | create (vm : Vm) (handle : Bool) (objectSize slabBytes : Nat)
  | alloc (t id size : Nat) (os : Os)
  | free (t id x : Nat)
  | destroy (id : Nat)
  | write (id x i : Nat) (b : BitVec 8)

/-- the calls of the process, and its writes into live objects.  The system hands out memory that
is not in use. -/
inductive Step (s : Sys) : Act → Sys → Prop
  | create {vm handle objectSize slabBytes a}
  (h : hfSlabCreate vm handle objectSize slabBytes = some a) :
    Step s (.create vm handle objectSize slabBytes) (s.create a)
  | alloc {t id size os a} (h : s.sl id = some a)
      (hos : os.mem ≠ 0 → Fresh s.shape os.mem a.slabBytes) :
    Step s (.alloc t id size os) (s.alloc t id a size os)
  | free {t id x a} (h : s.sl id = some a) (hx : (x, id) ∈ s.live) :
    Step s (.free t id x) (s.free t id a x)
  | destroy {id a} (h : s.sl id = some a) : Step s (.destroy id) (s.destroy id)
  | write {id x i b a} (h : s.sl id = some a) (hx : (x, id) ∈ s.live) (hi : i < a.objSize) :
    Step s (.write id x i b) { s with heap := s.heap.setByte (x + i) b }

/-- the magazine that a call pops was filled through the same allocator, and a slab that is cut into
slots is recorded -/
def Careful (s : Sys) : Act → Prop
  | .alloc t id size os => ∀ a, s.sl id = some a → size ≤ a.objSize →
    (s.mag t ≠ 0 → (s.tags t).head? = some id)
      ∧ (s.mag t = 0 → a.centralFree = 0 → os.mem ≠ 0 → a.slabCount = a.slabCap → os.realloc = true)
  | _ => True

/-! ## the invariant -/

def Sys.pointers (s : Sys) : Pointers :=
  ⟨s.shape, fun id => ((s.sl id).map SlAlloc.centralFree).getD 0, s.mag, nodeNext s.heap⟩

structure SysInv (s : Sys) (L : Places) : Prop where
  places : PInv s.pointers L
  live : L.live = s.live
  tags : ∀ t, (L.cache t).map Prod.snd = s.tags t
  unborn : ∀ id, s.count ≤ id → s.sl id = none
  tagged : ∀ t, ∀ id ∈ s.tags t, id < s.count

section
variable {s s' : Sys} {L L' : Places} {t id x size : Nat} {a : SlAlloc} {c : Call} {os : Os}
  {act : Act}

theorem Sys.shape_eq (h : s.sl id = some a) : s.shape id = some a.shape := by
  rw [Sys.shape, h, Option.map_some]

theorem Sys.shape_put : (s.put t id c).shape = update s.shape id (some c.a.shape) := by
  funext j
  rw [Sys.shape, Sys.put]
  by_cases hj : j = id
  · subst hj
    simp
  · simp [update_of_ne hj, Sys.shape]

/-- the pointers after a call -/
theorem Sys.put_pointers : (s.put t id c).pointers =
    ⟨update s.shape id (some c.a.shape), update s.pointers.head id c.a.centralFree,
      update s.mag t c.mag, nodeNext c.heap⟩ := by
  rw [Sys.pointers, Sys.shape_put]
  refine congrArg₂ (fun h m => Pointers.mk _ h m _) (funext fun j => ?_) rfl
  rw [Sys.put]
  by_cases hj : j = id
  · subst hj
    simp
  · simp [update_of_ne hj, Sys.pointers]

theorem SysInv.callInv (h : SysInv s L) (ha : s.sl id = some a) (t : Nat) :
    CallInv s.shape s.pointers.head s.mag t id (s.call t a) L := by
  have h1 : update s.shape id (some a.shape) = s.shape :=
    (update_eq_self_iff ..).mpr (Sys.shape_eq ha).symm
  have h2 : update s.pointers.head id a.centralFree = s.pointers.head :=
    (update_eq_self_iff ..).mpr (by simp [Sys.pointers, ha])
  have h3 : update s.mag t (s.mag t) = s.mag := update_eq_self ..
  rw [CallInv, Sys.call]
  dsimp only
  rw [h1, h2, h3]
  exact h.places

theorem CallInv.put (h : CallInv s.shape s.pointers.head s.mag t id c L) :
    PInv (s.put t id c).pointers L := by
  rw [Sys.put_pointers]
  exact h

theorem SysInv.id_lt (h : SysInv s L) (ha : s.sl id = some a) : id < s.count := by
  by_contra hlt
  rw [h.unborn id (Nat.le_of_not_lt hlt)] at ha
  exact absurd ha (by simp)

theorem Sys.alloc_sl : (s.alloc t id a size os).sl id
    = some (slAllocate os (s.call t a) size).2.a := by
  rw [Sys.alloc]
  exact update_self id _ s.sl

theorem Sys.free_sl : (s.free t id a x).sl id = some (slDeallocate (s.call t a) x).a := by
  rw [Sys.free]
  exact update_self id _ s.sl

/-- a call creates no allocator -/
theorem SysInv.unborn_put (h : SysInv s L) (ha : s.sl id = some a) (j : Nat) (hj : s.count ≤ j) :
    (s.put t id c).sl j = none := by
  have hne : j ≠ id := by
    have := h.id_lt ha
    omega
  exact (update_of_ne hne _ _).trans (h.unborn j hj)

theorem SysInv.init : SysInv Sys.init ⟨[], fun _ => [], fun _ => [], fun _ => .central⟩ := by
  have hno : ∀ id s, Sys.init.pointers.shape id = some s → False := fun id s h => by
    simp [Sys.init, Sys.pointers, Sys.shape] at h
  have hna : ∀ id, Sys.init.pointers.Alive id → False := fun id ⟨s, hs⟩ => hno id s hs
  refine ⟨⟨⟨fun id s h => (hno id s h).elim, fun id _ s _ h => (hno id s h).elim⟩,
    fun id h => (hna id h).elim, fun _ => rfl, fun _ => trivial, ?_,
      fun id s h => (hno id s h).elim,
    fun id s h => (hno id s h).elim, fun id s h => (hno id s h).elim, ?_, ?_, ?_, List.nodup_nil⟩,
    rfl, fun _ => rfl, fun _ _ => rfl, ?_⟩
  · exact fun _ e he => absurd he List.not_mem_nil
  · exact fun e he => absurd he List.not_mem_nil
  · exact fun _ _ => List.nodup_nil
  · exact fun _ => List.nodup_nil
  · exact fun _ id hid => absurd hid List.not_mem_nil

/-- the condition, said about the places -/
theorem SysInv.careful (h : SysInv s L) (ha : s.sl id = some a)
    (hc : Careful s (.alloc t id size os)) (hos : os.mem ≠ 0 → Fresh s.shape os.mem a.slabBytes)
    (hsize : size ≤ a.objSize) :
    (∀ e ∈ (L.cache t).head?, e.2 = id)
      ∧ (stock L t id = [] → os.Ok (update s.shape id (some a.shape)) (s.call t a)) := by
  have hci := h.callInv ha t
  obtain ⟨h1, h2⟩ := hc a ha hsize
  constructor
  · intro e he
    have hne : s.mag t ≠ 0 := fun h0 => by
      rw [hci.mag_eq_zero.mp h0] at he
      exact absurd he (by simp)
    have := h1 hne
    rw [← h.tags t, List.head?_map, he] at this
    exact Option.some.inj this
  · intro hstock
    obtain ⟨h3, h4⟩ := List.append_eq_nil_iff.mp hstock
    rw [(update_eq_self_iff ..).mpr (Sys.shape_eq ha).symm]
    exact ⟨hos, h2 (hci.mag_eq_zero.mpr (List.map_eq_nil_iff.mp h3))
      (hci.centralFree_eq_zero.mpr h4)⟩

/-! ### the steps keep it -/

theorem SysInv.tags_nil (h : SysInv s L) (t : Nat) : s.tags t = [] ↔ L.cache t = [] := by
  rw [← h.tags t, List.map_eq_nil_iff]

theorem SysInv.alloc (h : SysInv s L) (ha : s.sl id = some a) (hc : Careful s (.alloc t id size os))
    (hos : os.mem ≠ 0 → Fresh s.shape os.mem a.slabBytes) :
    (slAllocate os (s.call t a) size = (0, { s.call t a with a := countFailed (countAlloc a) })
        ∧ (a.objSize < size ∨ stock L t id = [] ∧ os.mem = 0) ∧ SysInv (s.alloc t id a size os) L)
      ∨ (size ≤ a.objSize ∧ (stock L t id = [] → os.mem ≠ 0)
        ∧ ∃ L', Served s.shape s.pointers.head s.mag t id L (grown os (countAlloc a) (stock L t id))
            (grownStock os a (stock L t id)) (taken os { s.call t a with a := countAlloc a })
            (slAllocate os (s.call t a) size) L'
          ∧ SysInv (s.alloc t id a size os) L') := by
  have hci := h.callInv ha t
  have hcare := h.careful ha hc hos
  have hlt := h.id_lt ha
  rcases hci.allocate (fun hs => (hcare hs).1) (fun hs => (hcare hs).2) with
    ⟨heq, hwhy⟩ | ⟨hsize, hgive, L', hL'⟩
  · -- nothing is returned, and no list changes
    have htags : tagsAlloc os (s.call t a) id size (s.tags t) = s.tags t := by
      rw [tagsAlloc]
      by_cases hsize : size > (s.call t a).a.objSize
      · exact if_pos hsize
      · obtain ⟨hstock, hmem⟩ := hwhy.resolve_left hsize
        obtain ⟨h3, h4⟩ := List.append_eq_nil_iff.mp hstock
        have hnil := (h.tags_nil t).mpr (List.map_eq_nil_iff.mp h3)
        have hcf : (countAlloc a).centralFree = 0 :=
          (countAlloc_centralFree a).trans (hci.centralFree_eq_zero.mpr h4)
        rw [if_neg hsize, if_pos hnil, taken_eq_zero hcf hmem, hnil]
        rfl
    refine Or.inl ⟨heq, hwhy, ?_⟩
    rw [Sys.alloc, heq, htags]
    refine ⟨?_, ?_, ?_, ?_, ?_⟩
    · have hci' : CallInv s.shape s.pointers.head s.mag t id
          { s.call t a with a := countFailed (countAlloc a) } L :=
        hci.congr ((countFailed_shape _).trans (countAlloc_shape a))
          ((countFailed_centralFree _).trans (countAlloc_centralFree a)) rfl rfl
      exact hci'.put
    · exact h.live
    · dsimp only
      rw [update_eq_self]
      exact h.tags
    · exact fun j hj => h.unborn_put (t := t) ha j hj
    · dsimp only
      rw [update_eq_self]
      exact h.tagged
  · have htags : (L'.cache t).map Prod.snd = tagsAlloc os (s.call t a) id size (s.tags t) := by
      rw [tagsAlloc, if_neg (show ¬ size > (s.call t a).a.objSize from Nat.not_lt.mpr hsize),
        hL'.owners, h.tags t]
      exact if_congr (h.tags_nil t).symm rfl rfl
    refine Or.inr ⟨hsize, hgive, L', hL', ?_⟩
    rw [Sys.alloc]
    refine ⟨hL'.inv.put, ?_, ?_, ?_, ?_⟩
    · dsimp only
      rw [if_neg hL'.ne_zero, hL'.live, h.live]
    · intro t'
      dsimp only
      by_cases ht : t' = t
      · subst ht
        rw [update_self]
        exact htags
      · rw [update_of_ne ht, hL'.others t' ht]
        exact h.tags t'
    · exact fun j hj => h.unborn_put (t := t) ha j hj
    · refine (forall_update_iff s.tags fun _ l => ∀ j ∈ l, j < s.count).mpr
        ⟨?_, fun t' _ => h.tagged t'⟩
      intro j hj
      rw [tagsAlloc, if_neg (show ¬ size > (s.call t a).a.objSize from Nat.not_lt.mpr hsize)] at hj
      by_cases hnil : s.tags t = []
      · rw [if_pos hnil] at hj
        rw [List.eq_of_mem_replicate hj]
        exact hlt
      · rw [if_neg hnil] at hj
        exact h.tagged t j (List.mem_of_mem_tail hj)

theorem SysInv.free (h : SysInv s L) (ha : s.sl id = some a) (hx : (x, id) ∈ s.live) (t : Nat) :
    SysInv (s.free t id a x)
      { L with
        live := L.live.erase (x, id)
        cache := update L.cache t ((x, id) :: L.cache t)
        place := update L.place x (.cached t) } := by
  have hd := ((h.callInv ha t).deallocate (h.live ▸ hx)).2
  refine ⟨hd.put, ?_, ?_, fun j hj => h.unborn_put (t := t) ha j hj, ?_⟩
  · exact congrArg (List.erase · (x, id)) h.live
  · intro t'
    simp only [Sys.free]
    by_cases ht : t' = t
    · subst ht
      rw [update_self, update_self, List.map_cons, h.tags t']
    · rw [update_of_ne ht, update_of_ne ht]
      exact h.tags t'
  · refine (forall_update_iff s.tags fun _ l => ∀ j ∈ l, j < s.count).mpr
      ⟨?_, fun t' _ => h.tagged t'⟩
    intro j hj
    rcases List.mem_cons.mp hj with rfl | hj
    · exact h.id_lt ha
    · exact h.tagged t j hj

theorem hfSlabCreate_spec {vm : Vm} {handle : Bool} {objectSize slabBytes : Nat}
    (h : hfSlabCreate vm handle objectSize slabBytes = some a) :
    a.shape.Ok ∧ a.slabs = [] ∧ a.centralFree = 0 ∧ a.stats = Stats.fresh 0
      ∧ a.slotsPerSlab = a.slabBytes / a.objSize := by
  rw [hfSlabCreate] at h
  generalize hobj : hfAlignUp (if objectSize < 8 then 8 else objectSize) HF_DEFAULT_ALIGN = obj at h
  generalize hfAlignUp (if slabBytes = 0 then 64 * 1024 else slabBytes) vm.pageSize = bytes at h
  have hd : 2 ^ 4 ∣ obj := hobj ▸ hfAlignUp_dvd _ (by decide)
  by_cases hz : obj = 0 ∨ bytes / obj = 0
  · rw [if_pos hz] at h
    exact absurd h (by simp)
  rw [if_neg hz] at h
  rw [not_or] at hz
  cases handle with
  | false => exact absurd h (by simp)
  | true =>
    obtain rfl := Option.some.inj h
    refine ⟨⟨?_, Nat.mod_eq_zero_of_dvd hd, Nat.pos_of_ne_zero hz.2, Nat.div_mul_le_self .., ?_,
      List.nodup_nil, ?_⟩, rfl, rfl, rfl, rfl⟩
    · exact Nat.le_of_dvd (Nat.pos_of_ne_zero hz.1) hd
    · exact fun b hb => absurd hb List.not_mem_nil
    · exact fun b hb => absurd hb List.not_mem_nil

theorem SysInv.create (h : SysInv s L) (hok : a.shape.Ok) (h0 : a.slabs = [])
    (hcf : a.centralFree = 0) :
    SysInv (s.create a) { L with central := update L.central s.count [] } := by
  have hnone : s.pointers.shape s.count = none := by
    simp [Sys.pointers, Sys.shape, h.unborn s.count (Nat.le_refl _)]
  have hnew := h.places.create hnone hok h0
    (fun t e he hcount => by
      have := h.tagged t e.2 (by rw [← h.tags t]; exact List.mem_map_of_mem he)
      omega)
  have hp : (s.create a).pointers = { s.pointers with
      shape := update s.pointers.shape s.count (some a.shape)
      head := update s.pointers.head s.count 0 } := by
    have h1 : (s.create a).shape = update s.shape s.count (some a.shape) := by
      funext j
      rw [Sys.shape, Sys.create]
      by_cases hj : j = s.count
      · subst hj
        simp
      · simp [update_of_ne hj, Sys.shape]
    rw [Sys.pointers, h1]
    refine congrArg (fun h => Pointers.mk _ h _ _) (funext fun j => ?_)
    rw [Sys.create]
    by_cases hj : j = s.count
    · subst hj
      simp [hcf]
    · simp [update_of_ne hj, Sys.pointers]
  refine ⟨hp ▸ hnew, h.live, h.tags, fun j hj => ?_,
    fun t j hj => Nat.lt_succ_of_lt (h.tagged t j hj)⟩
  have hj : s.count + 1 ≤ j := hj
  exact (update_of_ne (by omega) _ _).trans (h.unborn j (by omega))

theorem SysInv.destroy (h : SysInv s L) (id : Nat) :
    SysInv (s.destroy id) { L with live := L.live.filter fun e => e.2 ≠ id } := by
  have hp : (s.destroy id).pointers = { s.pointers with
      shape := update s.pointers.shape id none, head := update s.pointers.head id 0 } := by
    have h1 : (s.destroy id).shape = update s.shape id none := by
      funext j
      rw [Sys.shape, Sys.destroy]
      by_cases hj : j = id
      · subst hj
        simp
      · simp [update_of_ne hj, Sys.shape]
    rw [Sys.pointers, h1]
    refine congrArg (fun h => Pointers.mk _ h _ _) (funext fun j => ?_)
    rw [Sys.destroy]
    by_cases hj : j = id
    · subst hj
      simp
    · simp [update_of_ne hj, Sys.pointers]
  refine ⟨hp ▸ h.places.destroy id, congrArg (List.filter _) h.live, h.tags,
    fun j hj => ?_, h.tagged⟩
  have hj : s.count ≤ j := hj
  by_cases hji : j = id
  · exact hji ▸ update_self ..
  · exact (update_of_ne hji _ _).trans (h.unborn j hj)

/-- a write into a live slot touches no list -/
theorem SysInv.write (h : SysInv s L) (ha : s.sl id = some a) (hx : (x, id) ∈ s.live) {i : Nat}
    (hi : i < a.objSize) (b : BitVec 8) : SysInv { s with heap := s.heap.setByte (x + i) b } L := by
  have hs : s.pointers.shape id = some a.shape := Sys.shape_eq ha
  obtain ⟨hsx, hwx⟩ := (h.places.live_mem id _ hs x).mp (h.live ▸ hx)
  refine ⟨h.places.rewire fun j s' y hs' hy hw => ?_, h.live, h.tags, h.unborn, h.tagged⟩
  refine Mem.load64_setByte_of_disjoint ?_
  have hne : x ≠ y := fun e => hw (e ▸ hwx)
  have hobj := (h.places.regions.ok j s' hs').obj_ge
  have hi : i < a.shape.objSize := hi
  by_cases hj : j = id
  · subst hj
    obtain rfl := Option.some.inj (hs'.symm.trans hs)
    have := (h.places.regions.ok j _ hs).slot_apart hsx hy hne
    omega
  · have := h.places.regions.slot_apart hs hs' (Ne.symm hj) hsx hy
    omega

/-- **Every careful step keeps the places.** -/
theorem SysInv.step (h : SysInv s L) (hstep : Step s act s') (hc : Careful s act) :
    ∃ L', SysInv s' L' := by
  cases hstep with
  | create hcr =>
    obtain ⟨h1, h2, h3, -⟩ := hfSlabCreate_spec hcr
    exact ⟨_, h.create h1 h2 h3⟩
  | alloc ha hos =>
    rcases h.alloc ha hc hos with ⟨-, -, hL⟩ | ⟨-, -, L', -, hL'⟩
    · exact ⟨L, hL⟩
    · exact ⟨L', hL'⟩
  | free ha hx => exact ⟨_, h.free ha hx _⟩
  | destroy ha => exact ⟨_, h.destroy _⟩
  | write ha hx hi => exact ⟨L, h.write ha hx hi _⟩

/-- a step, if the call is careful -/
def CarefulStep (s : Sys) (act : Act) (s' : Sys) : Prop := Step s act s' ∧ Careful s act

theorem SysInv.of_run {acts : List Act} (h : Steps CarefulStep Sys.init acts s) : ∃ L, SysInv s L :=
  h.invariant (I := fun s => ∃ L, SysInv s L) ⟨_, SysInv.init⟩ fun s act s' ⟨L, hL⟩ hstep =>
    hL.step hstep.1 hstep.2

/-! ## isolation -/

/-- a pointer that a careful call returns is a slot of the allocator, and not live -/
theorem SysInv.returned (hL : SysInv s L) (ha : s.sl id = some a)
    (hos : os.mem ≠ 0 → Fresh s.shape os.mem a.slabBytes) (hc : Careful s (.alloc t id size os))
    (hp : (slAllocate os (s.call t a) size).1 ≠ 0) :
    (∃ b ∈ (slAllocate os (s.call t a) size).2.a.slabs, ∃ i < a.slotsPerSlab,
        (slAllocate os (s.call t a) size).1 = b + i * a.objSize
          ∧ (slAllocate os (s.call t a) size).1 + a.objSize ≤ b + a.slabBytes)
      ∧ ∀ e ∈ s.live, e.1 ≠ (slAllocate os (s.call t a) size).1 := by
  rcases hL.alloc ha hc hos with ⟨heq, -, -⟩ | ⟨hsize, hgive, L', hserv, -⟩
  · exact absurd (congrArg Prod.fst heq) hp
  obtain ⟨b, hb, i, hi, hx⟩ := hserv.isSlot.1
  have hok := hserv.inv.ok
  rw [hserv.shape] at hok
  have hle := hok.slot_le hi
  have hsame : (grown os (countAlloc a) (stock L t id)).shape.objSize = a.objSize
      ∧ (grown os (countAlloc a) (stock L t id)).shape.slotsPerSlab = a.slotsPerSlab
      ∧ (grown os (countAlloc a) (stock L t id)).shape.slabBytes = a.slabBytes := by
    rw [grown_shape]
    split <;> exact ⟨rfl, rfl, rfl⟩
  rw [hsame.1] at hx hle
  rw [hsame.2.1] at hi
  rw [hsame.2.2] at hle
  refine ⟨⟨b, ?_, i, hi, hx, by omega⟩, hL.live ▸ hserv.fresh⟩
  have hslabs : (slAllocate os (s.call t a) size).2.a.slabs = _ := congrArg Shape.slabs hserv.shape
  rw [hslabs]
  exact hb

/-- **In a run of careful calls every pointer returned is the start of a slot of a slab that the
allocator owns, and not the address of a live object of any allocator.** -/
theorem magazine_isolated {acts : List Act} (hrun : Steps CarefulStep Sys.init acts s)
    (ha : s.sl id = some a) (hos : os.mem ≠ 0 → Fresh s.shape os.mem a.slabBytes)
    (hc : Careful s (.alloc t id size os)) (hp : (slAllocate os (s.call t a) size).1 ≠ 0) :
    (∃ b ∈ (slAllocate os (s.call t a) size).2.a.slabs, ∃ i < a.slotsPerSlab,
        (slAllocate os (s.call t a) size).1 = b + i * a.objSize
          ∧ (slAllocate os (s.call t a) size).1 + a.objSize ≤ b + a.slabBytes)
      ∧ ∀ e ∈ s.live, e.1 ≠ (slAllocate os (s.call t a) size).1 := by
  obtain ⟨L, hL⟩ := SysInv.of_run hrun
  exact hL.returned ha hos hc hp

end

/-! ### two allocators and one thread -/

/-- two slots of 2048 bytes per slab -/
def sampleSlab : SlAlloc := ⟨2048, 4096, 2, [], 0, 0, Stats.fresh 0⟩

/-- a slab at address 2^20 -/
def sampleOs : Os := ⟨2 ^ 20, true⟩

theorem sampleSlab_create : hfSlabCreate sampleVm true 2048 4096 = some sampleSlab := by
  decide +kernel

/-- one allocator -/
def sampleOne : Sys := Sys.init.create sampleSlab

theorem sampleOne_run : Steps CarefulStep Sys.init [.create sampleVm true 2048 4096] sampleOne :=
  (Steps.nil _).snoc ⟨.create sampleSlab_create, trivial⟩

/-- a process without allocators uses no memory -/
theorem fresh_init {b n : Nat} (hb : 0 < b ∧ b % 16 = 0 ∧ b + n < 2 ^ 64) :
    Fresh Sys.init.shape b n :=
  ⟨hb, fun _ _ hs => absurd hs (by simp [Sys.shape, Sys.init])⟩

/-- one more allocator does not matter, if its slabs lie apart -/
theorem Fresh.put {s s' : Sys} {a : SlAlloc} {id b n : Nat} (h : Fresh s.shape b n)
    (hsl : s'.sl = update s.sl id (some a)) (ha : ∀ c ∈ a.slabs, b + n ≤ c ∨ c + a.slabBytes ≤ b) :
    Fresh s'.shape b n := by
  refine ⟨h.base, fun j p hp c hc => ?_⟩
  unfold Sys.shape at hp
  rw [hsl] at hp
  by_cases hj : j = id
  · rw [hj, update_self] at hp
    obtain rfl := Option.some.inj hp
    exact ha c hc
  · rw [update_of_ne hj] at hp
    exact h.apart j p hp c hc

theorem Fresh.create {s : Sys} {a : SlAlloc} {b n : Nat} (h : Fresh s.shape b n)
    (ha : a.slabs = []) :
    Fresh (s.create a).shape b n :=
  h.put rfl fun c hc => absurd (ha ▸ hc) List.not_mem_nil

theorem sampleOne_fresh : Fresh sampleOne.shape (2 ^ 20) 4096 := (fresh_init (by decide)).create rfl

/-- a second allocator with the same sizes -/
def sampleTwo : Sys := sampleOne.create sampleSlab

theorem sampleTwo_fresh : Fresh sampleTwo.shape (2 ^ 20) 4096 := sampleOne_fresh.create rfl

/-- the first allocator, after its first slot was taken -/
def sampleTaken : SlAlloc := (slAllocate sampleOs (sampleTwo.call 0 sampleSlab) 100).2.a

/-- thread 0 has taken a slot of the first allocator -/
def sampleHalf : Sys := sampleTwo.alloc 0 0 sampleSlab 100 sampleOs

/-- a slab at address 2^21 -/
def otherOs : Os := ⟨2 ^ 21, true⟩

/-- the system has no memory -/
def noOs : Os := ⟨0, true⟩

/-- and thread 1 one of the second; both magazines have a slot left -/
def sampleBoth : Sys := sampleHalf.alloc 1 1 sampleSlab 100 otherOs

theorem sampleBoth_run : Steps CarefulStep Sys.init [.create sampleVm true 2048 4096,
    .create sampleVm true 2048 4096, .alloc 0 0 100 sampleOs, .alloc 1 1 100 otherOs]
    sampleBoth := by
  have hslabs : sampleTaken.slabs = [2 ^ 20] := by decide +kernel
  have hfresh : Fresh sampleHalf.shape (2 ^ 21) 4096 := by
    refine (((fresh_init (by decide)).create rfl).create rfl).put
      (a := sampleTaken) rfl fun c hc => Or.inr ?_
    rw [hslabs, List.mem_singleton] at hc
    rw [hc]
    decide +kernel
  have h1 : Careful sampleTwo (.alloc 0 0 100 sampleOs) := fun a _ _ =>
    ⟨fun hmag => absurd rfl hmag, fun _ _ _ _ => rfl⟩
  have h2 : Careful sampleHalf (.alloc 1 1 100 otherOs) := fun a _ _ =>
    ⟨fun hmag => absurd rfl hmag, fun _ _ _ _ => rfl⟩
  have htwo : Steps CarefulStep Sys.init
    [.create sampleVm true 2048 4096, .create sampleVm true 2048 4096]
      sampleTwo := sampleOne_run.snoc ⟨.create sampleSlab_create, trivial⟩
  exact (htwo.snoc ⟨.alloc rfl fun _ => sampleTwo_fresh, h1⟩).snoc ⟨.alloc rfl fun _ => hfresh, h2⟩

/-- thread 0 takes the slot that is left in its magazine, while a slot of each allocator is in
use -/
theorem magazine_isolated_second_slot :
    sampleBoth.live = [(2 ^ 21, 1), (2 ^ 20, 0)]
      ∧ (slAllocate noOs (sampleBoth.call 0 sampleTaken) 100).1 = 2 ^ 20 + 2048
      ∧ (∃ b ∈ (slAllocate noOs (sampleBoth.call 0 sampleTaken) 100).2.a.slabs, ∃ i < 2,
          (slAllocate noOs (sampleBoth.call 0 sampleTaken) 100).1 = b + i * 2048
            ∧ (slAllocate noOs (sampleBoth.call 0 sampleTaken) 100).1 + 2048 ≤ b + 4096)
      ∧ ∀ e ∈ sampleBoth.live, e.1 ≠ (slAllocate noOs (sampleBoth.call 0 sampleTaken) 100).1 := by
  have hlive : sampleBoth.live = [(2 ^ 21, 1), (2 ^ 20, 0)] := by decide +kernel
  have hp : (slAllocate noOs (sampleBoth.call 0 sampleTaken) 100).1 = 2 ^ 20 + 2048 := by
    decide +kernel
  have hmag : sampleBoth.mag 0 ≠ 0 := by decide +kernel
  have htag : (sampleBoth.tags 0).head? = some 0 := by decide +kernel
  have hsizes : sampleTaken.slotsPerSlab = 2 ∧ sampleTaken.objSize = 2048
      ∧ sampleTaken.slabBytes = 4096 := by
    decide +kernel
  have hcare : Careful sampleBoth (.alloc 0 0 100 noOs) :=
    fun a _ _ => ⟨fun _ => htag, fun h0 => absurd h0 hmag⟩
  have hnew : noOs.mem ≠ 0 → Fresh sampleBoth.shape noOs.mem sampleTaken.slabBytes :=
    fun h0 => absurd rfl h0
  have hfirst : sampleBoth.sl 0 = some sampleTaken := rfl
  have h := magazine_isolated sampleBoth_run hfirst hnew hcare (by rw [hp]; decide)
  rw [hsizes.1, hsizes.2.1, hsizes.2.2] at h
  exact ⟨hlive, hp, h⟩

/-- the slot was taken and freed -/
def sampleShared : Sys := sampleHalf.free 0 0 sampleTaken (2 ^ 20)

/-- **The magazine is shared**: after an allocation and a free on the first allocator, the same
thread's call on the second returns the slot of the first; the second has no slab at all. -/
theorem magazine_shared :
    Steps Step Sys.init [.create sampleVm true 2048 4096, .create sampleVm true 2048 4096,
        .alloc 0 0 100 sampleOs, .free 0 0 (2 ^ 20)] sampleShared
      ∧ sampleShared.sl 1 = some sampleSlab
      ∧ (slAllocate sampleOs (sampleShared.call 0 sampleSlab) 100).1 = 2 ^ 20
      ∧ (slAllocate sampleOs (sampleShared.call 0 sampleSlab) 100).2.a.slabs = []
      ∧ (sampleShared.sl 0).map SlAlloc.slabs = some [2 ^ 20] := by
  refine ⟨?_, rfl, by decide +kernel, by decide +kernel, by decide +kernel⟩
  have hlive : (2 ^ 20, 0) ∈ sampleHalf.live := by decide +kernel
  have h1 : Steps Step Sys.init _ sampleOne := (Steps.nil _).snoc (.create sampleSlab_create)
  have h2 : Steps Step Sys.init _ sampleTwo := h1.snoc (.create sampleSlab_create)
  have halloc : Step sampleTwo (.alloc 0 0 100 sampleOs) sampleHalf :=
    .alloc rfl fun _ => sampleTwo_fresh
  have h3 := h2.snoc halloc
  exact h3.snoc (.free rfl hlive)

end HeapForge.Slab
