import Mathlib.Algebra.BigOperators.Group.List.Basic
import HeapForge.Slab.Run

/-!
# One slab allocator and any number of threads

The only allocator of the process fills every magazine, so every call is careful.  Its slots are
then partitioned at all times, and the counters count what is live.

* `Shape.allSlots`         the slots of all slabs, each once;
* `Shape.Ok.total_lt`      the slabs fit into the address space, so the counters do not wrap;
* `OneInv`                 kept by every call and every write;
* `slots_partitioned`      **every slot is in exactly one place.**
-/

set_option linter.unusedSectionVars false
set_option linter.unusedVariables false

namespace HeapForge.Slab
open Lib Function

/-! ## counting slots -/

def Shape.allSlots (s : Shape) : List Nat := s.slabs.flatMap s.slots

section
variable {s : Shape} {x : Nat}

theorem Shape.mem_allSlots : x ∈ s.allSlots ↔ s.IsSlot x := by
  simp only [Shape.allSlots, List.mem_flatMap, Shape.mem_slots]
  rfl

theorem Shape.length_allSlots (s : Shape) :
    s.allSlots.length = s.slabs.length * s.slotsPerSlab := by
  rw [Shape.allSlots, List.length_flatMap]
  simp [Shape.slots]

theorem Shape.Ok.allSlots_nodup (h : s.Ok) : s.allSlots.Nodup := by
  refine List.nodup_flatMap.mpr ⟨fun b _ => h.slots_nodup b, ?_⟩
  refine h.nodup.imp_of_mem fun {b c} hb hc hne x hx hx' => ?_
  obtain ⟨i, hi, h1⟩ := Shape.mem_slots.mp hx
  obtain ⟨j, hj, h2⟩ := Shape.mem_slots.mp hx'
  have h3 := h.slot_le hi
  have h4 := h.slot_le hj
  have h5 := h.apart b hb c hc hne
  have h6 := h.obj_ge
  omega

theorem Shape.Ok.slabBytes_pos (h : s.Ok) : 0 < s.slabBytes :=
  Nat.lt_of_lt_of_le (Nat.mul_pos h.slots_pos (Nat.lt_of_lt_of_le (by decide) h.obj_ge)) h.fits

/-- disjoint slabs have different numbers when addresses are counted in slabs -/
theorem Shape.Ok.total_lt (h : s.Ok) : s.slabs.length * s.slabBytes < 2 ^ 64 := by
  have hpos := h.slabBytes_pos
  have hnd : (s.slabs.map (· / s.slabBytes)).Nodup := by
    refine h.nodup.map_on fun b hb c hc hbc => ?_
    by_contra hne
    have h1 : b / s.slabBytes = c / s.slabBytes := hbc
    have h2 := Nat.div_add_mod b s.slabBytes
    have h3 := Nat.div_add_mod c s.slabBytes
    have h4 := Nat.mod_lt b hpos
    have h5 := Nat.mod_lt c hpos
    rw [h1] at h2
    have := h.apart b hb c hc hne
    omega
  have hsub : s.slabs.map (· / s.slabBytes) ⊆ List.range ((2 ^ 64 - 1) / s.slabBytes) := by
    intro q hq
    obtain ⟨b, hb, rfl⟩ := List.mem_map.mp hq
    have := (h.base b hb).2.2
    rw [List.mem_range]
    calc b / s.slabBytes < b / s.slabBytes + 1 := Nat.lt_succ_self _
      _ = (b + s.slabBytes) / s.slabBytes := (Nat.add_div_right b hpos).symm
      _ ≤ (2 ^ 64 - 1) / s.slabBytes := Nat.div_le_div_right (by omega)
  have hlen := (List.subperm_of_subset hnd hsub).length_le
  rw [List.length_map, List.length_range] at hlen
  have := Nat.mul_le_of_le_div _ _ _ hlen
  omega

/-- the bytes of slots in use do not exceed those of the slabs -/
theorem Shape.Ok.used_lt (h : s.Ok) {l : List Nat} (hl : l.Nodup) (hs : ∀ x ∈ l, s.IsSlot x) :
    s.objSize * l.length < 2 ^ 64 := by
  have hlen := (List.subperm_of_subset hl fun x hx => Shape.mem_allSlots.mpr (hs x hx)).length_le
  rw [Shape.length_allSlots] at hlen
  calc s.objSize * l.length ≤ s.objSize * (s.slabs.length * s.slotsPerSlab) :=
    Nat.mul_le_mul_left _ hlen
    _ = s.slabs.length * (s.slotsPerSlab * s.objSize) := by ring
    _ ≤ s.slabs.length * s.slabBytes := Nat.mul_le_mul_left _ h.fits
    _ < 2 ^ 64 := h.total_lt

end

/-! ## one allocator -/

/-- every request that the call makes to the system succeeds, and nobody creates or destroys an
allocator -/
def Plenty (s : Sys) : Act → Prop
  | .alloc t id size os =>
  ∀ a, s.sl id = some a → size ≤ a.objSize → s.mag t = 0 → a.centralFree = 0 →
    os.mem ≠ 0 ∧ os.realloc = true
  | .free .. => True
  | .write .. => True
  | .create .. => False
  | .destroy _ => False

def OneStep (s : Sys) (act : Act) (s' : Sys) : Prop := Step s act s' ∧ Plenty s act

/-- allocator 0 is the only one there has been -/
structure OnlyInv (s : Sys) (L : Places) (a : SlAlloc) : Prop where
  sys : SysInv s L
  count : s.count = 1
  sl : s.sl 0 = some a

structure OneInv (s : Sys) (L : Places) (a : SlAlloc) : Prop extends OnlyInv s L a where
  used : a.stats.used = a.objSize * s.live.length
  capacity : a.stats.capacity = a.slabCount * a.slabBytes

section
variable {s s' : Sys} {L : Places} {a b : SlAlloc} {t id x size : Nat} {os : Os} {act : Act}

theorem OnlyInv.shape (h : OnlyInv s L a) : s.pointers.shape 0 = some a.shape := Sys.shape_eq h.sl

theorem OnlyInv.ok (h : OnlyInv s L a) : a.shape.Ok := h.sys.places.regions.ok 0 _ h.shape

theorem OnlyInv.only (h : OnlyInv s L a) (hb : s.sl id = some b) : id = 0 ∧ b = a := by
  have h1 := h.sys.id_lt hb
  have h2 := h.count
  obtain rfl : id = 0 := by omega
  exact ⟨rfl, Option.some.inj (hb.symm.trans h.sl)⟩

theorem OnlyInv.live_zero (h : OnlyInv s L a) {e : Nat × Nat} (he : e ∈ s.live) : e.2 = 0 := by
  obtain ⟨s', hs'⟩ := h.sys.places.owned e (h.sys.live ▸ he)
  obtain ⟨b, hb, -⟩ := Option.map_eq_some_iff.mp hs'
  exact (h.only hb).1

theorem OnlyInv.cache_zero (h : OnlyInv s L a) {e : Nat × Nat} (he : e ∈ L.cache t) : e.2 = 0 := by
  have h1 := h.sys.tagged t e.2 (by rw [← h.sys.tags t]; exact List.mem_map_of_mem he)
  have h2 := h.count
  omega

theorem OnlyInv.live_nodup (h : OnlyInv s L a) : (s.live.map Prod.fst).Nodup := by
  have hnd : s.live.Nodup := h.sys.live ▸ h.sys.places.live_nodup
  refine hnd.map_on fun e he e' he' hee => Prod.ext hee ?_
  rw [h.live_zero he, h.live_zero he']

theorem OnlyInv.mem_live (h : OnlyInv s L a) :
    x ∈ s.live.map Prod.fst ↔ a.shape.IsSlot x ∧ L.place x = .live := by
  rw [← h.sys.places.live_mem 0 _ h.shape x, h.sys.live, List.mem_map]
  constructor
  · rintro ⟨e, he, rfl⟩
    rw [← h.live_zero he]
    exact he
  · exact fun hm => ⟨(x, 0), hm, rfl⟩

theorem OnlyInv.mem_cache (h : OnlyInv s L a) :
    x ∈ (L.cache t).map Prod.fst ↔ a.shape.IsSlot x ∧ L.place x = .cached t := by
  rw [← h.sys.places.cache_mem 0 _ h.shape t x, List.mem_map]
  constructor
  · rintro ⟨e, he, rfl⟩
    rw [← h.cache_zero he]
    exact he
  · exact fun hm => ⟨(x, 0), hm, rfl⟩

/-- the bytes in use fit into a word -/
theorem OnlyInv.used_lt (h : OnlyInv s L a) : a.objSize * s.live.length < 2 ^ 64 := by
  have := h.ok.used_lt h.live_nodup fun x hx => (h.mem_live.mp hx).1
  rwa [List.length_map] at this

/-- with one allocator every call is careful -/
theorem OnlyInv.careful (h : OnlyInv s L a) (hp : Plenty s act) : Careful s act := by
  cases act with
  | alloc t id size os =>
    intro b hb hsize
    obtain ⟨rfl, rfl⟩ := h.only hb
    refine ⟨fun hmag => ?_, fun hmag hcf _ _ => (hp b hb hsize hmag hcf).2⟩
    rw [← h.sys.tags t]
    cases hc : L.cache t with
    | nil => exact absurd ((h.sys.callInv hb t).mag_eq_zero.mpr hc) hmag
    | cons e rest =>
      have := h.cache_zero (t := t) (e := e) (by rw [hc]; exact List.mem_cons_self)
      rw [List.map_cons, List.head?_cons, this]
  | create => trivial
  | free => trivial
  | destroy => trivial
  | write => trivial

/-- nothing in stock: the call asks the system -/
theorem OnlyInv.asks (h : OnlyInv s L a) (hstock : stock L t 0 = []) :
    s.mag t = 0 ∧ a.centralFree = 0 := by
  obtain ⟨h1, h2⟩ := List.append_eq_nil_iff.mp hstock
  have hci := h.sys.callInv h.sl t
  exact ⟨hci.mag_eq_zero.mpr (List.map_eq_nil_iff.mp h1), hci.centralFree_eq_zero.mpr h2⟩

/-- then only a large request fails -/
theorem OnlyInv.large_of_plenty (h : OnlyInv s L a) (hp : Plenty s (.alloc t 0 size os))
    (hwhy : a.objSize < size ∨ stock L t 0 = [] ∧ os.mem = 0) : a.objSize < size := by
  rcases hwhy with hlt | ⟨hstock, hmem⟩
  · exact hlt
  · by_contra hle
    obtain ⟨h1, h2⟩ := h.asks hstock
    exact (hp a h.sl (Nat.le_of_not_lt hle) h1 h2).1 hmem

/-! ### the steps -/

theorem OneInv.create {vm : Vm} {handle : Bool} {objectSize slabBytes : Nat}
    (h : hfSlabCreate vm handle objectSize slabBytes = some a) :
    ∃ L, OneInv (Sys.init.create a) L a := by
  obtain ⟨h1, h2, h3, h4, -⟩ := hfSlabCreate_spec h
  refine ⟨_, ⟨SysInv.init.create h1 h2 h3, rfl, rfl⟩, ?_, ?_⟩
  · rw [h4]
    rfl
  · rw [h4, SlAlloc.slabCount, h2, List.length_nil, Nat.zero_mul]
    rfl

theorem countFailed_used : ∀ a : SlAlloc, (countFailed (countAlloc a)).stats.used = a.stats.used
  | ⟨_, _, _, _, _, _, ⟨_, u, _, _, _, _⟩⟩ => (rfl : u = u)

theorem countFailed_capacity : ∀ a :
    SlAlloc, (countFailed (countAlloc a)).stats.capacity = a.stats.capacity
  | ⟨_, _, _, _, _, _, ⟨c, _, _, _, _, _⟩⟩ => (rfl : c = c)

theorem countFailed_same (a : SlAlloc) : (countFailed (countAlloc a)).shape = a.shape :=
  (countFailed_shape _).trans (countAlloc_shape a)

theorem OneInv.alloc (h : OneInv s L a) (hos : os.mem ≠ 0 → Fresh s.shape os.mem a.slabBytes)
    (hp : Plenty s (.alloc t 0 size os)) :
    (slAllocate os (s.call t a) size = (0, { s.call t a with a := countFailed (countAlloc a) })
        ∧ a.objSize < size ∧ OneInv (s.alloc t 0 a size os) L (countFailed (countAlloc a)))
      ∨ (size ≤ a.objSize
        ∧ ∃ L', Served s.shape s.pointers.head s.mag t 0 L (grown os (countAlloc a) (stock L t 0))
            (grownStock os a (stock L t 0)) (taken os { s.call t a with a := countAlloc a })
            (slAllocate os (s.call t a) size) L'
          ∧ OneInv (s.alloc t 0 a size os) L' (slAllocate os (s.call t a) size).2.a) := by
  rcases h.sys.alloc h.sl (h.careful hp) hos with ⟨heq, hwhy, hL⟩ | ⟨hsize, -, L', hserv, hL'⟩
  · have hobj : (countFailed (countAlloc a)).objSize = a.objSize :=
      congrArg Shape.objSize (countFailed_same a)
    have hslabs : (countFailed (countAlloc a)).slabs = a.slabs :=
      congrArg Shape.slabs (countFailed_same a)
    have hbytes : (countFailed (countAlloc a)).slabBytes = a.slabBytes :=
      congrArg Shape.slabBytes (countFailed_same a)
    have hlive : (s.alloc t 0 a size os).live = s.live := by
      rw [Sys.alloc, heq]
      rfl
    refine Or.inl ⟨heq, h.large_of_plenty hp hwhy, ⟨hL, h.count, ?_⟩, ?_, ?_⟩
    · rw [Sys.alloc_sl, heq]
    · rw [countFailed_used, hobj, hlive, h.used]
    · rw [countFailed_capacity, SlAlloc.slabCount, hslabs, hbytes]
      exact h.capacity
  · have honly : OnlyInv (s.alloc t 0 a size os) L' (slAllocate os (s.call t a) size).2.a :=
      ⟨hL', h.count, Sys.alloc_sl⟩
    have hobj : (slAllocate os (s.call t a) size).2.a.objSize = a.objSize := by
      refine (congrArg Shape.objSize hserv.shape).trans ?_
      rw [grown_shape]
      split <;> rfl
    have hbytes : (slAllocate os (s.call t a) size).2.a.slabBytes = a.slabBytes := by
      refine (congrArg Shape.slabBytes hserv.shape).trans ?_
      rw [grown_shape]
      split <;> rfl
    have hlive : (s.alloc t 0 a size os).live.length = s.live.length + 1 := by
      rw [← hL'.live, hserv.live, h.sys.live, List.length_cons]
    refine Or.inr ⟨hsize, L', hserv, honly, ?_, ?_⟩
    · have hlt := honly.used_lt
      rw [hobj, hlive, Nat.mul_succ] at hlt
      have hgobj : (grown os (countAlloc a) (stock L t 0)).objSize = a.objSize :=
        (congrArg Shape.objSize hserv.shape).symm.trans hobj
      rw [hserv.stats, chargeUsed_used, grown_used, hgobj, hobj, hlive, h.used, Nat.mul_succ,
        wadd_of_lt hlt]
    · have hlt : (slAllocate os (s.call t a) size).2.a.slabs.length *
          (slAllocate os (s.call t a) size).2.a.slabBytes < 2 ^ 64 := honly.ok.total_lt
      have hslabs : (slAllocate os (s.call t a) size).2.a.slabs = _ :=
        congrArg Shape.slabs hserv.shape
      rw [grown_shape] at hslabs
      have hcap : a.stats.capacity = a.slabs.length * a.slabBytes := h.capacity
      rw [hserv.stats, chargeUsed_capacity, grown_capacity, SlAlloc.slabCount, hbytes]
      rw [hbytes] at hlt
      by_cases hl : stock L t 0 = []
      · rw [if_pos hl] at hslabs ⊢
        have hlen : (slAllocate os (s.call t a) size).2.a.slabs.length = a.slabs.length + 1 := by
          rw [hslabs]
          exact List.length_append
        rw [hlen, Nat.succ_mul] at hlt ⊢
        rw [hcap, wadd_of_lt hlt]
      · rw [if_neg hl] at hslabs ⊢
        rw [hslabs]
        exact hcap

theorem OneInv.free (h : OneInv s L a) (hx : (x, 0) ∈ s.live) (t : Nat) :
    OneInv (s.free t 0 a x)
      { L with
        live := L.live.erase (x, 0)
        cache := update L.cache t ((x, 0) :: L.cache t)
        place := update L.place x (.cached t) } (releaseUsed a) := by
  have hfree := h.sys.free h.sl hx t
  have ha : (slDeallocate (s.call t a) x).a = releaseUsed a :=
    ((h.sys.callInv h.sl t).deallocate (h.sys.live ▸ hx)).1
  have hpos : 0 < s.live.length := List.length_pos_of_mem hx
  have hlive : (s.free t 0 a x).live.length = s.live.length - 1 := List.length_erase_of_mem hx
  have hlt := h.used_lt
  have hle : a.objSize ≤ a.objSize * s.live.length := Nat.le_mul_of_pos_right _ hpos
  refine ⟨⟨hfree, h.count, ?_⟩, ?_, h.capacity⟩
  · rw [Sys.free_sl, ha]
  · have hused : (releaseUsed a).stats.used = wsub a.stats.used a.objSize := by rw [releaseUsed]
    have hobj : (releaseUsed a).objSize = a.objSize := congrArg Shape.objSize (releaseUsed_shape a)
    rw [hused, hobj, hlive, h.used, wsub_of_le hle hlt, Nat.mul_sub_one]

/-- **A step of the process keeps the partition and the counters.** -/
theorem OneInv.step (h : OneInv s L a) (hstep : OneStep s act s') : ∃ L' a', OneInv s' L' a' := by
  obtain ⟨hstep, hp⟩ := hstep
  cases hstep with
  | create => exact hp.elim
  | alloc hb hos =>
    obtain ⟨rfl, rfl⟩ := h.only hb
    rcases h.alloc hos hp with ⟨-, -, h'⟩ | ⟨-, L', -, h'⟩
    · exact ⟨_, _, h'⟩
    · exact ⟨_, _, h'⟩
  | free hb hx =>
    obtain ⟨rfl, rfl⟩ := h.only hb
    exact ⟨_, _, h.free hx _⟩
  | destroy => exact hp.elim
  | write hb hx hi => exact ⟨L, a, ⟨h.sys.write hb hx hi _, h.count, h.sl⟩, h.used, h.capacity⟩

theorem OneInv.of_run {vm : Vm} {handle : Bool} {objectSize slabBytes : Nat} {a₀ : SlAlloc}
    {acts : List Act} (h₀ : hfSlabCreate vm handle objectSize slabBytes = some a₀)
    (hrun : Steps OneStep (Sys.init.create a₀) acts s) : ∃ L a, OneInv s L a :=
  hrun.invariant (I := fun s => ∃ L a, OneInv s L a)
    (let ⟨L, h⟩ := OneInv.create h₀; ⟨L, a₀, h⟩) fun _ _ _ ⟨_, _, h⟩ hstep => h.step hstep

/-! ## the partition -/

/-- the slot `x` is in the place -/
def At (central : List Nat) (cache : Nat → List Nat) (live : List Nat) : Place → Nat → Prop
  | .central, x => x ∈ central
  | .cached t, x => x ∈ cache t
  | .live, x => x ∈ live

/-- if all its slots have living owners a magazine is a list -/
theorem MagLinked.slist {alive : Nat → Prop} {nx : Nat → Nat} {l : List (Nat × Nat)}
    (h : MagLinked alive nx l) (ha : ∀ e ∈ l, alive e.2) :
    SList 0 nx (headPtr l) (l.map Prod.fst) := by
  induction l with
  | nil => rfl
  | cons e l ih =>
    refine ⟨rfl, ?_⟩
    rw [h.1 (ha e List.mem_cons_self)]
    exact ih h.2 fun e he => ha e (List.mem_cons_of_mem _ he)

theorem OnlyInv.at_iff (h : OnlyInv s L a) {pl : Place} :
    At (L.central 0) (fun t => (L.cache t).map Prod.fst) (s.live.map Prod.fst) pl x ↔
      a.shape.IsSlot x ∧ L.place x = pl := by
  cases pl with
  | central => exact h.sys.places.central_mem 0 _ h.shape x
  | cached t => exact h.mem_cache
  | live => exact h.mem_live

/-- **No slot is lost or duplicated.**  One allocator, any threads, every request to the system
granted: at all times the central list and the magazines are finite lists without repetition, every
one of the `slab_count * slots_per_slab` slots is in exactly one of them or live, nothing else is,
and the counters count the live slots and the slabs. -/
theorem slots_partitioned {vm : Vm} {handle : Bool} {objectSize slabBytes : Nat} {a₀ : SlAlloc}
    {acts : List Act} (h₀ : hfSlabCreate vm handle objectSize slabBytes = some a₀)
    (hrun : Steps OneStep (Sys.init.create a₀) acts s) :
    ∃ a central cache, s.sl 0 = some a
      ∧ SList 0 (nodeNext s.heap) a.centralFree central ∧ central.Nodup
      ∧ (∀ t, SList 0 (nodeNext s.heap) (s.mag t) (cache t) ∧ (cache t).Nodup)
      ∧ (s.live.map Prod.fst).Nodup
      ∧ a.shape.allSlots.Nodup ∧ a.shape.allSlots.length = a.slabCount * a.slotsPerSlab
      ∧ (∀ x ∈ a.shape.allSlots, ∃! pl, At central cache (s.live.map Prod.fst) pl x)
      ∧ (∀ pl x, At central cache (s.live.map Prod.fst) pl x → x ∈ a.shape.allSlots)
      ∧ a.stats.used = a.objSize * s.live.length
      ∧ a.stats.capacity = a.slabCount * a.slabBytes := by
  obtain ⟨L, a, h⟩ := OneInv.of_run h₀ hrun
  have hal : s.pointers.Alive 0 := ⟨_, h.shape⟩
  refine ⟨a, L.central 0, fun t => (L.cache t).map Prod.fst, h.sl, ?_,
    h.sys.places.central_nodup 0 hal, fun t => ⟨?_, ?_⟩, h.live_nodup, h.ok.allSlots_nodup,
    Shape.length_allSlots _, ?_, ?_, h.used, h.capacity⟩
  · exact (h.sys.callInv h.sl 0).central_links
  · have hlink := (h.sys.places.cached t).slist fun e he => by
      rw [h.cache_zero he]
      exact hal
    rwa [← h.sys.places.mag t] at hlink
  · refine (h.sys.places.cache_nodup t).map_on fun e he e' he' hee => Prod.ext hee ?_
    rw [h.cache_zero he, h.cache_zero he']
  · intro x hx
    refine ⟨L.place x, h.at_iff.mpr ⟨Shape.mem_allSlots.mp hx, rfl⟩, fun pl hpl => ?_⟩
    exact (h.at_iff.mp hpl).2.symm
  · exact fun pl x hx => Shape.mem_allSlots.mpr (h.at_iff.mp hx).1

end

/-- one slot of two is taken -/
theorem slots_partitioned_one_taken :
    ∃ a central cache, (sampleOne.alloc 3 0 sampleSlab 100 sampleOs).sl 0 = some a
      ∧ SList 0 (nodeNext (sampleOne.alloc 3 0 sampleSlab 100 sampleOs).heap) a.centralFree central
      ∧ (∀ x ∈ a.shape.allSlots, ∃! pl,
          At central cache ((sampleOne.alloc 3 0 sampleSlab 100 sampleOs).live.map Prod.fst) pl x)
      ∧ a.stats.used = a.objSize * (sampleOne.alloc 3 0 sampleSlab 100 sampleOs).live.length := by
  have hrun : Steps OneStep sampleOne ([] ++ [.alloc 3 0 100 sampleOs]) _ :=
    (Steps.nil _).snoc ⟨.alloc (a := sampleSlab) rfl fun _ => sampleOne_fresh, fun _ _ _ _ _ =>
      ⟨by decide, rfl⟩⟩
  obtain ⟨a, central, cache, h1, h2, -, -, -, -, -, h3, -, h4, -⟩ :=
    slots_partitioned sampleSlab_create hrun
  exact ⟨a, central, cache, h1, h2, h3, h4⟩

end HeapForge.Slab
