import Mathlib.Algebra.Order.Ring.Nat
import Mathlib.Data.List.Basic
import HeapForge.Lib.SList

/-!
# Where the slots are

The slabs of all living allocators are cut into slots.  Every slot is in one place: on the central
list of its allocator, in the magazine of one thread, or live.  A magazine may also hold slots of
allocators that are gone; what their words say is unknown.

* `Shape`, `Regions`     the slabs of one and of all allocators;
* `Pointers`, `Places`   the pointers of the implementation, and what they stand for;
* `PInv`                 the places are a function, and the pointers follow them;
* `PInv.push`, `PInv.pop`, `PInv.batch`, `PInv.grow`, `PInv.create`, `PInv.destroy`   the moves.
-/

set_option linter.unusedSectionVars false
set_option linter.unusedVariables false

namespace HeapForge.Slab
open Lib Function

/-! ## slabs and slots -/

/-- the slabs of an allocator and how they are cut -/
structure Shape where
  objSize : Nat
  slabBytes : Nat
  slotsPerSlab : Nat
  slabs : List Nat

def Shape.IsSlot (s : Shape) (x : Nat) : Prop :=
  ∃ b ∈ s.slabs, ∃ i < s.slotsPerSlab, x = b + i * s.objSize

structure Shape.Ok (s : Shape) : Prop where
  obj_ge : 16 ≤ s.objSize
  obj_mod : s.objSize % 16 = 0
  slots_pos : 0 < s.slotsPerSlab
  fits : s.slotsPerSlab * s.objSize ≤ s.slabBytes
  base : ∀ b ∈ s.slabs, 0 < b ∧ b % 16 = 0 ∧ b + s.slabBytes < 2 ^ 64
  nodup : s.slabs.Nodup
  apart : ∀ b ∈ s.slabs, ∀ c ∈ s.slabs, b ≠ c → b + s.slabBytes ≤ c ∨ c + s.slabBytes ≤ b

/-- the slabs of all living allocators -/
structure Regions (shape : Nat → Option Shape) : Prop where
  ok : ∀ id s, shape id = some s → s.Ok
  apart : ∀ id id' s s', shape id = some s → shape id' = some s' → id ≠ id' →
    ∀ b ∈ s.slabs, ∀ c ∈ s'.slabs, b + s.slabBytes ≤ c ∨ c + s'.slabBytes ≤ b

section
variable {s s' : Shape} {shape : Nat → Option Shape} {id id' x y i b : Nat}

/-- slot `i` lies inside its slab -/
theorem Shape.Ok.slot_le (h : s.Ok) (hi : i < s.slotsPerSlab) :
    i * s.objSize + s.objSize ≤ s.slabBytes := by
  calc i * s.objSize + s.objSize = (i + 1) * s.objSize := by rw [Nat.add_mul, Nat.one_mul]
    _ ≤ s.slotsPerSlab * s.objSize := Nat.mul_le_mul_right _ hi
    _ ≤ s.slabBytes := h.fits

theorem Shape.Ok.slot_addr (h : s.Ok) (hx : s.IsSlot x) :
    0 < x ∧ x % 16 = 0 ∧ x + s.objSize < 2 ^ 64 := by
  obtain ⟨b, hb, i, hi, rfl⟩ := hx
  obtain ⟨h1, h2, h3⟩ := h.base b hb
  have h4 := h.slot_le hi
  have h5 : i * s.objSize % 16 = 0 := by
    rw [Nat.mul_mod, h.obj_mod, Nat.mul_zero, Nat.zero_mod]
  omega

theorem Shape.Ok.slot_apart (h : s.Ok) (hx : s.IsSlot x) (hy : s.IsSlot y) (hne : x ≠ y) :
    x + s.objSize ≤ y ∨ y + s.objSize ≤ x := by
  obtain ⟨b, hb, i, hi, rfl⟩ := hx
  obtain ⟨c, hc, j, hj, rfl⟩ := hy
  have h1 := h.slot_le hi
  have h2 := h.slot_le hj
  by_cases hbc : b = c
  · subst hbc
    rcases Nat.lt_trichotomy i j with hij | rfl | hij
    · have := Nat.mul_le_mul_right s.objSize (Nat.succ_le_of_lt hij)
      rw [Nat.succ_mul] at this
      omega
    · exact absurd rfl hne
    · have := Nat.mul_le_mul_right s.objSize (Nat.succ_le_of_lt hij)
      rw [Nat.succ_mul] at this
      omega
  · have := h.apart b hb c hc hbc
    omega

/-- slots of different allocators are disjoint -/
theorem Regions.slot_apart (h : Regions shape) (hs : shape id = some s) (hs' : shape id' = some s')
    (hid : id ≠ id') (hx : s.IsSlot x) (hy : s'.IsSlot y) :
    x + s.objSize ≤ y ∨ y + s'.objSize ≤ x := by
  obtain ⟨b, hb, i, hi, rfl⟩ := hx
  obtain ⟨c, hc, j, hj, rfl⟩ := hy
  have h1 := (h.ok id s hs).slot_le hi
  have h2 := (h.ok id' s' hs').slot_le hj
  have := h.apart id id' s s' hs hs' hid b hb c hc
  omega

theorem Regions.owner_unique (h : Regions shape) (hs : shape id = some s)
    (hs' : shape id' = some s') (hx : s.IsSlot x) (hx' : s'.IsSlot x) : id = id' := by
  by_contra hne
  have h1 := h.slot_apart hs hs' hne hx hx'
  have h2 := (h.ok id s hs).obj_ge
  have h3 := (h.ok id' s' hs').obj_ge
  omega

end

/-! ## pointers and places -/

inductive Place
  | central
  | cached (thread : Nat)
  | live
  deriving DecidableEq

/-- the heads of the lists and the words of the slots -/
structure Pointers where
  shape : Nat → Option Shape
  head : Nat → Nat
  mag : Nat → Nat
  nx : Nat → Nat

/-- slots with their allocators: those live, those on the lists; and the place of every slot -/
structure Places where
  live : List (Nat × Nat)
  central : Nat → List Nat
  cache : Nat → List (Nat × Nat)
  place : Nat → Place

def headPtr : List (Nat × Nat) → Nat
  | [] => 0
  | e :: _ => e.1

/-- the words of the slots whose allocators live -/
def MagLinked (alive : Nat → Prop) (nx : Nat → Nat) : List (Nat × Nat) → Prop
  | [] => True
  | e :: l => (alive e.2 → nx e.1 = headPtr l) ∧ MagLinked alive nx l

def Pointers.Alive (P : Pointers) (id : Nat) : Prop := ∃ s, P.shape id = some s

structure PInv (P : Pointers) (L : Places) : Prop where
  regions : Regions P.shape
  links : ∀ id, P.Alive id → SList 0 P.nx (P.head id) (L.central id)
  mag : ∀ t, P.mag t = headPtr (L.cache t)
  cached : ∀ t, MagLinked P.Alive P.nx (L.cache t)
  addr : ∀ t, ∀ e ∈ L.cache t, e.1 ≠ 0 ∧ e.1 < 2 ^ 64
  central_mem : ∀ id s, P.shape id = some s → ∀ x, x ∈ L.central id
    ↔ s.IsSlot x ∧ L.place x = .central
  cache_mem : ∀ id s, P.shape id = some s → ∀ t x,
    (x, id) ∈ L.cache t ↔ s.IsSlot x ∧ L.place x = .cached t
  live_mem : ∀ id s, P.shape id = some s → ∀ x, (x, id) ∈ L.live ↔ s.IsSlot x ∧ L.place x = .live
  owned : ∀ e ∈ L.live, P.Alive e.2
  central_nodup : ∀ id, P.Alive id → (L.central id).Nodup
  cache_nodup : ∀ t, (L.cache t).Nodup
  live_nodup : L.live.Nodup

section
variable {P : Pointers} {L : Places} {alive alive' : Nat → Prop} {nx nx' : Nat → Nat}
  {l rest : List (Nat × Nat)} {l₁ l₂ : List Nat} {s : Shape} {id x y t b : Nat}

theorem MagLinked.congr (h : MagLinked alive nx l) (ha : ∀ e ∈ l, alive' e.2 → alive e.2)
    (hn : ∀ e ∈ l, alive' e.2 → nx' e.1 = nx e.1) : MagLinked alive' nx' l := by
  induction l with
  | nil => trivial
  | cons e l ih =>
    refine ⟨fun hal => ?_, ih h.2 (fun e he => ha e (List.mem_cons_of_mem _ he))
      fun e he => hn e (List.mem_cons_of_mem _ he)⟩
    rw [hn e List.mem_cons_self hal]
    exact h.1 (ha e List.mem_cons_self hal)

/-- a list of slots of one allocator is a magazine -/
theorem SList.magLinked (alive : Nat → Prop) {p : Nat} {l : List Nat} (h : SList 0 nx p l)
    (id : Nat) :
    MagLinked alive nx (l.map (·, id)) ∧ p = headPtr (l.map (·, id)) := by
  induction l generalizing p with
  | nil => exact ⟨trivial, h⟩
  | cons x l ih =>
    obtain ⟨h1, h2⟩ := ih h.2
    exact ⟨⟨fun _ => h2, h1⟩, h.1⟩

theorem PInv.central_slot (h : PInv P L) (hs : P.shape id = some s) (hx : x ∈ L.central id) :
    s.IsSlot x ∧ L.place x = .central := (h.central_mem id s hs x).mp hx

theorem PInv.mag_eq_zero (h : PInv P L) : P.mag t = 0 ↔ L.cache t = [] := by
  rw [h.mag t]
  cases hc : L.cache t with
  | nil => exact iff_of_true rfl rfl
  | cons e l => exact iff_of_false (h.addr t e (by rw [hc]; simp)).1 (by simp)

theorem PInv.head_eq_zero (h : PInv P L) (hs : P.shape id = some s) : P.head id = 0
    ↔ L.central id = [] := by
  refine (h.links id ⟨s, hs⟩).eq_null_iff fun hm => ?_
  have := ((h.regions.ok id s hs).slot_addr (h.central_slot hs hm).1).1
  omega

/-- the words of live slots do not matter -/
theorem PInv.rewire (h : PInv P L)
    (hn : ∀ id s y, P.shape id = some s → s.IsSlot y → L.place y ≠ .live → nx' y = P.nx y) :
    PInv { P with nx := nx' } L where
  regions := h.regions
  links := by
    intro id ⟨s, hs⟩
    refine (h.links id ⟨s, hs⟩).congr fun y hy => ?_
    obtain ⟨h1, h2⟩ := h.central_slot hs hy
    exact hn id s y hs h1 (by rw [h2]; simp)
  mag := h.mag
  cached := by
    intro t
    refine (h.cached t).congr (fun _ _ ha => ha) fun e he ⟨s, hs⟩ => ?_
    obtain ⟨h1, h2⟩ := (h.cache_mem e.2 s hs t e.1).mp he
    exact hn e.2 s e.1 hs h1 (by rw [h2]; simp)
  addr := h.addr
  central_mem := h.central_mem
  cache_mem := h.cache_mem
  live_mem := h.live_mem
  owned := h.owned
  central_nodup := h.central_nodup
  cache_nodup := h.cache_nodup
  live_nodup := h.live_nodup

/-! ### a slot is in no list but the one of its place -/

theorem PInv.not_central (h : PInv P L) (hw : L.place x ≠ .central) (ha : P.Alive id) :
    x ∉ L.central id := by
  obtain ⟨s, hs⟩ := ha
  exact fun hm => hw (h.central_slot hs hm).2

theorem PInv.not_cached (h : PInv P L) (hw : L.place x ≠ .cached t) (ha : P.Alive id) :
    (x, id) ∉ L.cache t := by
  obtain ⟨s, hs⟩ := ha
  exact fun hm => hw ((h.cache_mem id s hs t x).mp hm).2

theorem PInv.not_live (h : PInv P L) (hw : L.place x ≠ .live) (ha : P.Alive id) :
    (x, id) ∉ L.live := by
  obtain ⟨s, hs⟩ := ha
  exact fun hm => hw ((h.live_mem id s hs x).mp hm).2

/-- the address of a slot is a word and not the null pointer -/
theorem PInv.slot_word (h : PInv P L) (hs : P.shape id = some s) (hx : s.IsSlot x) :
    x ≠ 0 ∧ x < 2 ^ 64 := by
  have := (h.regions.ok id s hs).slot_addr hx
  omega

/-- one magazine changes, with its pointer -/
theorem PInv.mag_update (h : PInv P L) {p : Nat} (hp : p = headPtr l) (t' : Nat) :
    update P.mag t p t' = headPtr (update L.cache t l t') := by
  by_cases htt : t' = t
  · subst htt
    rw [update_self, update_self]
    exact hp
  · rw [update_of_ne htt, update_of_ne htt]
    exact h.mag t'

/-- one magazine changes, at the slot `x` only: the other slots stay where they are -/
theorem PInv.cache_other (h : PInv P L) (hs : P.shape id = some s) (hyx : y ≠ x) (q : Place)
    (hl : (y, id) ∈ l ↔ (y, id) ∈ L.cache t) (t' : Nat) :
    (y, id) ∈ update L.cache t l t' ↔ s.IsSlot y ∧ update L.place x q y = .cached t' := by
  rw [update_of_ne hyx, ← h.cache_mem id s hs t' y]
  by_cases htt : t' = t
  · subst htt
    rw [update_self]
    exact hl
  · rw [update_of_ne htt]

/-- membership after one slot has moved -/
theorem place_update_iff {w : Nat → Place} {q r : Place} {A : Prop} (hw : w x ≠ r) (hq : q ≠ r) :
    A ∧ update w x q y = r ↔ A ∧ w y = r := by
  by_cases hyx : y = x
  · subst hyx
    rw [update_self]
    exact ⟨fun h => absurd h.2 hq, fun h => absurd h.2 hw⟩
  · rw [update_of_ne hyx]

/-! ## a live slot goes into a magazine -/

/-- **A free.** -/
theorem PInv.push (h : PInv P L) (hx : (x, id) ∈ L.live) (t : Nat) :
    PInv { P with nx := update P.nx x (P.mag t), mag := update P.mag t x }
      { L with
        live := L.live.erase (x, id)
        cache := update L.cache t ((x, id) :: L.cache t)
        place := update L.place x (.cached t) } := by
  obtain ⟨s, hs⟩ : P.Alive id := h.owned _ hx
  obtain ⟨hsx, hwx⟩ := (h.live_mem id s hs x).mp hx
  have hcache : ∀ j t', P.Alive j → (x, j) ∉ L.cache t' :=
    fun j t' ha => h.not_cached (by rw [hwx]; simp) ha
  have hcent : ∀ j, P.Alive j → x ∉ L.central j := fun j ha => h.not_central (by rw [hwx]; simp) ha
  refine ⟨h.regions, ?_, ?_, ?_, ?_, ?_, ?_, ?_, ?_, h.central_nodup, ?_, h.live_nodup.erase _⟩
  · intro j hj
    exact (h.links j hj).congr fun y hy => update_of_ne (fun e : y = x => hcent j hj (e ▸ hy)) _ _
  · exact h.mag_update rfl
  · have hold : ∀ t', MagLinked P.Alive (update P.nx x (P.mag t)) (L.cache t') := fun t' =>
      (h.cached t').congr (fun _ _ ha => ha) fun e he ha =>
        update_of_ne (fun hex : e.1 = x => hcache e.2 t' ha (by rw [← hex]; exact he)) _ _
    refine (forall_update_iff L.cache _).mpr ⟨⟨fun _ => ?_, hold t⟩, fun t' _ => hold t'⟩
    exact (update_self x (P.mag t) P.nx).trans (h.mag t)
  · refine (forall_update_iff L.cache fun _ l => ∀ e ∈ l, e.1 ≠ 0 ∧ e.1 < 2 ^ 64).mpr
      ⟨fun e he => ?_, fun t' _ => h.addr t'⟩
    rcases List.mem_cons.mp he with rfl | he
    · exact h.slot_word hs hsx
    · exact h.addr t e he
  · intro j s' hs' y
    rw [h.central_mem j s' hs' y]
    exact (place_update_iff (by rw [hwx]; simp) (by simp)).symm
  · intro j s' hs' t' y
    by_cases hyx : y = x
    · subst hyx
      simp only [update_self]
      by_cases htt : t' = t
      · subst htt
        simp only [update_self, List.mem_cons, Prod.mk.injEq, true_and, and_true]
        constructor
        · rintro (rfl | hm)
          · rw [hs] at hs'
            obtain rfl := Option.some.inj hs'
            exact hsx
          · exact absurd hm (hcache j t' ⟨s', hs'⟩)
        · intro hsy
          exact Or.inl (h.regions.owner_unique hs' hs hsy hsx)
      · simp only [update_of_ne htt]
        refine iff_of_false (hcache j t' ⟨s', hs'⟩) fun hm => htt ?_
        exact (Place.cached.inj hm.2).symm
    · exact h.cache_other hs' hyx _ (by simp [hyx]) t'
  · intro j s' hs' y
    simp only
    rw [h.live_nodup.mem_erase_iff, h.live_mem j s' hs' y]
    by_cases hyx : y = x
    · subst hyx
      simp only [update_self]
      refine iff_of_false (fun hm => hm.1 ?_) (by simp)
      rw [h.regions.owner_unique hs' hs hm.2.1 hsx]
    · simp [hyx]
  · intro e he
    exact h.owned e (List.mem_of_mem_erase he)
  · refine (forall_update_iff L.cache fun _ l => l.Nodup).mpr ⟨?_, fun t' _ => h.cache_nodup t'⟩
    exact List.nodup_cons.mpr ⟨hcache id t ⟨s, hs⟩, h.cache_nodup t⟩

/-! ## a magazine gives its first slot -/

/-- **An allocation from the magazine**, if its first slot belongs to a living allocator. -/
theorem PInv.pop (h : PInv P L) (hs : P.shape id = some s) (hc : L.cache t = (x, id) :: rest) :
    PInv { P with mag := update P.mag t (P.nx x) }
      { L with
        live := (x, id) :: L.live
        cache := update L.cache t rest
        place := update L.place x .live } := by
  have hxm : (x, id) ∈ L.cache t := by rw [hc]; simp
  obtain ⟨hsx, hwx⟩ := (h.cache_mem id s hs t x).mp hxm
  have hlink := h.cached t
  rw [hc] at hlink
  have hnd := h.cache_nodup t
  rw [hc] at hnd
  refine ⟨h.regions, h.links, ?_, ?_, ?_, ?_, ?_, ?_, ?_, h.central_nodup, ?_, ?_⟩
  · exact h.mag_update (hlink.1 ⟨s, hs⟩)
  · exact (forall_update_iff L.cache _).mpr ⟨hlink.2, fun t' _ => h.cached t'⟩
  · refine (forall_update_iff L.cache fun _ l => ∀ e ∈ l, e.1 ≠ 0 ∧ e.1 < 2 ^ 64).mpr
      ⟨fun e he => ?_, fun t' _ => h.addr t'⟩
    exact h.addr t e (by rw [hc]; exact List.mem_cons_of_mem _ he)
  · intro j s' hs' y
    rw [h.central_mem j s' hs' y]
    exact (place_update_iff (by rw [hwx]; simp) (by simp)).symm
  · intro j s' hs' t' y
    by_cases hyx : y = x
    · subst hyx
      simp only [update_self]
      refine iff_of_false (fun hm => ?_) (by simp)
      by_cases htt : t' = t
      · subst htt
        simp only [update_self] at hm
        have hm' : (y, j) ∈ L.cache t' := by rw [hc]; exact List.mem_cons_of_mem _ hm
        obtain rfl := h.regions.owner_unique hs' hs ((h.cache_mem j s' hs' t' y).mp hm').1 hsx
        exact (List.nodup_cons.mp hnd).1 hm
      · simp only [update_of_ne htt] at hm
        refine h.not_cached ?_ ⟨s', hs'⟩ hm
        rw [hwx]
        exact fun he => htt (Place.cached.inj he).symm
    · exact h.cache_other hs' hyx _ (by rw [hc]; simp [hyx]) t'
  · intro j s' hs' y
    simp only [List.mem_cons, Prod.mk.injEq]
    rw [h.live_mem j s' hs' y]
    by_cases hyx : y = x
    · subst hyx
      simp only [update_self, true_and, and_true]
      constructor
      · rintro (rfl | hm)
        · rw [hs] at hs'
          obtain rfl := Option.some.inj hs'
          exact hsx
        · exact hm.1
      · intro hsy
        exact Or.inl (h.regions.owner_unique hs' hs hsy hsx)
    · simp [hyx]
  · intro e he
    rcases List.mem_cons.mp he with rfl | he
    · exact ⟨s, hs⟩
    · exact h.owned e he
  · exact (forall_update_iff L.cache fun _ l => l.Nodup).mpr
      ⟨(List.nodup_cons.mp hnd).2, fun t' _ => h.cache_nodup t'⟩
  · exact List.nodup_cons.mpr ⟨h.not_live (by rw [hwx]; simp) ⟨s, hs⟩, h.live_nodup⟩

/-! ## a batch moves from the central list to an empty magazine -/

/-- **A refill**: the central list is cut behind `y`. -/
theorem PInv.batch (h : PInv P L) (hs : P.shape id = some s) (hc : L.cache t = [])
    (hcent : L.central id = l₁ ++ y :: l₂) :
    PInv { P with
        nx := update P.nx y 0
        head := update P.head id (P.nx y)
        mag := update P.mag t (P.head id) }
      { L with
        central := update L.central id l₂
        cache := update L.cache t ((l₁ ++ [y]).map (·, id))
        place := fun x => if x ∈ l₁ ++ [y] then .cached t else L.place x } := by
  have hnd := h.central_nodup id ⟨s, hs⟩
  have hlk := h.links id ⟨s, hs⟩
  rw [hcent] at hnd hlk
  obtain ⟨hcut₁, hcut₂⟩ := hlk.cut hnd
  have hmem : ∀ x, x ∈ l₁ ++ [y] → s.IsSlot x ∧ L.place x = .central := fun x hx =>
    h.central_slot hs (by rw [hcent]; simp at hx ⊢; tauto)
  have hsplit : ∀ x, x ∈ L.central id ↔ x ∈ l₁ ++ [y] ∨ x ∈ l₂ := by
    intro x
    rw [hcent]
    simp
    tauto
  have hnd' : ((l₁ ++ [y]) ++ l₂).Nodup := by simpa using hnd
  have hdisj : ∀ x, x ∈ l₁ ++ [y] → x ∉ l₂ := fun x hx hx' =>
    (List.nodup_append.mp hnd').2.2 x hx x hx' rfl
  have hy : s.IsSlot y ∧ L.place y = .central := hmem y (by simp)
  obtain ⟨hmag₁, hmag₂⟩ := SList.magLinked P.Alive hcut₁ id
  refine ⟨h.regions, ?_, ?_, ?_, ?_, ?_, ?_, ?_, h.owned, ?_, ?_, h.live_nodup⟩
  · intro j hj
    by_cases hji : j = id
    · subst hji
      simp only [update_self]
      exact hcut₂
    · simp only [update_of_ne hji]
      obtain ⟨s', hs'⟩ := hj
      refine (h.links j ⟨s', hs'⟩).congr fun z hz => update_of_ne (fun e : z = y => hji ?_) _ _
      exact h.regions.owner_unique hs' hs (e ▸ (h.central_slot hs' hz).1) hy.1
  · exact h.mag_update hmag₂
  · refine (forall_update_iff L.cache _).mpr ⟨hmag₁, fun t' _ => ?_⟩
    refine (h.cached t').congr (fun _ _ ha => ha) fun e he ha => ?_
    refine update_of_ne (fun hey : e.1 = y => h.not_cached ?_ ha he) _ _
    rw [hey, hy.2]
    simp
  · refine (forall_update_iff L.cache fun _ l => ∀ e ∈ l, e.1 ≠ 0 ∧ e.1 < 2 ^ 64).mpr
      ⟨fun e he => ?_, fun t' _ => h.addr t'⟩
    obtain ⟨x, hx, rfl⟩ := List.mem_map.mp he
    exact h.slot_word hs (hmem x hx).1
  · intro j s' hs' x
    by_cases hji : j = id
    · subst hji
      rw [hs] at hs'
      obtain rfl := Option.some.inj hs'
      simp only [update_self]
      by_cases hx : x ∈ l₁ ++ [y]
      · rw [if_pos hx]
        exact iff_of_false (hdisj x hx) (by simp)
      · rw [if_neg hx, ← h.central_mem j s hs x, hsplit]
        simp [hx]
    · simp only [update_of_ne hji]
      rw [h.central_mem j s' hs' x]
      by_cases hx : x ∈ l₁ ++ [y]
      · rw [if_pos hx]
        refine iff_of_false (fun hm => hji ?_) (by simp)
        exact h.regions.owner_unique hs' hs hm.1 (hmem x hx).1
      · rw [if_neg hx]
  · intro j s' hs' t' x
    dsimp only
    by_cases hx : x ∈ l₁ ++ [y]
    · rw [if_pos hx]
      by_cases htt : t' = t
      · subst htt
        simp only [update_self, List.mem_map, Prod.mk.injEq, and_true]
        constructor
        · rintro ⟨z, hz, rfl, rfl⟩
          rw [hs] at hs'
          obtain rfl := Option.some.inj hs'
          exact (hmem z hz).1
        · intro hsx
          exact ⟨x, hx, rfl, h.regions.owner_unique hs hs' (hmem x hx).1 hsx⟩
      · simp only [update_of_ne htt]
        refine iff_of_false (h.not_cached ?_ ⟨s', hs'⟩) fun hm => htt (Place.cached.inj hm.2).symm
        rw [(hmem x hx).2]
        simp
    · rw [if_neg hx, ← h.cache_mem j s' hs' t' x]
      by_cases htt : t' = t
      · subst htt
        simp only [update_self, List.mem_map, Prod.mk.injEq]
        rw [hc]
        refine iff_of_false ?_ (by simp)
        rintro ⟨z, hz, rfl, -⟩
        exact hx hz
      · simp only [update_of_ne htt]
  · intro j s' hs' x
    simp only
    rw [h.live_mem j s' hs' x]
    by_cases hx : x ∈ l₁ ++ [y]
    · rw [if_pos hx]
      refine iff_of_false (fun hm => ?_) (by simp)
      rw [(hmem x hx).2] at hm
      exact absurd hm.2 (by simp)
    · rw [if_neg hx]
  · exact (forall_update_iff L.central fun j l => P.Alive j → l.Nodup).mpr
      ⟨fun _ => (List.nodup_append.mp hnd').2.1, fun j _ => h.central_nodup j⟩
  · refine (forall_update_iff L.cache fun _ l => l.Nodup).mpr ⟨?_, fun t' _ => h.cache_nodup t'⟩
    exact (List.nodup_append.mp hnd').1.map fun a b hab => (Prod.mk.inj hab).1

/-! ## a new slab -/

/-- the slots of a slab in address order -/
def Shape.slots (s : Shape) (b : Nat) : List Nat :=
  (List.range s.slotsPerSlab).map (b + · * s.objSize)

theorem Shape.mem_slots : x ∈ s.slots b ↔ ∃ i < s.slotsPerSlab, x = b + i * s.objSize := by
  simp only [slots, List.mem_map, List.mem_range]
  exact exists_congr fun i => and_congr_right fun _ => eq_comm

/-- one more slab -/
def Shape.add (s : Shape) (b : Nat) : Shape := { s with slabs := s.slabs ++ [b] }

theorem Shape.add_isSlot : (s.add b).IsSlot x ↔ s.IsSlot x ∨ x ∈ s.slots b := by
  rw [Shape.mem_slots]
  simp only [Shape.IsSlot, Shape.add, List.mem_append, List.mem_singleton]
  constructor
  · rintro ⟨c, hc | rfl, hi⟩
    · exact Or.inl ⟨c, hc, hi⟩
    · exact Or.inr hi
  · rintro (⟨c, hc, hi⟩ | hi)
    · exact ⟨c, Or.inl hc, hi⟩
    · exact ⟨b, Or.inr rfl, hi⟩

theorem Shape.Ok.slots_nodup (h : s.Ok) (b : Nat) : (s.slots b).Nodup := by
  refine List.nodup_range.map fun i j hij => ?_
  have h1 : i * s.objSize = j * s.objSize := Nat.add_left_cancel hij
  exact Nat.mul_right_cancel (by have := h.obj_ge; omega) h1

/-- memory that the operating system may hand out: aligned, and apart from every slab in use -/
structure Fresh (shape : Nat → Option Shape) (b n : Nat) : Prop where
  base : 0 < b ∧ b % 16 = 0 ∧ b + n < 2 ^ 64
  apart : ∀ id s, shape id = some s → ∀ c ∈ s.slabs, b + n ≤ c ∨ c + s.slabBytes ≤ b

theorem Shape.Ok.add (h : s.Ok) (hs : P.shape id = some s) (hb : Fresh P.shape b s.slabBytes) :
    (s.add b).Ok where
  obj_ge := h.obj_ge
  obj_mod := h.obj_mod
  slots_pos := h.slots_pos
  fits := h.fits
  base := by
    intro c hc
    rcases List.mem_append.mp hc with hc | hc
    · exact h.base c hc
    · rw [List.mem_singleton.mp hc]
      exact hb.base
  nodup := by
    refine List.nodup_append.mpr ⟨h.nodup, List.nodup_singleton b, fun c hc d hd hcd => ?_⟩
    obtain rfl : d = b := List.mem_singleton.mp hd
    have h1 := hb.apart id s hs c hc
    have h2 := h.fits
    have h3 := Nat.mul_pos h.slots_pos (Nat.lt_of_lt_of_le (by decide : 0 < 16) h.obj_ge)
    omega
  apart := by
    intro c hc d hd hne
    have hfresh : ∀ c ∈ s.slabs, b + s.slabBytes ≤ c ∨ c + s.slabBytes ≤ b := hb.apart id s hs
    rcases List.mem_append.mp hc with hc | hc <;> rcases List.mem_append.mp hd with hd | hd
    · exact h.apart c hc d hd hne
    · rw [List.mem_singleton.mp hd]
      exact (hfresh c hc).symm
    · rw [List.mem_singleton.mp hc]
      exact hfresh d hd
    · exact absurd ((List.mem_singleton.mp hc).trans (List.mem_singleton.mp hd).symm) hne

theorem Regions.add (h : Regions P.shape) (hs : P.shape id = some s)
    (hb : Fresh P.shape b s.slabBytes) : Regions (update P.shape id (some (s.add b))) := by
  have hmem : ∀ c ∈ (s.add b).slabs, c ∈ s.slabs ∨ c = b := fun c hc => by
    simpa [Shape.add] using hc
  -- a slab of the grown allocator against one of another
  have hone : ∀ j s', P.shape j = some s' → j ≠ id → ∀ c ∈ (s.add b).slabs, ∀ d ∈ s'.slabs,
      c + s.slabBytes ≤ d ∨ d + s'.slabBytes ≤ c := by
    intro j s' hs' hj c hc d hd
    rcases hmem c hc with hc | rfl
    · exact h.apart id j s s' hs hs' (Ne.symm hj) c hc d hd
    · exact hb.apart j s' hs' d hd
  constructor
  · intro j s' hs'
    by_cases hj : j = id
    · subst hj
      rw [update_self] at hs'
      obtain rfl := Option.some.inj hs'
      exact (h.ok j s hs).add hs hb
    · rw [update_of_ne hj] at hs'
      exact h.ok j s' hs'
  · intro j k s' s'' hs' hs'' hjk c hc d hd
    by_cases hj : j = id
    · subst hj
      rw [update_self] at hs'
      rw [update_of_ne (Ne.symm hjk)] at hs''
      obtain rfl := Option.some.inj hs'
      exact hone k s'' hs'' (Ne.symm hjk) c hc d hd
    · rw [update_of_ne hj] at hs'
      by_cases hk : k = id
      · subst hk
        rw [update_self] at hs''
        obtain rfl := Option.some.inj hs''
        exact (hone j s' hs' hj d hd c hc).symm
      · rw [update_of_ne hk] at hs''
        exact h.apart j k s' s'' hs' hs'' hjk c hc d hd

/-- a fresh slab meets no slot in use -/
theorem Fresh.not_isSlot {s' : Shape} {j : Nat} (h : Regions P.shape) (hs : P.shape id = some s)
    (hb : Fresh P.shape b s.slabBytes) (hs' : P.shape j = some s') (hx : x ∈ s.slots b) :
    ¬ s'.IsSlot x := by
  rintro ⟨c, hc, i, hi, rfl⟩
  obtain ⟨k, hk, hxk⟩ := Shape.mem_slots.mp hx
  have h1 := (h.ok j s' hs').slot_le hi
  have h2 := (h.ok id s hs).slot_le hk
  have h3 := hb.apart j s' hs' c hc
  have h4 := (h.ok j s' hs').obj_ge
  have h5 := (h.ok id s hs).obj_ge
  omega

/-- **A grow**: the slots of the new slab are linked in front of the central list. -/
theorem PInv.grow (h : PInv P L) (hs : P.shape id = some s) (hb : Fresh P.shape b s.slabBytes)
    (hlink : SList 0 nx' b (s.slots b ++ L.central id))
    (hn : ∀ j s' y, P.shape j = some s' → s'.IsSlot y → nx' y = P.nx y) :
    PInv { P with
        shape := update P.shape id (some (s.add b))
        head := update P.head id b
        nx := nx' }
      { L with
        central := update L.central id (s.slots b ++ L.central id)
        place := fun x => if x ∈ s.slots b then .central else L.place x } := by
  have hold : ∀ j s' x, P.shape j = some s' → s'.IsSlot x → x ∉ s.slots b := fun j s' x hs' hx hm =>
    hb.not_isSlot h.regions hs hs' hm hx
  have halive : ∀ j, (∃ s', update P.shape id (some (s.add b)) j = some s') → P.Alive j := by
    rintro j ⟨s', hs'⟩
    by_cases hj : j = id
    · exact hj ▸ ⟨s, hs⟩
    · exact ⟨s', by rwa [update_of_ne hj] at hs'⟩
  -- which slots an allocator has now
  have hslot : ∀ j s', update P.shape id (some (s.add b)) j = some s' → ∃ s₀, P.shape j = some s₀ ∧
      ∀ x, s'.IsSlot x ↔ s₀.IsSlot x ∨ (j = id ∧ x ∈ s.slots b) := by
    intro j s' hs'
    by_cases hj : j = id
    · subst hj
      rw [update_self] at hs'
      obtain rfl := Option.some.inj hs'
      exact ⟨s, hs, fun x => by rw [Shape.add_isSlot]; simp⟩
    · rw [update_of_ne hj] at hs'
      exact ⟨s', hs', fun x => by simp [hj]⟩
  -- the places other than the central lists know only old slots
  have hother : ∀ j s' (q : Place) x, q ≠ .central →
    update P.shape id (some (s.add b)) j = some s' →
      ∃ s₀, P.shape j = some s₀ ∧
      ((s'.IsSlot x ∧ (if x ∈ s.slots b then .central else L.place x) = q) ↔
        s₀.IsSlot x ∧ L.place x = q) := by
    intro j s' q x hq hs'
    obtain ⟨s₀, hs₀, hiff⟩ := hslot j s' hs'
    refine ⟨s₀, hs₀, ?_⟩
    rw [hiff x]
    by_cases hx : x ∈ s.slots b
    · rw [if_pos hx]
      exact iff_of_false (fun hm => hq hm.2.symm) fun hm => hold j s₀ x hs₀ hm.1 hx
    · simp [hx]
  refine ⟨h.regions.add hs hb, ?_, h.mag, ?_, h.addr, ?_, ?_, ?_, ?_, ?_, h.cache_nodup,
    h.live_nodup⟩
  · intro j hj
    obtain ⟨s', hs'⟩ := halive j hj
    by_cases hji : j = id
    · subst hji
      simp only [update_self]
      exact hlink
    · simp only [update_of_ne hji]
      exact (h.links j ⟨s', hs'⟩).congr fun y hy => hn j s' y hs' (h.central_slot hs' hy).1
  · intro t
    refine (h.cached t).congr (fun e _ => halive e.2) fun e he ha => ?_
    obtain ⟨s', hs'⟩ := halive e.2 ha
    exact hn e.2 s' e.1 hs' ((h.cache_mem e.2 s' hs' t e.1).mp he).1
  · intro j s' hs' x
    obtain ⟨s₀, hs₀, hiff⟩ := hslot j s' hs'
    dsimp only
    rw [hiff x]
    by_cases hx : x ∈ s.slots b
    · have hno := fun hm => hold j s₀ x hs₀ hm hx
      by_cases hji : j = id
      · subst hji
        simp [hx]
      · simp only [update_of_ne hji, hji, false_and, or_false]
        rw [h.central_mem j s₀ hs₀ x]
        exact iff_of_false (fun hm => hno hm.1) fun hm => hno hm.1
    · simp only [hx, if_false, and_false, or_false]
      rw [← h.central_mem j s₀ hs₀ x]
      by_cases hji : j = id
      · subst hji
        simp [hx]
      · simp only [update_of_ne hji]
  · intro j s' hs' t x
    obtain ⟨s₀, hs₀, hiff⟩ := hother j s' (.cached t) x (by simp) hs'
    exact (h.cache_mem j s₀ hs₀ t x).trans hiff.symm
  · intro j s' hs' x
    obtain ⟨s₀, hs₀, hiff⟩ := hother j s' .live x (by simp) hs'
    exact (h.live_mem j s₀ hs₀ x).trans hiff.symm
  · intro e he
    by_cases hei : e.2 = id
    · exact ⟨s.add b, by dsimp only; rw [hei, update_self]⟩
    · obtain ⟨s', hs'⟩ := h.owned e he
      exact ⟨s', by dsimp only; rw [update_of_ne hei]; exact hs'⟩
  · intro j hj
    have hnd := h.central_nodup j (halive j hj)
    by_cases hji : j = id
    · subst hji
      simp only [update_self]
      refine List.nodup_append.mpr
        ⟨(h.regions.ok j s hs).slots_nodup b, hnd, fun x hx y hy hxy => ?_⟩
      exact hold j s y hs (h.central_slot hs hy).1 (hxy ▸ hx)
    · simp only [update_of_ne hji]
      exact hnd

/-! ## allocators come and go -/

/-- **A new allocator** has no slab yet; its name has never been used. -/
theorem PInv.create (h : PInv P L) (hid : P.shape id = none) (hok : s.Ok) (hs0 : s.slabs = [])
    (hfresh : ∀ t, ∀ e ∈ L.cache t, e.2 ≠ id) :
    PInv { P with shape := update P.shape id (some s), head := update P.head id 0 }
      { L with central := update L.central id [] } := by
  have hnone : ∀ x, ¬ s.IsSlot x := by
    rintro x ⟨b, hb, -⟩
    rw [hs0] at hb
    exact List.not_mem_nil hb
  have hcases : ∀ j s', update P.shape id (some s) j = some s' →
      (j = id ∧ s' = s) ∨ (j ≠ id ∧ P.shape j = some s') := by
    intro j s' hs'
    by_cases hj : j = id
    · subst hj
      rw [update_self] at hs'
      exact Or.inl ⟨rfl, (Option.some.inj hs').symm⟩
    · rw [update_of_ne hj] at hs'
      exact Or.inr ⟨hj, hs'⟩
  have hlive : ∀ e ∈ L.live, e.2 ≠ id := by
    rintro e he rfl
    obtain ⟨s', hs'⟩ := h.owned e he
    rw [hid] at hs'
    exact absurd hs' (by simp)
  refine ⟨⟨?_, ?_⟩, ?_, h.mag, ?_, h.addr, ?_, ?_, ?_, ?_, ?_, h.cache_nodup, h.live_nodup⟩
  · intro j s' hs'
    rcases hcases j s' hs' with ⟨rfl, rfl⟩ | ⟨hj, hs'⟩
    · exact hok
    · exact h.regions.ok j s' hs'
  · intro j k s' s'' hs' hs'' hjk b hb c hc
    rcases hcases j s' hs' with ⟨rfl, rfl⟩ | ⟨hj, hs'⟩
    · rw [hs0] at hb
      exact absurd hb List.not_mem_nil
    · rcases hcases k s'' hs'' with ⟨rfl, rfl⟩ | ⟨hk, hs''⟩
      · rw [hs0] at hc
        exact absurd hc List.not_mem_nil
      · exact h.regions.apart j k s' s'' hs' hs'' hjk b hb c hc
  · rintro j ⟨s', hs'⟩
    rcases hcases j s' hs' with ⟨rfl, rfl⟩ | ⟨hj, hs'⟩
    · simp only [update_self]
      rfl
    · simp only [update_of_ne hj]
      exact h.links j ⟨s', hs'⟩
  · intro t
    refine (h.cached t).congr (fun e he ⟨s', hs'⟩ => ?_) fun _ _ _ => rfl
    rcases hcases e.2 s' hs' with ⟨hj, -⟩ | ⟨-, hs'⟩
    · exact absurd hj (hfresh t e he)
    · exact ⟨s', hs'⟩
  · intro j s' hs' x
    rcases hcases j s' hs' with ⟨rfl, rfl⟩ | ⟨hj, hs'⟩
    · simp [hnone]
    · simp only [update_of_ne hj]
      exact h.central_mem j s' hs' x
  · intro j s' hs' t x
    rcases hcases j s' hs' with ⟨rfl, rfl⟩ | ⟨hj, hs'⟩
    · exact iff_of_false (fun hm => hfresh t _ hm rfl) fun hm => hnone x hm.1
    · exact h.cache_mem j s' hs' t x
  · intro j s' hs' x
    rcases hcases j s' hs' with ⟨rfl, rfl⟩ | ⟨hj, hs'⟩
    · exact iff_of_false (fun hm => hlive _ hm rfl) fun hm => hnone x hm.1
    · exact h.live_mem j s' hs' x
  · intro e he
    obtain ⟨s', hs'⟩ := h.owned e he
    exact ⟨s', by dsimp only; rw [update_of_ne (hlive e he)]; exact hs'⟩
  · rintro j ⟨s', hs'⟩
    rcases hcases j s' hs' with ⟨rfl, rfl⟩ | ⟨hj, hs'⟩
    · simp
    · simp only [update_of_ne hj]
      exact h.central_nodup j ⟨s', hs'⟩

/-- **An allocator goes**: its slots stay in the magazines. -/
theorem PInv.destroy (h : PInv P L) (id : Nat) :
    PInv { P with shape := update P.shape id none, head := update P.head id 0 }
      { L with live := L.live.filter fun e => e.2 ≠ id } := by
  have hcases : ∀ j s', update P.shape id none j = some s' → j ≠ id ∧ P.shape j = some s' := by
    intro j s' hs'
    have hj : j ≠ id := by
      rintro rfl
      rw [update_self] at hs'
      exact absurd hs' (by simp)
    exact ⟨hj, by rwa [update_of_ne hj] at hs'⟩
  have halive : ∀ j, (∃ s', update P.shape id none j = some s') → P.Alive j := fun j ⟨s', hs'⟩ =>
    ⟨s', (hcases j s' hs').2⟩
  have hlinks : ∀ j, (∃ s', update P.shape id none j = some s') →
      SList 0 P.nx (update P.head id 0 j) (L.central j) := fun j ⟨s', hs'⟩ => by
    rw [update_of_ne (hcases j s' hs').1]
    exact h.links j ⟨s', (hcases j s' hs').2⟩
  refine ⟨⟨?_, ?_⟩, hlinks, h.mag, ?_, h.addr, ?_, ?_, ?_, ?_,
    fun j hj => h.central_nodup j (halive j hj), h.cache_nodup, h.live_nodup.filter _⟩
  · exact fun j s' hs' => h.regions.ok j s' (hcases j s' hs').2
  · exact fun j k s' s'' hs' hs'' =>
      h.regions.apart j k s' s'' (hcases j s' hs').2 (hcases k s'' hs'').2
  · exact fun t => (h.cached t).congr (fun e _ => halive e.2) fun _ _ _ => rfl
  · exact fun j s' hs' => h.central_mem j s' (hcases j s' hs').2
  · exact fun j s' hs' => h.cache_mem j s' (hcases j s' hs').2
  · intro j s' hs' x
    obtain ⟨hj, hs'⟩ := hcases j s' hs'
    rw [← h.live_mem j s' hs' x]
    simp [hj]
  · intro e he
    obtain ⟨he, hei⟩ := List.mem_filter.mp he
    have hei : e.2 ≠ id := by simpa using hei
    obtain ⟨s', hs'⟩ := h.owned e he
    exact ⟨s', by dsimp only; rw [update_of_ne hei]; exact hs'⟩

end

end HeapForge.Slab
