import Mathlib.Data.List.Basic
import Mathlib.Data.List.Nodup
import Mathlib.Algebra.Order.Ring.Nat
import Mathlib.Algebra.BigOperators.Group.List.Basic

/-!
# Lists of intervals that tile a range

`Tiles pos size a bs e`: the intervals `[pos b, pos b + size b)` of the list, in order, are
nonempty, the first starts at `a`, each starts where the one before ends, and the last ends at
`e`.  A part of a tiling may be replaced by another tiling of the same range
(`Tiles.replace`); every point is covered once (`Tiles.cover`, `Tiles.eq_of_mem`).
-/

set_option linter.unusedSectionVars false

namespace HeapForge.Lib

section
variable {β : Type*} {pos size : β → Nat} {a e x : Nat} {b c : β} {bs l l₁ l₂ m m' : List β}

def Tiles (pos size : β → Nat) : Nat → List β → Nat → Prop
  | a, [], e => a = e
  | a, b :: bs, e => pos b = a ∧ 0 < size b ∧ Tiles pos size (a + size b) bs e

theorem tiles_append : Tiles pos size a (l₁ ++ l₂) e ↔
    ∃ mid, Tiles pos size a l₁ mid ∧ Tiles pos size mid l₂ e := by
  induction l₁ generalizing a with
  | nil => simp [Tiles]
  | cons b l₁ ih =>
    simp only [List.cons_append, Tiles, ih]
    constructor
    · rintro ⟨h1, h2, mid, h3, h4⟩
      exact ⟨mid, ⟨h1, h2, h3⟩, h4⟩
    · rintro ⟨mid, ⟨h1, h2, h3⟩, h4⟩
      exact ⟨h1, h2, mid, h3, h4⟩

theorem Tiles.le (h : Tiles pos size a bs e) : a ≤ e := by
  induction bs generalizing a with
  | nil => exact le_of_eq h
  | cons b bs ih =>
    have := ih h.2.2
    omega

/-- the tiles determine where the range ends -/
theorem Tiles.end_unique {e' : Nat} (h : Tiles pos size a bs e) (h' : Tiles pos size a bs e') :
    e = e' := by
  induction bs generalizing a with
  | nil => exact h.symm.trans h'
  | cons b bs ih => exact ih h.2.2 h'.2.2

/-- the same intervals, counted from another point -/
theorem Tiles.shift {γ : Type*} {pos' size' : γ → Nat} {g : β → γ} {d : Nat}
    (h : Tiles pos size a bs e) (hd : d ≤ a)
    (hg : ∀ b, pos' (g b) = pos b - d ∧ size' (g b) = size b) :
    Tiles pos' size' (a - d) (bs.map g) (e - d) := by
  induction bs generalizing a with
  | nil => exact congrArg (· - d) h
  | cons b bs ih =>
    obtain ⟨rfl, h2, h3⟩ := h
    obtain ⟨hpos, hsize⟩ := hg b
    refine ⟨hpos, by omega, ?_⟩
    rw [hsize, ← Nat.sub_add_comm hd]
    exact ih h3 (by omega)

/-- **A loop that visits the intervals of a tiling one by one**, at a place that depends on the
position, makes a list with one entry each. -/
theorem Tiles.visit {γ : Type*} {info : β → γ} {fuel : Nat} (h : Tiles pos size a bs e)
    (loop : Nat → Nat → Option (List γ)) (place : Nat → Nat)
    (hend : ∀ fuel, loop (fuel + 1) (place e) = some [])
    (hstep : ∀ b ∈ bs, ∀ fuel, pos b + size b ≤ e →
      loop (fuel + 1) (place (pos b)) = (loop fuel (place (pos b + size b))).map (info b :: ·))
    (hf : bs.length < fuel) : loop fuel (place a) = some (bs.map info) := by
  induction bs generalizing a fuel with
  | nil =>
    obtain ⟨fuel, rfl⟩ : ∃ k, fuel = k + 1 := ⟨fuel - 1, by omega⟩
    rw [show a = e from h]
    exact hend fuel
  | cons b bs ih =>
    rw [List.length_cons] at hf
    obtain ⟨fuel, rfl⟩ : ∃ k, fuel = k + 1 := ⟨fuel - 1, by omega⟩
    obtain ⟨rfl, h2, h3⟩ := h
    rw [hstep b List.mem_cons_self fuel h3.le,
      ih h3 (fun c hc => hstep c (List.mem_cons_of_mem b hc)) (by omega)]
    rfl

/-- the same intervals, counted in another unit -/
theorem Tiles.scale {γ : Type*} {pos' size' : γ → Nat} {g : β → γ} {n : Nat}
    (h : Tiles pos size a bs e) (hn : 0 < n) (hpos : ∀ b ∈ bs, pos' (g b) = pos b * n)
    (hsize : ∀ b ∈ bs, size' (g b) = size b * n) :
    Tiles pos' size' (a * n) (bs.map g) (e * n) := by
  induction bs generalizing a with
  | nil => exact congrArg (· * n) h
  | cons b bs ih =>
    obtain ⟨h1, h2, h3⟩ := h
    have hs := hsize b List.mem_cons_self
    refine ⟨by rw [hpos b List.mem_cons_self, h1], by rw [hs]; exact Nat.mul_pos h2 hn, ?_⟩
    rw [hs, ← Nat.add_mul]
    exact ih h3 (fun c hc => hpos c (List.mem_cons_of_mem b hc)) fun c hc =>
      hsize c (List.mem_cons_of_mem b hc)

/-- intervals that are no longer than the scaled ones end no later -/
theorem Tiles.end_le_scale {γ : Type*} {pos' size' : γ → Nat} {g : β → γ} {n a' e' : Nat}
    (h : Tiles pos size a bs e) (h' : Tiles pos' size' a' (bs.map g) e')
    (hle : ∀ b ∈ bs, size' (g b) ≤ size b * n) : e' + a * n ≤ a' + e * n := by
  induction bs generalizing a a' with
  | nil =>
    obtain rfl : a = e := h
    obtain rfl : a' = e' := h'
    exact le_rfl
  | cons b bs ih =>
    have hb := hle b List.mem_cons_self
    have hrest := ih h.2.2 h'.2.2 fun c hc => hle c (List.mem_cons_of_mem b hc)
    rw [Nat.add_mul] at hrest
    omega

/-- if they end where the scaled ones do, they are the scaled ones -/
theorem Tiles.eq_scale {γ : Type*} {pos' size' : γ → Nat} {g : β → γ} {n : Nat}
    (h : Tiles pos size a bs e) (h' : Tiles pos' size' (a * n) (bs.map g) (e * n))
    (hle : ∀ b ∈ bs, size' (g b) ≤ size b * n) :
    ∀ b ∈ bs, pos' (g b) = pos b * n ∧ size' (g b) = size b * n := by
  induction bs generalizing a with
  | nil => exact fun b hb => absurd hb List.not_mem_nil
  | cons b bs ih =>
    have hb := hle b List.mem_cons_self
    have htail : ∀ c ∈ bs, size' (g c) ≤ size c * n := fun c hc => hle c (List.mem_cons_of_mem b hc)
    have hrest := h.2.2.end_le_scale h'.2.2 htail
    rw [Nat.add_mul] at hrest
    have hsize : size' (g b) = size b * n := by omega
    intro c hc
    rcases List.mem_cons.mp hc with rfl | hc
    · exact ⟨by rw [h.1]; exact h'.1, hsize⟩
    · have h2 := h'.2.2
      rw [hsize, ← Nat.add_mul] at h2
      exact ih h.2.2 h2 htail c hc

theorem Tiles.length_mul_le (h : Tiles pos size a bs e) {n : Nat} (hn : ∀ b ∈ bs, n ≤ size b) :
    bs.length * n ≤ e - a := by
  induction bs generalizing a with
  | nil => simp
  | cons b bs ih =>
    obtain ⟨-, h1, h2⟩ := h
    have h3 := ih h2 fun c hc => hn c (List.mem_cons_of_mem _ hc)
    have h4 := h2.le
    have h5 := hn b List.mem_cons_self
    rw [List.length_cons, Nat.add_mul, Nat.one_mul]
    omega

theorem Tiles.bounds (h : Tiles pos size a bs e) (hb : b ∈ bs) :
    a ≤ pos b ∧ pos b + size b ≤ e ∧ 0 < size b := by
  obtain ⟨l₁, l₂, rfl⟩ := List.append_of_mem hb
  obtain ⟨mid, h1, h2, h3, h4⟩ := tiles_append.mp h
  have := h1.le
  have := h4.le
  omega

theorem Tiles.length_le (h : Tiles pos size a bs e) : bs.length ≤ e - a := by
  have h1 := h.length_mul_le (n := 1) fun b hb => (h.bounds hb).2.2
  rwa [Nat.mul_one] at h1

/-- what stands before a tile ends before it, what stands behind starts behind it -/
theorem Tiles.around (h : Tiles pos size a (l₁ ++ b :: l₂) e) :
    (∀ c ∈ l₁, pos c + size c ≤ pos b) ∧ (∀ c ∈ l₂, pos b + size b ≤ pos c) := by
  obtain ⟨mid, h1, h2, -, h4⟩ := tiles_append.mp h
  constructor
  · intro c hc
    have := h1.bounds hc
    omega
  · intro c hc
    have := h4.bounds hc
    omega

/-- a point lies in one tile only -/
theorem Tiles.eq_of_mem (h : Tiles pos size a bs e) (hb : b ∈ bs) (hc : c ∈ bs)
    (h1 : pos b ≤ x ∧ x < pos b + size b) (h2 : pos c ≤ x ∧ x < pos c + size c) : b = c := by
  obtain ⟨l₁, l₂, rfl⟩ := List.append_of_mem hb
  obtain ⟨hl, hr⟩ := h.around
  rcases List.mem_append.mp hc with hc | hc
  · have := hl c hc
    omega
  · rcases List.mem_cons.mp hc with rfl | hc
    · rfl
    · have := hr c hc
      omega

theorem Tiles.pos_inj (h : Tiles pos size a bs e) (hb : b ∈ bs) (hc : c ∈ bs)
    (he : pos b = pos c) : b = c := by
  have h1 := h.bounds hb
  have h2 := h.bounds hc
  exact h.eq_of_mem hb hc (x := pos b) (by omega) (by omega)

theorem Tiles.nodup (h : Tiles pos size a bs e) : bs.Nodup := by
  induction bs generalizing a with
  | nil => exact List.nodup_nil
  | cons b bs ih =>
    obtain ⟨h1, h2, h3⟩ := h
    refine List.nodup_cons.mpr ⟨fun hb => ?_, ih h3⟩
    have := h3.bounds hb
    omega

/-- two tilings of one range with the same tiles are the same list -/
theorem Tiles.ext (h : Tiles pos size a l₁ e) (h' : Tiles pos size a l₂ e)
    (hm : ∀ b, b ∈ l₁ ↔ b ∈ l₂) :
    l₁ = l₂ := by
  induction l₁ generalizing a l₂ with
  | nil =>
    exact (List.eq_nil_iff_forall_not_mem.mpr fun b hb => List.not_mem_nil ((hm b).mpr hb)).symm
  | cons b bs ih =>
    cases l₂ with
    | nil => exact absurd ((hm b).mp List.mem_cons_self) List.not_mem_nil
    | cons c cs =>
      obtain rfl : b = c := h'.pos_inj ((hm b).mp List.mem_cons_self) List.mem_cons_self
        (h.1.trans h'.1.symm)
      have hb := (List.nodup_cons.mp h.nodup).1
      have hb' := (List.nodup_cons.mp h'.nodup).1
      rw [ih h.2.2 h'.2.2 fun d => ?_]
      have hd := hm d
      rw [List.mem_cons, List.mem_cons] at hd
      exact ⟨fun hx => (hd.mp (Or.inr hx)).resolve_left fun he => hb (he ▸ hx),
        fun hx => (hd.mpr (Or.inr hx)).resolve_left fun he => hb' (he ▸ hx)⟩

theorem Tiles.cover (h : Tiles pos size a bs e) (hx : a ≤ x ∧ x < e) :
    ∃ b ∈ bs, pos b ≤ x ∧ x < pos b + size b := by
  induction bs generalizing a with
  | nil =>
    have : a = e := h
    omega
  | cons b bs ih =>
    obtain ⟨h1, -, h3⟩ := h
    by_cases hb : x < a + size b
    · exact ⟨b, List.mem_cons_self, by omega⟩
    · obtain ⟨c, hc, hx'⟩ := ih h3 (by omega)
      exact ⟨c, List.mem_cons_of_mem _ hc, hx'⟩

theorem Tiles.replace (m' : List β) (h : Tiles pos size a (l₁ ++ m ++ l₂) e)
    (hm : ∀ p q, Tiles pos size p m q → Tiles pos size p m' q) :
    Tiles pos size a (l₁ ++ m' ++ l₂) e := by
  rw [List.append_assoc] at h ⊢
  obtain ⟨p, h1, h2⟩ := tiles_append.mp h
  obtain ⟨q, h3, h4⟩ := tiles_append.mp h2
  exact tiles_append.mpr ⟨p, h1, tiles_append.mpr ⟨q, hm p q h3, h4⟩⟩

theorem Tiles.sum_le (h : Tiles pos size a bs e) (p : β → Bool) :
    ((bs.filter p).map size).sum ≤ e - a := by
  induction bs generalizing a with
  | nil => simp
  | cons b bs ih =>
    obtain ⟨-, h1, h2⟩ := h
    have h3 := ih h2
    have h4 := h2.le
    rw [List.filter_cons]
    split
    · rw [List.map_cons, List.sum_cons]
      omega
    · omega

end

/-- what stays in a list of distinct keys has another key -/
theorem key_ne_of_mem_erase {α β : Type} [DecidableEq α] {l : List α} {key : α → β} {e e' : α}
    (hnd : (l.map key).Nodup) (he : e ∈ l) (he' : e' ∈ l.erase e) : key e' ≠ key e := by
  intro hkey
  have hee : e' = e := List.inj_on_of_nodup_map hnd (List.mem_of_mem_erase he') he hkey
  exact (hnd.of_map.mem_erase_iff.mp he').1 hee

end HeapForge.Lib
