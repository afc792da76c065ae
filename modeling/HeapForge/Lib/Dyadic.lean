import Mathlib.Data.Nat.Bitwise
import Mathlib.Algebra.Order.Ring.Nat
import Mathlib.Algebra.Ring.Divisibility.Basic
import HeapForge.Lib.Word

/-!
# Dyadic intervals and buddies

A dyadic interval is `[x, x + 2^k)` with `2^k ∣ x`.  Two of them are nested or disjoint.  The
buddy of `x` at order `k` is `x ^^^ 2^k`: the other half of the interval of order `k + 1` around
`x`, which starts at `x` with bit `k` cleared.
-/

set_option linter.unusedSectionVars false

namespace HeapForge.Lib

section
variable {x y j k p : Nat}

/-- two dyadic intervals that share a point are nested -/
theorem dyadic_nested (hx : 2 ^ j ∣ x) (hy : 2 ^ k ∣ y) (hjk : j ≤ k)
    (h1 : x ≤ p ∧ p < x + 2 ^ j) (h2 : y ≤ p ∧ p < y + 2 ^ k) :
    y ≤ x ∧ x + 2 ^ j ≤ y + 2 ^ k := by
  obtain ⟨a, rfl⟩ := hx
  obtain ⟨b, rfl⟩ := (pow_dvd_pow 2 hjk).trans hy
  obtain ⟨c, hc⟩ := pow_dvd_pow 2 hjk
  have h0 := Nat.two_pow_pos j
  rw [hc] at h2 ⊢
  -- in units of `2^j`
  have ha : b ≤ a := by
    by_contra hlt
    have : 2 ^ j * (a + 1) ≤ 2 ^ j * b := Nat.mul_le_mul_left _ (by omega)
    rw [Nat.mul_add, Nat.mul_one] at this
    omega
  have hb : a + 1 ≤ b + c := by
    by_contra hlt
    have : 2 ^ j * (b + c) ≤ 2 ^ j * a := Nat.mul_le_mul_left _ (by omega)
    rw [Nat.mul_add] at this
    omega
  have h3 : 2 ^ j * b ≤ 2 ^ j * a := Nat.mul_le_mul_left _ ha
  have h4 : 2 ^ j * (a + 1) ≤ 2 ^ j * (b + c) := Nat.mul_le_mul_left _ hb
  rw [Nat.mul_add, Nat.mul_add, Nat.mul_one] at h4
  exact ⟨h3, h4⟩

/-- with equal orders they are the same -/
theorem dyadic_eq (hx : 2 ^ k ∣ x) (hy : 2 ^ k ∣ y)
    (h1 : x ≤ p ∧ p < x + 2 ^ k) (h2 : y ≤ p ∧ p < y + 2 ^ k) : x = y := by
  have h3 := dyadic_nested hx hy le_rfl h1 h2
  omega

def buddy (x k : Nat) : Nat := x ^^^ 2 ^ k

/-- the start of the interval of order `k + 1` around `x` -/
def parent (x k : Nat) : Nat := x &&& wnot (2 ^ k)

theorem xor_one_eq (q : Nat) : q ^^^ 1 = if q % 2 = 0 then q + 1 else q - 1 := by
  apply Nat.eq_of_testBit_eq
  intro i
  rw [Nat.testBit_xor]
  cases i with
  | zero =>
    rw [Nat.testBit_zero, Nat.testBit_zero, Nat.testBit_zero]
    split <;> rename_i h
    · have : (q + 1) % 2 = 1 := by omega
      simp [h, this]
    · have h1 : q % 2 = 1 := by omega
      have : (q - 1) % 2 = 0 := by omega
      simp [h1, this]
  | succ i =>
    rw [Nat.testBit_succ, Nat.testBit_succ, Nat.testBit_succ]
    have : (if q % 2 = 0 then q + 1 else q - 1) / 2 = q / 2 := by split <;> omega
    simp [this]

theorem buddy_mul (q k : Nat) :
    buddy (2 ^ k * q) k = 2 ^ k * (if q % 2 = 0 then q + 1 else q - 1) := by
  unfold buddy
  have h : 2 ^ k * q ^^^ 2 ^ k = (q ^^^ 1) <<< k := by
    rw [Nat.shiftLeft_xor_distrib, Nat.shiftLeft_eq, Nat.shiftLeft_eq, Nat.one_mul,
      Nat.mul_comm q]
  rw [h, xor_one_eq, Nat.shiftLeft_eq, Nat.mul_comm]

theorem parent_mul (q : Nat) (hk : k < 64) (hlt : 2 ^ k * q < 2 ^ 64) :
    parent (2 ^ k * q) k = 2 ^ k * (q - q % 2) := by
  have hp : 2 ^ k < 2 ^ 64 := Nat.pow_lt_pow_right (by norm_num) hk
  have hm : wnot (2 ^ k) = 2 ^ 64 - (2 ^ k + 1) := by
    unfold wnot
    omega
  unfold parent
  apply Nat.eq_of_testBit_eq
  intro i
  rw [hm, Nat.testBit_and, Nat.testBit_two_pow_sub_succ hp, Nat.testBit_two_pow, Nat.mul_comm _ q,
    ← Nat.shiftLeft_eq, Nat.testBit_shiftLeft, Nat.mul_comm _ (q - q % 2), ← Nat.shiftLeft_eq,
    Nat.testBit_shiftLeft]
  by_cases h1 : k ≤ i
  · have hq : (q - q % 2).testBit (i - k) = (q.testBit (i - k) && decide (i ≠ k)) := by
      cases hj : i - k with
      | zero =>
        have : i = k := by omega
        have h0 : (q - q % 2) % 2 = 0 := by omega
        simp [this, h0, Nat.testBit_zero]
      | succ j =>
        have hne : i ≠ k := by omega
        have h0 : (q - q % 2) / 2 = q / 2 := by omega
        rw [Nat.testBit_succ, Nat.testBit_succ, h0]
        simp [hne]
    rw [hq]
    by_cases h2 : i < 64
    · by_cases h3 : i = k
      · simp [h3]
      · simp [h1, h2, h3, Ne.symm h3]
    · -- beyond 64 bits the number has no bits
      have h4 : (2 ^ k * q).testBit i = false := Nat.testBit_lt_two_pow
        (lt_of_lt_of_le hlt (Nat.pow_le_pow_right (by norm_num) (by omega)))
      rw [Nat.mul_comm, ← Nat.shiftLeft_eq, Nat.testBit_shiftLeft] at h4
      have h5 : q.testBit (i - k) = false := by simpa [h1] using h4
      simp [h5]
  · simp [h1]

/-- an interval and its buddy are the two halves of the parent -/
theorem buddy_cases (hx : 2 ^ k ∣ x) (hk : k < 64) (hlt : x < 2 ^ 64) :
    (buddy x k = x + 2 ^ k ∧ parent x k = x ∧ 2 ^ (k + 1) ∣ x)
    ∨ (x = buddy x k + 2 ^ k ∧ parent x k = buddy x k ∧ 2 ^ (k + 1) ∣ buddy x k) := by
  obtain ⟨q, rfl⟩ := hx
  rw [buddy_mul, parent_mul q hk hlt]
  by_cases h : q % 2 = 0
  · left
    rw [if_pos h, h, Nat.sub_zero, Nat.mul_add, Nat.mul_one, pow_succ]
    exact ⟨rfl, rfl, Nat.mul_dvd_mul_left _ (Nat.dvd_of_mod_eq_zero h)⟩
  · right
    have h1 : q % 2 = 1 := by omega
    obtain ⟨r, rfl⟩ : ∃ r, q = r + 1 := ⟨q - 1, by omega⟩
    rw [if_neg h, h1, Nat.add_sub_cancel, Nat.mul_add, Nat.mul_one, pow_succ]
    exact ⟨rfl, rfl, Nat.mul_dvd_mul_left _ (Nat.dvd_of_mod_eq_zero (by omega))⟩

theorem buddy_dvd (hx : 2 ^ k ∣ x) : 2 ^ k ∣ buddy x k := by
  obtain ⟨q, rfl⟩ := hx
  rw [buddy_mul]
  exact Nat.dvd_mul_right _ _

theorem buddy_buddy (x k : Nat) : buddy (buddy x k) k = x := by
  unfold buddy
  rw [Nat.xor_assoc, Nat.xor_self, Nat.xor_zero]

theorem buddy_ne (x k : Nat) : buddy x k ≠ x := by
  intro h
  have h1 : 2 ^ k = 0 := by
    have h2 : x ^^^ (x ^^^ 2 ^ k) = x ^^^ x := congrArg (x ^^^ ·) h
    rwa [← Nat.xor_assoc, Nat.xor_self, Nat.zero_xor] at h2
  exact absurd h1 (Nat.two_pow_pos k).ne'

/-- the buddy stays inside a dyadic interval of a higher order -/
theorem buddy_mem (hx : 2 ^ k ∣ x) (hk : k < 64) (hlt : x < 2 ^ 64) (hy : 2 ^ j ∣ y) (hkj : k < j)
    (h : y ≤ x ∧ x < y + 2 ^ j) : y ≤ buddy x k ∧ buddy x k + 2 ^ k ≤ y + 2 ^ j := by
  have h0 := Nat.two_pow_pos k
  have h1 : 2 ^ (k + 1) = 2 ^ k + 2 ^ k := by rw [pow_succ]; omega
  rcases buddy_cases hx hk hlt with ⟨e, -, hd⟩ | ⟨e, -, hd⟩
  · have h3 := dyadic_nested (p := x) hd hy hkj (by omega) h
    omega
  · have h3 := dyadic_nested (p := x) hd hy hkj (by omega) h
    omega

end

end HeapForge.Lib
