import Mathlib.Data.Nat.Bitwise
import Mathlib.Data.Nat.Log
import Mathlib.Algebra.Order.Ring.Nat
import Mathlib.Tactic.Ring

/-!
# Arithmetic of 64-bit words

Words are natural numbers below `2^64`; `wadd`, `wsub`, `wmul` and `wnot` are the machine's sum,
difference, product and complement.  Masking with the complement of `2^k - 1` rounds down to a
multiple of `2^k` (`land_wnot_mask`), and or-ing a word with its own shifts by 1, 2, 4, … fills
every bit below its highest one (`smear_eq`).
-/

set_option linter.unusedSectionVars false

namespace HeapForge.Lib

def wadd (a b : Nat) : Nat := (a + b) % 2 ^ 64
def wsub (a b : Nat) : Nat := (a + (2 ^ 64 - b)) % 2 ^ 64
def wmul (a b : Nat) : Nat := a * b % 2 ^ 64
def wnot (a : Nat) : Nat := 2 ^ 64 - 1 - a

section
variable {a b n k x : Nat}

theorem wadd_lt (a b : Nat) : wadd a b < 2 ^ 64 := Nat.mod_lt _ (by norm_num)
theorem wsub_lt (a b : Nat) : wsub a b < 2 ^ 64 := Nat.mod_lt _ (by norm_num)

theorem wadd_of_lt (h : a + b < 2 ^ 64) : wadd a b = a + b := Nat.mod_eq_of_lt h

/-- a counter of events -/
theorem wadd_count (h : a = n % 2 ^ 64) : wadd a 1 = (n + 1) % 2 ^ 64 := by
  rw [h, wadd, Nat.mod_add_mod]

theorem wadd_one_ne (a : Nat) : wadd a 1 ≠ a := by
  unfold wadd
  omega

theorem wmul_of_lt (h : a * b < 2 ^ 64) : wmul a b = a * b := Nat.mod_eq_of_lt h

theorem wsub_of_le (h : b ≤ a) (ha : a < 2 ^ 64) : wsub a b = a - b := by
  unfold wsub
  omega

/-- powers of two up to the word size are not lost in a wrap -/
theorem dvd_wadd (hk : k ≤ 64) : 2 ^ k ∣ wadd a b ↔ 2 ^ k ∣ a + b :=
  Nat.dvd_mod_iff (Nat.pow_dvd_pow 2 hk)

theorem land_one_eq (x : Nat) : x &&& 1 = x % 2 := Nat.and_one_is_mod x

theorem lor_one_of_even (h : x % 2 = 0) : x ||| 1 = x + 1 := by
  obtain ⟨y, rfl⟩ : ∃ y, x = 2 * y := ⟨x / 2, by omega⟩
  apply Nat.eq_of_testBit_eq
  intro i
  cases i with
  | zero => simp
  | succ i =>
    rw [Nat.testBit_or, Nat.testBit_succ, Nat.testBit_succ, Nat.testBit_succ]
    have h1 : (2 * y + 1) / 2 = 2 * y / 2 := by omega
    simp [h1]

/-- masking out the low `k` bits rounds down to a multiple of `2^k` -/
theorem land_wnot_mask (hx : x < 2 ^ 64) (hk : k ≤ 64) :
    x &&& wnot (2 ^ k - 1) = x / 2 ^ k * 2 ^ k := by
  have hp : 2 ^ k ≤ 2 ^ 64 := Nat.pow_le_pow_right (by norm_num) hk
  have h0 : 0 < 2 ^ k := Nat.two_pow_pos k
  have hm : wnot (2 ^ k - 1) = 2 ^ 64 - ((2 ^ k - 1) + 1) := by
    unfold wnot
    omega
  apply Nat.eq_of_testBit_eq
  intro i
  rw [hm, Nat.testBit_and, Nat.testBit_two_pow_sub_succ (by omega), Nat.testBit_two_pow_sub_one,
    ← Nat.shiftLeft_eq, Nat.testBit_shiftLeft, Nat.testBit_div_two_pow]
  by_cases h1 : k ≤ i
  · by_cases h2 : i < 64
    · simp [h1, h2, Nat.not_lt.mpr h1]
    · have h3 : x.testBit i = false :=
        Nat.testBit_lt_two_pow (lt_of_lt_of_le hx (Nat.pow_le_pow_right (by norm_num) (by omega)))
      simp [h1, h2, h3]
  · simp [h1, Nat.lt_of_not_le h1]

theorem land_wnot_one (hx : x < 2 ^ 64) : x &&& wnot 1 = x / 2 * 2 := by
  have h := land_wnot_mask (k := 1) hx (by norm_num)
  simpa using h

end

/-! ## smearing -/

def smear (s n : Nat) : Nat := n ||| n >>> s

/-- bit `i` of `m` tells whether one of the bits `i, …, i + w - 1` of `n` is set -/
def Window (w n m : Nat) : Prop := ∀ i, m.testBit i = true ↔ ∃ j, j < w ∧ n.testBit (i + j) = true

section
variable {w n m : Nat}

theorem Window.one (n : Nat) : Window 1 n n := by
  intro i
  constructor
  · intro h
    exact ⟨0, by omega, h⟩
  · rintro ⟨j, hj, h⟩
    obtain rfl : j = 0 := by omega
    exact h

theorem Window.smear (h : Window w n m) : Window (2 * w) n (smear w m) := by
  intro i
  have hs : (Lib.smear w m).testBit i = true ↔ m.testBit i = true ∨ m.testBit (i + w) = true := by
    unfold Lib.smear
    rw [Nat.testBit_or, Nat.testBit_shiftRight, Bool.or_eq_true, Nat.add_comm w i]
  rw [hs, h i, h (i + w)]
  constructor
  · rintro (⟨j, hj, hb⟩ | ⟨j, hj, hb⟩)
    · exact ⟨j, by omega, hb⟩
    · exact ⟨w + j, by omega, by rw [← Nat.add_assoc]; exact hb⟩
  · rintro ⟨j, hj, hb⟩
    by_cases hw : j < w
    · exact Or.inl ⟨j, hw, hb⟩
    · refine Or.inr ⟨j - w, by omega, ?_⟩
      rwa [show i + w + (j - w) = i + j by omega]

/-- a window as wide as the number itself fills every bit up to the highest one -/
theorem Window.eq_mask (h : Window w n m) (hn : n ≠ 0) (hw : n < 2 ^ w) :
    m = 2 ^ (n.log2 + 1) - 1 := by
  apply Nat.eq_of_testBit_eq
  intro i
  rw [Nat.testBit_two_pow_sub_one, Bool.eq_iff_iff, h i, decide_eq_true_eq]
  have hlog : n.log2 < w := (Nat.log2_lt hn).mpr hw
  constructor
  · rintro ⟨j, -, hb⟩
    by_contra hi
    have hlt : n < 2 ^ (i + j) := (Nat.log2_lt hn).mp (by omega)
    rw [Nat.testBit_lt_two_pow hlt] at hb
    exact Bool.false_ne_true hb
  · intro hi
    refine ⟨n.log2 - i, by omega, ?_⟩
    rw [show i + (n.log2 - i) = n.log2 by omega]
    exact Nat.testBit_log2 hn

theorem smear_eq (hn : n ≠ 0) (h : n < 2 ^ 64) :
    smear 32 (smear 16 (smear 8 (smear 4 (smear 2 (smear 1 n))))) = 2 ^ (n.log2 + 1) - 1 :=
  (Window.one n).smear.smear.smear.smear.smear.smear.eq_mask hn h

end

end HeapForge.Lib
