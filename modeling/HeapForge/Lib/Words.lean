import Mathlib.Algebra.Order.Ring.Nat
import Mathlib.Logic.Function.Basic

/-!
# A bit map stored in words, and the lowest zero of a word

Bit `i` of the map is bit `i % w` of word `i / w`.

* `test_set`, `test_clear`   the map after a single bit has been written;
* `findSome?_range_eq_some`  what a loop over the words finds; `exists_turn` when it goes in a
                             circle;
* `zeroStep`                 one round of a search by halves: if the lower half of the window has no
                             set bit, go on with the upper one;
* `zeroStep_search`          what a round keeps, from which the search by halves is right.
-/

set_option linter.unusedSectionVars false

namespace HeapForge.Lib

def WordMap (w : Nat) : Type := Nat → BitVec w

namespace WordMap

variable {w : Nat}

def test (m : WordMap w) (i : Nat) : Bool := (m (i / w)).getLsbD (i % w)

def set (m : WordMap w) (i : Nat) : WordMap w :=
  fun j => if j = i / w then m j ||| (1#w <<< (i % w)) else m j

def clear (m : WordMap w) (i : Nat) : WordMap w :=
  fun j => if j = i / w then m j &&& ~~~(1#w <<< (i % w)) else m j

theorem eq_iff_div_mod (w i j : Nat) : j = i ↔ j / w = i / w ∧ j % w = i % w := by
  constructor
  · rintro rfl
    exact ⟨rfl, rfl⟩
  · rintro ⟨h1, h2⟩
    rw [← Nat.div_add_mod j w, ← Nat.div_add_mod i w, h1, h2]

/-- the bits of a word with one bit in it -/
theorem getLsbD_one (hw : 0 < w) (i j : Nat) :
    (1#w <<< (i % w)).getLsbD (j % w) = decide (j % w = i % w) := by
  have hj := Nat.mod_lt j hw
  have hi := Nat.mod_lt i hw
  rw [BitVec.getLsbD_shiftLeft, BitVec.getLsbD_one]
  by_cases h : j % w = i % w
  · rw [h]
    simp [hi]
    omega
  · simp [h]
    omega

theorem test_set (hw : 0 < w) (m : WordMap w) (i j : Nat) :
    (m.set i).test j = (decide (j = i) || m.test j) := by
  unfold test set
  by_cases h : j / w = i / w
  · rw [if_pos h, BitVec.getLsbD_or, getLsbD_one hw, Bool.or_comm]
    simp [eq_iff_div_mod w i j, h]
  · rw [if_neg h]
    simp [eq_iff_div_mod w i j, h]

theorem test_clear (hw : 0 < w) (m : WordMap w) (i j : Nat) :
    (m.clear i).test j = (!decide (j = i) && m.test j) := by
  unfold test clear
  have hj := Nat.mod_lt j hw
  by_cases h : j / w = i / w
  · rw [if_pos h, BitVec.getLsbD_and, BitVec.getLsbD_not, getLsbD_one hw, Bool.and_comm]
    simp [eq_iff_div_mod w i j, h, hj]
  · rw [if_neg h]
    simp [eq_iff_div_mod w i j, h]

end WordMap

/-! ## scanning in a circle -/

section
variable {α : Type*} {f : Nat → Option α} {b : α} {n h j : Nat}

theorem findSome?_range_eq_some :
    (List.range n).findSome? f = some b ↔ ∃ w < n, f w = some b ∧ ∀ v < w, f v = none := by
  induction n with
  | zero => simp
  | succ n ih =>
    rw [List.range_succ, List.findSome?_append]
    cases hr : (List.range n).findSome? f with
    | some c =>
      rw [hr] at ih
      rw [Option.some_or, ih]
      constructor
      · intro ⟨w, hw, h1, h2⟩
        exact ⟨w, by omega, h1, h2⟩
      · intro ⟨w, hw, h1, h2⟩
        obtain ⟨x, hx, hfx⟩ := List.exists_of_findSome?_eq_some hr
        have hxn := List.mem_range.mp hx
        refine ⟨w, ?_, h1, h2⟩
        by_contra hlt
        rw [h2 x (by omega)] at hfx
        exact absurd hfx (by simp)
    | none =>
      have hnone := List.findSome?_eq_none_iff.mp hr
      rw [Option.none_or, List.findSome?_singleton]
      constructor
      · intro hb
        exact ⟨n, by omega, hb, fun v hv => hnone v (List.mem_range.mpr hv)⟩
      · intro ⟨w, hw, h1, h2⟩
        obtain rfl : w = n := by
          by_contra hne
          rw [hnone w (List.mem_range.mpr (by omega))] at h1
          exact absurd h1 (by simp)
        exact h1

/-- a scan of `n` places from any of them on meets every place -/
theorem exists_turn (hh : h < n) (hj : j < n) : ∃ w < n, (h + w) % n = j := by
  by_cases hle : h ≤ j
  · exact ⟨j - h, by omega, by rw [Nat.add_sub_cancel' hle, Nat.mod_eq_of_lt hj]⟩
  · refine ⟨j + n - h, by omega, ?_⟩
    rw [show h + (j + n - h) = j + n by omega, Nat.add_mod_right, Nat.mod_eq_of_lt hj]

end

/-! ## search by halves -/

section
variable {w k n : Nat} {inv : BitVec w}

/-- `if (!(inv & ((1 << k) - 1))) { n += k; inv >>= k; }` -/
def zeroStep (k : Nat) (r : Nat × BitVec w) : Nat × BitVec w :=
  if r.2 &&& BitVec.ofNat w (2 ^ k - 1) = 0#w then (r.1 + k, r.2 >>> k) else r

/-- `n` is where the search stands in `x`: below there is no set bit, and among the next `win` bits,
which `inv` begins with, there is one -/
structure Search (x : BitVec w) (win : Nat) (r : Nat × BitVec w) : Prop where
  below : ∀ i < r.1, x.getLsbD i = false
  shifted : ∀ i, r.2.getLsbD i = x.getLsbD (r.1 + i)
  window : ∃ i < win, r.2.getLsbD i = true

theorem low_zero_iff (hk : k ≤ w) (x : BitVec w) :
    x &&& BitVec.ofNat w (2 ^ k - 1) = 0#w ↔ ∀ i < k, x.getLsbD i = false := by
  constructor
  · intro h i hi
    have h1 := congrArg (fun y : BitVec w => y.getLsbD i) h
    simp only [BitVec.getLsbD_and, BitVec.getLsbD_ofNat, Nat.testBit_two_pow_sub_one] at h1
    have h2 : i < w := by omega
    simpa [hi, h2] using h1
  · intro h
    apply BitVec.eq_of_getLsbD_eq
    intro i hi
    rw [BitVec.getLsbD_and, BitVec.getLsbD_ofNat, Nat.testBit_two_pow_sub_one, BitVec.getLsbD_zero]
    by_cases hik : i < k
    · rw [h i hik, Bool.false_and]
    · simp [hik]

theorem zeroStep_search {x : BitVec w} {r : Nat × BitVec w} (hk : k ≤ w) (h : Search x (k + k) r) :
    Search x k (zeroStep k r) := by
  unfold zeroStep
  by_cases hz : r.2 &&& BitVec.ofNat w (2 ^ k - 1) = 0#w
  · rw [if_pos hz]
    have hlow := (low_zero_iff hk r.2).mp hz
    obtain ⟨i, hi, hbit⟩ := h.window
    have hki : k ≤ i := by
      by_contra hlt
      rw [hlow i (by omega)] at hbit
      exact absurd hbit (by simp)
    refine ⟨fun j hj => ?_, fun j => ?_, ⟨i - k, by omega, ?_⟩⟩
    · by_cases hjr : j < r.1
      · exact h.below j hjr
      · have hj' : j < r.1 + k := hj
        rw [show j = r.1 + (j - r.1) by omega, ← h.shifted]
        exact hlow _ (by omega)
    · show (r.2 >>> k).getLsbD j = x.getLsbD (r.1 + k + j)
      rw [BitVec.getLsbD_ushiftRight, h.shifted, Nat.add_assoc]
    · show (r.2 >>> k).getLsbD (i - k) = true
      rw [BitVec.getLsbD_ushiftRight, show k + (i - k) = i by omega]
      exact hbit
  · rw [if_neg hz]
    refine ⟨h.below, h.shifted, ?_⟩
    by_contra hno
    refine hz ((low_zero_iff hk r.2).mpr fun i hi => ?_)
    by_contra hb
    exact hno ⟨i, hi, by simpa using hb⟩

end

end HeapForge.Lib
