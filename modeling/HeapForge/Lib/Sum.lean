import Mathlib.Data.Nat.Basic
import Mathlib.Algebra.Order.Ring.Nat
import Mathlib.Algebra.BigOperators.Group.List.Basic

/-!
# Sums over the first indices

`sumTo f n` adds `f 0, …, f (n - 1)`; a change of `f` in one place changes it by the difference
(`sumTo_change`).
-/

set_option linter.unusedSectionVars false

namespace HeapForge.Lib

def sumTo (f : Nat → Nat) (n : Nat) : Nat := ((List.range n).map f).sum

section
variable {f g : Nat → Nat} {i n : Nat}

theorem sumTo_succ (f : Nat → Nat) (n : Nat) : sumTo f (n + 1) = sumTo f n + f n := by
  unfold sumTo
  rw [List.range_succ, List.map_append, List.sum_append, List.map_singleton, List.sum_singleton]

theorem sumTo_congr (h : ∀ j, j < n → g j = f j) : sumTo g n = sumTo f n := by
  induction n with
  | zero => rfl
  | succ n ih => rw [sumTo_succ, sumTo_succ, ih fun j hj => h j (by omega), h n (by omega)]

theorem sumTo_zero (n : Nat) : sumTo (fun _ => 0) n = 0 := by
  induction n with
  | zero => rfl
  | succ n ih => rw [sumTo_succ, ih]

/-- one place changes -/
theorem sumTo_change (hi : i < n) (h : ∀ j, j ≠ i → g j = f j) :
    sumTo g n + f i = sumTo f n + g i := by
  induction n with
  | zero => omega
  | succ n ih =>
    rw [sumTo_succ, sumTo_succ]
    by_cases hn : n = i
    · subst hn
      rw [sumTo_congr fun j hj => h j (by omega)]
      omega
    · rw [h n hn]
      have := ih (by omega)
      omega

end

end HeapForge.Lib
