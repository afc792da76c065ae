import Mathlib.Data.Nat.Basic
import Mathlib.Algebra.Order.Ring.Nat

/-!
# What is set page by page

`onPages ps f ptr size v` changes `f`, a function of the page, on the pages that the bytes from
`ptr` to `ptr + size` lie on.  For whole pages the change can be read off an address: `onPages_div`.
-/

set_option linter.unusedSectionVars false

namespace HeapForge.Lib

def onPages {α : Type*} (ps : Nat) (f : Nat → α) (ptr size : Nat) (v : α) : Nat → α :=
  fun page => if ptr / ps ≤ page ∧ page * ps < ptr + size then v else f page

section
variable {α : Type*} {ps ptr size x y : Nat} {f : Nat → α} {v : α}

theorem onPages_div (h0 : 0 < ps) (hp : ps ∣ ptr) (hs : ps ∣ size) :
    onPages ps f ptr size v (x / ps) = if ptr ≤ x ∧ x < ptr + size then v else f (x / ps) := by
  obtain ⟨q, rfl⟩ := hp
  obtain ⟨n, rfl⟩ := hs
  have h1 : ps * q / ps ≤ x / ps ↔ ps * q ≤ x := by
    rw [Nat.mul_div_cancel_left q h0, Nat.le_div_iff_mul_le h0, Nat.mul_comm]
  have h2 : x / ps * ps < ps * q + ps * n ↔ x < ps * q + ps * n := by
    rw [← Nat.mul_add, Nat.mul_comm ps, Nat.mul_lt_mul_right h0, Nat.div_lt_iff_lt_mul h0]
  exact if_congr (and_congr h1 h2) rfl rfl

/-- one page -/
theorem onPages_page (h0 : 0 < ps) : onPages ps f (x / ps * ps) ps v (y / ps)
    = if y / ps = x / ps then v else f (y / ps) := by
  rw [onPages_div h0 (Nat.dvd_mul_left ..) dvd_rfl]
  refine if_congr ?_ rfl rfl
  have h1 : x / ps * ps ≤ y ↔ x / ps ≤ y / ps := (Nat.le_div_iff_mul_le h0).symm
  have h2 : y < x / ps * ps + ps ↔ y / ps < x / ps + 1 := by
    rw [Nat.div_lt_iff_lt_mul h0, Nat.succ_mul]
  rw [h1, h2]
  omega

end

end HeapForge.Lib
