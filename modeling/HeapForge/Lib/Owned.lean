import Mathlib.Logic.Basic

/-!
# Exclusive ownership

`Owned live has` says that the resources for which `live` holds are the ones that have a holder, and
that no resource has two.  A step of a system that hands one resource on (`Owned.change`) only has
to say who holds that one afterwards.
-/

set_option linter.unusedSectionVars false

namespace HeapForge.Lib

structure Owned {ρ κ : Type*} (live : ρ → Prop) (has : ρ → κ → Prop) : Prop where
  holder : ∀ r, live r ↔ ∃ k, has r k
  unique : ∀ r k k', has r k → has r k' → k = k'

section
variable {ρ κ : Type*} {live live' : ρ → Prop} {has has' : ρ → κ → Prop} {r : ρ} {k : κ}

theorem Owned.of_has (h : Owned live has) (hk : has r k) : live r := (h.holder r).mpr ⟨k, hk⟩

theorem Owned.unheld (h : Owned live has) (hr : ¬ live r) (k : κ) : ¬ has r k :=
  fun hk => hr (h.of_has hk)

/-- one resource `r` goes to a holder, or back to nobody -/
theorem Owned.change (h : Owned live has)
    (hother : ∀ r', r' ≠ r → (live' r' ↔ live r') ∧ ∀ k, has' r' k ↔ has r' k)
    (hat : (live' r ∧ ∃ k₀, ∀ k, has' r k ↔ k = k₀) ∨ (¬ live' r ∧ ∀ k, ¬ has' r k)) :
    Owned live' has' := by
  constructor
  · intro r'
    by_cases hr : r' = r
    · subst hr
      rcases hat with ⟨hl, k₀, hk⟩ | ⟨hl, hk⟩
      · exact iff_of_true hl ⟨k₀, (hk k₀).mpr rfl⟩
      · refine iff_of_false hl ?_
        rintro ⟨k, h1⟩
        exact hk k h1
    · obtain ⟨h1, h2⟩ := hother r' hr
      rw [h1, h.holder r']
      exact exists_congr fun k => (h2 k).symm
  · intro r' k k' h1 h2
    by_cases hr : r' = r
    · subst hr
      rcases hat with ⟨-, k₀, hk⟩ | ⟨-, hk⟩
      · exact ((hk k).mp h1).trans ((hk k').mp h2).symm
      · exact absurd h1 (hk k)
    · obtain ⟨-, h3⟩ := hother r' hr
      exact h.unique r' k k' ((h3 k).mp h1) ((h3 k').mp h2)

end

end HeapForge.Lib
