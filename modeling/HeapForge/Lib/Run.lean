import Mathlib.Logic.Basic
import Mathlib.Data.List.Induction

/-!
# Runs of a labelled transition system

`Steps step s as s'` says that the actions `as`, taken one after the other, lead from `s` to
`s'`.  What one step keeps, a run keeps: `Steps.invariant` for a property of the state alone,
`Steps.invariant_trace` for a property that may also mention the actions taken so far (a
counter, a bound on the number of operations).  A computed run is one by `Steps.of_foldlM`.
-/

set_option linter.unusedSectionVars false

namespace HeapForge.Lib

inductive Steps {σ α : Type*} (step : σ → α → σ → Prop) : σ → List α → σ → Prop
  | nil (s : σ) : Steps step s [] s
  | snoc {s s' s'' : σ} {as : List α} {a : α} :
      Steps step s as s' → step s' a s'' → Steps step s (as ++ [a]) s''

section
variable {σ α : Type*} {step step' : σ → α → σ → Prop} {s s' : σ} {as : List α}

theorem Steps.invariant_trace {I : List α → σ → Prop} (h : Steps step s as s') (h0 : I [] s)
    (hI : ∀ as s a s', I as s → step s a s' → I (as ++ [a]) s') : I as s' := by
  induction h with
  | nil => exact h0
  | snoc _ hs ih => exact hI _ _ _ _ ih hs

theorem Steps.invariant {I : σ → Prop} (h : Steps step s as s') (h0 : I s)
    (hI : ∀ s a s', I s → step s a s' → I s') : I s' :=
  h.invariant_trace (I := fun _ => I) h0 (fun _ s a s' => hI s a s')

theorem Steps.trans {s'' : σ} {bs : List α} (h : Steps step s as s') (h' : Steps step s' bs s'') :
    Steps step s (as ++ bs) s'' := by
  induction h' with
  | nil => rw [List.append_nil]; exact h
  | snoc _ hs ih => rw [← List.append_assoc]; exact ih.snoc hs

/-- the last step of a run -/
theorem Steps.last {s'' : σ} {a : α} (h : Steps step s (as ++ [a]) s'') :
    ∃ s', Steps step s as s' ∧ step s' a s'' := by
  generalize he : as ++ [a] = bs at h
  cases h with
  | nil => exact absurd he (by simp)
  | @snoc s₁ _ cs c h hs =>
    obtain ⟨rfl, hac⟩ := List.append_inj' he rfl
    obtain rfl := (List.cons.inj hac).1
    exact ⟨s₁, h, hs⟩

/-- a run computed action by action -/
theorem Steps.of_foldlM {f : σ → α → Option σ} (hf : ∀ s a s', f s a = some s' → step s a s')
    (h : as.foldlM f s = some s') : Steps step s as s' := by
  induction as using List.reverseRecOn generalizing s' with
  | nil =>
    obtain rfl := Option.some.inj h
    exact Steps.nil s
  | append_singleton as a ih =>
    rw [List.foldlM_append] at h
    obtain ⟨s₁, h1, h2⟩ := Option.bind_eq_some_iff.mp h
    rw [List.foldlM_cons] at h2
    obtain ⟨s₂, h3, h4⟩ := Option.bind_eq_some_iff.mp h2
    obtain rfl := Option.some.inj h4
    exact Steps.snoc (ih h1) (hf _ _ _ h3)

end

end HeapForge.Lib
