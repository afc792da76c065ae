import Mathlib.Data.List.Nodup
import Mathlib.Logic.Function.Basic

/-!
# Singly linked lists

`SList null nx p l` says that following `nx` from `p` gives the elements of `l`, one after the
other, and then `null`.

* `SList.push`    a node in front;
* `SList.cut`     ending the list behind a node gives two lists.
-/

set_option linter.unusedSectionVars false

namespace HeapForge.Lib
open Function

def SList {α : Type*} (null : α) (nx : α → α) : α → List α → Prop
  | p, [] => p = null
  | p, x :: l => p = x ∧ SList null nx (nx x) l

section
variable {α : Type*} [DecidableEq α] {null p n t : α} {nx nx' : α → α} {l l₁ l₂ : List α}

theorem SList.congr (h : SList null nx p l) (hn : ∀ x ∈ l, nx' x = nx x) : SList null nx' p l := by
  induction l generalizing p with
  | nil => exact h
  | cons x l ih =>
    refine ⟨h.1, ?_⟩
    rw [hn x List.mem_cons_self]
    exact ih h.2 fun y hy => hn y (List.mem_cons_of_mem _ hy)

theorem SList.head (h : SList null nx p l) : p = l.headD null := by
  cases l with
  | nil => exact h
  | cons x l => exact h.1

theorem SList.eq_null_iff (h : SList null nx p l) (hl : null ∉ l) : p = null ↔ l = [] := by
  cases l with
  | nil => exact iff_of_true h rfl
  | cons x l =>
    refine iff_of_false (fun e => hl ?_) (by simp)
    rw [← e, h.1]
    exact List.mem_cons_self

theorem SList.push (h : SList null nx p l) (hn : n ∉ l) :
    SList null (update nx n p) n (n :: l) := by
  refine ⟨rfl, ?_⟩
  rw [update_self]
  exact h.congr fun x hx => update_of_ne (fun e : x = n => hn (e ▸ hx)) _ _

/-- the list ended behind `t`, and what followed it -/
theorem SList.cut (h : SList null nx p (l₁ ++ t :: l₂)) (hd : (l₁ ++ t :: l₂).Nodup) :
    SList null (update nx t null) p (l₁ ++ [t]) ∧ SList null (update nx t null) (nx t) l₂ := by
  induction l₁ generalizing p with
  | nil =>
    have ht : t ∉ l₂ := (List.nodup_cons.mp hd).1
    refine ⟨⟨h.1, ?_⟩, h.2.congr fun x hx => update_of_ne (fun e : x = t => ht (e ▸ hx)) _ _⟩
    exact update_self ..
  | cons x l₁ ih =>
    have hd' := List.nodup_cons.mp hd
    obtain ⟨h1, h2⟩ := ih h.2 hd'.2
    refine ⟨⟨h.1, ?_⟩, h2⟩
    have hx : x ≠ t := fun e => hd'.1 (by rw [e]; simp)
    rw [update_of_ne hx]
    exact h1

end

end HeapForge.Lib
