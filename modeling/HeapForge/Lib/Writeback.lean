import Mathlib.Data.List.Induction
import Mathlib.Logic.Function.Basic
import HeapForge.Lib.Fields

/-!
# Writes behind a cache

A file that a program writes is cached, and the system writes any part of the cache back at any
time; `sync` waits until a part has been written back.  A program writes in batches, each followed
by a `sync`:

* `Cmd`, `Cmd.exec`   the commands on a cached file;
* `write`, `Partly`   a batch as a change of the file, done and half done;
* `Within`            a program is inside a batch: so much is written, so much is to come;
* `Within.step`       **one command of it: a write of the batch, or the `sync` behind the last
                      one.**
-/

set_option linter.unusedSectionVars false

namespace HeapForge.Lib
open Function

structure Cached (ι α : Type*) where
  cache : ι → α
  disk : ι → α

inductive Cmd (ι α : Type*)
  | put (x : ι) (v : α)
  | sync (S : ι → Bool)

section
variable {ι α : Type*} [DecidableEq ι]

def Cached.writeBack (m : Cached ι α) (S : ι → Bool) : Cached ι α :=
  { m with disk := fun x => if S x then m.cache x else m.disk x }

def Cmd.exec (m : Cached ι α) : Cmd ι α → Cached ι α
  | .put x v => { m with cache := update m.cache x v }
  | .sync S => m.writeBack S

/-- a list of writes, as commands and as a change of the file -/
def puts (l : List (ι × α)) : List (Cmd ι α) := l.map fun e => .put e.1 e.2

def write (l : List (ι × α)) (f : ι → α) : ι → α := l.foldl (fun f e => update f e.1 e.2) f

/-- each place has its old value or one of the new ones -/
def Partly (l : List (ι × α)) (f f' : ι → α) : Prop := ∀ x, f' x = f x ∨ (x, f' x) ∈ l

/-- in a program that writes the batch `l` to the file `f`, waits for `S` and goes on with `rest`:
`todo` is to come, and at the places of `P` the cache `c` has got that far -/
def Within (P : ι → Prop) (f : ι → α) (l : List (ι × α)) (S : ι → Bool) (rest todo : List (Cmd ι α))
    (c : ι → α) : Prop :=
  ∃ l₁ l₂, l = l₁ ++ l₂ ∧ todo = puts l₂ ++ .sync S :: rest ∧ ∀ x, P x → c x = write l₁ f x

variable {m : Cached ι α} {f f' c c' : ι → α} {l : List (ι × α)} {P : ι → Prop}
  {S : ι → Bool} {x : ι} {v : α} {cmd : Cmd ι α} {todo rest : List (Cmd ι α)}

theorem writeBack_disk (m : Cached ι α) (S : ι → Bool) (x : ι) :
    (m.writeBack S).disk x = m.disk x ∨ (m.writeBack S).disk x = m.cache x := by
  show (if S x then m.cache x else m.disk x) = m.disk x
    ∨ (if S x then m.cache x else m.disk x) = m.cache x
  cases S x with
  | true => exact Or.inr rfl
  | false => exact Or.inl rfl

theorem write_append (l l' : List (ι × α)) (f : ι → α) : write (l ++ l') f = write l' (write l f) :=
  List.foldl_append

theorem write_of_notMem (h : ∀ v, (x, v) ∉ l) : write l f x = f x := by
  induction l generalizing f with
  | nil => rfl
  | cons e l ih =>
    show write l (update f e.1 e.2) x = f x
    rw [ih fun v hv => h v (List.mem_cons_of_mem _ hv)]
    have hne : x ≠ e.1 := fun hx => h e.2 (by rw [hx]; exact List.mem_cons_self)
    exact update_of_ne hne _ _

theorem write_congr (l : List (ι × α)) (h : f' x = f x) : write l f' x = write l f x := by
  induction l generalizing f f' with
  | nil => exact h
  | cons e l ih =>
    refine ih ?_
    show update f' e.1 e.2 x = update f e.1 e.2 x
    by_cases hx : x = e.1
    · rw [hx, update_self, update_self]
    · rw [update_of_ne hx, update_of_ne hx]
      exact h

theorem write_partly (l : List (ι × α)) (f : ι → α) : Partly l f (write l f) := by
  intro x
  induction l using List.reverseRecOn with
  | nil => exact Or.inl rfl
  | append_singleton l e ih =>
    rw [write_append]
    show update (write l f) e.1 e.2 x = f x ∨ (x, update (write l f) e.1 e.2 x) ∈ l ++ [e]
    by_cases hx : x = e.1
    · rw [hx, update_self]
      exact Or.inr (List.mem_append_right _ List.mem_cons_self)
    · rw [update_of_ne hx]
      exact ih.imp_right fun hm => List.mem_append_left _ hm

/-! ## inside a batch -/

theorem Within.start (P : ι → Prop) (f : ι → α) (l : List (ι × α)) (S : ι → Bool)
    (rest : List (Cmd ι α)) : Within P f l S rest (puts l ++ .sync S :: rest) f :=
  ⟨[], l, rfl, rfl, fun _ _ => rfl⟩

theorem Within.congr (h : Within P f l S rest todo c) (hc : ∀ x, P x → c' x = c x) :
    Within P f l S rest todo c' := by
  obtain ⟨l₁, l₂, hl, ht, hf⟩ := h
  exact ⟨l₁, l₂, hl, ht, fun x hx => (hc x hx).trans (hf x hx)⟩

theorem Within.ne_nil (h : Within P f l S rest todo c) : todo ≠ [] := by
  obtain ⟨l₁, l₂, -, rfl, -⟩ := h
  simp

theorem Within.partly (h : Within P f l S rest todo c) :
    ∃ f', Partly l f f' ∧ ∀ x, P x → c x = f' x := by
  obtain ⟨l₁, l₂, rfl, -, hf⟩ := h
  exact ⟨write l₁ f, fun x => (write_partly l₁ f x).imp_right fun hm =>
    List.mem_append_left _ hm, hf⟩

/-- **One command of a program.** -/
theorem Within.step (h : Within P f l S rest (cmd :: todo) c) :
    (∃ x v, cmd = .put x v ∧ (x, v) ∈ l ∧ Within P f l S rest todo (update c x v))
      ∨ (cmd = .sync S ∧ todo = rest ∧ ∀ x, P x → c x = write l f x) := by
  obtain ⟨l₁, l₂, rfl, ht, hf⟩ := h
  cases l₂ with
  | nil =>
    obtain ⟨rfl, rfl⟩ := List.cons.inj ht
    refine Or.inr ⟨rfl, rfl, ?_⟩
    rw [List.append_nil]
    exact hf
  | cons e l₂ =>
    obtain ⟨rfl, rfl⟩ := List.cons.inj ht
    refine Or.inl ⟨e.1, e.2, rfl, List.mem_append_right _ List.mem_cons_self, l₁
      ++ [e], l₂, ?_, rfl, ?_⟩
    · rw [List.append_assoc]
      rfl
    · intro x hx
      rw [write_append]
      show update c e.1 e.2 x = update (write l₁ f) e.1 e.2 x
      by_cases hxe : x = e.1
      · rw [hxe, update_self, update_self]
      · rw [update_of_ne hxe, update_of_ne hxe]
        exact hf x hx

end

/-! ## the bytes of fields -/

/-- the bytes of the fields `fs` from `a` on -/
def fieldPuts (a : Nat) : List (Nat × Nat) → List (Nat × BitVec 8)
  | [] => []
  | f :: fs =>
    (List.range f.1).map (fun i => (a + i, BitVec.ofNat 8 (f.2 / 256 ^ i)))
      ++ fieldPuts (a + f.1) fs

theorem write_field (m : Mem) (a n v : Nat) :
    write ((List.range n).map fun i => (a + i, BitVec.ofNat 8 (v / 256 ^ i))) m
      = m.store a n v := by
  induction n with
  | zero =>
    funext x
    exact (Mem.store_of_notMem (by omega)).symm
  | succ n ih =>
    rw [List.range_succ, List.map_append]
    refine (write_append _ _ _).trans ?_
    rw [ih]
    funext x
    show update (m.store a n v) (a + n) (BitVec.ofNat 8 (v / 256 ^ n)) x = _
    unfold Mem.store
    by_cases hx : x = a + n
    · subst hx
      rw [update_self, if_pos (by omega), Nat.add_sub_cancel_left]
    · rw [update_of_ne hx]
      exact if_congr (by omega) rfl rfl

theorem write_fieldPuts (m : Mem) (a : Nat) (fs : List (Nat × Nat)) :
    write (fieldPuts a fs) m = m.storeFields a fs := by
  induction fs generalizing m a with
  | nil => rfl
  | cons f fs ih =>
    refine (write_append _ _ _).trans ?_
    rw [write_field]
    exact ih _ _

theorem mem_fieldPuts {a x : Nat} {v : BitVec 8} {fs : List (Nat × Nat)} (m : Mem)
    (h : (x, v) ∈ fieldPuts a fs) :
    a ≤ x ∧ x < a + (fs.map Prod.fst).sum ∧ v = m.storeFields a fs x := by
  induction fs generalizing m a with
  | nil => cases h
  | cons f fs ih =>
    rw [List.map_cons, List.sum_cons]
    rcases List.mem_append.mp h with h | h
    · obtain ⟨i, hi, he⟩ := List.mem_map.mp h
      rw [Prod.mk.injEq] at he
      obtain ⟨rfl, rfl⟩ := he
      have hlt := List.mem_range.mp hi
      refine ⟨by omega, by omega, ?_⟩
      rw [Mem.storeFields, Mem.storeFields_of_notMem (Or.inl (by omega))]
      unfold Mem.store
      rw [if_pos (by omega), Nat.add_sub_cancel_left]
    · obtain ⟨h1, h2, h3⟩ := ih (m.store a f.1 f.2) h
      exact ⟨by omega, by omega, h3⟩

end HeapForge.Lib
