import Mathlib.Logic.Function.Basic

/-!
# Calls that hold mutexes

What a call of one thread does to the state, together with the mutexes that the thread holds.  A
mutex is not recursive: a thread that locks one that it holds waits for ever.

* `Outcome`      a call is done, waits for a lock of its own thread, or faults;
* `LockM`        calls, in sequence by `do`;
* `guarded`      a call under a lock that is given back behind it;
* `Balanced`     **a call that is done holds what it held before**, with one rule for each
                 construct.
-/

set_option linter.unusedSectionVars false

namespace HeapForge.Lib
open Function

structure Locked (ι σ : Type) where
  st : σ
  held : ι → Bool

inductive Outcome (α : Type)
  | done (a : α)
  | blocked
  | fault

def LockM (ι σ α : Type) : Type := Locked ι σ → Outcome (α × Locked ι σ)

namespace LockM

section
variable {ι σ α β : Type}

def ret (a : α) : LockM ι σ α := fun s => .done (a, s)

def seq (x : LockM ι σ α) (f : α → LockM ι σ β) : LockM ι σ β := fun s =>
  match x s with
  | .done (a, s') => f a s'
  | .blocked => .blocked
  | .fault => .fault

instance : Monad (LockM ι σ) where
  pure := ret
  bind := seq

def read : LockM ι σ σ := fun s => .done (s.st, s)

def write (f : σ → σ) : LockM ι σ Unit := fun s => .done ((), { s with st := f s.st })

/-- a part of a call that has no result when it faults -/
def attempt (f : σ → Option σ) : LockM ι σ Unit := fun s =>
  match f s.st with
  | some st => .done ((), { s with st := st })
  | none => .fault

def fault : LockM ι σ α := fun _ => .fault

variable [DecidableEq ι]

def lock (i : ι) : LockM ι σ Unit := fun s =>
  if s.held i = true then .blocked else .done ((), { s with held := update s.held i true })

def unlock (i : ι) : LockM ι σ Unit := fun s => .done ((), { s with held := update s.held i false })

/-- `std::lock_guard` in a block -/
def guarded (i : ι) (x : LockM ι σ α) : LockM ι σ α := do
  lock i
  let a ← x
  unlock i
  return a

end

section
variable {ι σ α β : Type} {x : LockM ι σ α} {f : α → LockM ι σ β} {s t : Locked ι σ} {a : α} {b : β}

/-! ## running -/

theorem bind_done (h : x s = .done (a, t)) : (x >>= f) s = f a t := by
  show seq x f s = _
  unfold seq
  rw [h]

theorem bind_blocked (h : x s = .blocked) : (x >>= f) s = .blocked := by
  show seq x f s = _
  unfold seq
  rw [h]

theorem bind_fault (h : x s = .fault) : (x >>= f) s = .fault := by
  show seq x f s = _
  unfold seq
  rw [h]

theorem attempt_some {f : σ → Option σ} {st : σ} (h : f s.st = some st) :
    attempt f s = .done ((), { s with st := st }) := by
  unfold attempt
  rw [h]

theorem attempt_none {f : σ → Option σ} (h : f s.st = none) : attempt f s = .fault := by
  unfold attempt
  rw [h]

/-- a sequence that is done -/
theorem bind_eq_done (h : (x >>= f) s = .done (b, t)) :
    ∃ a s₁, x s = .done (a, s₁) ∧ f a s₁ = .done (b, t) := by
  cases hx : x s with
  | done r => exact ⟨r.1, r.2, rfl, (bind_done (f := f) hx).symm.trans h⟩
  | blocked =>
    rw [bind_blocked hx] at h
    cases h
  | fault =>
    rw [bind_fault hx] at h
    cases h

variable [DecidableEq ι] {i : ι}

theorem guarded_held (h : s.held i = true) : guarded i x s = .blocked :=
  bind_blocked (if_pos h)

theorem lock_free (h : s.held i = false) :
    lock i s = .done ((), { s with held := update s.held i true }) := by
  unfold lock
  rw [h]
  rfl

/-- a lock that is taken and given back -/
theorem unlock_lock (h : s.held i = false) : update (update s.held i true) i false = s.held := by
  rw [update_idem, ← h, update_eq_self]

theorem guarded_done (h : s.held i = false)
    (hx : x { s with held := update s.held i true } = .done (a, t)) :
    guarded i x s = .done (a, { t with held := update t.held i false }) := by
  unfold guarded
  rw [bind_done (lock_free h), bind_done hx]
  rfl

/-- the body returns and leaves the locks alone -/
theorem guarded_keeps {st : σ} (h : s.held i = false)
    (hx : x { s with held := update s.held i true } = .done (a, ⟨st, update s.held i true⟩)) :
    guarded i x s = .done (a, ⟨st, s.held⟩) := by
  rw [guarded_done h hx]
  exact congrArg (fun k => Outcome.done (a, Locked.mk st k)) (unlock_lock h)

theorem guarded_blocked (h : s.held i = false)
    (hx : x { s with held := update s.held i true } = .blocked) :
    guarded i x s = .blocked := by
  unfold guarded
  rw [bind_done (lock_free h), bind_blocked hx]

theorem guarded_fault (h : s.held i = false)
    (hx : x { s with held := update s.held i true } = .fault) :
    guarded i x s = .fault := by
  unfold guarded
  rw [bind_done (lock_free h), bind_fault hx]

end

/-! ## balance -/

section
variable {ι σ α β : Type}

def Balanced (x : LockM ι σ α) : Prop := ∀ s a s', x s = .done (a, s') → s'.held = s.held

variable {x : LockM ι σ α} {f : α → LockM ι σ β}

theorem balanced_pure (a : α) : Balanced (pure a : LockM ι σ α) := by
  intro s b s' h
  cases h
  rfl

theorem balanced_read : Balanced (read : LockM ι σ σ) := by
  intro s a s' h
  cases h
  rfl

theorem balanced_write (f : σ → σ) : Balanced (write f : LockM ι σ Unit) := by
  intro s a s' h
  cases h
  rfl

theorem balanced_attempt (f : σ → Option σ) : Balanced (attempt f : LockM ι σ Unit) := by
  intro s a s' h
  unfold attempt at h
  split at h
  · cases h
    rfl
  · cases h

theorem balanced_fault : Balanced (fault : LockM ι σ α) := by
  intro s a s' h
  cases h

theorem Balanced.bind (hx : Balanced x) (hf : ∀ a, Balanced (f a)) : Balanced (x >>= f) := by
  intro s b s' h
  obtain ⟨a, s₁, h1, h2⟩ := bind_eq_done h
  exact (hf a s₁ b s' h2).trans (hx s a s₁ h1)

theorem Balanced.ite {c : Prop} [Decidable c] {y : LockM ι σ α} (hx : Balanced x)
    (hy : Balanced y) :
    Balanced (if c then x else y) := by
  split
  · exact hx
  · exact hy

/-- **What is done under a lock gives it back.** -/
theorem Balanced.guarded [DecidableEq ι] (hx : Balanced x) (i : ι) : Balanced (guarded i x) := by
  intro s a s' h
  cases hi : s.held i with
  | true =>
    rw [guarded_held hi] at h
    cases h
  | false =>
    cases hr : x { s with held := update s.held i true } with
    | done r =>
      have hbal := hx _ r.1 r.2 hr
      rw [guarded_done hi hr] at h
      cases h
      show update r.2.held i false = s.held
      rw [hbal]
      exact unlock_lock hi
    | blocked =>
      rw [guarded_blocked hi hr] at h
      cases h
    | fault =>
      rw [guarded_fault hi hr] at h
      cases h

end

end LockM

end HeapForge.Lib
