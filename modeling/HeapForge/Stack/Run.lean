import HeapForge.Lib.Run
import HeapForge.Stack.Impl

/-!
# Runs of the stack allocator

* `StStep`        a call, or a write of any byte by anybody;
* `StInv`         `used` is the top, and the memory is the one reserved;
* `StInv.of_run`  **along every run.**
-/

set_option linter.unusedSectionVars false
set_option linter.unusedVariables false

namespace HeapForge.Stack
open Lib

inductive StAct
  | alloc (size alignment : Nat)
  | free (ptr : Nat)
  | rewind (marker : Nat)
  | write (addr : Nat) (byte : BitVec 8)

inductive StStep (a : StAlloc) : StAct → StAlloc → Prop
  | alloc (size alignment : Nat) : StStep a (.alloc size alignment) (stAllocate a size alignment).2
  | free {ptr : Nat} {a' : StAlloc} (h : stDeallocate a ptr = some a') : StStep a (.free ptr) a'
  | rewind {marker : Nat} {a' : StAlloc} (h : hfStackRewind a marker = some a') : StStep a
      (.rewind marker) a'
  | write (x : Nat) (v : BitVec 8) : StStep a (.write x v) { a with heap := a.heap.setByte x v }

structure StInv (vm : Vm) (a : StAlloc) : Prop where
  mem : 2 ^ vm.pageOrder ∣ a.mem
  used : a.stats.used = a.top

section
variable {vm : Vm} {a a' : StAlloc} {act : StAct}

/-- a request is refused, or the top moves up -/
theorem stAllocate_cases (a : StAlloc) (size alignment : Nat) :
    stAllocate a size alignment = (0, countFailed (countAlloc a))
    ∨ ∃ heap last peak, stAllocate a size alignment = (wadd a.mem (stPayload a alignment),
        { countAlloc a with
          heap := heap
          top := wadd (stPayload a alignment) size
          lastPayload := last
          stats := { (countAlloc a).stats with
            used := wadd (stPayload a alignment) size
            peakUsed := peak } }) := by
  rw [← stPayload_countAlloc a alignment]
  unfold stAllocate
  dsimp only
  split
  · exact Or.inl rfl
  · exact Or.inr ⟨_, _, _, rfl⟩

-- on the constructor both sides reduce to the field; on a variable the kernel would compare the
-- records first
theorem refused_fields : ∀ a : StAlloc, (countFailed (countAlloc a)).mem = a.mem
    ∧ (countFailed (countAlloc a)).top = a.top
    ∧ (countFailed (countAlloc a)).stats.used = a.stats.used
  | ⟨m, _, t, _, ⟨_, u, _, _, _, _⟩, _⟩ => ⟨(rfl : m = m), (rfl : t = t), (rfl : u = u)⟩

theorem StInv.refused (h : StInv vm a) : StInv vm (countFailed (countAlloc a)) := by
  obtain ⟨h1, h2, h3⟩ := refused_fields a
  exact ⟨h1 ▸ h.mem, h3.trans (h.used.trans h2.symm)⟩

theorem StInv.bumped (h : StInv vm a) (heap : Mem) (top last peak : Nat) :
    StInv vm { countAlloc a with
      heap := heap
      top := top
      lastPayload := last
      stats := { (countAlloc a).stats with used := top, peakUsed := peak } } := ⟨h.mem, rfl⟩

theorem stDeallocate_fields {ptr : Nat} (h : stDeallocate a ptr = some a') :
    a'.mem = a.mem ∧ (a.stats.used = a.top → a'.stats.used = a'.top) := by
  unfold stDeallocate at h
  dsimp only at h
  split at h
  · obtain rfl := Option.some.inj h
    exact ⟨rfl, fun hu => hu⟩
  · split at h
    · exact absurd h (by simp)
    · obtain rfl := Option.some.inj h
      exact ⟨rfl, fun _ => rfl⟩

theorem hfStackRewind_fields {marker : Nat} (h : hfStackRewind a marker = some a') :
    a'.mem = a.mem ∧ a'.stats.used = a'.top := by
  unfold hfStackRewind at h
  split at h
  · obtain rfl := Option.some.inj h
    exact ⟨rfl, rfl⟩
  · exact absurd h (by simp)

theorem StInv.step (h : StInv vm a) (hs : StStep a act a') : StInv vm a' := by
  cases hs with
  | alloc size alignment =>
    rcases stAllocate_cases a size alignment with he | ⟨heap, last, peak, he⟩
    · rw [he]
      exact h.refused
    · rw [he]
      exact h.bumped heap _ last peak
  | free hr =>
    obtain ⟨h1, h2⟩ := stDeallocate_fields hr
    exact ⟨h1 ▸ h.mem, h2 h.used⟩
  | rewind hr =>
    obtain ⟨h1, h2⟩ := hfStackRewind_fields hr
    exact ⟨h1 ▸ h.mem, h2⟩
  | write x v => exact ⟨h.mem, h.used⟩

theorem StInv.create {handle : Bool} {m : Mem} {capacity : Nat}
    (h : hfStackCreate vm handle m capacity = some a) : StInv vm a := by
  unfold hfStackCreate at h
  dsimp only at h
  generalize hfAlignUp (if capacity ≠ 0 then capacity else vm.pageSize) vm.pageSize = bytes at h
  split at h
  · split at h
    · exact absurd h (by simp)
    · obtain rfl := Option.some.inj h
      exact ⟨vm.mmap_aligned _, rfl⟩
  · exact absurd h (by simp)

theorem StInv.of_run {handle : Bool} {m : Mem} {capacity : Nat} {a₀ : StAlloc} {acts : List StAct}
    (h : hfStackCreate vm handle m capacity = some a₀) (hrun : Steps StStep a₀ acts a) :
    StInv vm a :=
  hrun.invariant (I := StInv vm) (StInv.create h) fun _ _ _ h hs => h.step hs

/-- **The walk reports the bytes in use.** -/
theorem StInv.walk (h : StInv vm a) : a.stats.used = usedSize (stWalk a) := by
  rw [h.used]
  unfold stWalk
  by_cases ht : a.top = 0
  · rw [if_neg (not_not_intro ht), ht]
    split <;> rfl
  · rw [if_pos ht, usedSize_append]
    split
    · rfl
    · rfl

end

end HeapForge.Stack
