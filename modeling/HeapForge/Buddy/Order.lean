import Mathlib.Order.Bounds.Basic
import HeapForge.Buddy.Walk

/-!
# The order of a request

`order_for` rounds a byte count up to a power of two and takes its exponent.  Up to `2^63` bytes it
gives the least order whose blocks are large enough.  Above, `hf_next_pow2` gives 0 and the order is
the smallest one there is; so a block can be smaller than the request if its alignment brings the
sum `need` above `2^63`.

* `hfNextPow2_isLeast`, `orderFor_isLeast`   the rounding and the order are least;
* `NeedFits`                                 the alignment does not bring the sum above `2^63`;
* `buddy_order_least`                        **a block has room for its request exactly then, or if
                                             the smallest order has.**
-/

set_option linter.unusedSectionVars false
set_option linter.unusedVariables false

namespace HeapForge.Buddy
open Lib

/-- the alignment does not enter the sum, or the sum is no more than `2^63` -/
def NeedFits (size alignment : Nat) : Prop := alignment ≤ size + 16 ∨ alignment + 16 ≤ 2 ^ 63

section
variable {a a' : BdAlloc} {b size alignment p : Nat}

/-! ## rounding up -/

theorem hfNextPow2_isLeast (h : b ≤ 2 ^ 63) :
    IsLeast {q | b ≤ q ∧ ∃ k, q = 2 ^ k} (hfNextPow2 b) := by
  rw [hfNextPow2_clog h]
  refine ⟨⟨Nat.le_pow_clog (by norm_num) b, _, rfl⟩, ?_⟩
  rintro q ⟨hq, k, rfl⟩
  exact Nat.pow_le_pow_right (by norm_num) ((Nat.clog_le_iff_le_pow (by norm_num)).mpr hq)

theorem hfLog2Floor_hfNextPow2 (h : b ≤ 2 ^ 63) : hfLog2Floor (hfNextPow2 b) = Nat.clog 2 b := by
  rw [hfNextPow2_clog h]
  exact hfLog2Floor_two_pow ((Nat.clog_le_iff_le_pow (by norm_num)).mpr h)

theorem orderFor_clog (a : BdAlloc) (h : b ≤ 2 ^ 63) :
    orderFor a b = max a.minOrder (Nat.clog 2 b) := by
  unfold orderFor
  dsimp only
  rw [hfLog2Floor_hfNextPow2 h]
  split <;> omega

theorem orderFor_isLeast (a : BdAlloc) (h : b ≤ 2 ^ 63) :
    IsLeast {o | a.minOrder ≤ o ∧ b ≤ 2 ^ o} (orderFor a b) := by
  rw [orderFor_clog a h]
  constructor
  · have hb : b ≤ 2 ^ Nat.clog 2 b := Nat.le_pow_clog (by norm_num) b
    exact ⟨le_max_left _ _, hb.trans (Nat.pow_le_pow_right (by norm_num) (le_max_right _ _))⟩
  · rintro o ⟨h1, h2⟩
    exact max_le h1 ((Nat.clog_le_iff_le_pow (by norm_num)).mpr h2)

/-- beyond that the rounding gives 0 -/
theorem orderFor_of_gt (a : BdAlloc) (hb : b < 2 ^ 64) (h : 2 ^ 63 < b) :
    orderFor a b = a.minOrder := by
  have h0 : hfLog2Floor 0 = 0 := by decide +kernel
  unfold orderFor
  dsimp only
  rw [hfNextPow2_of_gt hb h, h0]
  split <;> omega

/-! ## the sum of a request -/

theorem bdNeed_of_fits (hs : size + 16 ≤ 2 ^ 63) (h : NeedFits size alignment) :
    size + 16 ≤ bdNeed size alignment ∧ bdNeed size alignment ≤ 2 ^ 63 := by
  have e1 : wadd size BD_HDR = size + 16 := wadd_of_lt (show size + 16 < 2 ^ 64 by omega)
  unfold bdNeed
  dsimp only
  rw [e1]
  split
  · have h2 : alignment + 16 ≤ 2 ^ 63 := by
      rcases h with h | h <;> omega
    rw [show wadd alignment BD_HDR
      = alignment + 16 from wadd_of_lt (show alignment + 16 < 2 ^ 64 by omega)]
    omega
  · omega

theorem bdNeed_lt (size alignment : Nat) : bdNeed size alignment < 2 ^ 64 := by
  unfold bdNeed
  dsimp only
  split <;> exact wadd_lt _ _

/-- the sum wraps to less than sixteen or is above `2^63` -/
theorem bdNeed_of_not_fits (hs : size + 16 ≤ 2 ^ 63) (ha : alignment < 2 ^ 64)
    (h : ¬ NeedFits size alignment) :
    bdNeed size alignment < 16 ∨ 2 ^ 63 < bdNeed size alignment := by
  obtain ⟨h1, h2⟩ := not_or.mp h
  have e1 : wadd size BD_HDR = size + 16 := wadd_of_lt (show size + 16 < 2 ^ 64 by omega)
  have e2 : wadd alignment BD_HDR = (alignment + 16) % 2 ^ 64 := rfl
  unfold bdNeed
  dsimp only
  rw [e1, if_pos (by omega), e2]
  omega

/-- then the order is the smallest one, or no more than that of the tag alone -/
theorem orderFor_of_not_fits (a : BdAlloc) (hs : size + 16 ≤ 2 ^ 63) (ha : alignment < 2 ^ 64)
    (h : ¬ NeedFits size alignment) : orderFor a (bdNeed size alignment) ≤ max a.minOrder 4 := by
  rcases bdNeed_of_not_fits hs ha h with hlt | hgt
  · rw [orderFor_clog a (by omega)]
    have h4 : Nat.clog 2 (bdNeed size alignment) ≤ 4 :=
      (Nat.clog_le_iff_le_pow (by norm_num)).mpr (by omega)
    exact max_le_max (le_refl _) h4
  · rw [orderFor_of_gt a (bdNeed_lt _ _) hgt]
    exact le_max_left _ _

/-- half of a block above the smallest order is too small -/
theorem half_too_small (h : a.minOrder < orderFor a (bdNeed size alignment)) :
    2 ^ (orderFor a (bdNeed size alignment) - 1) < bdNeed size alignment := by
  by_cases hle : bdNeed size alignment ≤ 2 ^ 63
  · have hleast := (orderFor_isLeast a hle).2
    by_contra hge
    have hmem : a.minOrder ≤ orderFor a (bdNeed size alignment) - 1
        ∧ bdNeed size alignment ≤ 2 ^ (orderFor a (bdNeed size alignment) - 1) :=
      ⟨by omega, Nat.le_of_not_lt hge⟩
    have := hleast hmem
    omega
  · rw [orderFor_of_gt a (bdNeed_lt _ _) (Nat.lt_of_not_le hle)] at h
    omega

theorem room_of_fits (a : BdAlloc) (hs : size + 16 ≤ 2 ^ 63) (h : NeedFits size alignment) :
    size + 16 ≤ 2 ^ orderFor a (bdNeed size alignment) := by
  obtain ⟨h1, h2⟩ := bdNeed_of_fits hs h
  exact h1.trans (orderFor_isLeast a h2).1.2

/-- when a block has room for its request -/
theorem room_iff (a : BdAlloc) (hs : size + 16 ≤ 2 ^ 63) (ha : alignment < 2 ^ 64)
    (h : 0 < size ∨ 4 ≤ a.minOrder) : size + 16 ≤ 2 ^ orderFor a (bdNeed size alignment)
      ↔ NeedFits size alignment ∨ size + 16 ≤ 2 ^ a.minOrder := by
  constructor
  · intro hroom
    by_contra hno
    obtain ⟨hf, hsmall⟩ := not_or.mp hno
    have hle := orderFor_of_not_fits a hs ha hf
    rcases le_total 4 a.minOrder with h4 | h4
    · rw [max_eq_left h4] at hle
      have := Nat.pow_le_pow_right (show 0 < 2 by norm_num) hle
      omega
    · rw [max_eq_right h4] at hle
      have h16 : 2 ^ orderFor a (bdNeed size alignment) ≤ 2 ^ 4 :=
        Nat.pow_le_pow_right (by norm_num) hle
      rcases h with h | h
      · omega
      · have e : a.minOrder = 4 := le_antisymm h4 h
        rw [e] at hsmall
        omega
  · intro hor
    rcases hor with hf | hmin
    · exact room_of_fits a hs hf
    · exact hmin.trans (Nat.pow_le_pow_right (by norm_num) (orderFor_ge _))

/-! ## the block of a request -/

theorem bdCarve_tag (a : BdAlloc) {order o : Nat} (ho : order < 2 ^ 64) :
    ∃ blk, (bdCarve a order o).1 = wadd blk 16 ∧ (bdCarve a order o).2.heap.load64 blk = order :=
  ⟨(bdPop a o).1, rfl, Mem.load64_store64_same ho⟩

/-- a request that is served gets a block with the tag `order_for` computed -/
theorem bdAllocate_tag (hmax : a.maxOrder < 64) (hcall : bdAllocate a size alignment = (p, a'))
    (hp : p ≠ 0) :
    ∃ blk, p = wadd blk 16 ∧ a'.heap.load64 blk = orderFor a (bdNeed size alignment) := by
  unfold bdAllocate at hcall
  dsimp only at hcall
  split at hcall
  · exact absurd (Prod.mk.inj hcall).1.symm hp
  · next hle =>
    split at hcall
    · exact absurd (Prod.mk.inj hcall).1.symm hp
    · have hle' : ¬ orderFor a (bdNeed size alignment) > a.maxOrder := hle
      obtain ⟨blk, e1, e2⟩ := bdCarve_tag (countAlloc a)
        (o := scanLoop (countAlloc a) ((countAlloc a).maxOrder + 1)
          (orderFor a (bdNeed size alignment)))
        (show orderFor a (bdNeed size alignment) < 2 ^ 64 by omega)
      rw [hcall] at e1 e2
      exact ⟨blk, e1, e2⟩

end

/-- **The order of a request.**  The rounding, its exponent and the order are least for every byte
count from 1 to `2^63` and every smallest order.  A block handed out for a request is tagged with
the order computed; half of it is too small for the sum `need`, unless it has the smallest order.
It has room for the request behind the tag if the alignment does not bring that sum above `2^63`,
and otherwise only if blocks of the smallest order have. -/
theorem buddy_order_least (a : BdAlloc) (hmax : a.maxOrder < 64) :
    (∀ b, 1 ≤ b → b ≤ 2 ^ 63 → IsLeast {q | b ≤ q ∧ ∃ k, q = 2 ^ k} (hfNextPow2 b)
        ∧ hfNextPow2 b = 2 ^ hfLog2Floor (hfNextPow2 b)
        ∧ IsLeast {o | a.minOrder ≤ o ∧ b ≤ 2 ^ o} (orderFor a b))
      ∧ ∀ size alignment p a', size + 16 ≤ 2 ^ 63 → alignment < 2 ^ 64 →
        bdAllocate a size alignment = (p, a') → p ≠ 0 →
        ∃ blk o, p = wadd blk 16 ∧ a'.heap.load64 blk = o
          ∧ (a.minOrder < o → 2 ^ (o - 1) < bdNeed size alignment)
          ∧ (NeedFits size alignment → size + 16 ≤ 2 ^ o)
          ∧ (0 < size ∨ 4 ≤ a.minOrder →
            (size + 16 ≤ 2 ^ o ↔ NeedFits size alignment ∨ size + 16 ≤ 2 ^ a.minOrder)) := by
  constructor
  · intro b h1 h2
    refine ⟨hfNextPow2_isLeast h2, ?_, orderFor_isLeast a h2⟩
    rw [hfLog2Floor_hfNextPow2 h2, hfNextPow2_clog h2]
  · intro size alignment p a' hs ha hcall hp
    obtain ⟨blk, e1, e2⟩ := bdAllocate_tag hmax hcall hp
    exact ⟨blk, _, e1, e2, half_too_small, room_of_fits a hs, room_iff a hs ha⟩

theorem buddy_order_least_sample :
    ∃ blk o, (bdAllocate sampleBuddy 100 16).1 = wadd blk 16
      ∧ (bdAllocate sampleBuddy 100 16).2.heap.load64 blk = o ∧ 100 + 16 ≤ 2 ^ o := by
  have hp : (bdAllocate sampleBuddy 100 16).1 ≠ 0 := by decide +kernel
  obtain ⟨blk, o, h1, h2, -, h3, -⟩ := (buddy_order_least sampleBuddy (by decide)).2 100 16 _ _
    (by omega) (by omega) rfl hp
  exact ⟨blk, o, h1, h2, h3 (Or.inl (by omega))⟩

/-- a request for 100 bytes at alignment `2^63` gets a block of 32 -/
theorem block_too_small :
    hfBuddyCreate sampleVm ⟨true, true, true⟩ Mem.zero 4096 32 = some sampleBuddy
      ∧ (bdAllocate sampleBuddy 100 (2 ^ 63)).1 = wadd (2 ^ 20) 16
      ∧ (bdAllocate sampleBuddy 100 (2 ^ 63)).2.heap.load64 (2 ^ 20) = 5 ∧ 2 ^ 5 < 100 + 16 :=
  ⟨sampleBuddy_create, by decide +kernel, by decide +kernel, by decide⟩

end HeapForge.Buddy
