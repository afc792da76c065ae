import HeapForge.Lib.Word

/-!
# Equally spaced ranges in a 64-bit address space

`Spaced stride count len space`: the ranges of `len` bytes from `0, stride, 2 * stride, …` on lie
inside `space` bytes and do not meet, where the starts are computed in 64 bits.

* `Spaced.of_fits`   they do if all strides fit;
* `Spaced.fits`      they only do if no start wraps, as long as the gap between a range and the next
                     start is smaller than a common divisor of the stride and `2^64`.
-/

set_option linter.unusedSectionVars false

namespace HeapForge.Lib

structure Spaced (stride count len space : Nat) : Prop where
  inside : ∀ i, i < count → wmul i stride + len ≤ space
  apart : ∀ i j, i < count → j < count → i ≠ j → ∀ x, wmul i stride ≤ x → x < wmul i stride + len →
    wmul j stride ≤ x → ¬ x < wmul j stride + len

section
variable {stride count len space d i j : Nat}

/-- ranges in the order of their indices -/
theorem stride_mono (stride : Nat) (h : i < j) : i * stride + stride ≤ j * stride := by
  have h1 : (i + 1) * stride ≤ j * stride := Nat.mul_le_mul_right stride h
  rwa [Nat.succ_mul] at h1

theorem Spaced.of_fits (hlen : len ≤ stride) (hfit : stride * count ≤ space)
    (hspace : space < 2 ^ 64) :
    Spaced stride count len space := by
  have hend : ∀ i, i < count → i * stride + stride ≤ stride * count := by
    intro i hi
    rw [Nat.mul_comm stride]
    exact stride_mono stride hi
  have hstart : ∀ i, i < count → wmul i stride = i * stride := by
    intro i hi
    have := hend i hi
    exact wmul_of_lt (by omega)
  constructor
  · intro i hi
    have := hend i hi
    rw [hstart i hi]
    omega
  · intro i j hi hj hij x h1 h2 h3 h4
    rw [hstart i hi] at h1 h2
    rw [hstart j hj] at h3 h4
    rcases Nat.lt_or_gt_of_ne hij with h | h
    · have := stride_mono stride h
      omega
    · have := stride_mono stride h
      omega

/-- a single range -/
theorem Spaced.one (h : len ≤ space) : Spaced stride 1 len space := by
  refine ⟨fun i hi => ?_, fun i j hi hj hij => ?_⟩
  · obtain rfl : i = 0 := by omega
    rw [wmul, Nat.zero_mul]
    simpa using h
  · omega

/-- empty ranges in one place -/
theorem Spaced.empty : Spaced 0 count 0 space := by
  refine ⟨fun i hi => ?_, fun i j hi hj hij x h1 h2 => by omega⟩
  rw [wmul, Nat.mul_zero]
  exact Nat.zero_le _

theorem Spaced.len_le (h : Spaced stride count len space) (hc : 0 < count) : len ≤ space := by
  have h0 := h.inside 0 hc
  rw [wmul, Nat.zero_mul] at h0
  simpa using h0

/-- more than one range needs a stride of their length -/
theorem Spaced.len_le_stride (h : Spaced stride count len space) (hc : 1 < count)
    (hstride : stride < 2 ^ 64) : len ≤ stride := by
  by_contra hlt
  have h0 : wmul 0 stride = 0 := by rw [wmul, Nat.zero_mul]; rfl
  have h1 : wmul 1 stride = stride := by rw [wmul_of_lt (by omega), Nat.one_mul]
  -- the second range would start inside the first
  exact h.apart 0 1 (by omega) hc (by omega) stride (by omega) (by omega) (by omega) (by omega)

theorem Spaced.fits (h : Spaced stride count len space) (hd : d ∣ stride) (hword : d ∣ 2 ^ 64)
    (hgap : stride < len + d) (hspace : space + d ≤ 2 ^ 64) :
    stride * count < 2 ^ 64 := by
  by_contra hge
  have hpos : 0 < stride := by
    rcases Nat.eq_zero_or_pos stride with h0 | h0
    · rw [h0, Nat.zero_mul] at hge
      omega
    · exact h0
  -- the last start that does not wrap
  obtain ⟨i, hi1, hi2⟩ : ∃ i, i * stride < 2 ^ 64 ∧ 2 ^ 64 ≤ i * stride + stride := by
    have h1 := Nat.div_add_mod (2 ^ 64 - 1) stride
    have h2 := Nat.mod_lt (2 ^ 64 - 1) hpos
    rw [Nat.mul_comm] at h1
    exact ⟨(2 ^ 64 - 1) / stride, by omega, by omega⟩
  have hic : i < count := by
    by_contra hle
    have : count * stride ≤ i * stride := Nat.mul_le_mul_right stride (by omega)
    rw [Nat.mul_comm stride] at hge
    omega
  have hin := h.inside i hic
  rw [wmul_of_lt hi1] at hin
  by_cases hnext : i + 1 < count
  · -- the next start wraps into the first range
    have hw : wmul (i + 1) stride = i * stride + stride - 2 ^ 64 := by
      unfold wmul
      rw [Nat.succ_mul]
      omega
    have hdvd : d ∣ i * stride + stride - 2 ^ 64 :=
      Nat.dvd_sub (Nat.dvd_add (Dvd.dvd.mul_left hd i) hd) hword
    have hlt : i * stride + stride - 2 ^ 64 < len := by
      have h1 : d ≤ stride - (i * stride + stride - 2 ^ 64) :=
        Nat.le_of_dvd (by omega) (Nat.dvd_sub hd hdvd)
      omega
    have h0 : wmul 0 stride = 0 := by
      rw [wmul, Nat.zero_mul]
      rfl
    apply h.apart 0 (i + 1) (by omega) hnext (by omega) (i * stride + stride - 2 ^ 64)
    · rw [h0]
      omega
    · rw [h0]
      omega
    · rw [hw]
    · rw [hw]
      omega
  · omega

end

end HeapForge.Lib
