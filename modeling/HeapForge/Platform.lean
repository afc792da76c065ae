import Mathlib.Data.Nat.Log
import HeapForge.Lib.Word

/-!
# Platform helpers of `c/include/heapforge/hf_platform.h` and the records of `hf_allocator.h`

`size_t` values are natural numbers below `2^64`; the arithmetic wraps as the machine's does.

* `hfAlignUp`     rounds up by mask, `hfAlignUp_eq` says to what;
* `hfNextPow2`    smears the bits of `n - 1`, `hfNextPow2_eq` says to what;
* `hfLog2Floor`   counts the shifts, it is `Nat.log2`;
* `Vm`            what the operating system answers to a reservation.
-/

set_option linter.unusedSectionVars false

namespace HeapForge
open Lib

def HF_DEFAULT_ALIGN : Nat := 16

def hfAlignUp (n align : Nat) : Nat := wsub (wadd n align) 1 &&& wnot (wsub align 1)

def hfIsPow2 (n : Nat) : Bool := n != 0 && (n &&& wsub n 1) == 0

def hfNextPow2 (n : Nat) : Nat :=
  if n ≤ 1 then 1
  else wadd (smear 32 (smear 16 (smear 8 (smear 4 (smear 2 (smear 1 (wsub n 1))))))) 1

/-- the loop `while (n >>= 1) ++r`; a 64-bit word has lost all its bits after 64 rounds -/
def log2Loop : Nat → Nat → Nat → Nat
  | 0, _, r => r
  | fuel + 1, n, r => if n >>> 1 ≠ 0 then log2Loop fuel (n >>> 1) (r + 1) else r

def hfLog2Floor (n : Nat) : Nat := log2Loop 64 n 0

/-- `hf_stats` -/
structure Stats where
  capacity : Nat
  used : Nat
  peakUsed : Nat
  allocCalls : Nat
  freeCalls : Nat
  failedAllocs : Nat
  deriving DecidableEq

/-- `hf_block_info` -/
structure BlockInfo where
  offset : Nat
  size : Nat
  isFree : Bool
  deriving DecidableEq

/-- the bytes of the entries in use -/
def usedSize (w : List BlockInfo) : Nat := ((w.filter fun b => !b.isFree).map BlockInfo.size).sum

theorem usedSize_append (v w : List BlockInfo) : usedSize (v ++ w) = usedSize v + usedSize w := by
  unfold usedSize
  rw [List.filter_append, List.map_append, List.sum_append]

/-- the counters of a fresh handle: `calloc` cleared them, then the capacity is set -/
def Stats.fresh (capacity : Nat) : Stats := ⟨capacity, 0, 0, 0, 0, 0⟩

/-- the operating system: its page size is `2^pageOrder`, and `mmap` answers a request for a
number of bytes with an address or, when it fails, with 0 -/
structure Vm where
  pageOrder : Nat
  pageOrder_ge : 12 ≤ pageOrder
  pageOrder_lt : pageOrder < 64
  mmap : Nat → Nat
  mmap_zero : mmap 0 = 0
  mmap_aligned : ∀ n, 2 ^ pageOrder ∣ mmap n
  mmap_bound : ∀ n, mmap n ≠ 0 → mmap n + n < 2 ^ 64

def Vm.pageSize (vm : Vm) : Nat := 2 ^ vm.pageOrder

def hfVmReserve (vm : Vm) (size : Nat) : Nat := vm.mmap (hfAlignUp size vm.pageSize)

section
variable {n k : Nat}

theorem hfAlignUp_eq (n : Nat) (hk : k < 64) :
    hfAlignUp n (2 ^ k) = (n + (2 ^ k - 1)) % 2 ^ 64 / 2 ^ k * 2 ^ k := by
  have h0 : 0 < 2 ^ k := Nat.two_pow_pos k
  have hlt : 2 ^ k < 2 ^ 64 := Nat.pow_lt_pow_right (by norm_num) hk
  have h1 : wsub (2 ^ k) 1 = 2 ^ k - 1 := wsub_of_le h0 hlt
  have h2 : wsub (wadd n (2 ^ k)) 1 = (n + (2 ^ k - 1)) % 2 ^ 64 := by
    unfold wsub wadd
    omega
  unfold hfAlignUp
  rw [h1, h2]
  exact land_wnot_mask (Nat.mod_lt _ (by norm_num)) (by omega)

theorem hfAlignUp_dvd (n : Nat) (hk : k < 64) : 2 ^ k ∣ hfAlignUp n (2 ^ k) := by
  rw [hfAlignUp_eq n hk]
  exact Nat.dvd_mul_left _ _

theorem hfAlignUp_lt (n : Nat) (hk : k < 64) : hfAlignUp n (2 ^ k) < 2 ^ 64 := by
  rw [hfAlignUp_eq n hk]
  exact lt_of_le_of_lt (Nat.div_mul_le_self _ _) (Nat.mod_lt _ (by norm_num))

/-- without a wrap the result is the least multiple that is not below `n` -/
theorem hfAlignUp_bounds (hn : n + (2 ^ k - 1) < 2 ^ 64) (hk : k < 64) :
    n ≤ hfAlignUp n (2 ^ k) ∧ hfAlignUp n (2 ^ k) < n + 2 ^ k := by
  have h0 : 0 < 2 ^ k := Nat.two_pow_pos k
  rw [hfAlignUp_eq n hk, Nat.mod_eq_of_lt hn]
  have h1 := Nat.div_add_mod (n + (2 ^ k - 1)) (2 ^ k)
  have h2 := Nat.mod_lt (n + (2 ^ k - 1)) h0
  rw [Nat.mul_comm] at h1
  omega

theorem hfAlignUp_le {m : Nat} (hn : n + (2 ^ k - 1) < 2 ^ 64) (hk : k < 64) (hm : 2 ^ k ∣ m)
    (hle : n ≤ m) :
    hfAlignUp n (2 ^ k) ≤ m := by
  have h := (hfAlignUp_bounds hn hk).2
  exact Nat.le_of_lt_add_of_dvd (by omega) (hfAlignUp_dvd n hk) hm

/-- rounding up to the default alignment -/
theorem hfAlignUp_default (hn : n + 15 < 2 ^ 64) :
    n ≤ hfAlignUp n HF_DEFAULT_ALIGN ∧ hfAlignUp n HF_DEFAULT_ALIGN < n + 16 :=
  hfAlignUp_bounds (k := 4) hn (by decide)

theorem hfAlignUp_default_dvd (n : Nat) : 16 ∣ hfAlignUp n HF_DEFAULT_ALIGN :=
  hfAlignUp_dvd (k := 4) n (by decide)

theorem hfAlignUp_default_wrap (hn : n < 2 ^ 64) (h : 2 ^ 64 ≤ n + 15) :
    hfAlignUp n HF_DEFAULT_ALIGN = 0 := by
  have e : hfAlignUp n HF_DEFAULT_ALIGN = (n + 15) % 2 ^ 64 / 16 * 16 :=
    hfAlignUp_eq (k := 4) n (by decide)
  omega

theorem hfAlignUp_of_dvd (hn : n < 2 ^ 64) (hk : k < 64) (hd : 2 ^ k ∣ n) :
    hfAlignUp n (2 ^ k) = n := by
  obtain ⟨q, rfl⟩ := hd
  have h0 : 0 < 2 ^ k := Nat.two_pow_pos k
  -- 2^k divides 2^64, so the largest multiple below 2^64 still has room for 2^k - 1
  have hroom : 2 ^ k * q + (2 ^ k - 1) < 2 ^ 64 := by
    have e : (2 : Nat) ^ 64 = 2 ^ k * 2 ^ (64 - k) := by
      rw [← pow_add]
      congr 1
      omega
    have hq : q < 2 ^ (64 - k) := by
      rw [e] at hn
      exact Nat.lt_of_mul_lt_mul_left hn
    have hm : 2 ^ k * (q + 1) ≤ 2 ^ k * 2 ^ (64 - k) := Nat.mul_le_mul_left _ hq
    rw [Nat.mul_add, Nat.mul_one, ← e] at hm
    omega
  rw [hfAlignUp_eq _ hk, Nat.mod_eq_of_lt hroom, Nat.mul_add_div h0,
    Nat.div_eq_of_lt (by omega : 2 ^ k - 1 < 2 ^ k), Nat.add_zero, Nat.mul_comm]

theorem log2Loop_eq (fuel n r : Nat) (h : n < 2 ^ fuel) : log2Loop fuel n r = r + n.log2 := by
  induction fuel generalizing n r with
  | zero =>
    obtain rfl : n = 0 := by omega
    rfl
  | succ fuel ih =>
    have hs : n >>> 1 = n / 2 := Nat.shiftRight_one n
    unfold log2Loop
    rw [hs]
    rw [Nat.log2_def]
    by_cases h2 : n / 2 = 0
    · have hn : ¬ 2 ≤ n := by omega
      simp [h2, hn]
    · have hn : 2 ≤ n := by omega
      rw [if_pos h2, if_pos hn, ih (n / 2) (r + 1) (by omega)]
      omega

theorem hfLog2Floor_eq (h : n < 2 ^ 64) : hfLog2Floor n = n.log2 := by
  have e := log2Loop_eq 64 n 0 h
  rwa [Nat.zero_add] at e

theorem hfNextPow2_eq (h1 : 1 < n) (h : n < 2 ^ 64) :
    hfNextPow2 n = 2 ^ ((n - 1).log2 + 1) % 2 ^ 64 := by
  have hs : wsub n 1 = n - 1 := wsub_of_le (by omega) h
  have hp := Nat.two_pow_pos ((n - 1).log2 + 1)
  unfold hfNextPow2
  rw [if_neg (by omega), hs, smear_eq (by omega) (by omega)]
  unfold wadd
  rw [Nat.sub_add_cancel hp]

/-- up to `2^63` the result is the least power of two that is not below `n` -/
theorem hfNextPow2_clog (h : n ≤ 2 ^ 63) : hfNextPow2 n = 2 ^ Nat.clog 2 n := by
  by_cases h1 : n ≤ 1
  · rw [Nat.clog_of_right_le_one h1]
    unfold hfNextPow2
    rw [if_pos h1, pow_zero]
  · have hne : n - 1 ≠ 0 := by omega
    have hc : Nat.clog 2 n = (n - 1).log2 + 1 := by
      have hlo : 2 ^ (n - 1).log2 ≤ n - 1 := (Nat.le_log2 hne).mp le_rfl
      have hhi : n - 1 < 2 ^ ((n - 1).log2 + 1) := (Nat.log2_lt hne).mp (Nat.lt_succ_self _)
      apply le_antisymm
      · exact (Nat.clog_le_iff_le_pow (by norm_num)).mpr (by omega)
      · exact (Nat.lt_clog_iff_pow_lt (by norm_num)).mpr (by omega)
    have hlt : (n - 1).log2 < 63 := (Nat.log2_lt hne).mpr (by omega)
    rw [hfNextPow2_eq (by omega) (by omega), hc, Nat.mod_eq_of_lt]
    exact Nat.pow_lt_pow_right (by norm_num) (by omega)

theorem hfNextPow2_of_gt (h : n < 2 ^ 64) (hn : 2 ^ 63 < n) : hfNextPow2 n = 0 := by
  have hne : n - 1 ≠ 0 := by omega
  have h1 : (n - 1).log2 = 63 := by
    have ha : (n - 1).log2 < 64 := (Nat.log2_lt hne).mpr (by omega)
    have hb : 63 ≤ (n - 1).log2 := (Nat.le_log2 hne).mpr (by omega)
    omega
  rw [hfNextPow2_eq (by omega) h, h1]
  norm_num

end

section
variable (vm : Vm) {n : Nat}

/-- pages have at least 4096 bytes -/
theorem Vm.dvd_of_page {k : Nat} (hk : k ≤ 12) (h : 2 ^ vm.pageOrder ∣ n) : 2 ^ k ∣ n :=
  (pow_dvd_pow 2 (hk.trans vm.pageOrder_ge)).trans h

theorem Vm.pageSize_ge : 4096 ≤ vm.pageSize :=
  Nat.pow_le_pow_right (show 0 < 2 by norm_num) vm.pageOrder_ge

theorem Vm.pageSize_le : vm.pageSize ≤ 2 ^ 63 :=
  Nat.pow_le_pow_right (by norm_num) (by have := vm.pageOrder_lt; omega)

theorem Vm.pageSize_dvd : vm.pageSize ∣ 2 ^ 64 :=
  pow_dvd_pow 2 (by have := vm.pageOrder_lt; omega)

/-- rounding up to pages -/
theorem Vm.alignPage (h : n + (vm.pageSize - 1) < 2 ^ 64) :
    n ≤ hfAlignUp n vm.pageSize ∧ hfAlignUp n vm.pageSize < n + vm.pageSize :=
  hfAlignUp_bounds h vm.pageOrder_lt

theorem Vm.alignPage_dvd (n : Nat) : vm.pageSize ∣ hfAlignUp n vm.pageSize :=
  hfAlignUp_dvd n vm.pageOrder_lt

theorem Vm.alignPage_lt (n : Nat) : hfAlignUp n vm.pageSize < 2 ^ 64 :=
  hfAlignUp_lt n vm.pageOrder_lt

theorem Vm.alignPage_le (n : Nat) : hfAlignUp n vm.pageSize + vm.pageSize ≤ 2 ^ 64 := by
  have hlt := vm.alignPage_lt n
  have hd : vm.pageSize ∣ 2 ^ 64 - hfAlignUp n vm.pageSize :=
    Nat.dvd_sub vm.pageSize_dvd (vm.alignPage_dvd n)
  have := Nat.le_of_dvd (by omega) hd
  omega

/-- a rounding that wraps gives 0 -/
theorem Vm.alignPage_wrap (hn : n < 2 ^ 64) (h : 2 ^ 64 ≤ n + (vm.pageSize - 1)) :
    hfAlignUp n vm.pageSize = 0 := by
  have hle := vm.pageSize_le
  have e : hfAlignUp n vm.pageSize
      = (n + (vm.pageSize - 1)) % 2 ^ 64 / vm.pageSize * vm.pageSize :=
      hfAlignUp_eq n vm.pageOrder_lt
  rw [e, Nat.div_eq_of_lt (by omega), Nat.zero_mul]

/-- multiples of a page stay so in a sum that wraps -/
theorem Vm.page_dvd_wadd {a b : Nat} (ha : vm.pageSize ∣ a) (hb : vm.pageSize ∣ b) :
    vm.pageSize ∣ wadd a b :=
  (dvd_wadd (by have := vm.pageOrder_lt; omega)).mpr (Nat.dvd_add ha hb)

theorem Vm.sixteen_dvd_page : 16 ∣ vm.pageSize := vm.dvd_of_page (k := 4) (by decide) dvd_rfl

/-- a reservation of a whole number of pages that succeeds gives a page-aligned range -/
theorem hfVmReserve_spec (hn : n < 2 ^ 64) (hd : vm.pageSize ∣ n) (h0 : hfVmReserve vm n ≠ 0) :
    vm.pageSize ∣ hfVmReserve vm n ∧ hfVmReserve vm n + n < 2 ^ 64 ∧ 0 < n := by
  have e : hfVmReserve vm n = vm.mmap n := by
    unfold hfVmReserve
    rw [show vm.pageSize = 2 ^ vm.pageOrder from rfl, hfAlignUp_of_dvd hn vm.pageOrder_lt hd]
  rw [e] at h0 ⊢
  refine ⟨vm.mmap_aligned n, vm.mmap_bound n h0, ?_⟩
  rcases Nat.eq_zero_or_pos n with rfl | hpos
  · exact absurd vm.mmap_zero h0
  · exact hpos

theorem hfVmReserve_zero : hfVmReserve vm 0 = 0 := by
  unfold hfVmReserve
  rw [show vm.pageSize = 2 ^ vm.pageOrder from rfl,
    hfAlignUp_of_dvd (by norm_num) vm.pageOrder_lt (dvd_zero _)]
  exact vm.mmap_zero

/-- a reservation of any size up to `2^63` that succeeds gives an aligned range of that size -/
theorem hfVmReserve_bounds (hn : n ≤ 2 ^ 63) (h0 : hfVmReserve vm n ≠ 0) :
    16 ∣ hfVmReserve vm n ∧ hfVmReserve vm n + n < 2 ^ 64 := by
  have hpage : vm.pageSize ≤ 2 ^ 63 :=
    Nat.pow_le_pow_right (by norm_num) (by have := vm.pageOrder_lt; omega)
  have hup := hfAlignUp_bounds (n := n) (k := vm.pageOrder)
    (by have : vm.pageSize = 2 ^ vm.pageOrder := rfl; omega) vm.pageOrder_lt
  have hbd : hfVmReserve vm n + hfAlignUp n (2 ^ vm.pageOrder) < 2 ^ 64 := vm.mmap_bound _ h0
  exact ⟨vm.sixteen_dvd_page.trans (vm.mmap_aligned _), by omega⟩

end

/-- a machine with pages of 4096 bytes that gives up to 2^30 bytes at the address 2^20 -/
def sampleVm : Vm where
  pageOrder := 12
  pageOrder_ge := by decide
  pageOrder_lt := by decide
  mmap n := if n = 0 ∨ 2 ^ 30 < n then 0 else 2 ^ 20
  mmap_zero := rfl
  mmap_aligned n := by split <;> decide
  mmap_bound n := by split <;> omega

end HeapForge
