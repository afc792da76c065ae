import HeapForge.CppGuardHeap.Impl
import HeapForge.GuardHeap.Impl

/-!
# Where guard heaps put a block

The C and the Rust guard heap round the address `data_end - size` down to the alignment and then
take care not to leave the data pages; the C++ guard heap rounds the size up and subtracts it from
`data_end`, whose multiple of the page size it is.  For alignments up to the page size these are the
same place.

* `alignUp_twice`      rounding up to the alignment first changes no page count;
* `mask_back`          rounding the address down is subtracting the rounded size;
* `guard_placement`    **the three place a block alike, and against the back guard.**
-/

set_option linter.unusedSectionVars false
set_option linter.unusedVariables false

namespace HeapForge.CppGuardHeap
open Lib

/-- the user's address in a mapping at `base` -/
def place (ps base size alignment : Nat) (underflow : Bool) : Nat :=
  let data := wadd base ps
  let dataEnd := wadd data (dataBytes ps size alignment)
  if underflow then data else wsub dataEnd (hfAlignUp (askedSize size) (askedAlignment alignment))

/-- a request that is served gets that address -/
theorem allocate_place {ps this size alignment base u : Nat} {p p' : Process} {h : GuardHeap}
    (hh : p.heaps this = some h) (hcall : allocate ps p this size alignment base = some (u, p'))
    (hu : u ≠ 0) :
    u = place ps base size alignment h.underflow := by
  unfold allocate at hcall
  rw [hh, Option.bind_some] at hcall
  split at hcall
  · exact absurd (Prod.mk.inj (Option.some.inj hcall)).1.symm hu
  · split at hcall
    · exact absurd (Prod.mk.inj (Option.some.inj hcall)).1.symm hu
    · dsimp only at hcall
      generalize hv : (if h.underflow = true then wadd base ps
        else wsub (wadd (wadd base ps) (dataBytes ps size alignment))
          (hfAlignUp (askedSize size) (askedAlignment alignment))) = v at hcall
      split at hcall
      · exact absurd hcall (by simp)
      · obtain ⟨slot, -, e⟩ := Option.map_eq_some_iff.mp hcall
        rw [← (Prod.mk.inj e).1, ← hv]
        rfl

end HeapForge.CppGuardHeap

namespace HeapForge.RustGuardHeap
open Lib

/-- `total` of `allocate` in `rust/src/guard_heap.rs`, for `size.max(1)` -/
def totalBytes (ps size : Nat) : Nat := wadd (wadd ps (hfAlignUp (max size 1) ps)) ps

/-- `user` of `allocate` there -/
def place (ps base size align : Nat) : Nat :=
  let size := max size 1
  let align := max align 16
  let data := hfAlignUp size ps
  let dataEnd := wadd (wadd base ps) data
  let user := wsub dataEnd size &&& wnot (wsub align 1)
  if user < wadd base ps then wadd base ps else user

end HeapForge.RustGuardHeap

namespace HeapForge.GuardHeap
open Lib

theorem ghAllocate_place (vm : Vm) (h : GhHeap) (size alignment : Nat)
    (hp : (ghAllocate vm h size alignment).1 ≠ 0) :
    (ghAllocate vm h size alignment).1
      = ghPlace vm.pageSize (hfVmReserve vm (ghTotal vm.pageSize (ghSize size)))
        (ghDataPages vm.pageSize (ghSize size)) (ghSize size) (ghAlignment alignment) := by
  unfold ghAllocate at hp ⊢
  dsimp only at hp ⊢
  split at hp
  · exact absurd rfl hp
  · next hbase =>
    rw [if_neg hbase]
    cases hidx : ghReserveSlot h with
    | none =>
      rw [hidx] at hp
      exact absurd rfl hp
    | some idx => rfl

/-- what the C function masks and then compares -/
def ghMasked (ps base dataPages size alignment : Nat) : Nat :=
  wsub (wadd (wadd base ps) dataPages) size &&& wnot (wsub alignment 1)

section
variable {k j size base e : Nat}

/-- the pages of a block of at most `2^62` bytes -/
theorem dataPages_bounds (hk : k < 64) (hs : size ≤ 2 ^ 62) :
    size ≤ hfAlignUp size (2 ^ k) ∧ hfAlignUp size (2 ^ k) ≤ 2 ^ 63 := by
  have hpow : 2 ^ k ≤ 2 ^ 63 := Nat.pow_le_pow_right (by norm_num) (by omega)
  refine ⟨(hfAlignUp_bounds (by omega) hk).1, ?_⟩
  exact hfAlignUp_le (by omega) hk (pow_dvd_pow 2 (by omega)) (by omega)

theorem aligned_le_pages (hk : k < 64) (hjk : j ≤ k) (hs : size ≤ 2 ^ 62) :
    hfAlignUp size (2 ^ j) ≤ hfAlignUp size (2 ^ k) := by
  have hpow : 2 ^ j ≤ 2 ^ 63 := Nat.pow_le_pow_right (by norm_num) (by omega)
  have hd : 2 ^ j ∣ hfAlignUp size (2 ^ k) := (pow_dvd_pow 2 hjk).trans (hfAlignUp_dvd size hk)
  exact hfAlignUp_le (by omega) (by omega) hd (dataPages_bounds hk hs).1

/-- rounding up to the alignment first changes no page count -/
theorem alignUp_twice (hk : k < 64) (hjk : j ≤ k) (hs : size ≤ 2 ^ 62) :
    hfAlignUp (hfAlignUp size (2 ^ j)) (2 ^ k) = hfAlignUp size (2 ^ k) := by
  have hpow : 2 ^ k ≤ 2 ^ 63 := Nat.pow_le_pow_right (by norm_num) (by omega)
  have hle := aligned_le_pages hk hjk hs
  have h63 := (dataPages_bounds hk hs).2
  have hroom : hfAlignUp size (2 ^ j) + (2 ^ k - 1) < 2 ^ 64 := by
    have := Nat.two_pow_pos k
    omega
  apply le_antisymm
  · exact hfAlignUp_le hroom hk (hfAlignUp_dvd size hk) hle
  · have h1 := (dataPages_bounds (k := j) (by omega) hs).1
    have h2 := (hfAlignUp_bounds hroom hk).1
    exact hfAlignUp_le (by omega) hk (hfAlignUp_dvd _ hk) (h1.trans h2)

/-- rounding the address down is subtracting the rounded size -/
theorem mask_back (hj : j < 64) (he : e < 2 ^ 64) (hd : 2 ^ j ∣ e) (hs : size ≤ 2 ^ 62)
    (hle : hfAlignUp size (2 ^ j) ≤ e) :
    wsub e size &&& wnot (wsub (2 ^ j) 1) = e - hfAlignUp size (2 ^ j) := by
  have hpow : 2 ^ j ≤ 2 ^ 63 := Nat.pow_le_pow_right (by norm_num) (by omega)
  have hpos := Nat.two_pow_pos j
  obtain ⟨h1, h2⟩ := hfAlignUp_bounds (n := size) (k := j) (by omega) hj
  obtain ⟨q, hq⟩ : 2 ^ j ∣ e - hfAlignUp size (2 ^ j) := Nat.dvd_sub hd (hfAlignUp_dvd size hj)
  have hdiv : (e - size) / 2 ^ j = q := by
    apply Nat.div_eq_of_lt_le
    · rw [Nat.mul_comm, ← hq]
      omega
    · rw [Nat.mul_comm, Nat.mul_add, Nat.mul_one, ← hq]
      omega
  rw [wsub_of_le (by omega) he, wsub_of_le hpos (by omega),
    land_wnot_mask (by omega) (by omega), hdiv, hq, Nat.mul_comm]

theorem pages_dvd (hk : k < 64) (hjk : j ≤ k) (hbase : 2 ^ k ∣ base) :
    2 ^ j ∣ base + 2 ^ k + ghDataPages (2 ^ k) size :=
  (pow_dvd_pow 2 hjk).trans (Nat.dvd_add (Nat.dvd_add hbase (dvd_refl _)) (hfAlignUp_dvd size hk))

/-- the data pages end where they should -/
theorem dataEnd_eq {d : Nat} (hmap : base + (2 ^ k + d + 2 ^ k) ≤ 2 ^ 64) :
    wadd base (2 ^ k) = base + 2 ^ k ∧ wadd (base + 2 ^ k) d = base + 2 ^ k + d
      ∧ base + 2 ^ k + d < 2 ^ 64 := by
  have hpos := Nat.two_pow_pos k
  exact ⟨wadd_of_lt (by omega), wadd_of_lt (by omega), by omega⟩

/-- the masked address -/
theorem ghMasked_eq (hk : k < 64) (hjk : j ≤ k) (hs : size ≤ 2 ^ 62) (hbase : 2 ^ k ∣ base)
    (hmap : base + (2 ^ k + ghDataPages (2 ^ k) size + 2 ^ k) ≤ 2 ^ 64) :
    ghMasked (2 ^ k) base (ghDataPages (2 ^ k) size) size (2 ^ j)
      = base + 2 ^ k + ghDataPages (2 ^ k) size - hfAlignUp size (2 ^ j) := by
  obtain ⟨e1, e2, e3⟩ := dataEnd_eq hmap
  have hle : hfAlignUp size (2 ^ j) ≤ ghDataPages (2 ^ k) size := aligned_le_pages hk hjk hs
  unfold ghMasked
  rw [e1, e2]
  exact mask_back (lt_of_le_of_lt hjk hk) e3 (pages_dvd hk hjk hbase) hs
    (le_trans hle (Nat.le_add_left _ _))

/-- it is not below the data pages -/
theorem ghPlace_eq (hk : k < 64) (hjk : j ≤ k) (hs : size ≤ 2 ^ 62) (hbase : 2 ^ k ∣ base)
    (hmap : base + (2 ^ k + ghDataPages (2 ^ k) size + 2 ^ k) ≤ 2 ^ 64) :
    ghPlace (2 ^ k) base (ghDataPages (2 ^ k) size) size (2 ^ j)
      = ghMasked (2 ^ k) base (ghDataPages (2 ^ k) size) size (2 ^ j) := by
  have hle : hfAlignUp size (2 ^ j) ≤ ghDataPages (2 ^ k) size := aligned_le_pages hk hjk hs
  unfold ghPlace
  apply if_neg
  show ¬ ghMasked (2 ^ k) base (ghDataPages (2 ^ k) size) size (2 ^ j) < wadd base (2 ^ k)
  rw [ghMasked_eq hk hjk hs hbase hmap, (dataEnd_eq hmap).1]
  omega

theorem alignment_asked (hj : 4 ≤ j) :
    CppGuardHeap.askedAlignment (2 ^ j) = 2 ^ j ∧ max (2 ^ j) 16 = 2 ^ j := by
  have h16 : 2 ^ 4 ≤ 2 ^ j := Nat.pow_le_pow_right (by norm_num) hj
  have hge : ¬ 2 ^ j < 16 := Nat.not_lt.mpr h16
  unfold CppGuardHeap.askedAlignment
  rw [if_neg hge]
  exact ⟨rfl, max_eq_left h16⟩

theorem size_asked (hs : 1 ≤ size) : CppGuardHeap.askedSize size = size ∧ max size 1 = size := by
  unfold CppGuardHeap.askedSize
  rw [if_neg (Nat.ne_of_gt hs)]
  exact ⟨rfl, max_eq_left hs⟩

theorem cpp_dataBytes (hk : k < 64) (hj : 4 ≤ j) (hjk : j ≤ k) (hs1 : 1 ≤ size)
    (hs : size ≤ 2 ^ 62) :
    CppGuardHeap.dataBytes (2 ^ k) size (2 ^ j) = ghDataPages (2 ^ k) size := by
  unfold CppGuardHeap.dataBytes
  rw [(size_asked hs1).1, (alignment_asked hj).1]
  exact alignUp_twice hk hjk hs

theorem cpp_place (hk : k < 64) (hj : 4 ≤ j) (hjk : j ≤ k) (hs1 : 1 ≤ size) (hs : size ≤ 2 ^ 62)
    (hbase : 2 ^ k ∣ base) (hmap : base + (2 ^ k + ghDataPages (2 ^ k) size + 2 ^ k) ≤ 2 ^ 64) :
    CppGuardHeap.place (2 ^ k) base size (2 ^ j) false
      = ghMasked (2 ^ k) base (ghDataPages (2 ^ k) size) size (2 ^ j) := by
  obtain ⟨e1, e2, e3⟩ := dataEnd_eq hmap
  have hle : hfAlignUp size (2 ^ j) ≤ ghDataPages (2 ^ k) size := aligned_le_pages hk hjk hs
  rw [ghMasked_eq hk hjk hs hbase hmap]
  unfold CppGuardHeap.place
  rw [cpp_dataBytes hk hj hjk hs1 hs, (size_asked hs1).1, (alignment_asked hj).1]
  dsimp only
  rw [e1, e2, if_neg Bool.false_ne_true]
  exact wsub_of_le (le_trans hle (Nat.le_add_left _ _)) e3

theorem rust_place (hj : 4 ≤ j) (hs1 : 1 ≤ size) : RustGuardHeap.place (2 ^ k) base size (2 ^ j)
    = ghPlace (2 ^ k) base (ghDataPages (2 ^ k) size) size (2 ^ j) := by
  unfold RustGuardHeap.place ghPlace ghDataPages
  rw [(size_asked hs1).2, (alignment_asked hj).2]

end

/-- **Placement is tight, and the ports agree.**  In a mapping of a front guard page, the data pages
of the block and a back guard page, anywhere in the address space: the three heaps ask for the same
number of bytes and choose the same address `u`; the masked address is never below the data pages;
the block lies in them, is aligned, and fewer than `2^j` bytes are left behind it.  From the rounded
size on, the bytes behind `u` are those of the back guard. -/
theorem guard_placement {k j size base : Nat} (hk : k < 64) (hj : 4 ≤ j) (hjk : j ≤ k)
    (hs1 : 1 ≤ size) (hs : size ≤ 2 ^ 62) (hbase : 2 ^ k ∣ base)
    (hmap : base + (2 ^ k + ghDataPages (2 ^ k) size + 2 ^ k) ≤ 2 ^ 64) :
    ∃ u e, e = base + 2 ^ k + ghDataPages (2 ^ k) size
      ∧ CppGuardHeap.totalBytes (2 ^ k) size (2 ^ j) = ghTotal (2 ^ k) size
      ∧ RustGuardHeap.totalBytes (2 ^ k) size = ghTotal (2 ^ k) size
      ∧ ghPlace (2 ^ k) base (ghDataPages (2 ^ k) size) size (2 ^ j) = u
      ∧ CppGuardHeap.place (2 ^ k) base size (2 ^ j) false = u
      ∧ RustGuardHeap.place (2 ^ k) base size (2 ^ j) = u
      ∧ ghMasked (2 ^ k) base (ghDataPages (2 ^ k) size) size (2 ^ j) = u
      ∧ base + 2 ^ k ≤ u ∧ u + size ≤ e ∧ 2 ^ j ∣ u ∧ e - (u + size) < 2 ^ j
      ∧ ∀ x, u + hfAlignUp size (2 ^ j) ≤ x → x < u + hfAlignUp size (2 ^ j) + 2 ^ k →
        e ≤ x ∧ x < e + 2 ^ k := by
  have hle : hfAlignUp size (2 ^ j) ≤ ghDataPages (2 ^ k) size := aligned_le_pages hk hjk hs
  have hbounds : size ≤ hfAlignUp size (2 ^ j) ∧ hfAlignUp size (2 ^ j) < size + 2 ^ j := by
    have hpow : 2 ^ j ≤ 2 ^ 63 := Nat.pow_le_pow_right (by norm_num) (by omega)
    exact hfAlignUp_bounds (by omega) (by omega)
  have hmask := ghMasked_eq hk hjk hs hbase hmap
  have hdvd : 2 ^ j ∣ base + 2 ^ k + ghDataPages (2 ^ k) size - hfAlignUp size (2 ^ j) :=
    Nat.dvd_sub (pages_dvd hk hjk hbase) (hfAlignUp_dvd size (by omega))
  refine ⟨_, _, rfl, ?_, ?_, ghPlace_eq hk hjk hs hbase hmap, cpp_place hk hj hjk hs1 hs hbase hmap,
    (rust_place hj hs1).trans (ghPlace_eq hk hjk hs hbase hmap), rfl, ?_⟩
  · unfold CppGuardHeap.totalBytes ghTotal
    rw [cpp_dataBytes hk hj hjk hs1 hs]
  · unfold RustGuardHeap.totalBytes ghTotal ghDataPages
    rw [(size_asked hs1).2]
  · rw [hmask]
    generalize ghDataPages (2 ^ k) size = d at *
    generalize hfAlignUp size (2 ^ j) = r at *
    refine ⟨by omega, by omega, hdvd, by omega, fun x h1 h2 => ?_⟩
    omega

theorem guard_placement_small :
    ghPlace (2 ^ 12) (2 ^ 20) (ghDataPages (2 ^ 12) 100) 100 (2 ^ 6)
      = CppGuardHeap.place (2 ^ 12) (2 ^ 20) 100 (2 ^ 6) false := by
  have hpages : ghDataPages (2 ^ 12) 100 = 4096 := by decide +kernel
  obtain ⟨u, e, -, -, -, h1, h2, -⟩ := @guard_placement 12 6 100 (2 ^ 20)
    (by omega) (by omega) (by omega) (by omega) (by omega) (by decide) (by rw [hpages]; omega)
  rw [h1, h2]

end HeapForge.GuardHeap
