import HeapForge.BlockPool.Run
import HeapForge.CPool.Creation
import HeapForge.Lib.Spaced
import HeapForge.Slab.Impl

/-!
# The blocks of a new pool

Four constructors compute a stored block size, a number of blocks and the bytes mapped for them, in
64 bits (the C++ pool stores the size in 32).  `Made` is what they end in, `Made.Good` what a user
relies on: no division by zero, and every block of the requested size in its place.

* `BlockPoolDenied`, `CPoolDenied`, `CppPoolDenied`   the answers of the system that make them fail;
* `blockPool_good_iff`, `slab_good_iff`, `cPool_good_iff`, `cppPool_good_iff`   when it holds;
* `constructors_good_iff`   **all four.**
-/

set_option linter.unusedSectionVars false
set_option linter.unusedVariables false

namespace HeapForge.Geometry
open Lib CPool

structure Blocks where
  stride : Nat
  count : Nat
  /-- the bytes mapped for the blocks -/
  space : Nat
  deriving DecidableEq

inductive Made
  | fails
  | faults
  | object (b : Blocks)
  deriving DecidableEq

def Made.Good (requested : Nat) : Made → Prop
  | .fails => True
  | .faults => False
  | .object b => Spaced b.stride b.count requested b.space

def Made.blocks : Made → Option Blocks
  | .object b => some b
  | _ => none

/-! ## the constructors -/

def blockPoolMade (vm : Vm) (handle bits : Bool) (m : Mem) (blockSize blockCount : Nat) : Made :=
  match BlockPool.hfBlockPoolCreate vm handle bits m blockSize blockCount with
  | none => .fails
  | some a => .object ⟨a.blockSize, a.blockCount, a.capacity⟩

/-- `hf_slab_create`, with the division by zero told from the null pointer -/
def slabMade (vm : Vm) (handle : Bool) (objectSize slabBytes : Nat) : Made :=
  let obj := hfAlignUp (if objectSize < 8 then 8 else objectSize) HF_DEFAULT_ALIGN
  let slabBytes := if slabBytes = 0 then 64 * 1024 else slabBytes
  let slabBytes := hfAlignUp slabBytes vm.pageSize
  if obj = 0 then .faults
  else if slabBytes / obj = 0 then .fails
  else if handle then .object ⟨obj, slabBytes / obj, slabBytes⟩
  else .fails

/-- the creating branch of `hf_pool_open`: `truncates` and `handle` tell whether `ftruncate` and
`calloc` succeed; the header, the ring and the bitmap are written, which faults outside the
mapping -/
def cPoolMade (vm : Vm) (truncates handle : Bool) (blockSize blockCount : Nat) : Made :=
  if blockSize = 0 ∨ blockCount = 0 then .fails
  else
    let g := layout vm.pageSize blockSize blockCount
    if truncates = false ∨ vm.mmap g.totalSize = 0 ∨ handle = false then .fails
    else if HEADER_BYTES ≤ g.totalSize ∧ g.walOffset + WAL_BYTES ≤ g.totalSize
        ∧ (bitmapBytes blockCount = 0 ∨ g.bitmapOffset + bitmapBytes blockCount ≤ g.totalSize) then
      .object ⟨g.blockSize, g.blockCount, g.totalSize - g.dataOffset⟩
    else .faults

/-- where the blocks of the C++ pool start -/
def cppDataOffset (ps blockCount : Nat) : Nat :=
  wadd (wadd ps ps) (hfAlignUp (wadd blockCount 7 / 8) ps)

/-- the fresh-file branch of the C++ constructor; the block size is stored in 32 bits -/
def cppPoolMade (vm : Vm) (opens truncates : Bool) (blockSize blockCount : Nat) : Made :=
  let want :=
    hfAlignUp (wadd (cppDataOffset vm.pageSize blockCount) (wmul blockSize blockCount)) vm.pageSize
  if opens = false ∨ truncates = false ∨ vm.mmap want = 0 then .fails
  else .object ⟨blockSize % 2 ^ 32, blockCount, want - cppDataOffset vm.pageSize blockCount⟩

/-! ## when they fail -/

/-- no memory for the handle, the blocks or the words -/
def BlockPoolDenied (vm : Vm) (handle bits : Bool) (blockSize blockCount : Nat) : Prop :=
  handle = false
    ∨ hfVmReserve vm
      (hfAlignUp (wmul (hfAlignUp blockSize HF_DEFAULT_ALIGN) blockCount) vm.pageSize) = 0
    ∨ bits = false

/-- sizes that are refused, a file that does not grow, no mapping, no memory for the handle -/
def CPoolDenied (vm : Vm) (truncates handle : Bool) (blockSize blockCount : Nat) : Prop :=
  (blockSize = 0 ∨ blockCount = 0)
    ∨ truncates = false ∨ vm.mmap (layout vm.pageSize blockSize blockCount).totalSize = 0
    ∨ handle = false

/-- a file that does not open or does not grow, no mapping -/
def CppPoolDenied (vm : Vm) (opens truncates : Bool) (blockSize blockCount : Nat) : Prop :=
  opens = false ∨ truncates = false
    ∨ vm.mmap (hfAlignUp (wadd (cppDataOffset vm.pageSize blockCount) (wmul blockSize blockCount))
        vm.pageSize) = 0

theorem blockPoolMade_fails_iff {vm : Vm} {handle bits : Bool} {m : Mem}
    {blockSize blockCount : Nat} :
    blockPoolMade vm handle bits m blockSize blockCount = .fails
      ↔ BlockPoolDenied vm handle bits blockSize blockCount := by
  unfold blockPoolMade BlockPoolDenied BlockPool.hfBlockPoolCreate
  dsimp only
  cases handle with
  | false => exact iff_of_true rfl (Or.inl rfl)
  | true =>
    rw [if_pos rfl]
    by_cases h0 : hfVmReserve vm
        (hfAlignUp (wmul (hfAlignUp blockSize HF_DEFAULT_ALIGN) blockCount) vm.pageSize) = 0
    · rw [if_pos h0]
      exact iff_of_true rfl (Or.inr (Or.inl h0))
    · rw [if_neg h0]
      cases bits with
      | false => exact iff_of_true rfl (Or.inr (Or.inr rfl))
      | true => exact iff_of_false (by simp) (by simp [h0])

theorem cPoolMade_fails_iff {vm : Vm} {truncates handle : Bool} {blockSize blockCount : Nat} :
    cPoolMade vm truncates handle blockSize blockCount = .fails
      ↔ CPoolDenied vm truncates handle blockSize blockCount := by
  unfold cPoolMade CPoolDenied
  by_cases h0 : blockSize = 0 ∨ blockCount = 0
  · rw [if_pos h0]
    exact iff_of_true rfl (Or.inl h0)
  rw [if_neg h0]
  dsimp only
  by_cases h1 : truncates = false ∨ vm.mmap (layout vm.pageSize blockSize blockCount).totalSize = 0
      ∨ handle = false
  · rw [if_pos h1]
    exact iff_of_true rfl (Or.inr h1)
  rw [if_neg h1]
  exact iff_of_false (by split <;> simp) (not_or.mpr ⟨h0, h1⟩)

theorem cppPoolMade_fails_iff {vm : Vm} {opens truncates : Bool} {blockSize blockCount : Nat} :
    cppPoolMade vm opens truncates blockSize blockCount = .fails
      ↔ CppPoolDenied vm opens truncates blockSize blockCount := by
  unfold cppPoolMade CppPoolDenied
  dsimp only
  by_cases h0 : opens = false ∨ truncates = false
      ∨ vm.mmap (hfAlignUp (wadd (cppDataOffset vm.pageSize blockCount) (wmul blockSize blockCount))
        vm.pageSize) = 0
  · rw [if_pos h0]
    exact iff_of_true rfl h0
  · rw [if_neg h0]
    exact iff_of_false (by simp) h0

/-- a pool that `hf_pool_open` creates has these blocks -/
theorem cPoolMade_of_open {vm : Vm} {os : Answers} {blockSize blockCount : Nat} {p : Session}
    {d : Option DiskFile} (h : hfPoolOpenNew vm os blockSize blockCount = some (some p, d)) :
    cPoolMade vm os.truncates os.handle blockSize blockCount
      = .object ⟨p.geo.blockSize, p.geo.blockCount, p.geo.totalSize - p.geo.dataOffset⟩ := by
  unfold hfPoolOpenNew at h
  dsimp only at h
  split at h
  · cases h
  rename_i hcreates
  split at h
  · cases h
  rename_i hsizes
  split at h
  · cases h
  rename_i htruncates
  split at h
  · cases h
  rename_i hmaps
  split at h
  · rename_i hinside
    obtain ⟨hp, -⟩ := Prod.mk.inj (Option.some.inj h)
    obtain rfl := Option.some.inj hp
    have hgranted : ¬ (os.truncates = false
      ∨ vm.mmap (layout vm.pageSize blockSize blockCount).totalSize = 0
        ∨ os.handle = false) := by
      intro hc
      rcases hc with hc | hc
      · exact htruncates (Or.inl hc)
      · exact hmaps hc
    unfold cPoolMade
    rw [if_neg hsizes]
    dsimp only
    rw [if_neg hgranted, if_pos hinside]
    rfl
  · cases h

theorem slabMade_blocks (vm : Vm) (handle : Bool) (objectSize slabBytes : Nat) :
    (slabMade vm handle objectSize slabBytes).blocks
      = (Slab.hfSlabCreate vm handle objectSize slabBytes).map fun a =>
        ⟨a.objSize, a.slotsPerSlab, a.slabBytes⟩ := by
  unfold slabMade Slab.hfSlabCreate
  dsimp only
  generalize hfAlignUp (if objectSize < 8 then 8 else objectSize) HF_DEFAULT_ALIGN = obj
  generalize hfAlignUp (if slabBytes = 0 then 64 * 1024 else slabBytes) vm.pageSize = sb
  by_cases h0 : obj = 0
  · rw [if_pos h0, if_pos (Or.inl h0)]
    rfl
  · rw [if_neg h0]
    by_cases h1 : sb / obj = 0
    · rw [if_pos h1, if_pos (Or.inr h1)]
      rfl
    · rw [if_neg h1, if_neg (not_or.mpr ⟨h0, h1⟩)]
      cases handle <;> rfl

section
variable {vm : Vm} {handle bits truncates opens : Bool} {m : Mem}
  {blockSize blockCount objectSize slabBytes : Nat}

/-! ## when they are good -/

/-- rounding up never wraps for a size that is stored as something else than 0 -/
theorem no_round_wrap (hs : blockSize < 2 ^ 64) (h : hfAlignUp blockSize HF_DEFAULT_ALIGN ≠ 0) :
    blockSize + 15 < 2 ^ 64 := by
  by_contra hge
  exact h (hfAlignUp_default_wrap hs (by omega))

/-- blocks in place whose stored size is the requested one, rounded up -/
theorem stored_fits {space : Nat} (hs : blockSize < 2 ^ 64) (hspace : space + 16 ≤ 2 ^ 64)
    (h : Spaced (hfAlignUp blockSize HF_DEFAULT_ALIGN) blockCount blockSize space) :
    hfAlignUp blockSize HF_DEFAULT_ALIGN * blockCount < 2 ^ 64 := by
  by_cases h0 : hfAlignUp blockSize HF_DEFAULT_ALIGN = 0
  · rw [h0, Nat.zero_mul]
    decide
  · have hround := no_round_wrap hs h0
    exact h.fits (hfAlignUp_default_dvd _) (by decide)
      (hfAlignUp_default hround).2 hspace

/-- what a block pool has when it is created -/
theorem create_fields {a : BlockPool.BpAlloc}
    (h : BlockPool.hfBlockPoolCreate vm handle bits m blockSize blockCount = some a) :
    a.blockSize = hfAlignUp blockSize HF_DEFAULT_ALIGN ∧ a.blockCount = blockCount
      ∧ a.capacity = hfAlignUp (wmul (hfAlignUp blockSize HF_DEFAULT_ALIGN) blockCount) vm.pageSize
      ∧ a.capacity ≠ 0 := by
  obtain ⟨bs, bytes, rfl, hbytes, hmem, rfl⟩ := BlockPool.hfBlockPoolCreate_eq h
  refine ⟨rfl, rfl, hbytes, fun h0 => hmem ?_⟩
  rw [show bytes = 0 from h0]
  exact hfVmReserve_zero vm

theorem blockPool_good_iff (hs : blockSize < 2 ^ 64) :
    (blockPoolMade vm handle bits m blockSize blockCount).Good blockSize
      ↔ BlockPoolDenied vm handle bits blockSize blockCount
        ∨ hfAlignUp blockSize HF_DEFAULT_ALIGN * blockCount < 2 ^ 64 := by
  have hps := vm.pageSize_ge
  rw [← blockPoolMade_fails_iff (m := m)]
  unfold blockPoolMade
  cases hc : BlockPool.hfBlockPoolCreate vm handle bits m blockSize blockCount with
  | none => exact iff_of_true trivial (Or.inl rfl)
  | some a =>
    obtain ⟨h1, h2, h3, h4⟩ := create_fields hc
    have hpos := (BlockPool.BpInv.create hc).pos.1
    have hle := vm.alignPage_le (wmul (hfAlignUp blockSize HF_DEFAULT_ALIGN) blockCount)
    show Spaced a.blockSize a.blockCount blockSize a.capacity ↔ _
    rw [h1] at hpos
    rw [h1, h2]
    constructor
    · intro h
      exact Or.inr (stored_fits hs (by omega) h)
    · intro h
      have hfit : hfAlignUp blockSize HF_DEFAULT_ALIGN * blockCount < 2 ^ 64 := by
        rcases h with h | h
        · cases h
        · exact h
      have hround := no_round_wrap hs (by omega)
      rw [wmul_of_lt hfit] at h3 hle
      -- the rounding to pages did not wrap either: there is a mapping
      have hpage : hfAlignUp blockSize HF_DEFAULT_ALIGN * blockCount + (vm.pageSize - 1)
          < 2 ^ 64 := by
        by_contra hge
        exact h4 (h3.trans (vm.alignPage_wrap hfit (by omega)))
      have hup := (vm.alignPage hpage).1
      exact Spaced.of_fits (hfAlignUp_default hround).1 (by omega) (by omega)

theorem slab_good_iff (hs : objectSize < 2 ^ 64) :
    (slabMade vm handle objectSize slabBytes).Good objectSize ↔ objectSize + 15 < 2 ^ 64 := by
  have hsb := vm.alignPage_lt (if slabBytes = 0 then 64 * 1024 else slabBytes)
  unfold slabMade
  dsimp only
  generalize hfAlignUp (if slabBytes = 0 then 64 * 1024 else slabBytes) vm.pageSize = sb at *
  by_cases hround : objectSize + 15 < 2 ^ 64
  · refine iff_of_true ?_ hround
    have hobj := hfAlignUp_default (n := if objectSize < 8 then 8 else objectSize)
      (by split <;> omega)
    generalize hfAlignUp (if objectSize < 8 then 8 else objectSize) HF_DEFAULT_ALIGN = obj at *
    have hle : objectSize ≤ obj ∧ 0 < obj := by
      split at hobj <;> omega
    rw [if_neg (by omega)]
    split
    · trivial
    · split
      · apply Spaced.of_fits hle.1 _ hsb
        exact Nat.mul_div_le sb obj
      · trivial
  · have h0 : hfAlignUp (if objectSize < 8 then 8 else objectSize) HF_DEFAULT_ALIGN = 0 := by
      rw [if_neg (by omega)]
      exact hfAlignUp_default_wrap hs (by omega)
    rw [if_pos h0]
    exact iff_of_false id hround

/-- the blocks of a new file have their room exactly if nothing wraps -/
theorem spaced_iff_noWrap (vm : Vm) (hs : blockSize < 2 ^ 64) (hs0 : blockSize ≠ 0)
    (hc0 : blockCount ≠ 0) :
    Spaced (layout vm.pageSize blockSize blockCount).blockSize blockCount blockSize
        ((layout vm.pageSize blockSize blockCount).totalSize
          - (layout vm.pageSize blockSize blockCount).dataOffset)
      ↔ NoWrap vm blockSize blockCount := by
  constructor
  · intro hsp
    have hlen := hsp.len_le (by omega)
    have htot : (layout vm.pageSize blockSize blockCount).totalSize
        = wadd (layout vm.pageSize blockSize blockCount).dataOffset
          ((layout vm.pageSize blockSize blockCount).dataBytes vm.pageSize) := rfl
    have hdlt : (layout vm.pageSize blockSize blockCount).dataOffset < 2 ^ 64 := wadd_lt _ _
    have hrle := vm.alignPage_le (wmul (hfAlignUp blockSize HF_DEFAULT_ALIGN) blockCount)
    have hps := vm.pageSize_ge
    have hr : (layout vm.pageSize blockSize blockCount).dataBytes vm.pageSize
        = hfAlignUp (wmul (hfAlignUp blockSize HF_DEFAULT_ALIGN) blockCount) vm.pageSize := rfl
    -- a block lies between the data and the end, so the sum did not wrap
    have htotal : (layout vm.pageSize blockSize blockCount).dataOffset
        + (layout vm.pageSize blockSize blockCount).dataBytes vm.pageSize < 2 ^ 64 := by
      rw [hr]
      unfold wadd at htot
      omega
    rw [htot, wadd_of_lt htotal, Nat.add_sub_cancel_left, hr] at hsp hlen
    have hfit : hfAlignUp blockSize HF_DEFAULT_ALIGN * blockCount < 2 ^ 64 :=
      stored_fits hs (by omega) hsp
    rw [wmul_of_lt hfit] at hlen
    refine ⟨by omega, by omega, ?_, ?_, htotal⟩
    · apply no_round_wrap hs
      intro hz
      rw [hz, Nat.zero_mul, show hfAlignUp 0 vm.pageSize = 0 from
        hfAlignUp_of_dvd (by decide) vm.pageOrder_lt (dvd_zero _)] at hlen
      omega
    · by_contra hge
      rw [vm.alignPage_wrap hfit (Nat.le_of_not_lt hge)] at hlen
      omega
  · intro hnw
    obtain ⟨-, r1, r2, r3, r4, r5, -⟩ := hnw.regions
    have hcount : (layout vm.pageSize blockSize blockCount).blockCount = blockCount := rfl
    rw [hcount] at r3 r4
    exact Spaced.of_fits (hfAlignUp_default hnw.round).1 (by omega) (by omega)

theorem cPool_good_iff (hs : blockSize < 2 ^ 64) (hc : blockCount < 2 ^ 64) :
    (cPoolMade vm truncates handle blockSize blockCount).Good blockSize
      ↔ CPoolDenied vm truncates handle blockSize blockCount ∨ NoWrap vm blockSize blockCount := by
  rw [← cPoolMade_fails_iff]
  unfold cPoolMade
  by_cases h0 : blockSize = 0 ∨ blockCount = 0
  · rw [if_pos h0]
    exact iff_of_true trivial (Or.inl rfl)
  rw [if_neg h0]
  dsimp only
  by_cases h1 : truncates = false ∨ vm.mmap (layout vm.pageSize blockSize blockCount).totalSize = 0
      ∨ handle = false
  · rw [if_pos h1]
    exact iff_of_true trivial (Or.inl rfl)
  rw [if_neg h1]
  obtain ⟨hs0, hc0⟩ := not_or.mp h0
  have hspaced := spaced_iff_noWrap vm hs hs0 hc0
  constructor
  · intro hgood
    split at hgood
    · exact Or.inr (hspaced.mp hgood)
    · exact absurd hgood id
  · intro h
    have hnw : NoWrap vm blockSize blockCount := by
      rcases h with h | h
      · split at h
        · cases h
        · cases h
      · exact h
    have hbytes := bitmapBytes_eq hnw.count_lt
    have hcount : (layout vm.pageSize blockSize blockCount).blockCount = blockCount := rfl
    obtain ⟨-, r1, r2, r3, r4, r5, -⟩ := hnw.regions
    rw [hcount] at r3 r4
    rw [if_pos ⟨by omega, by omega, Or.inr (by omega)⟩]
    exact hspaced.mpr hnw

theorem cppPool_good_iff (hs : blockSize < 2 ^ 64) :
    (cppPoolMade vm opens truncates blockSize blockCount).Good blockSize
      ↔ CppPoolDenied vm opens truncates blockSize blockCount ∨ blockSize = 0 ∨ blockCount = 0
        ∨ (cppDataOffset vm.pageSize blockCount + blockSize * blockCount < 2 ^ 64
          ∧ (blockSize < 2 ^ 32 ∨ blockCount = 1)) := by
  rw [← cppPoolMade_fails_iff]
  have hD : cppDataOffset vm.pageSize blockCount < 2 ^ 64 := wadd_lt _ _
  unfold cppPoolMade
  dsimp only
  generalize cppDataOffset vm.pageSize blockCount = D at *
  by_cases h0 : opens = false ∨ truncates = false
      ∨ vm.mmap (hfAlignUp (wadd D (wmul blockSize blockCount)) vm.pageSize) = 0
  · rw [if_pos h0]
    exact iff_of_true trivial (Or.inl rfl)
  rw [if_neg h0]
  have hW0 : hfAlignUp (wadd D (wmul blockSize blockCount)) vm.pageSize ≠ 0 := by
    intro hz
    rw [hz] at h0
    exact h0 (Or.inr (Or.inr vm.mmap_zero))
  have hWlt := vm.alignPage_lt (wadd D (wmul blockSize blockCount))
  show Spaced (blockSize % 2 ^ 32) blockCount blockSize
    (hfAlignUp (wadd D (wmul blockSize blockCount)) vm.pageSize - D) ↔ _
  constructor
  · intro h
    refine Or.inr ?_
    by_cases hb : blockSize = 0
    · exact Or.inl hb
    by_cases hc : blockCount = 0
    · exact Or.inr (Or.inl hc)
    refine Or.inr (Or.inr ?_)
    have hlen := h.len_le (by omega)
    by_cases h32 : blockSize < 2 ^ 32
    · rw [Nat.mod_eq_of_lt h32] at h
      have hfit := h.fits (one_dvd _) (one_dvd _) (by omega) (by omega)
      -- the last block
      have hlast := h.inside (blockCount - 1) (by omega)
      have hend : (blockCount - 1) * blockSize + blockSize = blockSize * blockCount := by
        rw [← Nat.succ_mul, Nat.mul_comm, Nat.succ_eq_add_one, Nat.sub_add_cancel (by omega)]
      rw [wmul_of_lt (by omega)] at hlast
      exact ⟨by omega, Or.inl h32⟩
    · have hone : blockCount = 1 := by
        by_contra hne
        -- the stride lost the upper half of the block size
        have hle := h.len_le_stride (by omega) (by omega)
        omega
      rw [hone, Nat.mul_one]
      exact ⟨by omega, Or.inr rfl⟩
  · intro h
    rcases h with h | rfl | rfl | ⟨hfit, hsmall⟩
    · cases h
    · exact Spaced.empty
    · exact ⟨fun i hi => absurd hi (Nat.not_lt_zero i), fun i j hi => absurd hi (Nat.not_lt_zero i)⟩
    · have hsum : wadd D (wmul blockSize blockCount) = D + blockSize * blockCount := by
        rw [wmul_of_lt (by omega), wadd_of_lt hfit]
      rw [hsum] at hW0 hWlt ⊢
      have hpage : D + blockSize * blockCount + (vm.pageSize - 1) < 2 ^ 64 := by
        by_contra hge
        exact hW0 (vm.alignPage_wrap hfit (by omega))
      have hup := (vm.alignPage hpage).1
      rcases hsmall with h32 | rfl
      · rw [Nat.mod_eq_of_lt h32]
        exact Spaced.of_fits le_rfl (by omega) (by omega)
      · exact Spaced.one (by omega)

/-- **When the constructors of the four pools give blocks that can be used.**  For all arguments,
whatever the system grants: it denies the constructor something, or

* block pool: stored block size times number of blocks stays below `2^64`;
* slab: rounding the object size up does not wrap (else it divides by zero);
* C pool: neither the rounded block size nor an offset nor the total wraps;
* C++ pool: there are no blocks or no bytes in them, or the end of the data does not wrap and the
  block size has 32 bits or there is one block.

The constructors fail exactly if the system denies them something; the blocks of a slab and of a C
pool are those of the objects that `hf_slab_create` and `hf_pool_open` return. -/
theorem constructors_good_iff (vm : Vm) (blockSize blockCount : Nat) (hs : blockSize < 2 ^ 64)
    (hc : blockCount < 2 ^ 64) :
    (∀ handle bits m,
      (blockPoolMade vm handle bits m blockSize blockCount = .fails
        ↔ BlockPoolDenied vm handle bits blockSize blockCount)
      ∧ ((blockPoolMade vm handle bits m blockSize blockCount).Good blockSize
        ↔ BlockPoolDenied vm handle bits blockSize blockCount
          ∨ hfAlignUp blockSize HF_DEFAULT_ALIGN * blockCount < 2 ^ 64))
    ∧ (∀ handle slabBytes,
      ((slabMade vm handle blockSize slabBytes).blocks
        = (Slab.hfSlabCreate vm handle blockSize slabBytes).map fun a =>
          ⟨a.objSize, a.slotsPerSlab, a.slabBytes⟩)
      ∧ ((slabMade vm handle blockSize slabBytes).Good blockSize ↔ blockSize + 15 < 2 ^ 64))
    ∧ (∀ truncates handle,
      (cPoolMade vm truncates handle blockSize blockCount = .fails
        ↔ CPoolDenied vm truncates handle blockSize blockCount)
      ∧ ((cPoolMade vm truncates handle blockSize blockCount).Good blockSize
        ↔ CPoolDenied vm truncates handle blockSize blockCount ∨ NoWrap vm blockSize blockCount))
    ∧ (∀ os p d, hfPoolOpenNew vm os blockSize blockCount = some (some p, d) →
      cPoolMade vm os.truncates os.handle blockSize blockCount
        = .object ⟨p.geo.blockSize, p.geo.blockCount, p.geo.totalSize - p.geo.dataOffset⟩)
    ∧ ∀ opens truncates,
      (cppPoolMade vm opens truncates blockSize blockCount = .fails
        ↔ CppPoolDenied vm opens truncates blockSize blockCount)
      ∧ ((cppPoolMade vm opens truncates blockSize blockCount).Good blockSize
        ↔ CppPoolDenied vm opens truncates blockSize blockCount ∨ blockSize = 0 ∨ blockCount = 0
          ∨ (cppDataOffset vm.pageSize blockCount + blockSize * blockCount < 2 ^ 64
            ∧ (blockSize < 2 ^ 32 ∨ blockCount = 1))) := by
  refine ⟨fun _ _ _ => ⟨blockPoolMade_fails_iff, blockPool_good_iff hs⟩,
    fun _ _ => ⟨slabMade_blocks .., slab_good_iff hs⟩,
    fun _ _ => ⟨cPoolMade_fails_iff, cPool_good_iff hs hc⟩, fun _ _ _ => cPoolMade_of_open,
    fun _ _ => ⟨cppPoolMade_fails_iff, cppPool_good_iff hs⟩⟩

end

theorem constructors_good_small : (blockPoolMade sampleVm true true Mem.zero 64 8).Good 64
    ∧ (slabMade sampleVm true 64 4096).Good 64 ∧ (cppPoolMade sampleVm true true 64 8).Good 64 := by
  have h := constructors_good_iff sampleVm 64 8 (by decide) (by decide)
  obtain ⟨hblock, hslab, -, -, hcpp⟩ := h
  exact ⟨(hblock true true Mem.zero).2.mpr (Or.inr (by decide +kernel)),
    (hslab true 4096).2.mpr (by decide),
    (hcpp true true).2.mpr (Or.inr (Or.inr (Or.inr ⟨by decide +kernel, Or.inl (by decide)⟩)))⟩

def roomyMmap (n : Nat) : Nat := if n = 0 ∨ 2 ^ 40 < n then 0 else 2 ^ 20

theorem roomyMmap_zero : roomyMmap 0 = 0 := if_pos (Or.inl rfl)

theorem roomyMmap_aligned (n : Nat) : 2 ^ sampleVm.pageOrder ∣ roomyMmap n := by
  unfold roomyMmap
  split <;> decide

theorem roomyMmap_bound (n : Nat) : roomyMmap n ≠ 0 → roomyMmap n + n < 2 ^ 64 := by
  unfold roomyMmap
  split <;> omega

/-- a machine with pages of 4096 bytes that gives up to 2^40 bytes at the address 2^20 -/
def roomyVm : Vm where
  pageOrder := sampleVm.pageOrder
  pageOrder_ge := sampleVm.pageOrder_ge
  pageOrder_lt := sampleVm.pageOrder_lt
  mmap := roomyMmap
  mmap_zero := roomyMmap_zero
  mmap_aligned := roomyMmap_aligned
  mmap_bound := roomyMmap_bound

/-- **Sizes that wrap.**  Two blocks of `2^63 + 16` bytes in a block pool or a C pool get one page;
an object of `2^64 - 1` bytes divides by zero; two blocks of `2^32 + 64` bytes in a C++ pool are
stored with 64 bytes each, so they overlap. -/
theorem sizes_wrap :
    (blockPoolMade roomyVm true true Mem.zero (2 ^ 63 + 16) 2 = .object ⟨2 ^ 63 + 16, 2, 4096⟩
      ∧ ¬ (blockPoolMade roomyVm true true Mem.zero (2 ^ 63 + 16) 2).Good (2 ^ 63 + 16))
    ∧ slabMade roomyVm true (2 ^ 64 - 1) 0 = .faults
    ∧ (cPoolMade roomyVm true true (2 ^ 63 + 16) 2 = .object ⟨2 ^ 63 + 16, 2, 4096⟩
      ∧ ¬ (cPoolMade roomyVm true true (2 ^ 63 + 16) 2).Good (2 ^ 63 + 16))
    ∧ cppPoolMade roomyVm true true (2 ^ 32 + 64) 2 = .object ⟨64, 2, 2 ^ 33 + 4096⟩
      ∧ ¬ (cppPoolMade roomyVm true true (2 ^ 32 + 64) 2).Good (2 ^ 32 + 64) := by
  have h1 : blockPoolMade roomyVm true true Mem.zero (2 ^ 63 + 16) 2
      = .object ⟨2 ^ 63 + 16, 2, 4096⟩ := by
    decide +kernel
  have h2 : cPoolMade roomyVm true true (2 ^ 63 + 16) 2 = .object ⟨2 ^ 63 + 16, 2, 4096⟩ := by
    decide +kernel
  have h3 : cppPoolMade roomyVm true true (2 ^ 32 + 64) 2 = .object ⟨64, 2, 2 ^ 33 + 4096⟩ := by
    decide +kernel
  refine ⟨⟨h1, fun h => ?_⟩, by decide +kernel, ⟨h2, fun h => ?_⟩, h3, fun h => ?_⟩
  · rw [h1] at h
    exact absurd (Spaced.len_le h (by decide)) (by decide)
  · rw [h2] at h
    exact absurd (Spaced.len_le h (by decide)) (by decide)
  · rw [h3] at h
    have hs : Spaced 64 2 (2 ^ 32 + 64) (2 ^ 33 + 4096) := h
    exact absurd (hs.len_le_stride (by decide) (by decide)) (by decide)

end HeapForge.Geometry
