import HeapForge.CPool.Impl
import HeapForge.Platform

/-!
# Where `hf_pool_open` puts the parts of a new file

Header, ring, bitmap and data, each from a page boundary on.  The offsets are chains of roundings
and sums in 64 bits (`layout`); `NoWrap` says that none of them wraps, and `NoWrap.regions` what
follows: the parts lie behind one another and every block lies in the data.
-/

set_option linter.unusedSectionVars false
set_option linter.unusedVariables false

namespace HeapForge.CPool
open Lib

/-- the sizes and offsets in the header -/
structure Layout where
  blockSize : Nat
  blockCount : Nat
  walOffset : Nat
  bitmapOffset : Nat
  dataOffset : Nat
  totalSize : Nat
  deriving DecidableEq

/-- `sizeof(pool_header)`, `sizeof(meta_slot)`, `sizeof(wal_entry)` -/
def HEADER_BYTES : Nat := 104
def META_BYTES : Nat := 24
def WAL_ENTRY_BYTES : Nat := 24

def WAL_BYTES : Nat := WAL_ENTRY_BYTES * WAL_ENTRIES

/-- `(block_count + 7) / 8` -/
def bitmapBytes (blockCount : Nat) : Nat := wadd blockCount 7 / 8

def layout (ps blockSize blockCount : Nat) : Layout :=
  let blockSize := hfAlignUp blockSize HF_DEFAULT_ALIGN
  let walOff := ps
  let bitmapOff := wadd walOff (hfAlignUp WAL_BYTES ps)
  let dataOff := wadd bitmapOff (hfAlignUp (bitmapBytes blockCount) ps)
  let total := wadd dataOff (hfAlignUp (wmul blockSize blockCount) ps)
  ⟨blockSize, blockCount, walOff, bitmapOff, dataOff, total⟩

/-- the bytes of the blocks, rounded up to pages -/
def Layout.dataBytes (g : Layout) (ps : Nat) : Nat := hfAlignUp (wmul g.blockSize g.blockCount) ps

structure NoWrap (vm : Vm) (blockSize blockCount : Nat) : Prop where
  size_pos : 0 < blockSize
  count_pos : 0 < blockCount
  round : blockSize + 15 < 2 ^ 64
  data : (layout vm.pageSize blockSize blockCount).blockSize * blockCount + (vm.pageSize - 1)
    < 2 ^ 64
  total : (layout vm.pageSize blockSize blockCount).dataOffset
    + (layout vm.pageSize blockSize blockCount).dataBytes vm.pageSize < 2 ^ 64

/-- header, ring, bitmap and data one behind the other, the last three from a page on -/
structure Regions (ps : Nat) (g : Layout) : Prop where
  count : g.blockCount < 2 ^ 64
  header : HEADER_BYTES ≤ g.walOffset
  wal : g.walOffset + WAL_BYTES ≤ g.bitmapOffset
  bitmap : g.bitmapOffset + (g.blockCount + 7) / 8 ≤ g.dataOffset
  data : g.dataOffset + g.blockSize * g.blockCount ≤ g.totalSize
  total : g.totalSize < 2 ^ 64
  walPage : ps ∣ g.walOffset
  bitmapPage : ps ∣ g.bitmapOffset
  dataPage : ps ∣ g.dataOffset

section
variable {vm : Vm} {n blockSize blockCount : Nat}

theorem NoWrap.blockSize_ge (h : NoWrap vm blockSize blockCount) :
    16 ≤ (layout vm.pageSize blockSize blockCount).blockSize :=
  Nat.le_of_dvd (lt_of_lt_of_le h.size_pos (hfAlignUp_default h.round).1)
    (hfAlignUp_default_dvd blockSize)

theorem NoWrap.count_lt (h : NoWrap vm blockSize blockCount) : blockCount < 2 ^ 60 := by
  have h1 := Nat.mul_le_mul_right blockCount h.blockSize_ge
  have h2 := h.data
  omega

theorem bitmapBytes_eq (h : blockCount < 2 ^ 60) :
    bitmapBytes blockCount = (blockCount + 7) / 8 := by
  unfold bitmapBytes
  rw [wadd_of_lt (by omega)]

/-- the data takes at least a page -/
theorem NoWrap.dataBytes_ge (h : NoWrap vm blockSize blockCount) :
    (layout vm.pageSize blockSize blockCount).blockSize * blockCount
        ≤ (layout vm.pageSize blockSize blockCount).dataBytes vm.pageSize
      ∧ vm.pageSize ≤ (layout vm.pageSize blockSize blockCount).dataBytes vm.pageSize := by
  have hB := h.blockSize_ge
  have hle := (vm.alignPage h.data).1
  have hpos :=
    Nat.mul_pos (show 0 < (layout vm.pageSize blockSize blockCount).blockSize by omega) h.count_pos
  have e : (layout vm.pageSize blockSize blockCount).dataBytes vm.pageSize
      = hfAlignUp ((layout vm.pageSize blockSize blockCount).blockSize * blockCount)
        vm.pageSize := by
    have hprod : (layout vm.pageSize blockSize blockCount).blockSize * blockCount < 2 ^ 64 := by
      have := h.data
      omega
    exact congrArg (hfAlignUp · vm.pageSize) (wmul_of_lt hprod)
  rw [e]
  exact ⟨hle, Nat.le_of_dvd (by omega) (vm.alignPage_dvd _)⟩

/-- the offsets do not wrap either: pages of `2^63` bytes leave no room for the data -/
theorem NoWrap.offsets (h : NoWrap vm blockSize blockCount) :
    vm.pageSize + hfAlignUp WAL_BYTES vm.pageSize + hfAlignUp (bitmapBytes blockCount) vm.pageSize
      < 2 ^ 64 := by
  have hc := h.count_lt
  have hwal : WAL_BYTES = 6144 := rfl
  have hbytes := bitmapBytes_eq hc
  have hpos := h.count_pos
  obtain ⟨-, hpage⟩ := h.dataBytes_ge
  have htotal := h.total
  have hle := vm.pageSize_le
  have ha := vm.alignPage (n := WAL_BYTES) (by omega)
  have hb := vm.alignPage (n := bitmapBytes blockCount) (by omega)
  have hda := vm.alignPage_dvd WAL_BYTES
  have hdb := vm.alignPage_dvd (bitmapBytes blockCount)
  have hoff : (layout vm.pageSize blockSize blockCount).dataOffset
      = wadd (wadd vm.pageSize (hfAlignUp WAL_BYTES vm.pageSize))
        (hfAlignUp (bitmapBytes blockCount) vm.pageSize) := rfl
  rw [hoff] at htotal
  unfold wadd at htotal
  generalize hfAlignUp WAL_BYTES vm.pageSize = a at *
  generalize hfAlignUp (bitmapBytes blockCount) vm.pageSize = b at *
  generalize (layout vm.pageSize blockSize blockCount).dataBytes vm.pageSize = r at *
  by_cases h61 : vm.pageSize ≤ 2 ^ 61
  · omega
  · have hk : vm.pageOrder = 62 ∨ vm.pageOrder = 63 := by
      have hlt := vm.pageOrder_lt
      have : ¬ vm.pageOrder ≤ 61 := fun hk => h61 (Nat.pow_le_pow_right (by norm_num) hk)
      omega
    have hps : vm.pageSize = 2 ^ vm.pageOrder := rfl
    rcases hk with hk | hk
    · rw [hk] at hps
      rw [hps] at hda hdb
      omega
    · rw [hk] at hps
      rw [hps] at hda hdb
      omega

theorem NoWrap.regions (h : NoWrap vm blockSize blockCount) :
    Regions vm.pageSize (layout vm.pageSize blockSize blockCount) := by
  have hoff := h.offsets
  have hc := h.count_lt
  have hge := vm.pageSize_ge
  have hle := vm.pageSize_le
  obtain ⟨hdata, hpage⟩ := h.dataBytes_ge
  have htotal := h.total
  have hwal : WAL_BYTES = 6144 := rfl
  have hbytes := bitmapBytes_eq hc
  have ha := vm.alignPage (n := WAL_BYTES) (by omega)
  have hb := vm.alignPage (n := bitmapBytes blockCount) (by omega)
  have e1 : (layout vm.pageSize blockSize blockCount).bitmapOffset
      = vm.pageSize + hfAlignUp WAL_BYTES vm.pageSize := wadd_of_lt (by omega)
  have e2 : (layout vm.pageSize blockSize blockCount).dataOffset
      = vm.pageSize + hfAlignUp WAL_BYTES vm.pageSize + hfAlignUp
        (bitmapBytes blockCount) vm.pageSize := by
    have hsum := wadd_of_lt (a := vm.pageSize + hfAlignUp WAL_BYTES vm.pageSize) hoff
    rw [← e1] at hsum ⊢
    exact hsum
  have e3 : (layout vm.pageSize blockSize blockCount).totalSize
      = (layout vm.pageSize blockSize blockCount).dataOffset
        + (layout vm.pageSize blockSize blockCount).dataBytes vm.pageSize := wadd_of_lt h.total
  have e4 : (layout vm.pageSize blockSize blockCount).walOffset = vm.pageSize := rfl
  have e5 : (layout vm.pageSize blockSize blockCount).blockCount = blockCount := rfl
  have hhead : HEADER_BYTES = 104 := rfl
  refine ⟨?_, ?_, ?_, ?_, ?_, ?_, dvd_rfl, ?_, ?_⟩
  · rw [e5]
    omega
  · omega
  · omega
  · rw [e5]
    omega
  · rw [e3, e5]
    omega
  · omega
  · exact vm.page_dvd_wadd dvd_rfl (vm.alignPage_dvd _)
  · exact vm.page_dvd_wadd (vm.page_dvd_wadd dvd_rfl (vm.alignPage_dvd _)) (vm.alignPage_dvd _)

end

end HeapForge.CPool
