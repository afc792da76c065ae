import HeapForge.BlockPool.Impl
import HeapForge.Lib.Bitmap
import HeapForge.Lib.Run

/-!
# Runs of the block pool

* `BpStep`        a call, or a write of any byte by anybody;
* `BpInv`         `used` counts the blocks whose bit is set;
* `BpInv.of_run`  **along every run.**
-/

set_option linter.unusedSectionVars false
set_option linter.unusedVariables false

namespace HeapForge.BlockPool
open Lib

inductive BpAct
  | alloc (size alignment : Nat)
  | free (ptr : Nat)
  | write (addr : Nat) (byte : BitVec 8)

inductive BpStep (a : BpAlloc) : BpAct → BpAlloc → Prop
  | alloc (size alignment : Nat) : BpStep a (.alloc size alignment) (bpAllocate a size alignment).2
  | free {ptr : Nat} {a' : BpAlloc} (h : bpDeallocate a ptr = some a') : BpStep a (.free ptr) a'
  | write (x : Nat) (v : BitVec 8) : BpStep a (.write x v) { a with heap := a.heap.setByte x v }

/-- the number of used blocks -/
def usedCount (a : BpAlloc) : Nat := (List.range a.blockCount).countP (bpTest a)

/-- the sizes of all blocks together do not wrap -/
def Fits (a : BpAlloc) : Prop := a.blockSize * a.blockCount < 2 ^ 64

structure BpInv (vm : Vm) (a : BpAlloc) : Prop where
  mem : 2 ^ vm.pageOrder ∣ a.mem
  size : 16 ∣ a.blockSize
  /-- nothing is reserved for a pool without bytes -/
  pos : 0 < a.blockSize ∧ 0 < a.blockCount
  used : Fits a → a.stats.used = a.blockSize * usedCount a

section
variable {vm : Vm} {a a' : BpAlloc} {act : BpAct} {idx : Nat}

theorem usedCount_le (a : BpAlloc) : a.blockSize * usedCount a ≤ a.blockSize * a.blockCount :=
  Nat.mul_le_mul_left _ (countP_range_le _ _)

theorem usedCount_take (h : idx < a.blockCount) (hf : bpTest a idx = false) :
    usedCount (bpTake a idx) = usedCount a + 1 := by
  have hflip := countP_range_flip (f := bpTest a) (g := bpTest (bpTake a idx)) h fun j hj => by
    show (a.bitmap.set idx).test j = a.bitmap.test j
    rw [WordMap.test_set (by decide), decide_eq_false hj, Bool.false_or]
  have hset : bpTest (bpTake a idx) idx = true := by
    show (a.bitmap.set idx).test idx = true
    rw [WordMap.test_set (by decide), decide_eq_true rfl, Bool.true_or]
  rw [hf, hset] at hflip
  exact hflip

theorem usedCount_give (h : idx < a.blockCount) (hu : bpTest a idx = true) :
    usedCount (bpGive a idx) + 1 = usedCount a := by
  have hflip := countP_range_flip (f := bpTest a) (g := bpTest (bpGive a idx)) h fun j hj => by
    show (a.bitmap.clear idx).test j = a.bitmap.test j
    rw [WordMap.test_clear (by decide), decide_eq_false hj]
    rfl
  have hclear : bpTest (bpGive a idx) idx = false := by
    show (a.bitmap.clear idx).test idx = false
    rw [WordMap.test_clear (by decide), decide_eq_true rfl]
    rfl
  rw [hu, hclear] at hflip
  exact hflip

theorem BpInv.take (h : BpInv vm a) (hi : idx < a.blockCount) (hf : bpTest a idx = false) :
    BpInv vm (bpTake (countAlloc a) idx) := by
  refine ⟨h.mem, h.size, h.pos, fun hfit => ?_⟩
  have hfit' : Fits a := hfit
  have hcount : usedCount (bpTake (countAlloc a) idx) = usedCount a + 1 :=
    usedCount_take (a := countAlloc a) hi hf
  have hle := usedCount_le (bpTake (countAlloc a) idx)
  show wadd a.stats.used a.blockSize = a.blockSize * _
  rw [hcount] at hle ⊢
  have hle' : a.blockSize * (usedCount a + 1) ≤ a.blockSize * a.blockCount := hle
  unfold Fits at hfit'
  rw [h.used hfit', wadd_of_lt (by rw [Nat.mul_add] at hle'; omega), Nat.mul_add, Nat.mul_one]

theorem BpInv.give (h : BpInv vm a) (hi : idx < a.blockCount) (hu : bpTest a idx = true) :
    BpInv vm (bpGive a idx) := by
  refine ⟨h.mem, h.size, h.pos, fun hfit => ?_⟩
  have hfit' : Fits a := hfit
  have hcount := usedCount_give hi hu
  have hle := usedCount_le a
  show wsub a.stats.used a.blockSize = a.blockSize * _
  unfold Fits at hfit'
  rw [h.used hfit', ← hcount, Nat.mul_add, Nat.mul_one]
  rw [← hcount, Nat.mul_add, Nat.mul_one] at hle
  rw [wsub_of_le (by omega) (by omega), Nat.add_sub_cancel]

theorem BpInv.step (h : BpInv vm a) (hs : BpStep a act a') : BpInv vm a' := by
  cases hs with
  | alloc size alignment =>
    rcases bpAllocate_cases a size alignment with he | ⟨idx, hi, hf, -, he⟩
    · rw [he]
      exact ⟨h.mem, h.size, h.pos, h.used⟩
    · rw [he]
      exact h.take hi hf
  | free hr =>
    rcases bpDeallocate_cases hr with rfl | ⟨idx, hi, hu, rfl⟩
    · exact h
    · exact h.give hi hu
  | write x v => exact ⟨h.mem, h.size, h.pos, h.used⟩

theorem BpInv.create {handle bits : Bool} {m : Mem} {blockSize blockCount : Nat}
    (h : hfBlockPoolCreate vm handle bits m blockSize blockCount = some a) : BpInv vm a := by
  obtain ⟨bs, bytes, hbs, hbytes, hmem, rfl⟩ := hfBlockPoolCreate_eq h
  have hdvd : 16 ∣ bs := hbs ▸ hfAlignUp_dvd (k := 4) _ (by decide)
  have hzero : bs * blockCount ≠ 0 := by
    intro h0
    apply hmem
    rw [hbytes, show wmul bs blockCount = 0 by rw [wmul, h0]; rfl,
      show hfAlignUp 0 vm.pageSize
        = 0 from hfAlignUp_of_dvd (by decide) vm.pageOrder_lt (dvd_zero _),
      hfVmReserve_zero]
  have hpos := Nat.mul_ne_zero_iff.mp hzero
  refine ⟨vm.mmap_aligned _, hdvd, ⟨Nat.pos_of_ne_zero hpos.1, Nat.pos_of_ne_zero hpos.2⟩,
    fun _ => ?_⟩
  rw [usedCount, List.countP_eq_zero.mpr fun i _ => by simp [bpTest, WordMap.test], Nat.mul_zero]
  rfl

theorem BpInv.of_run {handle bits : Bool} {m : Mem} {blockSize blockCount : Nat} {a₀ : BpAlloc}
    {acts : List BpAct} (h : hfBlockPoolCreate vm handle bits m blockSize blockCount = some a₀)
    (hrun : Steps BpStep a₀ acts a) : BpInv vm a :=
  hrun.invariant (I := BpInv vm) (BpInv.create h) fun _ _ _ h hs => h.step hs

theorem fits_of_run {a₀ : BpAlloc} {acts : List BpAct} (h : Fits a₀)
    (hrun : Steps BpStep a₀ acts a) : Fits a := by
  refine hrun.invariant (I := Fits) h fun a act a' h hs => ?_
  cases hs with
  | alloc size alignment =>
    rcases bpAllocate_cases a size alignment with he | ⟨idx, -, -, -, he⟩
    · rw [he]
      exact h
    · rw [he]
      exact h
  | free hr =>
    rcases bpDeallocate_cases hr with rfl | ⟨idx, -, -, rfl⟩
    · exact h
    · exact h
  | write x v => exact h

end

/-- eight blocks of 64 bytes -/
def samplePool : BpAlloc :=
  ⟨2 ^ 20, 4096, 64, 8, 0, fun _ => 0#64, 1, Stats.fresh 4096, Mem.zero⟩

theorem samplePool_create :
    hfBlockPoolCreate sampleVm true true Mem.zero 64 8 = some samplePool := by
  have h1 : hfAlignUp 64 HF_DEFAULT_ALIGN = 64 := by decide
  have h2 : hfAlignUp (wmul 64 8) sampleVm.pageSize = 4096 := by decide +kernel
  have h3 : hfVmReserve sampleVm 4096 = 2 ^ 20 := by decide +kernel
  unfold hfBlockPoolCreate
  dsimp only
  rw [if_pos rfl, h1, h2, h3, if_neg (by decide), if_pos rfl]
  rfl

end HeapForge.BlockPool
