import Mathlib.Data.Rat.Defs
import HeapForge.BlockPool.Walk
import HeapForge.Buddy.Walk
import HeapForge.FreeList.Resolve
import HeapForge.Stack.Run

/-!
# Snapshots of `c/src/hf_analyzer.c`

`hf_snapshot_take` reads the counters under one lock and walks the heap under another.  Between the
two, other threads may call.

* `hfSnapshotTake`     the snapshot made of counters and a walk;
* `collect`, `lost`    the blocks kept, and those dropped because the array did not grow;
* `Shared`             an allocator used by several threads: each call is one step;
* `Shared.Exact`       a snapshot is consistent exactly if `used` is the same at both locks, up to
                       what was dropped;
* `snapshot_consistent_iff`   **for the free list, the buddy allocator, the block pool and the
                              stack.**
-/

set_option linter.unusedSectionVars false
set_option linter.unusedVariables false

namespace HeapForge.Snapshot
open Lib

/-! ## the snapshot -/

/-- `blk_vec` -/
structure BlkVec where
  v : List BlockInfo
  cap : Nat

/-- `ok` is whether `realloc` gives memory; without room the block is dropped -/
def vecPush (ok : Bool) (bv : BlkVec) (b : BlockInfo) : BlkVec :=
  if bv.v.length = bv.cap then
    if ok then ⟨bv.v ++ [b], if bv.cap ≠ 0 then wmul bv.cap 2 else 32⟩ else bv
  else ⟨bv.v ++ [b], bv.cap⟩

/-- the callback on the blocks of a walk, the first of them with number `i` -/
def collect (realloc : Nat → Bool) : Nat → List BlockInfo → BlkVec → BlkVec
  | _, [], bv => bv
  | i, b :: w, bv => collect realloc (i + 1) w (vecPush (realloc i) bv b)

/-- `hf_snapshot`; the quotient of the two byte counts stands for the floating-point number -/
structure HfSnapshot where
  name : String
  capacity : Nat
  used : Nat
  freeBytes : Nat
  blockCount : Nat
  freeBlockCount : Nat
  largestFree : Nat
  externalFragmentation : Rat
  blocks : List BlockInfo

def countBlock (s : HfSnapshot) (b : BlockInfo) : HfSnapshot :=
  let s := { s with blockCount := wadd s.blockCount 1 }
  if b.isFree then
    { s with
      freeBlockCount := wadd s.freeBlockCount 1
      freeBytes := wadd s.freeBytes b.size
      largestFree := if b.size > s.largestFree then b.size else s.largestFree }
  else s

/-- the name is cut after 31 characters -/
def hfSnapshotTake (name : String) (st : Stats) (w : List BlockInfo) (realloc : Nat → Bool) :
    HfSnapshot :=
  let bv := collect realloc 0 w ⟨[], 0⟩
  let s : HfSnapshot :=
    ⟨String.ofList (name.toList.take 31), st.capacity, st.used, 0, 0, 0, 0, 0, bv.v⟩
  let s := bv.v.foldl countBlock s
  { s with externalFragmentation :=
      if s.freeBytes > 0 then 1 - (s.largestFree : Rat) / (s.freeBytes : Rat) else 0 }

/-- `used` is what the blocks in use add up to -/
def HfSnapshot.Consistent (s : HfSnapshot) : Prop := s.used = usedSize s.blocks

/-- the blocks that `collect` drops -/
def lost (realloc : Nat → Bool) : Nat → List BlockInfo → BlkVec → List BlockInfo
  | _, [], _ => []
  | i, b :: w, bv =>
    (if bv.v.length = bv.cap ∧ realloc i = false then [b] else [])
      ++ lost realloc (i + 1) w (vecPush (realloc i) bv b)

section
variable {realloc : Nat → Bool} {w : List BlockInfo} {bv : BlkVec} {st : Stats} {name : String}

theorem countBlock_fields (s : HfSnapshot) (b : BlockInfo) :
    (countBlock s b).used = s.used ∧ (countBlock s b).blocks = s.blocks := by
  unfold countBlock
  dsimp only
  split <;> exact ⟨rfl, rfl⟩

theorem foldl_countBlock_fields (l : List BlockInfo) (s : HfSnapshot) :
    (l.foldl countBlock s).used = s.used ∧ (l.foldl countBlock s).blocks = s.blocks := by
  induction l generalizing s with
  | nil => exact ⟨rfl, rfl⟩
  | cons b l ih =>
    obtain ⟨h1, h2⟩ := ih (countBlock s b)
    obtain ⟨h3, h4⟩ := countBlock_fields s b
    exact ⟨h1.trans h3, h2.trans h4⟩

theorem hfSnapshotTake_fields (name : String) (st : Stats) (w : List BlockInfo)
    (realloc : Nat → Bool) :
    (hfSnapshotTake name st w realloc).used = st.used
      ∧ (hfSnapshotTake name st w realloc).blocks = (collect realloc 0 w ⟨[], 0⟩).v :=
  foldl_countBlock_fields (collect realloc 0 w ⟨[], 0⟩).v _

/-- every block of the walk is kept or lost -/
theorem collect_lost (realloc : Nat → Bool) (i : Nat) (w : List BlockInfo) (bv : BlkVec) :
    usedSize (collect realloc i w bv).v + usedSize (lost realloc i w bv)
      = usedSize bv.v + usedSize w := by
  induction w generalizing i bv with
  | nil => rfl
  | cons b w ih =>
    unfold collect lost
    rw [usedSize_append, show b :: w = [b] ++ w from rfl, usedSize_append [b] w]
    have h := ih (i + 1) (vecPush (realloc i) bv b)
    -- the block is in exactly one of the two
    have hb : usedSize (vecPush (realloc i) bv b).v
        + usedSize (if bv.v.length = bv.cap ∧ realloc i = false then [b] else [])
          = usedSize bv.v + usedSize [b] := by
      unfold vecPush
      by_cases hcap : bv.v.length = bv.cap
      · cases hr : realloc i
        · rw [if_pos hcap, if_neg (by simp), if_pos ⟨hcap, rfl⟩]
        · have hkept : ¬(bv.v.length = bv.cap ∧ true = false) := by simp
          rw [if_pos hcap, if_pos rfl, if_neg hkept, usedSize_append]
          rfl
      · rw [if_neg hcap, if_neg fun hc => hcap hc.1, usedSize_append]
        rfl
    omega

/-- nothing is lost while `realloc` gives memory -/
theorem lost_nil (h : ∀ i, realloc i = true) (i : Nat) (w : List BlockInfo) (bv : BlkVec) :
    lost realloc i w bv = [] := by
  induction w generalizing i bv with
  | nil => rfl
  | cons b w ih =>
    unfold lost
    rw [ih, if_neg (by simp [h])]
    rfl

/-- **Consistency in terms of the two reads.** -/
theorem consistent_iff {used : Nat} (hw : used = usedSize w) :
    (hfSnapshotTake name st w realloc).Consistent
    ↔ st.used + usedSize (lost realloc 0 w ⟨[], 0⟩) = used := by
  obtain ⟨h1, h2⟩ := hfSnapshotTake_fields name st w realloc
  have h3 := collect_lost realloc 0 w ⟨[], 0⟩
  have h4 : usedSize (⟨[], 0⟩ : BlkVec).v = 0 := rfl
  unfold HfSnapshot.Consistent
  rw [h1, h2, hw]
  omega

end

/-! ## allocators that are shared -/

/-- an allocator whose calls, counters and walk are atomic -/
structure Shared (σ α : Type) where
  name : σ → String
  /-- the handles that its create function returns -/
  Start : σ → Prop
  step : σ → α → σ → Prop
  stats : σ → Stats
  walk : σ → Option (List BlockInfo)

/-- **When a snapshot is consistent**: the counters are read after the calls `before`, the heap is
walked after the further calls `between`.  `realloc` tells which growths of the array succeed. -/
def Shared.Exact {σ α : Type} (S : Shared σ α) (realloc : Nat → Bool) : Prop :=
  ∀ s₀ s₁ s₂ before between, S.Start s₀ → Steps S.step s₀ before s₁ → Steps S.step s₁ between s₂ →
    ∃ w, S.walk s₂ = some w
      ∧ ((hfSnapshotTake (S.name s₁) (S.stats s₁) w realloc).Consistent ↔
          (S.stats s₁).used + usedSize (lost realloc 0 w ⟨[], 0⟩) = (S.stats s₂).used)
      ∧ ((∀ i, realloc i = true) →
          ((hfSnapshotTake (S.name s₁) (S.stats s₁) w realloc).Consistent ↔
            (S.stats s₁).used = (S.stats s₂).used))

/-- enough: in every state reached the walk shows what is in use -/
theorem Shared.exact_of {σ α : Type} {S : Shared σ α} {realloc : Nat → Bool}
    (h : ∀ s₀ s acts, S.Start s₀ → Steps S.step s₀ acts s →
      ∃ w, S.walk s = some w ∧ (S.stats s).used = usedSize w) : S.Exact realloc := by
  intro s₀ s₁ s₂ before between hstart h1 h2
  obtain ⟨w, hw, hused⟩ := h s₀ s₂ _ hstart (h1.trans h2)
  refine ⟨w, hw, consistent_iff hused, fun hr => ?_⟩
  rw [consistent_iff hused, lost_nil hr]
  exact Iff.rfl

/-! ### the four of them -/

def flName (a : FreeList.FlAlloc) : String :=
  match a.policy with
  | .first => "FreeList/FirstFit"
  | .best => "FreeList/BestFit"
  | .next => "FreeList/NextFit"

/-- the runs in which over-aligned requests do not wrap and frees find their headers -/
def flShared : Shared FreeList.Sys FreeList.FlAct where
  name s := flName s.a
  Start s := ∃ vm handle m capacity policy a,
    FreeList.hfFreeListCreate vm handle m capacity policy = some a ∧ s = FreeList.Sys.start a
  step := FreeList.CarefulStep
  stats s := s.a.stats
  walk s := FreeList.flWalk s.a

def bdShared : Shared Buddy.Sys Buddy.BdAct where
  name _ := "Buddy"
  Start s := ∃ vm cs m capacity minBlock a, capacity ≤ 2 ^ 63 ∧ minBlock ≤ 2 ^ 63
    ∧ Buddy.hfBuddyCreate vm cs m capacity minBlock = some a ∧ s = Buddy.Sys.start a
  step := Buddy.BdStep
  stats s := s.a.stats
  walk s := Buddy.bdWalk s.a

/-- pools whose blocks all together do not wrap -/
def bpShared : Shared BlockPool.BpAlloc BlockPool.BpAct where
  name _ := "BlockPool"
  Start a := (∃ vm handle bits m blockSize blockCount,
    BlockPool.hfBlockPoolCreate vm handle bits m blockSize blockCount = some a) ∧ BlockPool.Fits a
  step := BlockPool.BpStep
  stats := BlockPool.BpAlloc.stats
  walk a := some (BlockPool.bpWalk a)

def stShared : Shared Stack.StAlloc Stack.StAct where
  name _ := "Stack"
  Start a := ∃ vm handle m capacity, Stack.hfStackCreate vm handle m capacity = some a
  step := Stack.StStep
  stats := Stack.StAlloc.stats
  walk a := some (Stack.stWalk a)

theorem flShared_exact (realloc : Nat → Bool) : flShared.Exact realloc := by
  refine Shared.exact_of ?_
  rintro s₀ s acts ⟨vm, handle, m, capacity, policy, a, hcreate, rfl⟩ hrun
  obtain ⟨bs, ring, h⟩ := FreeList.SysInv.of_careful hcreate hrun
  have hrep := h.inv.repInv
  exact ⟨_, hrep.walk, hrep.used⟩

theorem bdShared_exact (realloc : Nat → Bool) : bdShared.Exact realloc := by
  refine Shared.exact_of ?_
  rintro s₀ s acts ⟨vm, cs, m, capacity, minBlock, a, hc, hm, hcreate, rfl⟩ hrun
  obtain ⟨bs, lists, h, -⟩ := Buddy.SysInv.of_run hc hm hcreate hrun
  have hrep := h.repInv
  exact ⟨_, hrep.walk, hrep.used⟩

theorem bpShared_exact (realloc : Nat → Bool) : bpShared.Exact realloc := by
  refine Shared.exact_of ?_
  rintro s₀ s acts ⟨⟨vm, handle, bits, m, blockSize, blockCount, hcreate⟩, hfit⟩ hrun
  exact ⟨_, rfl, (BlockPool.BpInv.of_run hcreate hrun).walk (BlockPool.fits_of_run hfit hrun)⟩

theorem stShared_exact (realloc : Nat → Bool) : stShared.Exact realloc := by
  refine Shared.exact_of ?_
  rintro s₀ s acts ⟨vm, handle, m, capacity, hcreate⟩ hrun
  exact ⟨_, rfl, (Stack.StInv.of_run hcreate hrun).walk⟩

/-- **A snapshot is consistent exactly if `used` is the same when the counters are read and when the
heap is walked**, up to the blocks dropped by a failing `realloc`. -/
theorem snapshot_consistent_iff (realloc : Nat → Bool) :
    flShared.Exact realloc ∧ bdShared.Exact realloc ∧ bpShared.Exact realloc
    ∧ stShared.Exact realloc :=
  ⟨flShared_exact realloc, bdShared_exact realloc, bpShared_exact realloc, stShared_exact realloc⟩

theorem sample_start : flShared.Start (FreeList.Sys.start FreeList.sampleHeap) :=
  ⟨_, _, _, _, _, _, FreeList.sampleHeap_create, rfl⟩

theorem sample_steps :
    Steps flShared.step (FreeList.Sys.start FreeList.sampleHeap)
    [.alloc 200 16] FreeList.sampleState := by
  have hstep : FreeList.CarefulStep (FreeList.Sys.start FreeList.sampleHeap)
      (.alloc 200 16) FreeList.sampleState :=
    ⟨FreeList.sample_alloc, Or.inl (le_refl 16), by simp [FreeList.Sys.start]⟩
  exact (Steps.nil _).snoc hstep

/-- an allocation of 200 bytes before both reads, or between them -/
theorem snapshot_consistent_samples :
    (∃ w, flShared.walk FreeList.sampleState = some w
      ∧ (hfSnapshotTake "FreeList/FirstFit" FreeList.sampleTaken.stats w fun _ => true).Consistent)
    ∧ ∃ w, flShared.walk FreeList.sampleState = some w
      ∧ ¬ (hfSnapshotTake "FreeList/FirstFit" FreeList.sampleHeap.stats w fun _ =>
        true).Consistent := by
  obtain ⟨hexact, -⟩ := snapshot_consistent_iff fun _ => true
  constructor
  · obtain ⟨w, hw, -, hiff⟩ := hexact _ _ _ _ _ sample_start sample_steps (Steps.nil _)
    exact ⟨w, hw, (hiff fun _ => rfl).mpr rfl⟩
  · obtain ⟨w, hw, -, hiff⟩ := hexact _ _ _ _ _ sample_start (Steps.nil _) sample_steps
    have hused : FreeList.sampleTaken.stats.used = 224 := by decide +kernel
    refine ⟨w, hw, fun hc => ?_⟩
    have h0 : 0 = FreeList.sampleTaken.stats.used := (hiff fun _ => rfl).mp hc
    omega

/-- another thread allocates 200 bytes between the two reads -/
theorem snapshot_torn :
    flShared.Start (FreeList.Sys.start FreeList.sampleHeap)
    ∧ Steps flShared.step (FreeList.Sys.start FreeList.sampleHeap)
    [.alloc 200 16] FreeList.sampleState
    ∧ ∃ w, flShared.walk FreeList.sampleState = some w
      ∧ (hfSnapshotTake "FreeList/FirstFit" FreeList.sampleHeap.stats w fun _ => true).used = 0
      ∧ usedSize (hfSnapshotTake "FreeList/FirstFit" FreeList.sampleHeap.stats w fun _ =>
        true).blocks = 224 := by
  have hwalk : FreeList.flWalk FreeList.sampleTaken
    = some [⟨0, 224, false⟩, ⟨224, 3872, true⟩] := by decide +kernel
  exact ⟨sample_start, sample_steps, _, hwalk, by decide +kernel, by decide +kernel⟩

end HeapForge.Snapshot
