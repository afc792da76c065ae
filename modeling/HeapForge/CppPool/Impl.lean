import Mathlib.Data.Fin.Basic
import Mathlib.Data.List.Sort
import HeapForge.Lib.Bitmap
import HeapForge.Lib.Fnv

/-!
# The persistent pool of `include/heapforge/persistent_pool.h`

The C++ pool differs from the C one in three ways: the metadata slots carry a generation number
and the slot to write next is chosen from the generations, without looking at the checksums; a
`clean_shutdown` word says whether recovery is needed at all; and recovery collects every valid
record beyond the watermark, sorts the records by sequence number and replays them in that order.

`Image` is what the pool reads and writes of the mapped file, `Pool` an open pool.  The ring has
`page_size / 32` records.
-/

set_option linter.unusedSectionVars false
set_option linter.unusedVariables false

namespace HeapForge.CppPool
open Lib

/-! ## slots and records -/

structure MetaSlot where
  appliedSeq : Nat
  generation : Nat
  crc : Nat
  deriving DecidableEq

structure WalRecord where
  seq : Nat
  op : Nat
  index : Nat
  crc : Nat
  pad : Nat
  deriving DecidableEq

inductive WalOp where
  | alloc
  | free
  deriving DecidableEq

def WalOp.code : WalOp → Nat
  | .alloc => 1
  | .free => 2

def recCrc (seq op index : Nat) : Nat := fnv1a (leBytes 8 seq ++ leBytes 8 (op <<< 32 ||| index))

def slotCrc (s : MetaSlot) : Nat := fnv1a (leBytes 8 s.appliedSeq ++ leBytes 8 s.generation)

def makeSlot (seq gen : Nat) : MetaSlot := ⟨seq, gen, slotCrc ⟨seq, gen, 0⟩⟩

/-- a record as `wal_append` writes it -/
def makeRecord (seq op index : Nat) : WalRecord := ⟨seq, op, index, recCrc seq op index, 0⟩

def MetaSlot.Valid (s : MetaSlot) : Prop := slotCrc s = s.crc
def WalRecord.Valid (r : WalRecord) : Prop := r.crc = recCrc r.seq r.op r.index

instance (s : MetaSlot) : Decidable s.Valid := inferInstanceAs (Decidable (_ = _))
instance (r : WalRecord) : Decidable r.Valid := inferInstanceAs (Decidable (_ = _))

theorem slotCrc_mk (seq gen crc : Nat) :
    slotCrc ⟨seq, gen, crc⟩ = fnv1a (leBytes 8 seq ++ leBytes 8 gen) := rfl

theorem makeSlot_valid (seq gen : Nat) : (makeSlot seq gen).Valid := by
  show slotCrc ⟨seq, gen, slotCrc ⟨seq, gen, 0⟩⟩ = slotCrc ⟨seq, gen, 0⟩
  rw [slotCrc_mk, slotCrc_mk]

theorem makeRecord_valid (seq op index : Nat) : (makeRecord seq op index).Valid := rfl

/-! ## the pool -/

/-- for the numerals that name the two slots -/
theorem neZero_slots : NeZero (2 : Nat) := ⟨by decide⟩

attribute [local instance] neZero_slots

structure Image where
  slots : Fin 2 → MetaSlot
  wal : Nat → WalRecord
  bitmap : Bitmap
  cleanShutdown : Nat

structure Pool where
  img : Image
  blockCount : Nat
  walCapacity : Nat
  nextSeq : Nat

def walAppend (p : Pool) (seq op index : Nat) : Pool :=
  { p with img := { p.img with
      wal := Function.update p.img.wal (seq % p.walCapacity) (makeRecord seq op index) } }

/-- set or clear one bit; every code but that of `Alloc` clears -/
def apply (b : Bitmap) (op index : Nat) : Bitmap :=
  if op = WalOp.alloc.code then b.set index else b.clear index

def applyAt (p : Pool) (op index : Nat) : Pool :=
  { p with img := { p.img with bitmap := apply p.img.bitmap op index } }

/-- the generation of the next slot write -/
def nextGen (img : Image) : Nat :=
  (max (img.slots 0).generation (img.slots 1).generation + 1) % 2 ^ 64

/-- the slot it goes to -/
def nextSlot (img : Image) : Fin 2 := ⟨nextGen img % 2, Nat.mod_lt _ (by decide)⟩

def metaCommit (img : Image) (seq : Nat) : Image :=
  { img with slots := Function.update img.slots (nextSlot img) (makeSlot seq (nextGen img)) }

def commit (p : Pool) (op : WalOp) (index : Nat) : Pool :=
  let p0 := { p with nextSeq := (p.nextSeq + 1) % 2 ^ 64 }
  let p1 := applyAt (walAppend p0 p.nextSeq op.code (index % 2 ^ 32)) op.code index
  { p1 with img := metaCommit p1.img p.nextSeq }

/-! ## recovery -/

/-- one round of `load_applied_seq`, carrying the best sequence number and generation -/
def loadStep (best : Nat × Nat) (s : MetaSlot) : Nat × Nat :=
  if s.generation = 0 then best
  else if ¬ s.Valid then best
  else if best.2 < s.generation then (s.appliedSeq, s.generation)
  else best

def loadAppliedSeq (img : Image) : Nat :=
  (loadStep (loadStep (0, 0) (img.slots 0)) (img.slots 1)).1

/-- the records that recovery collects, in ring order -/
def pending (p : Pool) (applied : Nat) : List WalRecord :=
  ((List.range p.walCapacity).map p.img.wal).filter (fun r =>
    !(decide (r.seq = 0 ∨ r.seq ≤ applied) || decide (¬ r.Valid) || decide
      (p.blockCount ≤ r.index)))

def sortedPending (p : Pool) (applied : Nat) : List WalRecord :=
  (pending p applied).mergeSort (fun a b => decide (a.seq ≤ b.seq))

def replay (b : Bitmap) (rs : List WalRecord) : Bitmap :=
  rs.foldl (fun b r => apply b r.op r.index) b

/-- the largest sequence number replayed: that of the last record -/
def maxSeq (applied : Nat) (rs : List WalRecord) : Nat :=
  rs.foldl (fun _ r => r.seq) applied

def recover (p : Pool) (applied : Nat) : Pool :=
  let rs := sortedPending p applied
  let img := { p.img with bitmap := replay p.img.bitmap rs }
  if rs = [] then { p with img := img }
  else
    { p with
      img := metaCommit img (maxSeq applied rs)
      nextSeq := (maxSeq applied rs + 1) % 2 ^ 64 }

/-! ## the interface -/

/-- the pool of an existing file before recovery -/
def loaded (blockCount cap : Nat) (img : Image) : Pool :=
  ⟨img, blockCount, cap, (loadAppliedSeq img + 1) % 2 ^ 64⟩

/-- recovery runs only if the last session did not close the pool -/
def recovered (blockCount cap : Nat) (img : Image) : Pool :=
  if img.cleanShutdown = 0 then recover (loaded blockCount cap img) (loadAppliedSeq img)
  else loaded blockCount cap img

def markRunning (p : Pool) : Pool := { p with img := { p.img with cleanShutdown := 0 } }

/-- the constructor on an existing file -/
def openPool (blockCount cap : Nat) (img : Image) : Pool :=
  markRunning (recovered blockCount cap img)

/-- the constructor on a new file -/
def created (blockCount cap : Nat) : Pool where
  img := {
    slots := fun i => if i = 0 then makeSlot 0 1 else ⟨0, 0, 0⟩
    wal := fun _ => ⟨0, 0, 0, 0, 0⟩
    bitmap := Bitmap.empty
    cleanShutdown := 0 }
  blockCount := blockCount
  walCapacity := cap
  nextSeq := 1

def firstFree (p : Pool) : Option Nat :=
  (List.range p.blockCount).find? (fun i => !p.img.bitmap.test i)

/-- the operation that `allocate` commits, if any -/
def allocateOp (p : Pool) : Option (WalOp × Nat) := (firstFree p).map (fun i => (.alloc, i))

/-- the operation that `deallocate` commits, if any -/
def deallocateOp (p : Pool) (index : Nat) : Option (WalOp × Nat) :=
  if p.blockCount ≤ index then none
  else if p.img.bitmap.test index then some (.free, index) else none

def commitOp (p : Pool) : Option (WalOp × Nat) → Pool
  | none => p
  | some (op, index) => commit p op index

/-- `none` is the null pointer of a full pool -/
def allocate (p : Pool) : Pool × Option Nat := (commitOp p (allocateOp p), firstFree p)

def deallocate (p : Pool) (index : Nat) : Pool := commitOp p (deallocateOp p index)

/-- the file that `close` leaves -/
def close (p : Pool) : Image := { p.img with cleanShutdown := 1 }

end HeapForge.CppPool
