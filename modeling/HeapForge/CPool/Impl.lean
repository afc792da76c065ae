import Mathlib.Data.Fin.Basic
import Mathlib.Data.List.Basic
import HeapForge.Lib.Bitmap
import HeapForge.Lib.Fnv

/-!
# The persistent pool of `c/src/hf_persistent_pool.c`

The file holds two metadata slots, a ring of 256 log records, the allocation bitmap and the
data blocks.  `Image` is the part of the mapped file that the pool itself reads and writes;
`Pool` adds the fields of the open handle.

* `commit`    one record into the ring, one bitmap byte, one metadata slot, in this order;
* `recover`   picks the newest valid slot as the watermark, counts the bitmap, replays the
              records after the watermark and, if there were any, moves the watermark.

The sizes and offsets of the header never change after creation and no function here reads
them; the block contents are the user's.
-/

set_option linter.unusedSectionVars false
set_option linter.unusedVariables false

namespace HeapForge.CPool
open Lib

/-! ## records and checksums -/

structure MetaSlot where
  seq : Nat
  usedBlocks : Nat
  crc : Nat
  deriving DecidableEq

structure WalEntry where
  seq : Nat
  op : Nat
  index : Nat
  crc : Nat
  deriving DecidableEq

/-- checksum of the first two words of a slot -/
def metaCrc (m : MetaSlot) : Nat := fnv1a (leBytes 8 m.seq ++ leBytes 8 m.usedBlocks)

/-- checksum of the first sixteen bytes of a record -/
def walCrc (e : WalEntry) : Nat := fnv1a (leBytes 8 e.seq ++ leBytes 4 e.op ++ leBytes 4 e.index)

def MetaSlot.Valid (m : MetaSlot) : Prop := m.crc = metaCrc m
def WalEntry.Valid (e : WalEntry) : Prop := e.crc = walCrc e

instance (m : MetaSlot) : Decidable m.Valid := inferInstanceAs (Decidable (_ = _))
instance (e : WalEntry) : Decidable e.Valid := inferInstanceAs (Decidable (_ = _))

/-- a slot as `meta_commit` writes it -/
def mkMeta (seq used : Nat) : MetaSlot := ⟨seq, used, metaCrc ⟨seq, used, 0⟩⟩

/-- a record as `wal_append` writes it -/
def mkWal (seq op index : Nat) : WalEntry := ⟨seq, op, index, walCrc ⟨seq, op, index, 0⟩⟩

theorem metaCrc_mk (seq used crc : Nat) :
    metaCrc ⟨seq, used, crc⟩ = fnv1a (leBytes 8 seq ++ leBytes 8 used) := rfl
theorem walCrc_mk (seq op index crc : Nat) :
    walCrc ⟨seq, op, index, crc⟩ = fnv1a (leBytes 8 seq ++ leBytes 4 op ++ leBytes 4 index) := rfl

theorem mkMeta_valid (seq used : Nat) : (mkMeta seq used).Valid := by
  show metaCrc ⟨seq, used, 0⟩ = metaCrc ⟨seq, used, metaCrc ⟨seq, used, 0⟩⟩
  rw [metaCrc_mk, metaCrc_mk]

theorem mkWal_valid (seq op index : Nat) : (mkWal seq op index).Valid := by
  show walCrc ⟨seq, op, index, 0⟩ = walCrc ⟨seq, op, index, walCrc ⟨seq, op, index, 0⟩⟩
  rw [walCrc_mk, walCrc_mk]

/-! ## the pool -/

def WAL_ENTRIES : Nat := 256
def WAL_OP_ALLOC : Nat := 1
def WAL_OP_FREE : Nat := 2

structure Image where
  metaSlots : Fin 2 → MetaSlot
  wal : Nat → WalEntry
  bitmap : Bitmap

structure Pool where
  img : Image
  blockCount : Nat
  usedBlocks : Nat
  nextSeq : Nat
  activeMeta : Fin 2

/-- the other metadata slot, `active ^ 1` -/
def other (a : Fin 2) : Fin 2 := a ^^^ 1

def walAppend (p : Pool) (seq op index : Nat) : Pool :=
  { p with img := { p.img with
      wal := Function.update p.img.wal (seq % WAL_ENTRIES) (mkWal seq op index) } }

def applyOp (p : Pool) (op index : Nat) : Pool :=
  if op = WAL_OP_ALLOC then
    if p.img.bitmap.test index then p
    else { p with
      img := { p.img with bitmap := p.img.bitmap.set index }
      usedBlocks := (p.usedBlocks + 1) % 2 ^ 64 }
  else
    if p.img.bitmap.test index then { p with
      img := { p.img with bitmap := p.img.bitmap.clear index }
      usedBlocks := (p.usedBlocks + (2 ^ 64 - 1)) % 2 ^ 64 }
    else p

def metaCommit (p : Pool) (seq : Nat) : Pool :=
  { p with
    img := { p.img with
      metaSlots := Function.update p.img.metaSlots (other p.activeMeta) (mkMeta seq p.usedBlocks) }
    activeMeta := other p.activeMeta }

/-- the sequence number is taken before anything is written -/
def takeSeq (p : Pool) : Pool := { p with nextSeq := (p.nextSeq + 1) % 2 ^ 64 }

def commit (p : Pool) (op index : Nat) : Pool :=
  metaCommit (applyOp (walAppend (takeSeq p) p.nextSeq op index) op index) p.nextSeq

/-! ## recovery -/

/-- the newest valid slot so far; on equal sequence numbers the later slot wins -/
def pickMeta (img : Image) (best : Option (Fin 2 × Nat)) (i : Fin 2) : Option (Fin 2 × Nat) :=
  let m := img.metaSlots i
  match best with
  | none => if m.Valid then some (i, m.seq) else none
  | some (b, s) => if m.Valid ∧ s ≤ m.seq then some (i, m.seq) else some (b, s)

theorem pickMeta_of_invalid {img : Image} {best : Option (Fin 2 × Nat)} {i : Fin 2}
    (h : ¬ (img.metaSlots i).Valid) : pickMeta img best i = best := by
  unfold pickMeta
  cases best with
  | none => exact if_neg h
  | some c => exact if_neg fun hc => h hc.1

/-- the checksum of sixteen zero bytes is not zero -/
theorem blankSlot_invalid : ¬ (⟨0, 0, 0⟩ : MetaSlot).Valid := by decide +kernel

/-- the slot that holds the watermark, and the watermark; slot `0` and `0` if none is valid -/
def selectMeta (img : Image) : Fin 2 × Nat :=
  (pickMeta img (pickMeta img none 0) 1).getD (0, 0)

/-- the replay loop carries the pool, the largest sequence number seen and `replayed` -/
structure Replay where
  pool : Pool
  maxSeq : Nat
  replayed : Bool

def replayStep (r : Replay) (s : Nat) : Replay :=
  let e := r.pool.img.wal (s % WAL_ENTRIES)
  if e.seq ≠ s ∨ ¬ e.Valid then r
  else ⟨applyOp r.pool e.op e.index, max r.maxSeq s, true⟩

/-- the sequence numbers `best_seq + 1 .. best_seq + WAL_ENTRIES` of the replay loop -/
def replaySeqs (best : Nat) : List Nat :=
  let lo := (best + 1) % 2 ^ 64
  let hi := (best + WAL_ENTRIES) % 2 ^ 64
  List.range' lo (hi + 1 - lo)

/-- the pool just before the replay loop: watermark chosen, used blocks counted -/
def beginRecover (p : Pool) : Replay :=
  let best := selectMeta p.img
  ⟨{ p with activeMeta := best.1, usedBlocks := p.img.bitmap.count p.blockCount }, best.2, false⟩

/-- the state after the first `k` rounds of the replay loop -/
def replayed (p : Pool) (k : Nat) : Replay :=
  ((replaySeqs (selectMeta p.img).2).take k).foldl replayStep (beginRecover p)

/-- the state after the replay loop, bitmap synced, metadata slot not yet written -/
def replayAll (p : Pool) : Replay :=
  (replaySeqs (selectMeta p.img).2).foldl replayStep (beginRecover p)

def recover (p : Pool) : Pool :=
  let r := replayAll p
  let p' := { r.pool with nextSeq := (r.maxSeq + 1) % 2 ^ 64 }
  if r.replayed then metaCommit p' r.maxSeq else p'

/-! ## the interface -/

/-- the handle of an existing file before `recover` runs -/
def handle (blockCount : Nat) (img : Image) : Pool := ⟨img, blockCount, 0, 1, 0⟩

/-- `hf_pool_open` on an existing file -/
def hfPoolOpen (blockCount : Nat) (img : Image) : Pool := recover (handle blockCount img)

/-- `hf_pool_open` on a new file: slot `0` is valid with watermark `0`, all else is zero -/
def created (blockCount : Nat) : Pool where
  img := {
    metaSlots := fun i => if i = 0 then mkMeta 0 0 else ⟨0, 0, 0⟩
    wal := fun _ => ⟨0, 0, 0, 0⟩
    bitmap := Bitmap.empty }
  blockCount := blockCount
  usedBlocks := 0
  nextSeq := 1
  activeMeta := 0

/-- the first block whose bit is clear -/
def firstFree (p : Pool) : Option Nat :=
  (List.range p.blockCount).find? (fun i => !p.img.bitmap.test i)

/-- the operation that `hf_pool_allocate` commits, if it commits one -/
def allocateOp (p : Pool) : Option (Nat × Nat) :=
  (firstFree p).map (fun i => (WAL_OP_ALLOC, i))

/-- the operation that `hf_pool_free` commits, if it commits one -/
def freeOp (p : Pool) (index : Nat) : Option (Nat × Nat) :=
  if index < p.blockCount ∧ p.img.bitmap.test index then some (WAL_OP_FREE, index) else none

/-- the index is cast to 32 bits on its way into the log -/
def commitOp (p : Pool) : Option (Nat × Nat) → Pool
  | none => p
  | some (op, index) => commit p op (index % 2 ^ 32)

/-- returns the index that `*out_index` receives; `none` is the null pointer of a full pool -/
def hfPoolAllocate (p : Pool) : Pool × Option Nat := (commitOp p (allocateOp p), firstFree p)

def hfPoolFree (p : Pool) (index : Nat) : Pool := commitOp p (freeOp p index)

end HeapForge.CPool
