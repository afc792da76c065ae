import HeapForge.Lib.Writeback
import HeapForge.CPool.Frame

/-!
# The calls of the pool as commands on a cached file

The bytes that a call writes, in its order, and the ranges that `sync_range` waits for.  The system
writes bytes back when it likes, so until then the disk has any mixture of old and new ones.

* `commitCmds`, `recoverCmds`   the commands of `commit` and of `recover`: batches of writes, each
                                followed by a `sync_range`;
* `write_recordPuts`, `write_applyPuts`, `write_recoverPuts`   they write what the functions
                                                               compute;
* `mem_recoverPuts`             every byte that a recovery writes is one that some round of it gave;
* `Caught`                      a record or a slot that passes its checksum is the old one or the
                                new one, not a mixture.
-/

set_option linter.unusedSectionVars false
set_option linter.unusedVariables false

namespace HeapForge.CPool
open Lib

/-- the bytes that `sync_range` waits for, from the start of the first page on -/
def syncedRange (ps off len : Nat) : Nat → Bool :=
  fun x => decide (off / ps * ps ≤ x ∧ x < off + len)

/-- `sync_range`; with `HF_DURABILITY_FULL` the device is waited for too -/
def syncRange (ps off len : Nat) : Cmd Nat (BitVec 8) := .sync (syncedRange ps off len)

def recordPuts (g : Layout) (k : Nat) (e : WalEntry) : List (Nat × BitVec 8) :=
  fieldPuts (recordAt g k) [(8, e.seq), (4, e.op), (4, e.index), (8, e.crc)]

def slotPuts (a : Fin 2) (m : MetaSlot) : List (Nat × BitVec 8) :=
  fieldPuts (slotAt a) [(8, m.seq), (8, m.usedBlocks), (8, m.crc)]

/-- no mixture of an old and a new record passes the checksum, and no mixture of slots -/
structure Caught (g : Layout) (old new f : Mem) : Prop where
  record : ∀ k, k < WAL_ENTRIES → (readRecord g f k).Valid →
    readRecord g f k = readRecord g old k ∨ readRecord g f k = readRecord g new k
  slot : ∀ a, (readSlot f a).Valid → readSlot f a = readSlot old a ∨ readSlot f a = readSlot new a

namespace Session

/-- the byte that `apply_op` writes, if it writes one -/
def applyPuts (p : Session) (op index : Nat) : List (Nat × BitVec 8) :=
  let x := p.geo.bitmapOffset + index / 8
  if op = WAL_OP_ALLOC then
    if bitTest p.geo p.file index then [] else [(x, p.file x ||| (1#8 <<< (index % 8)))]
  else
    if bitTest p.geo p.file index then [(x, p.file x &&& ~~~(1#8 <<< (index % 8)))] else []

def walCmds (ps : Nat) (p : Session) (seq op index : Nat) : List (Cmd Nat (BitVec 8)) :=
  puts (recordPuts p.geo (seq % WAL_ENTRIES) (mkWal seq op index))
    ++ [syncRange ps (recordAt p.geo (seq % WAL_ENTRIES)) WAL_ENTRY_BYTES]

def byteCmds (ps : Nat) (p : Session) (op index : Nat) : List (Cmd Nat (BitVec 8)) :=
  puts (applyPuts p op index) ++ [syncRange ps (p.geo.bitmapOffset + index / 8) 1]

def metaCmds (ps : Nat) (p : Session) (seq : Nat) : List (Cmd Nat (BitVec 8)) :=
  puts (slotPuts (other p.activeMeta) (mkMeta seq p.usedBlocks))
    ++ [syncRange ps (slotAt (other p.activeMeta)) META_BYTES]

def commitCmds (ps : Nat) (p : Session) (op index : Nat) : List (Cmd Nat (BitVec 8)) :=
  let p' := walAppend (takeSeq p) p.nextSeq op index
  walCmds ps p p.nextSeq op index
    ++ (byteCmds ps p' op index ++ metaCmds ps (applyOp p' op index) p.nextSeq)

def opCmds (ps : Nat) (p : Session) : Option (Nat × Nat) → List (Cmd Nat (BitVec 8))
  | none => []
  | some (op, index) => commitCmds ps p op (index % 2 ^ 32)

/-- the writes of one round of the replay loop, and of the loop -/
def roundPuts (r : Replay) (s : Nat) : List (Nat × BitVec 8) :=
  let e := readRecord r.pool.geo r.pool.file (s % WAL_ENTRIES)
  if e.seq ≠ s ∨ ¬ e.Valid then [] else applyPuts r.pool e.op e.index

def replayPuts : List Nat → Replay → List (Nat × BitVec 8)
  | [], _ => []
  | s :: l, r => roundPuts r s ++ replayPuts l (replayStep r s)

def recoverPuts (p : Session) : List (Nat × BitVec 8) :=
  replayPuts (replaySeqs (selectMeta (image p.geo p.file)).2) (beginRecover p)

def recoverCmds (ps : Nat) (p : Session) : List (Cmd Nat (BitVec 8)) :=
  let r := replayAll p
  if r.replayed then
    (puts (recoverPuts p) ++ [syncRange ps p.geo.bitmapOffset (bitmapBytes p.geo.blockCount)])
      ++ metaCmds ps r.pool r.maxSeq
  else puts (recoverPuts p)

end Session

/-! ## the writes of each command -/

section
variable {ps : Nat} {g : Layout} {f f' : Mem} {k : Nat} {a : Fin 2} {e : WalEntry} {m : MetaSlot}

theorem write_recordPuts (f : Mem) (g : Layout) (k : Nat) (e : WalEntry) :
    write (recordPuts g k e) f = writeRecord g f k e := write_fieldPuts f _ _

theorem write_slotPuts (f : Mem) (a : Fin 2) (m : MetaSlot) :
    write (slotPuts a m) f = writeSlot f a m :=
  write_fieldPuts f _ _

/-- a range covers its own bytes -/
theorem syncedRange_covers {off len x : Nat} (h : off ≤ x) (h' : x < off + len) :
    syncedRange ps off len x = true :=
  decide_eq_true ⟨Nat.le_trans (Nat.div_mul_le_self off ps) h, h'⟩

theorem record_bytes (h : readRecord g f' k = readRecord g f k) {x : Nat} (hx : recordAt g k ≤ x)
    (hx' : x < recordAt g k + 24) : f' x = f x := by
  unfold readRecord Mem.load64 Mem.load32 at h
  rw [WalEntry.mk.injEq] at h
  obtain ⟨h1, h2, h3, h4⟩ := h
  rcases Nat.lt_or_ge x (recordAt g k + 8) with hlt | hge
  · exact Mem.load_inj h1 x hx hlt
  rcases Nat.lt_or_ge x (recordAt g k + 12) with hlt' | hge'
  · exact Mem.load_inj h2 x hge hlt'
  rcases Nat.lt_or_ge x (recordAt g k + 16) with hlt'' | hge''
  · exact Mem.load_inj h3 x hge' hlt''
  · exact Mem.load_inj h4 x hge'' hx'

theorem slot_bytes (h : readSlot f' a = readSlot f a) {x : Nat} (hx : slotAt a ≤ x)
    (hx' : x < slotAt a + 24) :
    f' x = f x := by
  unfold readSlot Mem.load64 at h
  rw [MetaSlot.mk.injEq] at h
  obtain ⟨h1, h2, h3⟩ := h
  rcases Nat.lt_or_ge x (slotAt a + 8) with hlt | hge
  · exact Mem.load_inj h1 x hx hlt
  rcases Nat.lt_or_ge x (slotAt a + 16) with hlt' | hge'
  · exact Mem.load_inj h2 x hge hlt'
  · exact Mem.load_inj h3 x hge' hx'

/-- while a record is written, everything else stands -/
theorem partly_record (h : Partly (recordPuts g k e) f f') {x : Nat}
    (hx : x < recordAt g k ∨ recordAt g k + 24 ≤ x) :
    f' x = f x := by
  rcases h x with hold | hnew
  · exact hold
  · obtain ⟨h1, h2, -⟩ := mem_fieldPuts f hnew
    have h2' : x < recordAt g k + 24 := h2
    omega

theorem partly_slot (h : Partly (slotPuts a m) f f') {x : Nat}
    (hx : x < slotAt a ∨ slotAt a + 24 ≤ x) : f' x = f x := by
  rcases h x with hold | hnew
  · exact hold
  · obtain ⟨h1, h2, -⟩ := mem_fieldPuts f hnew
    have h2' : x < slotAt a + 24 := h2
    omega

end

namespace Session

section
variable {ps : Nat} {p : Session} {f : Mem} {op index seq x : Nat} {v : BitVec 8} {r : Replay}

theorem applyOp_activeMeta (p : Session) (op index : Nat) :
    (p.applyOp op index).activeMeta = p.activeMeta := by
  unfold applyOp
  split <;> split <;> rfl

theorem mem_applyPuts (h : (x, v) ∈ applyPuts p op index) :
    x = p.geo.bitmapOffset + index / 8 ∧ v = (p.applyOp op index).file x := by
  unfold applyPuts at h
  unfold applyOp
  dsimp only at h
  split at h
  · rename_i hop
    rw [if_pos hop]
    split at h
    · cases h
    · rename_i hbit
      rw [if_neg hbit]
      rw [List.mem_singleton, Prod.mk.injEq] at h
      obtain ⟨rfl, rfl⟩ := h
      exact ⟨rfl, (if_pos rfl).symm⟩
  · rename_i hop
    rw [if_neg hop]
    split at h
    · rename_i hbit
      rw [if_pos hbit]
      rw [List.mem_singleton, Prod.mk.injEq] at h
      obtain ⟨rfl, rfl⟩ := h
      exact ⟨rfl, (if_pos rfl).symm⟩
    · cases h

theorem applyOp_file_of_ne (hx : x ≠ p.geo.bitmapOffset + index / 8) :
    (p.applyOp op index).file x = p.file x := by
  unfold applyOp
  split
  · split
    · rfl
    · exact if_neg hx
  · split
    · exact if_neg hx
    · rfl

theorem write_applyPuts (p : Session) (op index : Nat) :
    write (applyPuts p op index) p.file = (p.applyOp op index).file := by
  unfold applyPuts applyOp
  dsimp only
  split
  · split
    · rfl
    · funext x
      exact Function.update_apply p.file _ _ x
  · split
    · funext x
      exact Function.update_apply p.file _ _ x
    · rfl

/-- a byte is written whole -/
theorem applyPuts_partly (h : Partly (applyPuts p op index) p.file f) :
    f = p.file ∨ f = (p.applyOp op index).file := by
  rcases h (p.geo.bitmapOffset + index / 8) with hold | hnew
  · left
    funext x
    rcases h x with hx | hx
    · exact hx
    · rw [(mem_applyPuts hx).1]
      exact hold
  · right
    funext x
    rcases h x with hx | hx
    · by_cases hxe : x = p.geo.bitmapOffset + index / 8
      · rw [hxe]
        exact (mem_applyPuts hnew).2
      · rw [hx, applyOp_file_of_ne hxe]
    · exact (mem_applyPuts hx).2

/-! ## recovery -/

theorem write_roundPuts (r : Replay) (s : Nat) :
    write (roundPuts r s) r.pool.file = (replayStep r s).pool.file := by
  unfold roundPuts replayStep
  dsimp only
  split
  · rfl
  · exact write_applyPuts _ _ _

theorem write_replayPuts (l : List Nat) (r : Replay) :
    write (replayPuts l r) r.pool.file = (l.foldl replayStep r).pool.file := by
  induction l generalizing r with
  | nil => rfl
  | cons s l ih =>
    rw [List.foldl_cons, ← ih, ← write_roundPuts, replayPuts]
    exact write_append _ _ _

theorem mem_roundPuts {s : Nat} (h : (x, v) ∈ roundPuts r s) : v = (replayStep r s).pool.file x
    ∧ x = r.pool.geo.bitmapOffset + (readRecord r.pool.geo r.pool.file (s % WAL_ENTRIES)).index / 8
    ∧ (readRecord r.pool.geo r.pool.file (s % WAL_ENTRIES)).Valid := by
  unfold roundPuts at h
  unfold replayStep
  dsimp only at h ⊢
  split at h
  · cases h
  · rename_i hv
    rw [if_neg hv]
    obtain ⟨h1, h2⟩ := mem_applyPuts h
    exact ⟨h2, h1, not_not.mp (not_or.mp hv).2⟩

/-- every byte written is one that the file has after some round, and lies in the bitmap -/
theorem mem_replayPuts {g : Layout} (hr : Regions ps g) (l : List Nat) (hok : r.Ok ps g)
    (h : (x, v) ∈ replayPuts l r) :
    (g.bitmapOffset ≤ x ∧ x < g.bitmapOffset + (g.blockCount + 7) / 8)
      ∧ ∃ k, v = ((l.take k).foldl replayStep r).pool.file x := by
  induction l generalizing r with
  | nil => cases h
  | cons s l ih =>
    rw [replayPuts, List.mem_append] at h
    rcases h with h | h
    · obtain ⟨hv, hx, hvalid⟩ := mem_roundPuts h
      have he : r.pool.view.img.wal (s % WAL_ENTRIES)
          = readRecord r.pool.geo r.pool.file (s % WAL_ENTRIES) :=
        image_wal (ring_lt s)
      have hidx := hok.log (s % WAL_ENTRIES)
      rw [he] at hidx
      have hlt := hidx hvalid
      rw [hok.geo] at hx hlt
      refine ⟨by omega, 1, ?_⟩
      rw [List.take_succ_cons, List.take_zero, List.foldl_cons, List.foldl_nil]
      exact hv
    · obtain ⟨h1, k, h2⟩ := ih (view_replayStep hr hok s).2 h
      refine ⟨h1, k + 1, ?_⟩
      rw [List.take_succ_cons, List.foldl_cons]
      exact h2

/-- a round that writes sets `replayed` -/
theorem replayPuts_of_not_replayed (l : List Nat) (r : Replay)
    (h : (l.foldl replayStep r).replayed = false) :
    replayPuts l r = [] ∧ r.replayed = false := by
  induction l generalizing r with
  | nil => exact ⟨rfl, h⟩
  | cons s l ih =>
    rw [List.foldl_cons] at h
    obtain ⟨h1, h2⟩ := ih _ h
    have hskip : roundPuts r s = [] ∧ r.replayed = false := by
      unfold replayStep at h2
      unfold roundPuts
      dsimp only at h2 ⊢
      split at h2
      · rename_i hs
        exact ⟨if_pos hs, h2⟩
      · exact absurd h2 (by simp)
    exact ⟨by rw [replayPuts, hskip.1, h1, List.nil_append], hskip.2⟩

/-! the whole loop -/

theorem write_recoverPuts (p : Session) :
    write (recoverPuts p) p.file = (replayAll p).pool.file := by
  unfold recoverPuts replayAll
  generalize replaySeqs (selectMeta (image p.geo p.file)).2 = l
  exact write_replayPuts l (beginRecover p)

theorem mem_recoverPuts (hr : Regions ps p.geo) (hl : LogIn p.geo.blockCount p.view.img)
    (h : (x, v) ∈ recoverPuts p) :
    (p.geo.bitmapOffset ≤ x ∧ x < p.geo.bitmapOffset + (p.geo.blockCount + 7) / 8)
      ∧ ∃ k, v = (replayed p k).pool.file x :=
  mem_replayPuts hr _ (view_beginRecover hr hl).2 h

theorem recoverPuts_of_not_replayed (h : (replayAll p).replayed = false) : recoverPuts p = [] :=
  (replayPuts_of_not_replayed _ _ h).1

end

end Session

end HeapForge.CPool
