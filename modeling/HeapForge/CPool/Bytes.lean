import HeapForge.CPool.Layout
import HeapForge.CPool.Marks
import HeapForge.Lib.Fields

/-!
# The pool on the bytes of its file

The functions of `c/src/hf_persistent_pool.c` on one mapping: header, slots, records and bits are
bytes at the offsets of the header, and a call writes nothing but bytes.

* `Session`       an open pool: the bytes, the fields of the handle;
* `image`         the slots, records and bits that the bytes hold;
* `Session.view`  an open pool as the model of `HeapForge.CPool.Impl` sees it;
* `view_commit`, `view_recover`   the functions on bytes do what those of the model do.
-/

set_option linter.unusedSectionVars false
set_option linter.unusedVariables false

namespace HeapForge.CPool
open Lib

def POOL_MAGIC : Nat := 0x4846505043020001

/-! ## what the bytes hold -/

/-- for the numerals that name the two slots -/
theorem neZero_metaSlots : NeZero (2 : Nat) := ⟨by decide⟩

attribute [local instance] neZero_metaSlots

def slotAt (i : Fin 2) : Nat := 56 + META_BYTES * i.val
def recordAt (g : Layout) (k : Nat) : Nat := g.walOffset + WAL_ENTRY_BYTES * k

def readSlot (f : Mem) (i : Fin 2) : MetaSlot :=
  ⟨f.load64 (slotAt i), f.load64 (slotAt i + 8), f.load64 (slotAt i + 16)⟩

def readRecord (g : Layout) (f : Mem) (k : Nat) : WalEntry :=
  ⟨f.load64 (recordAt g k), f.load32 (recordAt g k + 8), f.load32 (recordAt g k + 12),
    f.load64 (recordAt g k + 16)⟩

def writeSlot (f : Mem) (i : Fin 2) (m : MetaSlot) : Mem :=
  f.storeFields (slotAt i) [(8, m.seq), (8, m.usedBlocks), (8, m.crc)]

def writeRecord (g : Layout) (f : Mem) (k : Nat) (e : WalEntry) : Mem :=
  f.storeFields (recordAt g k) [(8, e.seq), (4, e.op), (4, e.index), (8, e.crc)]

/-- the static words of the header -/
def readLayout (f : Mem) : Layout :=
  ⟨f.load64 8, f.load64 16, f.load64 24, f.load64 32, f.load64 40, f.load64 48⟩

def bitTest (g : Layout) (f : Mem) (i : Nat) : Bool := (f (g.bitmapOffset + i / 8)).getLsbD (i % 8)

def bitSet (g : Layout) (f : Mem) (i : Nat) : Mem :=
  f.setByte (g.bitmapOffset + i / 8) (f (g.bitmapOffset + i / 8) ||| (1#8 <<< (i % 8)))

def bitClear (g : Layout) (f : Mem) (i : Nat) : Mem :=
  f.setByte (g.bitmapOffset + i / 8) (f (g.bitmapOffset + i / 8) &&& ~~~(1#8 <<< (i % 8)))

/-- the part of the file that the pool reads and writes; what lies outside the ring and the bitmap
is read as zero -/
def image (g : Layout) (f : Mem) : Image where
  metaSlots := readSlot f
  wal k := if k < WAL_ENTRIES then readRecord g f k else ⟨0, 0, 0, 0⟩
  bitmap j := if j < (g.blockCount + 7) / 8 then f (g.bitmapOffset + j) else 0#8

/-! ## the functions -/

structure Session where
  file : Mem
  geo : Layout
  usedBlocks : Nat
  nextSeq : Nat
  activeMeta : Fin 2

namespace Session

def walAppend (p : Session) (seq op index : Nat) : Session :=
  { p with file := writeRecord p.geo p.file (seq % WAL_ENTRIES) (mkWal seq op index) }

def applyOp (p : Session) (op index : Nat) : Session :=
  if op = WAL_OP_ALLOC then
    if bitTest p.geo p.file index then p
    else { p with
      file := bitSet p.geo p.file index
      usedBlocks := (p.usedBlocks + 1) % 2 ^ 64 }
  else
    if bitTest p.geo p.file index then { p with
      file := bitClear p.geo p.file index
      usedBlocks := (p.usedBlocks + (2 ^ 64 - 1)) % 2 ^ 64 }
    else p

def metaCommit (p : Session) (seq : Nat) : Session :=
  { p with
    file := writeSlot p.file (other p.activeMeta) (mkMeta seq p.usedBlocks)
    activeMeta := other p.activeMeta }

def takeSeq (p : Session) : Session := { p with nextSeq := (p.nextSeq + 1) % 2 ^ 64 }

def commit (p : Session) (op index : Nat) : Session :=
  metaCommit (applyOp (walAppend (takeSeq p) p.nextSeq op index) op index) p.nextSeq

/-- the replay loop carries the pool, the largest sequence number seen and `replayed` -/
structure Replay where
  pool : Session
  maxSeq : Nat
  replayed : Bool

def replayStep (r : Replay) (s : Nat) : Replay :=
  let e := readRecord r.pool.geo r.pool.file (s % WAL_ENTRIES)
  if e.seq ≠ s ∨ ¬ e.Valid then r
  else ⟨applyOp r.pool e.op e.index, max r.maxSeq s, true⟩

/-- watermark chosen, used blocks counted -/
def beginRecover (p : Session) : Replay :=
  let best := selectMeta (image p.geo p.file)
  ⟨{ p with
    activeMeta := best.1
    usedBlocks := (List.range p.geo.blockCount).countP (bitTest p.geo p.file) }, best.2, false⟩

/-- the state after the first `k` rounds of the replay loop -/
def replayed (p : Session) (k : Nat) : Replay :=
  ((replaySeqs (selectMeta (image p.geo p.file)).2).take k).foldl replayStep (beginRecover p)

def replayAll (p : Session) : Replay :=
  (replaySeqs (selectMeta (image p.geo p.file)).2).foldl replayStep (beginRecover p)

def recover (p : Session) : Session :=
  let r := replayAll p
  let p' := { r.pool with nextSeq := (r.maxSeq + 1) % 2 ^ 64 }
  if r.replayed then metaCommit p' r.maxSeq else p'

def firstFree (p : Session) : Option Nat :=
  (List.range p.geo.blockCount).find? fun i => !bitTest p.geo p.file i

def allocateOp (p : Session) : Option (Nat × Nat) := (firstFree p).map fun i => (WAL_OP_ALLOC, i)

def freeOp (p : Session) (index : Nat) : Option (Nat × Nat) :=
  if index < p.geo.blockCount ∧ bitTest p.geo p.file index then some (WAL_OP_FREE, index) else none

def commitOp (p : Session) : Option (Nat × Nat) → Session
  | none => p
  | some (op, index) => commit p op (index % 2 ^ 32)

def hfPoolAllocate (p : Session) : Session × Option Nat := (commitOp p (allocateOp p), firstFree p)

def hfPoolFree (p : Session) (index : Nat) : Session := commitOp p (freeOp p index)

/-- the place of a block in the file, if it is in use -/
def hfPoolAt (p : Session) (index : Nat) : Option Nat :=
  if index ≥ p.geo.blockCount ∨ bitTest p.geo p.file index = false then none
  else some (wadd p.geo.dataOffset (wmul index p.geo.blockSize))

def view (p : Session) : Pool :=
  ⟨image p.geo p.file, p.geo.blockCount, p.usedBlocks, p.nextSeq, p.activeMeta⟩

end Session

/-- the bytes of a new file -/
def createdFile (g : Layout) : Mem :=
  Mem.zero.storeFields 0 [(8, POOL_MAGIC), (8, g.blockSize), (8, g.blockCount), (8, g.walOffset),
    (8, g.bitmapOffset), (8, g.dataOffset), (8, g.totalSize), (8, 0), (8, 0),
    (8, metaCrc ⟨0, 0, 0⟩)]

/-- the handle with which `recover` begins -/
def Session.fresh (g : Layout) (f : Mem) : Session := ⟨f, g, 0, 1, 0⟩

/-- `hf_pool_open` on an existing file, and on a new one -/
def openFile (size : Nat) (f : Mem) : Option Session :=
  if size < HEADER_BYTES then none
  else if f.load64 0 ≠ POOL_MAGIC then none
  else some (Session.recover ⟨f, readLayout f, 0, 1, 0⟩)

def createSession (g : Layout) : Session := ⟨createdFile g, g, 0, 1, 0⟩

/-! ## records and slots in the bytes -/

theorem ring_lt (s : Nat) : s % WAL_ENTRIES < WAL_ENTRIES := Nat.mod_lt s (by decide)
theorem word_lt (n : Nat) : n % 2 ^ 64 < 2 ^ 64 := Nat.mod_lt n (by decide)
theorem half_lt (n : Nat) : n % 2 ^ 32 < 2 ^ 32 := Nat.mod_lt n (by decide)

section
variable {ps : Nat} {g : Layout} {f f' : Mem} {i k n x : Nat} {a b : Fin 2} {e : WalEntry}
  {m : MetaSlot}

theorem readRecord_of_fields
    (h : f.loadFields (recordAt g k) [8, 4, 4, 8] = [e.seq, e.op, e.index, e.crc]) :
    readRecord g f k = e := by
  have h' : [(readRecord g f k).seq, (readRecord g f k).op, (readRecord g f k).index,
    (readRecord g f k).crc]
      = [e.seq, e.op, e.index, e.crc] := h
  cases e
  cases hr : readRecord g f k
  rw [hr] at h'
  simpa using h'

theorem readSlot_of_fields (h : f.loadFields (slotAt a) [8, 8, 8] = [m.seq, m.usedBlocks, m.crc]) :
    readSlot f a = m := by
  have h' : [(readSlot f a).seq, (readSlot f a).usedBlocks, (readSlot f a).crc]
      = [m.seq, m.usedBlocks, m.crc] := h
  cases m
  cases hr : readSlot f a
  rw [hr] at h'
  simpa using h'

theorem readRecord_congr (h : ∀ x, recordAt g k ≤ x → x < recordAt g k + 24 → f' x = f x) :
    readRecord g f' k = readRecord g f k :=
  readRecord_of_fields (Mem.loadFields_congr h)

theorem readSlot_congr (h : ∀ x, slotAt a ≤ x → x < slotAt a + 24 → f' x = f x) :
    readSlot f' a = readSlot f a :=
  readSlot_of_fields (Mem.loadFields_congr h)

theorem writeRecord_of_notMem (h : x < recordAt g k ∨ recordAt g k + 24 ≤ x) :
    writeRecord g f k e x = f x :=
  Mem.storeFields_of_notMem h

theorem writeSlot_of_notMem (h : x < slotAt a ∨ slotAt a + 24 ≤ x) : writeSlot f a m x = f x :=
  Mem.storeFields_of_notMem h

/-- the fields fit in their words -/
structure WalEntry.Fits (e : WalEntry) : Prop where
  seq : e.seq < 2 ^ 64
  op : e.op < 2 ^ 32
  index : e.index < 2 ^ 32
  crc : e.crc < 2 ^ 64

structure MetaSlot.Fits (m : MetaSlot) : Prop where
  seq : m.seq < 2 ^ 64
  usedBlocks : m.usedBlocks < 2 ^ 64
  crc : m.crc < 2 ^ 64

theorem readRecord_writeRecord (h : e.Fits) : readRecord g (writeRecord g f k e) k = e := by
  apply readRecord_of_fields
  refine (Mem.loadFields_storeFields f _ [(8, e.seq), (4, e.op), (4, e.index), (8, e.crc)]).trans ?_
  have h1 : (256 : Nat) ^ 8 = 2 ^ 64 := by norm_num
  have h2 : (256 : Nat) ^ 4 = 2 ^ 32 := by norm_num
  simp only [List.map_cons, List.map_nil, h1, h2, Nat.mod_eq_of_lt h.seq, Nat.mod_eq_of_lt h.op,
    Nat.mod_eq_of_lt h.index, Nat.mod_eq_of_lt h.crc]

theorem readSlot_writeSlot (h : m.Fits) : readSlot (writeSlot f a m) a = m := by
  apply readSlot_of_fields
  refine (Mem.loadFields_storeFields f _ [(8, m.seq), (8, m.usedBlocks), (8, m.crc)]).trans ?_
  have h1 : (256 : Nat) ^ 8 = 2 ^ 64 := by norm_num
  simp only [List.map_cons, List.map_nil, h1, Nat.mod_eq_of_lt h.seq, Nat.mod_eq_of_lt h.usedBlocks,
    Nat.mod_eq_of_lt h.crc]

theorem slotAt_bounds (a : Fin 2) : 56 ≤ slotAt a ∧ slotAt a + 24 ≤ 104 := by
  have := a.isLt
  have hm : META_BYTES = 24 := rfl
  unfold slotAt
  rw [hm]
  omega

theorem slotAt_ne (h : a ≠ b) : slotAt a + 24 ≤ slotAt b ∨ slotAt b + 24 ≤ slotAt a := by
  have hm : META_BYTES = 24 := rfl
  have hv : a.val ≠ b.val := fun hv => h (Fin.ext hv)
  unfold slotAt
  rw [hm]
  omega

theorem recordAt_bounds (hk : k < WAL_ENTRIES) :
    g.walOffset ≤ recordAt g k ∧ recordAt g k + 24 ≤ g.walOffset + WAL_BYTES := by
  have h1 : WAL_ENTRIES = 256 := rfl
  have h2 : WAL_BYTES = 6144 := rfl
  have h3 : WAL_ENTRY_BYTES = 24 := rfl
  unfold recordAt
  rw [h3]
  omega

theorem recordAt_ne (h : i ≠ k) :
    recordAt g i + 24 ≤ recordAt g k ∨ recordAt g k + 24 ≤ recordAt g i := by
  have h3 : WAL_ENTRY_BYTES = 24 := rfl
  unfold recordAt
  rw [h3]
  omega

/-! ## the image after a write -/

theorem Image.ext_of {u v : Image} (h1 : ∀ a, u.metaSlots a = v.metaSlots a)
    (h2 : ∀ k, u.wal k = v.wal k) (h3 : ∀ j, u.bitmap j = v.bitmap j) : u = v := by
  cases u
  cases v
  rw [Image.mk.injEq]
  exact ⟨funext h1, funext h2, funext h3⟩

theorem image_wal (hk : k < WAL_ENTRIES) : (image g f).wal k = readRecord g f k := if_pos hk

theorem image_bitmap (hi : i < (g.blockCount + 7) / 8) :
    (image g f).bitmap i = f (g.bitmapOffset + i) := if_pos hi

/-! each of the three parts depends on its own bytes only -/

theorem image_slots_congr (h : ∀ x, 56 ≤ x → x < HEADER_BYTES → f' x = f x) (a : Fin 2) :
    readSlot f' a = readSlot f a := by
  have hs := slotAt_bounds a
  have hh : HEADER_BYTES = 104 := rfl
  exact readSlot_congr fun x hx hx' => h x (by omega) (by omega)

theorem image_wal_congr (h : ∀ x, g.walOffset ≤ x → x < g.walOffset + WAL_BYTES → f' x = f x)
    (k : Nat) :
    (image g f').wal k = (image g f).wal k := by
  by_cases hk : k < WAL_ENTRIES
  · have hb := recordAt_bounds (g := g) hk
    rw [image_wal hk, image_wal hk]
    exact readRecord_congr fun x hx hx' => h x (by omega) (by omega)
  · exact (if_neg hk).trans (if_neg hk).symm

theorem image_bitmap_congr
    (h : ∀ x, g.bitmapOffset ≤ x → x < g.bitmapOffset + (g.blockCount + 7) / 8 → f' x = f x)
    (j : Nat) :
    (image g f').bitmap j = (image g f).bitmap j := by
  by_cases hj : j < (g.blockCount + 7) / 8
  · rw [image_bitmap hj, image_bitmap hj]
    exact h _ (by omega) (by omega)
  · exact (if_neg hj).trans (if_neg hj).symm

/-- one record is overwritten, with anything -/
theorem image_of_record (hr : Regions ps g) (hk : k < WAL_ENTRIES)
    (h : ∀ x, x < recordAt g k ∨ recordAt g k + 24 ≤ x → f' x = f x) :
    image g f' = ⟨(image g f).metaSlots, Function.update (image g f).wal k (readRecord g f' k),
      (image g f).bitmap⟩ := by
  have hb := recordAt_bounds (g := g) hk
  have h1 := hr.header
  have h2 := hr.wal
  apply Image.ext_of
  · exact image_slots_congr fun x _ hx => h x (by omega)
  · intro j
    show (image g f').wal j = Function.update (image g f).wal k (readRecord g f' k) j
    by_cases hj : j = k
    · subst hj
      rw [Function.update_self, image_wal hk]
    · rw [Function.update_of_ne hj]
      by_cases hj' : j < WAL_ENTRIES
      · have hne := recordAt_ne (g := g) hj
        rw [image_wal hj', image_wal hj']
        exact readRecord_congr fun x hx hx' => h x (by omega)
      · exact (if_neg hj').trans (if_neg hj').symm
  · show ∀ j, (image g f').bitmap j = (image g f).bitmap j
    exact image_bitmap_congr fun x hx _ => h x (by omega)

theorem image_writeRecord (hr : Regions ps g) (hk : k < WAL_ENTRIES) (he : e.Fits) :
    image g (writeRecord g f k e)
      = ⟨(image g f).metaSlots, Function.update (image g f).wal k e, (image g f).bitmap⟩ := by
  rw [image_of_record hr hk fun x hx => writeRecord_of_notMem hx, readRecord_writeRecord he]

/-- one slot is overwritten, with anything -/
theorem image_of_slot (hr : Regions ps g) (h : ∀ x, x < slotAt a ∨ slotAt a + 24 ≤ x → f' x = f x) :
    image g f' = ⟨Function.update (image g f).metaSlots a (readSlot f' a), (image g f).wal,
      (image g f).bitmap⟩ := by
  have hb := slotAt_bounds a
  have h1 := hr.header
  have h2 := hr.wal
  have hh : HEADER_BYTES = 104 := rfl
  apply Image.ext_of
  · intro b
    show readSlot f' b = Function.update (image g f).metaSlots a (readSlot f' a) b
    by_cases hab : b = a
    · subst hab
      rw [Function.update_self]
    · rw [Function.update_of_ne hab]
      have hne := slotAt_ne hab
      exact readSlot_congr fun x hx hx' => h x (by omega)
  · show ∀ k, (image g f').wal k = (image g f).wal k
    exact image_wal_congr fun x hx _ => h x (by omega)
  · show ∀ j, (image g f').bitmap j = (image g f).bitmap j
    exact image_bitmap_congr fun x hx _ => h x (by omega)

theorem image_writeSlot (hr : Regions ps g) (hm : m.Fits) :
    image g (writeSlot f a m)
      = ⟨Function.update (image g f).metaSlots a m, (image g f).wal, (image g f).bitmap⟩ := by
  rw [image_of_slot hr fun x hx => writeSlot_of_notMem hx, readSlot_writeSlot hm]

/-- bytes of the bitmap are overwritten, with anything -/
theorem image_of_bitmap (hr : Regions ps g)
    (h : ∀ x, x < g.bitmapOffset ∨ g.bitmapOffset + (g.blockCount + 7) / 8 ≤ x → f' x = f x) :
    image g f' = ⟨(image g f).metaSlots, (image g f).wal, (image g f').bitmap⟩ := by
  have h1 := hr.header
  have h2 := hr.wal
  apply Image.ext_of
  · exact image_slots_congr fun x _ hx => h x (by omega)
  · show ∀ k, (image g f').wal k = (image g f).wal k
    exact image_wal_congr fun x _ hx => h x (by omega)
  · intro j
    rfl

theorem image_setByte (hr : Regions ps g) (hi : i < (g.blockCount + 7) / 8) (v : BitVec 8) :
    image g (f.setByte (g.bitmapOffset + i) v)
      = ⟨(image g f).metaSlots, (image g f).wal, fun j => if j
        = i then v else (image g f).bitmap j⟩ := by
  have hset : ∀ x, x ≠ g.bitmapOffset + i → f.setByte (g.bitmapOffset + i) v x = f x :=
    fun x hx => if_neg hx
  rw [image_of_bitmap (f := f) hr fun x hx => hset x (by omega)]
  refine congrArg (Image.mk _ _) (funext fun j => ?_)
  by_cases hj : j = i
  · subst hj
    rw [if_pos rfl, image_bitmap hi]
    exact if_pos rfl
  · rw [if_neg hj]
    by_cases hj' : j < (g.blockCount + 7) / 8
    · rw [image_bitmap hj', image_bitmap hj']
      exact hset _ (by omega)
    · exact (if_neg hj').trans (if_neg hj').symm

theorem byte_lt (hi : i < g.blockCount) : i / 8 < (g.blockCount + 7) / 8 := by omega

theorem bitTest_image (hi : i < g.blockCount) : bitTest g f i = (image g f).bitmap.test i := by
  unfold bitTest Bitmap.test
  rw [image_bitmap (byte_lt hi)]

theorem image_bitSet (hr : Regions ps g) (hi : i < g.blockCount) :
    image g (bitSet g f i)
      = ⟨(image g f).metaSlots, (image g f).wal, (image g f).bitmap.set i⟩ := by
  unfold bitSet
  rw [image_setByte hr (byte_lt hi), ← image_bitmap (f := f) (byte_lt hi)]
  refine congrArg (Image.mk _ _) (funext fun j => ?_)
  unfold Bitmap.set
  by_cases hj : j = i / 8
  · rw [if_pos hj, if_pos hj, hj]
  · rw [if_neg hj, if_neg hj]

theorem image_bitClear (hr : Regions ps g) (hi : i < g.blockCount) :
    image g (bitClear g f i)
      = ⟨(image g f).metaSlots, (image g f).wal, (image g f).bitmap.clear i⟩ := by
  unfold bitClear
  rw [image_setByte hr (byte_lt hi), ← image_bitmap (f := f) (byte_lt hi)]
  refine congrArg (Image.mk _ _) (funext fun j => ?_)
  unfold Bitmap.clear
  by_cases hj : j = i / 8
  · rw [if_pos hj, if_pos hj, hj]
  · rw [if_neg hj, if_neg hj]

end

/-! ## the functions on bytes and those of the model -/

/-- the counters of an open pool are words -/
structure Session.Words (p : Session) : Prop where
  used : p.usedBlocks < 2 ^ 64
  next : p.nextSeq < 2 ^ 64

theorem mkWal_fits {seq op index : Nat} (hs : seq < 2 ^ 64) (ho : op < 2 ^ 32)
    (hi : index < 2 ^ 32) :
    (mkWal seq op index).Fits := ⟨hs, ho, hi, fnv1a_lt _⟩

theorem mkMeta_fits {seq used : Nat} (hs : seq < 2 ^ 64) (hu : used < 2 ^ 64) :
    (mkMeta seq used).Fits :=
  ⟨hs, hu, fnv1a_lt _⟩

namespace Session

section
variable {ps : Nat} {p : Session} {seq op index n : Nat}

theorem view_walAppend (hr : Regions ps p.geo) (hs : seq < 2 ^ 64) (ho : op < 2 ^ 32)
    (hi : index < 2 ^ 32) :
    (p.walAppend seq op index).view = CPool.walAppend p.view seq op index := by
  have hk := ring_lt seq
  show (⟨image p.geo (writeRecord p.geo p.file (seq % WAL_ENTRIES) (mkWal seq op index)), _, _, _,
    _⟩ : Pool) = _
  rw [image_writeRecord hr hk (mkWal_fits hs ho hi)]
  rfl

theorem view_metaCommit (hr : Regions ps p.geo) (hs : seq < 2 ^ 64) (hu : p.usedBlocks < 2 ^ 64) :
    (p.metaCommit seq).view = CPool.metaCommit p.view seq := by
  show (⟨image p.geo (writeSlot p.file (other p.activeMeta) (mkMeta seq p.usedBlocks)), _, _, _, _⟩
    : Pool) = _
  rw [image_writeSlot hr (mkMeta_fits hs hu)]
  rfl

theorem applyOp_geo (p : Session) (op index : Nat) : (p.applyOp op index).geo = p.geo := by
  unfold applyOp
  split <;> split <;> rfl

theorem applyOp_nextSeq (p : Session) (op index : Nat) :
    (p.applyOp op index).nextSeq = p.nextSeq := by
  unfold applyOp
  split <;> split <;> rfl

theorem applyOp_used (hu : p.usedBlocks < 2 ^ 64) : (p.applyOp op index).usedBlocks < 2 ^ 64 := by
  unfold applyOp
  split <;> split
  · exact hu
  · exact word_lt _
  · exact word_lt _
  · exact hu

theorem view_applyOp (hr : Regions ps p.geo) (hi : index < p.geo.blockCount) :
    (p.applyOp op index).view = CPool.applyOp p.view op index := by
  have ht : bitTest p.geo p.file index = p.view.img.bitmap.test index := bitTest_image hi
  unfold applyOp CPool.applyOp
  rw [← ht]
  split
  · split
    · rfl
    · show (⟨image p.geo (bitSet p.geo p.file index), _, _, _, _⟩ : Pool) = _
      rw [image_bitSet hr hi]
      rfl
  · split
    · show (⟨image p.geo (bitClear p.geo p.file index), _, _, _, _⟩ : Pool) = _
      rw [image_bitClear hr hi]
      rfl
    · rfl

theorem view_commit (hr : Regions ps p.geo) (hw : p.Words) (ho : op < 2 ^ 32)
    (hi : index < p.geo.blockCount) (hi32 : index < 2 ^ 32) :
    (p.commit op index).view = CPool.commit p.view op index := by
  have hr1 : Regions ps (walAppend (takeSeq p) p.nextSeq op index).geo := hr
  have hr2 : Regions ps (applyOp (walAppend (takeSeq p) p.nextSeq op index) op index).geo := by
    rw [applyOp_geo]
    exact hr
  unfold commit CPool.commit
  rw [view_metaCommit hr2 hw.next (applyOp_used hw.used), view_applyOp hr1 hi,
    view_walAppend (p := takeSeq p) hr hw.next ho hi32]
  rfl

theorem commit_geo (p : Session) (op index : Nat) : (p.commit op index).geo = p.geo :=
  applyOp_geo _ _ _

theorem Words.commit (hw : p.Words) : (p.commit op index).Words := by
  refine ⟨applyOp_used hw.used, ?_⟩
  show (applyOp (walAppend (takeSeq p) p.nextSeq op index) op index).nextSeq < 2 ^ 64
  rw [applyOp_nextSeq]
  exact word_lt _

/-! ## recovery -/

def Replay.view (r : Replay) : CPool.Replay := ⟨r.pool.view, r.maxSeq, r.replayed⟩

/-- what the loop keeps -/
structure Replay.Ok (ps : Nat) (g : Layout) (r : Replay) : Prop where
  geo : r.pool.geo = g
  log : LogIn g.blockCount r.pool.view.img
  used : r.pool.usedBlocks < 2 ^ 64
  max : r.maxSeq < 2 ^ 64

theorem view_replayStep {g : Layout} {r : Replay} (hr : Regions ps g) (h : r.Ok ps g) (s : Nat) :
    (replayStep r s).view = CPool.replayStep r.view s ∧ (replayStep r s).Ok ps g := by
  obtain ⟨hg, hl, hu, hm⟩ := h
  have hk := ring_lt s
  have he : r.view.pool.img.wal (s % WAL_ENTRIES)
      = readRecord r.pool.geo r.pool.file (s % WAL_ENTRIES) :=
    image_wal hk
  unfold replayStep CPool.replayStep
  dsimp only
  rw [he]
  split
  · exact ⟨rfl, hg, hl, hu, hm⟩
  · rename_i hv
    obtain ⟨hseq, hvalid⟩ := not_or.mp hv
    rw [not_not] at hseq hvalid
    have hidx : (readRecord r.pool.geo r.pool.file (s % WAL_ENTRIES)).index
        < r.pool.geo.blockCount := by
      have hlog := hl (s % WAL_ENTRIES)
      rw [show r.pool.view.img.wal (s % WAL_ENTRIES) = _ from he, ← hg] at hlog
      exact hlog hvalid
    have hgeo : Regions ps r.pool.geo := by
      rw [hg]
      exact hr
    have hview : (applyOp r.pool (readRecord r.pool.geo r.pool.file (s % WAL_ENTRIES)).op
          (readRecord r.pool.geo r.pool.file (s % WAL_ENTRIES)).index).view
        = CPool.applyOp r.pool.view (readRecord r.pool.geo r.pool.file (s % WAL_ENTRIES)).op
          (readRecord r.pool.geo r.pool.file (s % WAL_ENTRIES)).index := view_applyOp hgeo hidx
    refine ⟨?_, (applyOp_geo _ _ _).trans hg, ?_, applyOp_used hu, ?_⟩
    · show (⟨(applyOp r.pool _ _).view, _, _⟩ : CPool.Replay) = _
      rw [hview]
      rfl
    · exact hl.congr ((congrArg (fun q => q.img.wal) hview).trans (applyOp_wal _ _ _))
    · have : s < 2 ^ 64 := by
        rw [← hseq]
        exact Mem.load64_lt _ _
      exact Nat.max_lt.mpr ⟨hm, this⟩

theorem view_foldl {g : Layout} (hr : Regions ps g) (l : List Nat) (r : Replay) (h : r.Ok ps g) :
    (l.foldl replayStep r).view = l.foldl CPool.replayStep r.view
    ∧ (l.foldl replayStep r).Ok ps g := by
  induction l generalizing r with
  | nil => exact ⟨rfl, h⟩
  | cons s l ih =>
    obtain ⟨h1, h2⟩ := view_replayStep hr h s
    rw [List.foldl_cons, List.foldl_cons, ← h1]
    exact ih _ h2

theorem selectMeta_lt {img : Image} (h : ∀ i, (img.metaSlots i).seq < 2 ^ 64) :
    (selectMeta img).2 < 2 ^ 64 := by
  have hpick : ∀ (best : Option (Fin 2 × Nat)) (i : Fin 2), (∀ b ∈ best, b.2 < 2 ^ 64) →
      ∀ b ∈ pickMeta img best i, b.2 < 2 ^ 64 := by
    intro best i hb c hc
    unfold pickMeta at hc
    cases best with
    | none =>
      dsimp only at hc
      split at hc
      · cases hc
        exact h i
      · cases hc
    | some q =>
      dsimp only at hc
      split at hc
      · cases hc
        exact h i
      · cases hc
        exact hb _ rfl
  unfold selectMeta
  cases hsel : pickMeta img (pickMeta img none 0) 1 with
  | none => decide
  | some b => exact hpick _ 1 (hpick none 0 fun b hb => by cases hb) b hsel

theorem view_beginRecover (hr : Regions ps p.geo) (hl : LogIn p.geo.blockCount p.view.img) :
    (beginRecover p).view = CPool.beginRecover p.view ∧ (beginRecover p).Ok ps p.geo := by
  have hcount : (List.range p.geo.blockCount).countP (bitTest p.geo p.file)
      = p.view.img.bitmap.count p.geo.blockCount := countP_range_same fun j hj => bitTest_image hj
  have hslots : ∀ i, ((image p.geo p.file).metaSlots i).seq < 2 ^ 64 :=
    fun i => Mem.load64_lt p.file (slotAt i)
  have hsel := selectMeta_lt hslots
  have hlt : (List.range p.geo.blockCount).countP (bitTest p.geo p.file) < 2 ^ 64 :=
    lt_of_le_of_lt (countP_range_le _ _) hr.count
  unfold beginRecover CPool.beginRecover
  constructor
  · unfold Replay.view
    dsimp only
    unfold view
    dsimp only
    rw [hcount]
    rfl
  · refine ⟨rfl, hl, hlt, ?_⟩
    dsimp only
    exact hsel

theorem view_replayed (hr : Regions ps p.geo) (hl : LogIn p.geo.blockCount p.view.img) (k : Nat) :
    (replayed p k).view = CPool.replayed p.view k := by
  obtain ⟨h1, h2⟩ := view_beginRecover hr hl
  have h3 := (view_foldl hr ((replaySeqs (selectMeta (image p.geo p.file)).2).take k) _ h2).1
  rw [h1] at h3
  exact h3

theorem view_replayAll (hr : Regions ps p.geo) (hl : LogIn p.geo.blockCount p.view.img) :
    (replayAll p).view = CPool.replayAll p.view ∧ (replayAll p).Ok ps p.geo := by
  obtain ⟨h1, h2⟩ := view_beginRecover hr hl
  obtain ⟨h3, h4⟩ := view_foldl hr (replaySeqs (selectMeta (image p.geo p.file)).2) _ h2
  rw [h1] at h3
  exact ⟨h3, h4⟩

/-- the end of a recovery -/
theorem view_finish {g : Layout} {r : Replay} (hr : Regions ps g) (h : r.Ok ps g) :
    (if r.replayed then metaCommit { r.pool with nextSeq := (r.maxSeq + 1) % 2 ^ 64 } r.maxSeq
      else { r.pool with nextSeq := (r.maxSeq + 1) % 2 ^ 64 }).view
      = (if r.view.replayed then
          CPool.metaCommit { r.view.pool with nextSeq := (r.view.maxSeq + 1) % 2 ^ 64 }
            r.view.maxSeq
        else { r.view.pool with nextSeq := (r.view.maxSeq + 1) % 2 ^ 64 })
    ∧ (if r.replayed then metaCommit { r.pool with nextSeq := (r.maxSeq + 1) % 2 ^ 64 } r.maxSeq
      else { r.pool with nextSeq := (r.maxSeq + 1) % 2 ^ 64 }).geo = g
    ∧ (if r.replayed then metaCommit { r.pool with nextSeq := (r.maxSeq + 1) % 2 ^ 64 } r.maxSeq
      else { r.pool with nextSeq := (r.maxSeq + 1) % 2 ^ 64 }).Words := by
  obtain ⟨rfl, -, hu, hm⟩ := h
  obtain ⟨q, s, b⟩ := r
  cases b with
  | true =>
    refine ⟨?_, rfl, hu, word_lt _⟩
    exact view_metaCommit (p := { q with nextSeq := (s + 1) % 2 ^ 64 }) hr hm hu
  | false => exact ⟨rfl, rfl, hu, word_lt _⟩

theorem view_recover (hr : Regions ps p.geo) (hl : LogIn p.geo.blockCount p.view.img) :
    p.recover.view = CPool.recover p.view ∧ p.recover.geo = p.geo ∧ p.recover.Words := by
  obtain ⟨hv, hok⟩ := view_replayAll hr hl
  unfold recover CPool.recover
  dsimp only
  rw [← hv]
  exact view_finish hr hok

/-! ## the interface -/

theorem view_firstFree (p : Session) : p.firstFree = CPool.firstFree p.view := by
  unfold firstFree CPool.firstFree
  apply List.find?_congr
  intro i hi
  rw [bitTest_image (List.mem_range.mp hi)]
  rfl

theorem view_allocateOp (p : Session) : p.allocateOp = CPool.allocateOp p.view := by
  unfold allocateOp CPool.allocateOp
  rw [view_firstFree]

theorem view_freeOp (p : Session) (i : Nat) : p.freeOp i = CPool.freeOp p.view i := by
  unfold freeOp CPool.freeOp
  by_cases hi : i < p.geo.blockCount
  · rw [bitTest_image hi]
    rfl
  · rw [if_neg fun h => hi h.1, if_neg fun h => hi h.1]

/-- an operation that a call commits -/
structure IsOp (p : Session) (o : Nat × Nat) : Prop where
  op : o.1 < 2 ^ 32
  block : o.2 < p.geo.blockCount

theorem allocateOp_isOp {o : Nat × Nat} (h : p.allocateOp = some o) : IsOp p o := by
  obtain ⟨i, hi, rfl⟩ := Option.map_eq_some_iff.mp h
  exact ⟨show WAL_OP_ALLOC < 2 ^ 32 by decide, List.mem_range.mp (List.mem_of_find?_eq_some hi)⟩

theorem freeOp_isOp {o : Nat × Nat} {i : Nat} (h : p.freeOp i = some o) : IsOp p o := by
  unfold freeOp at h
  split at h
  · rename_i hc
    cases h
    exact ⟨show WAL_OP_FREE < 2 ^ 32 by decide, hc.1⟩
  · cases h

theorem view_commitOp (hr : Regions ps p.geo) (hw : p.Words) {o : Option (Nat × Nat)}
    (ho : ∀ x ∈ o, IsOp p x) :
    (p.commitOp o).view = CPool.commitOp p.view o ∧ (p.commitOp o).geo = p.geo
    ∧ (p.commitOp o).Words := by
  cases o with
  | none => exact ⟨rfl, rfl, hw⟩
  | some x =>
    obtain ⟨h1, h2⟩ := ho x rfl
    refine ⟨view_commit hr hw h1 (lt_of_le_of_lt (Nat.mod_le _ _) h2) (half_lt _),
      commit_geo _ _ _, hw.commit⟩

end

end Session

end HeapForge.CPool
