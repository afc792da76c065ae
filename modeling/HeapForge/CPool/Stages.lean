import HeapForge.CPool.Commands
import HeapForge.CPool.Lag

/-!
# A call of the pool under way

`hf_pool_allocate`, `hf_pool_free` and the recovery of `hf_pool_open` write a slot last, the bitmap
before it, and the first two a record before that.  At each command the cached file is one of which
at most the record or the slot being written is half there, and the disk lags behind it.

* `Behind`, `HalfFile`   `Lag` and `Half`, for the bytes of files;
* `Plan`                 the writes of a call from the bitmap on;
* `AtRecord`, `AtBits`, `AtMeta`   the three places where a call can be;
* `AtRecord.exec`, `AtBits.exec`, `AtMeta.exec`   **one command leads from each to itself or the
                                                  next.**
-/

set_option linter.unusedSectionVars false
set_option linter.unusedVariables false

namespace HeapForge.CPool
open Lib

/-! ## files that differ in the data only -/

section
variable {ps K : Nat} {g : Layout} {f f' c c' d d' base : Mem} {a : Fin 2} {v : Nat} {b : Bitmap}
  {o : Option (Nat × Nat)}

theorem Regions.header_below (hr : Regions ps g) : HEADER_BYTES + WAL_BYTES ≤ g.dataOffset := by
  have h1 := hr.header
  have h2 := hr.wal
  have h3 := hr.bitmap
  omega

theorem image_below (hr : Regions ps g) (h : ∀ x < g.dataOffset, f' x = f x) :
    image g f' = image g f := by
  have h1 := hr.header
  have h2 := hr.wal
  have h3 := hr.bitmap
  apply Image.ext_of
  · exact image_slots_congr fun x _ hx => h x (by omega)
  · exact image_wal_congr fun x _ hx => h x (by omega)
  · exact image_bitmap_congr fun x _ hx => h x (by omega)

theorem readSlot_below (hr : Regions ps g) (h : ∀ x < g.dataOffset, f' x = f x) (a : Fin 2) :
    readSlot f' a = readSlot f a :=
  congrFun (congrArg Image.metaSlots (image_below hr h)) a

theorem readRecord_below (hr : Regions ps g) (h : ∀ x < g.dataOffset, f' x = f x) {k : Nat}
    (hk : k < WAL_ENTRIES) : readRecord g f' k = readRecord g f k := by
  have hw := congrFun (congrArg Image.wal (image_below hr h)) k
  rwa [image_wal hk, image_wal hk] at hw

theorem Caught.below (hr : Regions ps g) {old new : Mem} (hc : Caught g old new f)
    (h : ∀ x < g.dataOffset, f' x = f x) : Caught g old new f' := by
  constructor
  · intro k hk
    rw [readRecord_below hr h hk]
    exact hc.record k hk
  · intro a
    rw [readSlot_below hr h]
    exact hc.slot a

theorem head_below (hr : Regions ps g) {x : Nat} (hx : x < 56) : x < g.dataOffset := by
  have h1 := hr.header_below
  have hh : HEADER_BYTES = 104 := rfl
  omega

/-! ## the file and its disk -/

/-- the disk `d` behind the file `f` -/
structure Behind (g : Layout) (K : Nat) (f d : Mem) (a : Fin 2) (v : Nat) (b : Bitmap)
    (o : Option (Nat × Nat)) : Prop where
  static : Static g f
  head : ∀ x < 56, d x = f x
  lag : Lag g.blockCount K (image g f) (image g d) a v b o

/-- the file `f`, of which the cached file `c` may have a part half written -/
structure HalfFile (g : Layout) (f c : Mem) (a : Fin 2) (v : Nat) (b : Bitmap)
    (o : Option (Nat × Nat)) :
    Prop where
  head : ∀ x < 56, c x = f x
  half : Half (image g f) (image g c) a v
  bits : Outcome b o (image g c).bitmap

theorem Behind.mono {J : Nat} (h : Behind g K f d a v b o) (hJ : K ≤ J) : Behind g J f d a v b o :=
  ⟨h.static, h.head, h.lag.mono hJ⟩

theorem Behind.below (hr : Regions ps g) (h : Behind g K f d a v b o)
    (hf : ∀ x < g.dataOffset, f' x = f x) (hd : ∀ x < g.dataOffset, d' x = d x) :
    Behind g K f' d' a v b o := by
  refine ⟨h.static.same fun x hx => hf x (head_below hr hx), fun x hx => ?_, ?_⟩
  · rw [hf x (head_below hr hx), hd x (head_below hr hx)]
    exact h.head x hx
  · rw [image_below hr hf, image_below hr hd]
    exact h.lag

theorem Behind.half (h : Behind g K f d a v b o) (hc : HalfFile g f c a v b o) :
    Behind g K c d a v b o :=
  ⟨h.static.same hc.head, fun x hx => (h.head x hx).trans (hc.head x hx).symm,
  h.lag.half hc.half hc.bits⟩

theorem HalfFile.below (hr : Regions ps g) (h : HalfFile g f c a v b o)
    (hc : ∀ x < g.dataOffset, c' x = c x) : HalfFile g f c' a v b o := by
  refine ⟨fun x hx => (hc x (head_below hr hx)).trans (h.head x hx), ?_, ?_⟩
  · rw [image_below hr hc]
    exact h.half
  · rw [image_below hr hc]
    exact h.bits

/-- nothing is half written -/
theorem Behind.whole (hr : Regions ps g) (h : Behind g K f d a v b o)
    (hc : ∀ x < g.dataOffset, c x = f x) : HalfFile g f c a v b o :=
  HalfFile.below hr ⟨fun _ _ => rfl, Half.refl _ _ _, h.lag.file⟩ hc

/-- a slot that is on the disk stays there if nobody writes it -/
theorem readSlot_mix (hd : readSlot d a = readSlot f a) (hc : readSlot c a = readSlot f a)
    (hmix : ∀ x, d' x = d x ∨ d' x = c x) : readSlot d' a = readSlot f a := by
  refine readSlot_congr fun x hx hx' => ?_
  rcases hmix x with h | h
  · rw [h]
    exact slot_bytes hd hx hx'
  · rw [h]
    exact slot_bytes hc hx hx'

/-- **A write-back**, with half-written records and slots failing their checksums. -/
theorem Behind.writeBack (h : Behind g K f d a v b o) (hc : HalfFile g f c a v b o)
    (hcaught : Caught g d c d') (hmix : ∀ x, d' x = d x ∨ d' x = c x) :
    Behind g K f d' a v b o := by
  refine ⟨h.static, fun x hx => ?_, h.lag.mix hc.half hcaught.slot (fun j hj => ?_) (fun hk => ?_)
    (Outcome.mix fun j => ?_)⟩
  · rcases hmix x with hx' | hx'
    · rw [hx']
      exact h.head x hx
    · rw [hx']
      exact hc.head x hx
  · by_cases hjk : j < WAL_ENTRIES
    · rw [image_wal hjk] at hj ⊢
      rw [image_wal hjk, image_wal hjk]
      exact hcaught.record j hjk hj
    · exact Or.inl ((if_neg hjk).trans (if_neg hjk).symm)
  · exact readSlot_mix hk hc.half.active hmix
  · by_cases hj : j < (g.blockCount + 7) / 8
    · rcases hmix (g.bitmapOffset + j) with hx | hx
      · refine ⟨_, h.lag.disk, ?_⟩
        rw [image_bitmap hj, image_bitmap hj, hx]
      · refine ⟨_, hc.bits, ?_⟩
        rw [image_bitmap hj, image_bitmap hj, hx]
    · exact ⟨_, h.lag.disk, (if_neg hj).trans (if_neg hj).symm⟩

/-! ## half a batch -/

/-- bytes of the bitmap are being written -/
theorem HalfFile.bitmap (hr : Regions ps g)
    (hsame : ∀ x, x < g.bitmapOffset ∨ g.bitmapOffset + (g.blockCount + 7) / 8 ≤ x → f' x = f x)
    (hb : Outcome b o (image g f').bitmap) : HalfFile g f f' a v b o := by
  have himg := image_of_bitmap hr hsame
  have hslots : (image g f').metaSlots = (image g f).metaSlots := by rw [himg]
  have hwal : (image g f').wal = (image g f).wal := by rw [himg]
  have h1 := hr.header
  have h2 := hr.wal
  have hh : HEADER_BYTES = 104 := rfl
  refine ⟨fun x hx => hsame x (by omega), ⟨fun i _ => congrFun hslots i, congrFun hslots a,
    fun j _ => congrFun hwal j, fun s e _ hs => ?_⟩, hb⟩
  rw [hwal]
  exact hs

/-- the slot that is not `a` is being written -/
theorem HalfFile.slot (hr : Regions ps g)
    (hsame : ∀ x, x < slotAt (other a) ∨ slotAt (other a) + 24 ≤ x → f' x = f x)
    (hv : (readSlot f' (other a)).Valid → readSlot f' (other a) = readSlot f (other a))
    (hb : Outcome b o (image g f).bitmap) : HalfFile g f f' a v b o := by
  have himg := image_of_slot hr hsame
  have hwal : (image g f').wal = (image g f).wal := by rw [himg]
  have hbits : (image g f').bitmap = (image g f).bitmap := by rw [himg]
  have hact : (image g f').metaSlots a = (image g f).metaSlots a := by
    rw [himg]
    exact Function.update_of_ne (other_ne a).symm _ _
  have hs := slotAt_bounds (other a)
  refine ⟨fun x hx => hsame x (by omega), ⟨fun i hi => ?_, hact, fun j _ => congrFun hwal j,
    fun s e _ hs => ?_⟩, ?_⟩
  · rcases eq_or_other a i with rfl | rfl
    · exact hact
    · exact hv hi
  · rw [hwal]
    exact hs
  · rw [hbits]
    exact hb

/-- a record is being written, and none is beyond the watermark -/
theorem HalfFile.record {k : Nat} (hr : Regions ps g) (hk : k < WAL_ENTRIES)
    (hsame : ∀ x, x < recordAt g k ∨ recordAt g k + 24 ≤ x → f' x = f x)
    (hv : (readRecord g f' k).Valid → readRecord g f' k = readRecord g f k)
    (hd : Done (image g f) v) (hb : Outcome b o (image g f).bitmap) : HalfFile g f f' a v b o := by
  have himg := image_of_record hr hk hsame
  have hslots : (image g f').metaSlots = (image g f).metaSlots := by rw [himg]
  have hbits : (image g f').bitmap = (image g f).bitmap := by rw [himg]
  have hrec := recordAt_bounds (g := g) hk
  have h1 := hr.header
  have hh : HEADER_BYTES = 104 := rfl
  refine ⟨fun x hx => hsame x (by omega), ⟨fun i _ => congrFun hslots i, congrFun hslots a,
    fun j hj => ?_, fun s e hlt hs => ?_⟩, ?_⟩
  · by_cases hjk : j = k
    · subst hjk
      rw [image_wal hk] at hj ⊢
      rw [image_wal hk]
      exact hv hj
    · rw [himg]
      exact Function.update_of_ne hjk _ _
  · exact absurd (hd s e hs) (by omega)
  · rw [hbits]
    exact hb

end

/-! ## the writes of a call -/

/-- a call that finds the watermark `v` in slot `a` and the blocks `b`: it writes `bits` into the
bitmap of the file `f` for the operation `o`, waits for `wait`, and lets the session `r` write the
slot of `w` -/
structure Plan where
  a : Fin 2
  v : Nat
  b : Bitmap
  o : Option (Nat × Nat)
  f : Mem
  bits : List (Nat × BitVec 8)
  wait : Nat → Bool
  r : Session
  w : Nat

namespace Plan

def slot (t : Plan) : MetaSlot := mkMeta t.w t.r.usedBlocks

def cmds (ps : Nat) (t : Plan) : List (Cmd Nat (BitVec 8)) :=
  puts t.bits ++ .sync t.wait :: t.r.metaCmds ps t.w

/-- the blocks when the call is done -/
def result (g : Layout) (t : Plan) : Bitmap := (image g t.r.file).bitmap

/-- the call began with the file `base` and leaves the session `p`; with `y` false the disk was not
behind when it began -/
structure Ok (g : Layout) (K : Nat) (y : Bool) (base : Mem) (p : Session) (t : Plan) : Prop where
  mark : Marked (image g base) t.a t.v
  slots : ∀ i, readSlot t.f i = readSlot base i
  head : ∀ x < 56, t.f x = base x
  wrote : write t.bits t.f = t.r.file
  act : t.r.activeMeta = t.a
  fits : t.slot.Fits
  file : p.file = writeSlot t.r.file (other t.a) t.slot
  geo : p.geo = g
  words : p.Words
  next : p.nextSeq = t.w + 1
  active : p.activeMeta = other t.a
  lt : t.v < t.w
  le : t.w ≤ K
  one : y = false → t.w = t.v + 1
  inside : ∀ e ∈ t.bits, g.bitmapOffset ≤ e.1 ∧ e.1 < g.bitmapOffset + (g.blockCount + 7) / 8
  outcome : ∀ f', Partly t.bits t.f f' → Outcome t.b t.o (image g f').bitmap
  waits : ∀ x, t.o = some x → t.wait (g.bitmapOffset + x.2 / 8) = true
  done : Done (image g t.f) t.w
  last : ∀ e, record (image g t.f).wal t.w = some e →
    applied (t.result g) (e.op, e.index) = t.result g

/-- the bitmap is being written -/
structure AtBits (ps : Nat) (g : Layout) (K : Nat) (t : Plan) (todo : List (Cmd Nat (BitVec 8)))
    (c d : Mem) : Prop where
  within : Within (· < g.dataOffset) t.f t.bits t.wait (t.r.metaCmds ps t.w) todo c
  behind : Behind g K t.f d t.a t.v t.b t.o

/-- the slot is being written: it is half there, or all of it -/
structure AtMeta (ps : Nat) (g : Layout) (K : Nat) (p : Session) (t : Plan)
    (todo : List (Cmd Nat (BitVec 8))) (c d : Mem) : Prop where
  within : Within (· < g.dataOffset) t.r.file (slotPuts (other t.a) t.slot)
    (syncedRange ps (slotAt (other t.a)) META_BYTES) [] todo c
  bits : (image g d).bitmap = t.result g
  phase : (Behind g K t.r.file d t.a t.v t.b t.o ∧ HalfFile g t.r.file c t.a t.v t.b t.o)
    ∨ (readSlot c (other t.a) = t.slot ∧ Behind g K p.file d (other t.a) t.w (t.result g) none)

/-- the place and the record of a call -/
def ring (t : Plan) : Nat := (t.v + 1) % WAL_ENTRIES
def entry (t : Plan) (x : Nat × Nat) : WalEntry := mkWal (t.v + 1) x.1 x.2

/-- the record is being written: it is half there, or all of it -/
structure AtRecord (ps : Nat) (g : Layout) (K : Nat) (base : Mem) (t : Plan) (x : Nat × Nat)
    (todo : List (Cmd Nat (BitVec 8))) (c d : Mem) : Prop where
  op : t.o = some x
  file : t.f = writeRecord g base t.ring (t.entry x)
  fits : (t.entry x).Fits
  block : x.2 < g.blockCount
  done : Done (image g base) t.v
  within : Within (· < g.dataOffset) base (recordPuts g t.ring (t.entry x))
    (syncedRange ps (recordAt g t.ring) WAL_ENTRY_BYTES) (t.cmds ps) todo c
  phase : (Behind g K base d t.a t.v t.b none ∧ HalfFile g base c t.a t.v t.b none)
    ∨ (readRecord g c t.ring = t.entry x ∧ Behind g K t.f d t.a t.v t.b t.o)

section
variable {ps K : Nat} {g : Layout} {y : Bool} {base f c c' d d' : Mem} {p : Session} {t : Plan}
  {x : Nat × Nat} {cmd : Cmd Nat (BitVec 8)} {todo : List (Cmd Nat (BitVec 8))}
  {io : Cached Nat (BitVec 8)}

/-! the bitmap -/

theorem bits_same (h : t.Ok g K y base p) (hf : Partly t.bits t.f f) {z : Nat}
    (hz : z < g.bitmapOffset ∨ g.bitmapOffset + (g.blockCount + 7) / 8 ≤ z) : f z = t.f z := by
  rcases hf z with hold | hnew
  · exact hold
  · have hin := h.inside _ hnew
    omega

theorem Ok.partly (h : t.Ok g K y base p) : Partly t.bits t.f t.r.file := by
  rw [← h.wrote]
  exact write_partly _ _

theorem Ok.result_outcome (h : t.Ok g K y base p) : Outcome t.b t.o (t.result g) :=
  h.outcome _ h.partly

theorem AtBits.half (hr : Regions ps g) (ht : t.Ok g K y base p) (h : t.AtBits ps g K todo c d) :
    HalfFile g t.f c t.a t.v t.b t.o := by
  obtain ⟨f', hpart, hc⟩ := h.within.partly
  exact (HalfFile.bitmap hr (fun z hz => bits_same ht hpart hz) (ht.outcome f' hpart)).below hr hc

/-- the file before the slot is written has the record and the slots of `f` -/
theorem Ok.image_r (hr : Regions ps g) (h : t.Ok g K y base p) :
    image g t.r.file = ⟨(image g t.f).metaSlots, (image g t.f).wal, t.result g⟩ :=
  image_of_bitmap hr fun z hz => bits_same h h.partly hz

theorem AtBits.exec (hr : Regions ps g) (ht : t.Ok g K y base p)
    (h : t.AtBits ps g K (cmd :: todo) io.cache io.disk)
    (hd : Caught g io.disk io.cache (cmd.exec io).disk) :
    t.AtBits ps g K todo (cmd.exec io).cache (cmd.exec io).disk
      ∨ t.AtMeta ps g K p todo (cmd.exec io).cache (cmd.exec io).disk := by
  rcases h.within.step with ⟨z, u, rfl, -, hw⟩ | ⟨rfl, rfl, hc⟩
  · exact Or.inl ⟨hw, h.behind⟩
  · right
    rw [ht.wrote] at hc
    have hb : Behind g K t.f (io.writeBack t.wait).disk t.a t.v t.b t.o :=
      h.behind.writeBack (h.half hr ht) hd (writeBack_disk io t.wait)
    have hfile : HalfFile g t.f t.r.file t.a t.v t.b t.o :=
      HalfFile.bitmap hr (fun z hz => bits_same ht ht.partly hz) ht.result_outcome
    have hbr := hb.half hfile
    refine ⟨?_, ?_, Or.inl ⟨hbr, hbr.whole hr hc⟩⟩
    · have hs := Within.start (· < g.dataOffset) t.r.file (slotPuts (other t.a) t.slot)
        (syncedRange ps (slotAt (other t.a)) META_BYTES) []
      rw [← ht.act] at hs ⊢
      exact hs.congr hc
    · -- the byte of the call has been waited for
      refine hb.lag.disk.eq_of_byte ht.result_outcome fun x hx => ?_
      have hj : x.2 / 8 < (g.blockCount + 7) / 8 := byte_lt (hb.lag.block x hx)
      have hlt := hr.bitmap
      refine (image_bitmap hj).trans (Eq.trans ?_ (image_bitmap hj).symm)
      rw [← hc _ (by omega)]
      exact if_pos (ht.waits x hx)

theorem AtBits.writeBack (hr : Regions ps g) (ht : t.Ok g K y base p) (h : t.AtBits ps g K todo c d)
    (hd : Caught g d c d') (hmix : ∀ z, d' z = d z ∨ d' z = c z) : t.AtBits ps g K todo c d' :=
  ⟨h.within, h.behind.writeBack (h.half hr ht) hd hmix⟩

/-! the slot -/

theorem Ok.image_file (hr : Regions ps g) (h : t.Ok g K y base p) :
    image g p.file = ⟨Function.update (image g t.f).metaSlots (other t.a) t.slot, (image g t.f).wal,
      t.result g⟩ := by
  rw [h.file, image_writeSlot hr h.fits, h.image_r hr]

theorem Ok.file_of_notMem (h : t.Ok g K y base p) {z : Nat}
    (hz : z < slotAt (other t.a) ∨ slotAt (other t.a) + 24 ≤ z) : p.file z = t.r.file z := by
  rw [h.file]
  exact writeSlot_of_notMem hz

/-- when the slot stands, the file is the one that the call leaves -/
theorem AtMeta.whole (ht : t.Ok g K y base p) (h : t.AtMeta ps g K p todo c d)
    (hs : readSlot c (other t.a) = t.slot) : ∀ z < g.dataOffset, c z = p.file z := by
  obtain ⟨f', hpart, hc⟩ := h.within.partly
  have hslot : readSlot c (other t.a) = readSlot p.file (other t.a) := by
    rw [hs, ht.file, readSlot_writeSlot ht.fits]
  intro z hz
  by_cases hin : z < slotAt (other t.a) ∨ slotAt (other t.a) + 24 ≤ z
  · rw [hc z hz, partly_slot hpart hin, ht.file_of_notMem hin]
  · exact slot_bytes hslot (by omega) (by omega)

/-- the slot is written, or is what it was, or fails its checksum -/
theorem AtMeta.halfFile (hr : Regions ps g) (ht : t.Ok g K y base p)
    (hw : Within (· < g.dataOffset) t.r.file (slotPuts (other t.a) t.slot)
      (syncedRange ps (slotAt (other t.a)) META_BYTES) [] todo c)
    (hc : Caught g base p.file c) :
    readSlot c (other t.a) = t.slot ∨ HalfFile g t.r.file c t.a t.v t.b t.o := by
  obtain ⟨f', hpart, hf⟩ := hw.partly
  by_cases hs : readSlot c (other t.a) = t.slot
  · exact Or.inl hs
  · refine Or.inr ((HalfFile.slot hr (fun z hz => partly_slot hpart hz) (fun hv => ?_)
      ht.result_outcome).below hr hf)
    rw [← readSlot_below hr hf] at hv ⊢
    have hbase : readSlot t.r.file (other t.a) = readSlot base (other t.a) := by
      rw [← ht.slots]
      exact congrFun (congrArg Image.metaSlots (ht.image_r hr)) (other t.a)
    rcases hc.slot _ hv with hold | hnew
    · rw [hold, hbase]
    · refine absurd (hnew.trans ?_) hs
      rw [ht.file, readSlot_writeSlot ht.fits]

theorem Ok.advance (hr : Regions ps g) (h : t.Ok g K y base p)
    (hb : Behind g K t.r.file d t.a t.v t.b t.o) (hbits : (image g d).bitmap = t.result g) :
    Behind g K p.file d (other t.a) t.w (t.result g) none := by
  have hsame : ∀ z < 56, p.file z = t.r.file z := by
    intro z hz
    have hs := slotAt_bounds (other t.a)
    exact h.file_of_notMem (by omega)
  have himg := h.image_file hr
  have himr := h.image_r hr
  refine ⟨hb.static.same hsame, fun z hz => (hb.head z hz).trans (hsame z hz).symm, ?_⟩
  have hwal : (image g t.r.file).wal = (image g t.f).wal := by rw [himr]
  have hslots : (image g p.file).metaSlots
      = Function.update (image g t.r.file).metaSlots (other t.a) (mkMeta t.w t.r.usedBlocks) := by
    rw [himg, himr]
    rfl
  refine hb.lag.advance h.lt h.le ?_ hbits ?_ hslots ?_ ?_
  · unfold Done
    rw [hwal]
    exact h.done
  · rw [hwal]
    exact h.last
  · rw [himg, hwal]
  · rw [himg]
    rfl

theorem AtMeta.exec (hr : Regions ps g) (ht : t.Ok g K y base p)
    (h : t.AtMeta ps g K p (cmd :: todo) io.cache io.disk)
    (hc : Caught g base p.file (cmd.exec io).cache)
    (hd : Caught g io.disk io.cache (cmd.exec io).disk) :
    t.AtMeta ps g K p todo (cmd.exec io).cache (cmd.exec io).disk
      ∨ (todo = [] ∧ (∀ z < g.dataOffset, (cmd.exec io).cache z = p.file z)
        ∧ Behind g K p.file (cmd.exec io).disk (other t.a) t.w (t.result g) none
        ∧ readSlot (cmd.exec io).disk (other t.a) = readSlot p.file (other t.a)) := by
  have hstep := h.within.step
  rcases hstep with ⟨z, u, rfl, hmem, hw⟩ | ⟨rfl, rfl, hfull⟩
  · refine Or.inl ⟨hw, h.bits, ?_⟩
    rcases h.phase with ⟨hb, -⟩ | ⟨hs, hb⟩
    · rcases AtMeta.halfFile hr ht hw hc with hs | hhalf
      · exact Or.inr ⟨hs, ht.advance hr hb h.bits⟩
      · exact Or.inl ⟨hb, hhalf⟩
    · -- the byte is there already
      refine Or.inr ⟨?_, hb⟩
      have hwhole := h.whole ht hs
      obtain ⟨h1, h2, h3⟩ := mem_fieldPuts t.r.file hmem
      have hu : u = p.file z := by
        rw [ht.file]
        exact h3
      have hz : z < g.dataOffset := by
        have hlow := hr.header_below
        have hh : HEADER_BYTES = 104 := rfl
        have hs' := slotAt_bounds (other t.a)
        have h2' : z < slotAt (other t.a) + 24 := h2
        omega
      rw [← hs]
      refine readSlot_below hr (fun q hq => ?_) _
      show Function.update io.cache z u q = io.cache q
      by_cases hqz : q = z
      · rw [hqz, Function.update_self, hu, hwhole z hz]
      · exact Function.update_of_ne hqz _ _
  · right
    have hfile : ∀ z < g.dataOffset, io.cache z = p.file z := by
      intro z hz
      rw [hfull z hz, write_slotPuts, ht.file]
    have hb : Behind g K p.file io.disk (other t.a) t.w (t.result g) none := by
      rcases h.phase with ⟨hb, -⟩ | ⟨-, hb⟩
      · exact ht.advance hr hb h.bits
      · exact hb
    refine ⟨rfl, hfile, hb.writeBack (hb.whole hr hfile) hd (writeBack_disk io _), ?_⟩
    rw [← readSlot_below hr hfile]
    exact readSlot_congr fun q hq hq' => if_pos (syncedRange_covers hq hq')

theorem AtMeta.writeBack (hr : Regions ps g) (ht : t.Ok g K y base p)
    (h : t.AtMeta ps g K p todo c d) (hd : Caught g d c d') (hmix : ∀ z, d' z = d z ∨ d' z = c z) :
    t.AtMeta ps g K p todo c d' := by
  obtain ⟨f', hpart, hf⟩ := h.within.partly
  refine ⟨h.within, ?_, ?_⟩
  · have hc : (image g c).bitmap = t.result g := by
      rw [image_below hr hf, image_of_slot hr fun z hz => partly_slot hpart hz]
      rfl
    funext j
    by_cases hj : j < (g.blockCount + 7) / 8
    · rcases hmix (g.bitmapOffset + j) with hx | hx
      · rw [← h.bits, image_bitmap hj, image_bitmap hj, hx]
      · rw [← hc, image_bitmap hj, image_bitmap hj, hx]
    · rw [← hc]
      exact (if_neg hj).trans (if_neg hj).symm
  · rcases h.phase with ⟨hb, hhalf⟩ | ⟨hs, hb⟩
    · exact Or.inl ⟨hb.writeBack hhalf hd hmix, hhalf⟩
    · exact Or.inr ⟨hs, hb.writeBack (hb.whole hr (h.whole ht hs)) hd hmix⟩

/-! the record -/

theorem ring_bound (t : Plan) : t.ring < WAL_ENTRIES := ring_lt _

theorem AtRecord.whole (hr : Regions ps g) (h : t.AtRecord ps g K base x todo c d)
    (hs : readRecord g c t.ring = t.entry x) : ∀ z < g.dataOffset, c z = t.f z := by
  obtain ⟨f', hpart, hc⟩ := h.within.partly
  have hrec : readRecord g c t.ring = readRecord g t.f t.ring := by
    rw [hs, h.file, readRecord_writeRecord h.fits]
  intro z hz
  by_cases hin : z < recordAt g t.ring ∨ recordAt g t.ring + 24 ≤ z
  · rw [hc z hz, partly_record hpart hin, h.file]
    exact (writeRecord_of_notMem hin).symm
  · exact record_bytes hrec (by omega) (by omega)

theorem AtRecord.append (hr : Regions ps g) (ht : t.Ok g K y base p)
    (h : t.AtRecord ps g K base x todo c d) (hb : Behind g K base d t.a t.v t.b none) :
    Behind g K t.f d t.a t.v t.b t.o := by
  have himg : image g t.f = ⟨(image g base).metaSlots,
      Function.update (image g base).wal t.ring (t.entry x), (image g base).bitmap⟩ := by
    rw [h.file, image_writeRecord hr t.ring_bound h.fits]
  refine ⟨hb.static.same ht.head, fun z hz => (hb.head z hz).trans (ht.head z hz).symm, ?_⟩
  rw [h.op]
  have hlt := ht.lt
  have hle := ht.le
  refine hb.lag.append h.done (by omega) h.block ?_ ?_ ?_
  · rw [himg]
  · rw [himg]
    rfl
  · rw [himg]

theorem AtRecord.halfFile (hr : Regions ps g) (ht : t.Ok g K y base p)
    (h : t.AtRecord ps g K base x (cmd :: todo) c d)
    (hw : Within (· < g.dataOffset) base (recordPuts g t.ring (t.entry x))
      (syncedRange ps (recordAt g t.ring) WAL_ENTRY_BYTES) (t.cmds ps) todo c')
    (hb : Behind g K base d t.a t.v t.b none) (hc : Caught g base p.file c') :
    readRecord g c' t.ring = t.entry x ∨ HalfFile g base c' t.a t.v t.b none := by
  obtain ⟨f', hpart, hf⟩ := hw.partly
  by_cases hs : readRecord g c' t.ring = t.entry x
  · exact Or.inl hs
  · refine Or.inr
      ((HalfFile.record hr t.ring_bound (fun z hz => partly_record hpart hz) (fun hv => ?_)
      h.done hb.lag.file).below hr hf)
    rw [← readRecord_below hr hf t.ring_bound] at hv ⊢
    rcases hc.record _ t.ring_bound hv with hold | hnew
    · exact hold
    · refine absurd (hnew.trans ?_) hs
      have hwal := congrFun (congrArg Image.wal (ht.image_file hr)) t.ring
      rw [image_wal t.ring_bound] at hwal
      rw [hwal]
      show (image g t.f).wal t.ring = t.entry x
      rw [image_wal t.ring_bound, h.file, readRecord_writeRecord h.fits]

theorem AtRecord.exec (hr : Regions ps g) (ht : t.Ok g K y base p)
    (h : t.AtRecord ps g K base x (cmd :: todo) io.cache io.disk)
    (hc : Caught g base p.file (cmd.exec io).cache)
    (hd : Caught g io.disk io.cache (cmd.exec io).disk) :
    t.AtRecord ps g K base x todo (cmd.exec io).cache (cmd.exec io).disk
      ∨ t.AtBits ps g K todo (cmd.exec io).cache (cmd.exec io).disk := by
  rcases h.within.step with ⟨z, u, rfl, hmem, hw⟩ | ⟨rfl, rfl, hfull⟩
  · refine Or.inl ⟨h.op, h.file, h.fits, h.block, h.done, hw, ?_⟩
    rcases h.phase with ⟨hb, -⟩ | ⟨hs, hb⟩
    · rcases h.halfFile hr ht hw hb hc with hs | hhalf
      · exact Or.inr ⟨hs, h.append hr ht hb⟩
      · exact Or.inl ⟨hb, hhalf⟩
    · -- the byte is there already
      refine Or.inr ⟨?_, hb⟩
      have hwhole := h.whole hr hs
      obtain ⟨h1, h2, h3⟩ := mem_fieldPuts base hmem
      have hu : u = t.f z := by
        rw [h.file]
        exact h3
      have hz : z < g.dataOffset := by
        have hbound := recordAt_bounds (g := g) t.ring_bound
        have h2' : z < recordAt g t.ring + 24 := h2
        have h4 := hr.wal
        have h5 := hr.bitmap
        omega
      rw [← hs]
      refine readRecord_below hr (fun q hq => ?_) t.ring_bound
      show Function.update io.cache z u q = io.cache q
      by_cases hqz : q = z
      · rw [hqz, Function.update_self, hu, hwhole z hz]
      · exact Function.update_of_ne hqz _ _
  · right
    have hfile : ∀ z < g.dataOffset, io.cache z = t.f z := by
      intro z hz
      rw [hfull z hz, write_recordPuts, h.file]
    have hb : Behind g K t.f io.disk t.a t.v t.b t.o := by
      rcases h.phase with ⟨hb, -⟩ | ⟨-, hb⟩
      · exact h.append hr ht hb
      · exact hb
    exact ⟨(Within.start _ _ _ _ _).congr hfile,
      hb.writeBack (hb.whole hr hfile) hd (writeBack_disk io _)⟩

theorem AtRecord.writeBack (hr : Regions ps g) (h : t.AtRecord ps g K base x todo c d)
    (hd : Caught g d c d') (hmix : ∀ z, d' z = d z ∨ d' z = c z) :
    t.AtRecord ps g K base x todo c d' := by
  refine { h with phase := ?_ }
  rcases h.phase with ⟨hb, hhalf⟩ | ⟨hs, hb⟩
  · exact Or.inl ⟨hb.writeBack hhalf hd hmix, hhalf⟩
  · exact Or.inr ⟨hs, hb.writeBack (hb.whole hr (h.whole hr hs)) hd hmix⟩

/-! all three -/

/-- the call `t` has `todo` before it -/
def At (ps : Nat) (g : Layout) (K : Nat) (base : Mem) (p : Session) (t : Plan)
    (todo : List (Cmd Nat (BitVec 8))) (c d : Mem) : Prop :=
  (∃ x, t.AtRecord ps g K base x todo c d) ∨ t.AtBits ps g K todo c d ∨ t.AtMeta ps g K p todo c d

theorem At.exec (hr : Regions ps g) (ht : t.Ok g K y base p)
    (h : t.At ps g K base p (cmd :: todo) io.cache io.disk)
    (hc : Caught g base p.file (cmd.exec io).cache)
    (hd : Caught g io.disk io.cache (cmd.exec io).disk) :
    t.At ps g K base p todo (cmd.exec io).cache (cmd.exec io).disk
      ∨ (todo = [] ∧ (∀ z < g.dataOffset, (cmd.exec io).cache z = p.file z)
        ∧ Behind g K p.file (cmd.exec io).disk (other t.a) t.w (t.result g) none
        ∧ readSlot (cmd.exec io).disk (other t.a) = readSlot p.file (other t.a)) := by
  rcases h with ⟨x, h⟩ | h | h
  · rcases h.exec hr ht hc hd with h | h
    · exact Or.inl (Or.inl ⟨x, h⟩)
    · exact Or.inl (Or.inr (Or.inl h))
  · exact Or.inl (Or.inr (h.exec hr ht hd))
  · exact (h.exec hr ht hc hd).imp_left fun h => Or.inr (Or.inr h)

theorem At.writeBack (hr : Regions ps g) (ht : t.Ok g K y base p) (h : t.At ps g K base p todo c d)
    (hd : Caught g d c d') (hmix : ∀ z, d' z = d z ∨ d' z = c z) :
    t.At ps g K base p todo c d' := by
  rcases h with ⟨x, h⟩ | h | h
  · exact Or.inl ⟨x, h.writeBack hr hd hmix⟩
  · exact Or.inr (Or.inl (h.writeBack hr ht hd hmix))
  · exact Or.inr (Or.inr (h.writeBack hr ht hd hmix))

/-- somebody writes into the data -/
theorem At.below (hr : Regions ps g) (h : t.At ps g K base p todo c d)
    (hc : ∀ z < g.dataOffset, c' z = c z) : t.At ps g K base p todo c' d := by
  rcases h with ⟨x, h⟩ | h | h
  · refine Or.inl ⟨x, { h with within := h.within.congr hc, phase := ?_ }⟩
    rw [readRecord_below hr hc t.ring_bound]
    exact h.phase.imp_left fun hp => ⟨hp.1, hp.2.below hr hc⟩
  · exact Or.inr (Or.inl ⟨h.within.congr hc, h.behind⟩)
  · refine Or.inr (Or.inr ⟨h.within.congr hc, h.bits, ?_⟩)
    rw [readSlot_below hr hc]
    exact h.phase.imp_left fun hp => ⟨hp.1, hp.2.below hr hc⟩

/-- a call writes below the data -/
theorem At.put_below {z : Nat} {u : BitVec 8} (hr : Regions ps g) (ht : t.Ok g K y base p)
    (h : t.At ps g K base p (.put z u :: todo) c d) : z < g.dataOffset := by
  have h1 := hr.header_below
  have h2 := hr.wal
  have h3 := hr.bitmap
  have hh : HEADER_BYTES = 104 := rfl
  rcases h with ⟨x, h⟩ | h | h
  · rcases h.within.step with ⟨z', u', he, hmem, -⟩ | ⟨he, -, -⟩
    · obtain ⟨rfl, rfl⟩ := Cmd.put.inj he
      obtain ⟨-, hz, -⟩ := mem_fieldPuts base hmem
      have hz' : z < recordAt g t.ring + 24 := hz
      have hbound := recordAt_bounds (g := g) t.ring_bound
      omega
    · cases he
  · rcases h.within.step with ⟨z', u', he, hmem, -⟩ | ⟨he, -, -⟩
    · obtain ⟨rfl, rfl⟩ := Cmd.put.inj he
      have hin := ht.inside _ hmem
      omega
    · cases he
  · rcases h.within.step with ⟨z', u', he, hmem, -⟩ | ⟨he, -, -⟩
    · obtain ⟨rfl, rfl⟩ := Cmd.put.inj he
      obtain ⟨-, hz, -⟩ := mem_fieldPuts base hmem
      have hz' : z < slotAt (other t.a) + 24 := hz
      have hbound := slotAt_bounds (other t.a)
      omega
    · cases he

/-- **Wherever the call is**, the cached file has the watermark of before or the new one, and gives
back the blocks with the operation or without it. -/
theorem At.standing (hr : Regions ps g) (ht : t.Ok g K y base p) (h : t.At ps g K base p todo c d) :
    ∃ a v b o, Behind g K c d a v b o ∧ (∀ u, Outcome b o u → Outcome t.b t.o u) ∧ v ≤ t.w
      ∧ Done (image g c) t.w := by
  have hlt := Nat.le_of_lt ht.lt
  have hwal : (image g t.r.file).wal = (image g t.f).wal := by rw [ht.image_r hr]
  have hwal' : (image g p.file).wal = (image g t.f).wal := by rw [ht.image_file hr]
  -- the cached file is a half-written `f`, whose records are covered by the new watermark
  have key : ∀ {f a v b o}, Behind g K f d a v b o → HalfFile g f c a v b o →
      (∀ u, Outcome b o u → Outcome t.b t.o u) → v ≤ t.w → Done (image g f) t.w →
      ∃ a v b o, Behind g K c d a v b o ∧ (∀ u, Outcome b o u → Outcome t.b t.o u) ∧ v ≤ t.w
        ∧ Done (image g c) t.w :=
    fun hb hh ho hv hd => ⟨_, _, _, _, hb.half hh, ho, hv,
      fun s e he => hd s e (hh.half.record_of he)⟩
  rcases h with ⟨x, h⟩ | h | h
  · rcases h.phase with ⟨hb, hh⟩ | ⟨hs, hb⟩
    · exact key hb hh (fun u hu => Or.inl (outcome_none.mp hu)) hlt
        fun s e he => Nat.le_trans (h.done s e he) hlt
    · exact key hb (hb.whole hr (h.whole hr hs)) (fun u hu => hu) hlt ht.done
  · exact key h.behind (h.half hr ht) (fun u hu => hu) hlt ht.done
  · rcases h.phase with ⟨hb, hh⟩ | ⟨hs, hb⟩
    · exact key hb hh (fun u hu => hu) hlt fun s e he => ht.done s e (hwal ▸ he)
    · exact key hb (hb.whole hr (h.whole ht hs))
        (fun u hu => outcome_none.mp hu ▸ ht.result_outcome)
        (Nat.le_refl _) fun s e he => ht.done s e (hwal' ▸ he)

end

end Plan

end HeapForge.CPool
