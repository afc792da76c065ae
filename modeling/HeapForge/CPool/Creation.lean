import Mathlib.Tactic.IntervalCases
import HeapForge.CPool.Frame

/-!
# Pools that were not created completely

On a path with no file `hf_pool_open` makes the file, resizes it and writes the header.  It can
return NULL or be cut off anywhere in between, and nothing ever removes the file.  The next open
asks only whether there is a file and whether it starts with the magic number.

* `Left`                 what the first call can leave: no file, an empty one, or one of full size
                         with any part of the header in it;
* `recover_blank`        with the static words in place, an open finds the empty pool, whatever part
                         of the first slot is there;
* `creation_usable_iff`  **the next open gives a pool exactly if there is no file or the header has
                         all its static words.**
-/

set_option linter.unusedSectionVars false
set_option linter.unusedVariables false

namespace HeapForge.CPool
open Lib

/-! ## the first call -/

structure DiskFile where
  size : Nat
  bytes : Mem

/-- what `open`, `ftruncate` and `calloc` answer -/
structure Answers where
  creates : Bool
  truncates : Bool
  handle : Bool

/-- `hf_pool_open` on a path with no file: the handle, and the file it leaves; `none` is a write
outside the mapping.  `off_t` is signed, so `ftruncate` refuses `2^63` bytes and more. -/
def hfPoolOpenNew (vm : Vm) (os : Answers) (blockSize blockCount : Nat) :
    Option (Option Session × Option DiskFile) :=
  if os.creates = false then some (none, none)
  else if blockSize = 0 ∨ blockCount = 0 then some (none, some ⟨0, Mem.zero⟩)
  else
    let g := layout vm.pageSize blockSize blockCount
    if os.truncates = false ∨ 2 ^ 63 ≤ g.totalSize then some (none, some ⟨0, Mem.zero⟩)
    else if vm.mmap g.totalSize = 0
      ∨ os.handle = false then some (none, some ⟨g.totalSize, Mem.zero⟩)
    else if HEADER_BYTES ≤ g.totalSize ∧ g.walOffset + WAL_BYTES ≤ g.totalSize
        ∧ (bitmapBytes blockCount = 0 ∨ g.bitmapOffset + bitmapBytes blockCount ≤ g.totalSize) then
      some (some (createSession g), some ⟨g.totalSize, createdFile g⟩)
    else none

/-- a part of the header of a new file: every byte is there or still zero -/
def Part (g : Layout) (f : Mem) : Prop := ∀ x, f x = 0#8 ∨ f x = createdFile g x

/-- the file after the call has returned, or after the machine stopped inside it -/
inductive Left (vm : Vm) (os : Answers) (blockSize blockCount : Nat) : Option DiskFile → Prop
  | returned (p : Option Session) (d : Option DiskFile)
      (h : hfPoolOpenNew vm os blockSize blockCount = some (p, d)) :
        Left vm os blockSize blockCount d
  | before : Left vm os blockSize blockCount none
  | created (hc : os.creates = true) : Left vm os blockSize blockCount (some ⟨0, Mem.zero⟩)
  | resized (hc : os.creates = true) (hs : blockSize ≠ 0 ∧ blockCount ≠ 0)
      (ht : os.truncates = true ∧ (layout vm.pageSize blockSize blockCount).totalSize < 2 ^ 63) :
      Left vm os blockSize blockCount
        (some ⟨(layout vm.pageSize blockSize blockCount).totalSize, Mem.zero⟩)
  | header (hc : os.creates = true) (hs : blockSize ≠ 0 ∧ blockCount ≠ 0)
      (ht : os.truncates = true ∧ (layout vm.pageSize blockSize blockCount).totalSize < 2 ^ 63)
      (hm : vm.mmap (layout vm.pageSize blockSize blockCount).totalSize ≠ 0 ∧ os.handle = true)
      (f : Mem) (hf : Part (layout vm.pageSize blockSize blockCount) f) :
      Left vm os blockSize blockCount
        (some ⟨(layout vm.pageSize blockSize blockCount).totalSize, f⟩)

/-! ## the next call -/

/-- `hf_pool_open` with valid sizes and the system granting every request (no system maps `0`
bytes): the handle, and the size of the file -/
def hfPoolOpenAgain (vm : Vm) (blockSize blockCount : Nat) :
    Option DiskFile → Option (Session × Nat)
  | none =>
    let g := layout vm.pageSize blockSize blockCount
    some (createSession g, g.totalSize)
  | some d =>
    if (readLayout d.bytes).totalSize = 0 then none
    else (openFile d.size d.bytes).map fun p => (p, d.size)

/-- the pool that a complete creation with these sizes makes; only the checksum of the first slot
may be missing, which leaves the watermark at `0` -/
structure Usable (vm : Vm) (blockSize blockCount : Nat) (p : Session) (size : Nat) : Prop where
  sizes : NoWrap vm blockSize blockCount
  handle : p = ⟨p.file, layout vm.pageSize blockSize blockCount, 0, 1, 0⟩
  bytes : ∀ x, x < 72 ∨ 80 ≤ x → p.file x = createdFile (layout vm.pageSize blockSize blockCount) x
  fits : p.geo.totalSize ≤ size

/-! ## what a part of a header holds -/

/-- no sequence number in the first slot, nothing behind it -/
structure Blank (f : Mem) : Prop where
  seq : f.load64 56 = 0
  used : f.load64 64 = 0
  rest : ∀ x, 80 ≤ x → f x = 0#8

section
variable {ps : Nat} {g : Layout} {f : Mem}

theorem Part.zero : Part g Mem.zero := fun _ => Or.inl rfl

theorem Part.load_le (h : Part g f) (a : Nat) : f.load64 a ≤ (createdFile g).load64 a :=
  Mem.load_le_of_part h a 8

theorem createdFile_slot (hg : g.Words) :
    (createdFile g).load64 56 = 0 ∧ (createdFile g).load64 64 = 0 := by
  have hslot :
    (⟨(createdFile g).load64 56, (createdFile g).load64 64, (createdFile g).load64 72⟩ : MetaSlot)
      = ⟨0, 0, metaCrc ⟨0, 0, 0⟩⟩ := (createdFile_words hg).2
  rw [MetaSlot.mk.injEq] at hslot
  exact ⟨hslot.1, hslot.2.1⟩

theorem Part.blank (h : Part g f) (hg : g.Words) : Blank f := by
  obtain ⟨h56, h64⟩ := createdFile_slot hg
  refine ⟨?_, ?_, ?_⟩
  · have := h.load_le 56
    omega
  · have := h.load_le 64
    omega
  · intro x hx
    rcases h x with h0 | h0
    · exact h0
    · exact h0.trans (createdFile_zero hx)

/-- a size in the header is at most the one that was to be written -/
theorem Part.totalSize_le (h : Part g f) (hg : g.Words) :
    (readLayout f).totalSize ≤ g.totalSize := by
  have hle : (readLayout f).totalSize ≤ (readLayout (createdFile g)).totalSize := h.load_le 48
  rw [(createdFile_words hg).1.layout] at hle
  exact hle

theorem Blank.load (h : Blank f) (a n : Nat) (ha : 80 ≤ a) : f.load a n = 0 := by
  rw [← Mem.load_zero a n]
  exact Mem.load_congr fun x hx _ => h.rest x (by omega)

/-- neither slot has a watermark above `0` -/
theorem Blank.selectMeta (h : Blank f) : selectMeta (image g f) = (0, 0) := by
  have h0 : ((image g f).metaSlots 0).seq = 0 := h.seq
  have h1 : (image g f).metaSlots 1 = ⟨0, 0, 0⟩ := by
    show (⟨f.load 80 8, f.load 88 8, f.load 96 8⟩ : MetaSlot) = _
    rw [h.load _ _ (by decide), h.load _ _ (by decide), h.load _ _ (by decide)]
  unfold CPool.selectMeta
  rw [pickMeta_of_invalid (by rw [h1]; exact blankSlot_invalid)]
  by_cases hv : ((image g f).metaSlots 0).Valid
  · unfold pickMeta
    dsimp only
    rw [if_pos hv, h0]
    rfl
  · rw [pickMeta_of_invalid hv]
    rfl

theorem Blank.bitTest (h : Blank f) (hr : Regions ps g) (i : Nat) : bitTest g f i = false := by
  have h1 := hr.header
  have h2 := hr.wal
  have hh : HEADER_BYTES = 104 := rfl
  unfold CPool.bitTest
  rw [h.rest _ (by omega)]
  exact BitVec.getLsbD_zero

/-- records of zeros are not replayed -/
theorem Blank.foldl {r : Session.Replay} (h : Blank r.pool.file) (hr : Regions ps r.pool.geo)
    (l : List Nat) (hl : ∀ s ∈ l, s ≠ 0) : l.foldl Session.replayStep r = r := by
  have h1 := hr.header
  have hh : HEADER_BYTES = 104 := rfl
  induction l with
  | nil => rfl
  | cons s l ih =>
    have hskip : Session.replayStep r s = r := by
      have hseq : (readRecord r.pool.geo r.pool.file (s % WAL_ENTRIES)).seq = 0 := by
        have hb := recordAt_bounds (g := r.pool.geo) (ring_lt s)
        exact h.load _ 8 (by omega)
      unfold Session.replayStep
      apply if_pos
      rw [hseq]
      exact Or.inl (hl s (List.mem_cons_self ..)).symm
    rw [List.foldl_cons, hskip]
    exact ih fun s' hs' => hl s' (List.mem_cons_of_mem _ hs')

/-- **An open of a new file finds the empty pool**, and writes nothing. -/
theorem recover_blank (h : Blank f) (hr : Regions ps g) :
    Session.recover ⟨f, g, 0, 1, 0⟩ = ⟨f, g, 0, 1, 0⟩ := by
  have hsel : CPool.selectMeta (image g f) = (0, 0) := h.selectMeta
  have hcount : (List.range g.blockCount).countP (CPool.bitTest g f) = 0 := by
    rw [List.countP_eq_zero]
    intro i _
    rw [h.bitTest hr i]
    exact Bool.false_ne_true
  have hbegin : Session.beginRecover ⟨f, g, 0, 1, 0⟩ = ⟨⟨f, g, 0, 1, 0⟩, 0, false⟩ := by
    unfold Session.beginRecover
    dsimp only
    rw [hsel, hcount]
  have hall : Session.replayAll ⟨f, g, 0, 1, 0⟩ = ⟨⟨f, g, 0, 1, 0⟩, 0, false⟩ := by
    unfold Session.replayAll
    dsimp only
    rw [hbegin, hsel]
    apply Blank.foldl h hr
    intro s hs
    have hmem : s ∈ List.range' 1 256 := hs
    rw [List.mem_range'_1] at hmem
    omega
  unfold Session.recover
  rw [hall]
  rfl

/-- the static words in place, every byte but those of one checksum is -/
theorem Static.bytes (hs : Static g f) (h : Blank f) (hg : g.Words) {x : Nat}
    (hx : x < 72 ∨ 80 ≤ x) :
    f x = createdFile g x := by
  obtain ⟨⟨hm, hl⟩, -⟩ := createdFile_words hg
  obtain ⟨z56, z64⟩ := createdFile_slot hg
  have hw : ∀ a, f.load64 a = (createdFile g).load64 a → a ≤ x → x < a + 8 →
      f x = createdFile g x :=
    fun a ha => Mem.load_inj ha x
  have hlay : readLayout f = readLayout (createdFile g) := hs.layout.trans hl.symm
  unfold readLayout at hlay
  rw [Layout.mk.injEq] at hlay
  obtain ⟨w1, w2, w3, w4, w5, w6⟩ := hlay
  rcases hx with hx | hx
  · have hk : x / 8 < 9 := by omega
    have hdiv := Nat.div_add_mod x 8
    have hmod := Nat.mod_lt x (show 0 < 8 by decide)
    interval_cases hq : x / 8
    · exact hw 0 (hs.magic.trans hm.symm) (by omega) (by omega)
    · exact hw 8 w1 (by omega) (by omega)
    · exact hw 16 w2 (by omega) (by omega)
    · exact hw 24 w3 (by omega) (by omega)
    · exact hw 32 w4 (by omega) (by omega)
    · exact hw 40 w5 (by omega) (by omega)
    · exact hw 48 w6 (by omega) (by omega)
    · exact hw 56 (h.seq.trans z56.symm) (by omega) (by omega)
    · exact hw 64 (h.used.trans z64.symm) (by omega) (by omega)
  · rw [h.rest x hx, createdFile_zero hx]

end

/-! ## the header decides -/

namespace Session

theorem replayStep_geo (r : Replay) (s : Nat) : (replayStep r s).pool.geo = r.pool.geo := by
  unfold replayStep
  dsimp only
  split
  · rfl
  · exact applyOp_geo _ _ _

theorem foldl_geo (l : List Nat) (r : Replay) : (l.foldl replayStep r).pool.geo = r.pool.geo := by
  induction l generalizing r with
  | nil => rfl
  | cons s l ih => rw [List.foldl_cons, ih, replayStep_geo]

/-- recovery keeps the sizes that the header gave, whatever is in the file -/
theorem recover_geo (p : Session) : p.recover.geo = p.geo := by
  have hall : (replayAll p).pool.geo = p.geo := by
    unfold replayAll
    rw [foldl_geo]
    rfl
  unfold recover
  dsimp only
  generalize replayAll p = r at hall ⊢
  split
  · exact hall
  · exact hall

end Session

section
variable {vm : Vm} {os : Answers} {blockSize blockCount b c : Nat} {d : Option DiskFile}
  {e : DiskFile}

/-- the file is of full size and has a part of the header, or it is all zero -/
theorem Left.file (h : Left vm os blockSize blockCount (some e)) :
    Part (layout vm.pageSize blockSize blockCount) e.bytes
      ∧ (e.size = (layout vm.pageSize blockSize blockCount).totalSize ∨ e.bytes = Mem.zero) := by
  cases h with
  | returned p d h =>
    unfold hfPoolOpenNew at h
    dsimp only at h
    split at h
    · cases h
    · split at h
      · cases h
        exact ⟨Part.zero, Or.inr rfl⟩
      · split at h
        · cases h
          exact ⟨Part.zero, Or.inr rfl⟩
        · split at h
          · cases h
            exact ⟨Part.zero, Or.inr rfl⟩
          · split at h
            · cases h
              exact ⟨fun _ => Or.inr rfl, Or.inl rfl⟩
            · cases h
  | created hc => exact ⟨Part.zero, Or.inr rfl⟩
  | resized hc hs ht => exact ⟨Part.zero, Or.inr rfl⟩
  | header hc hs ht hm f hf => exact ⟨hf, Or.inl rfl⟩

theorem Static.ne_zero {g : Layout} {f : Mem} (h : Static g f) : f ≠ Mem.zero := by
  intro hf
  have hm := h.magic
  rw [hf, show Mem.zero.load64 0 = 0 from Mem.load_zero 0 8] at hm
  exact absurd hm (by decide)

/-- the static words of some sizes in place, the open gives the pool of these sizes -/
theorem openAgain_of_static (hn : NoWrap vm b c) (hs : Static (layout vm.pageSize b c) e.bytes)
    (hb : Blank e.bytes) (hsize : (layout vm.pageSize b c).totalSize ≤ e.size) :
    ∃ p size, hfPoolOpenAgain vm blockSize blockCount (some e) = some (p, size)
    ∧ Usable vm b c p size := by
  have hr := hn.regions
  have hbig : HEADER_BYTES < (layout vm.pageSize b c).totalSize := by
    have h1 := hr.header
    have h2 := hr.wal
    have h3 := hr.bitmap
    have h4 := hr.data
    have hw : 0 < WAL_BYTES := by decide
    omega
  have hopen : openFile e.size e.bytes = some ⟨e.bytes, layout vm.pageSize b c, 0, 1, 0⟩ := by
    rw [openFile_eq_some, hs.layout, recover_blank hb hr]
    exact ⟨by omega, hs.magic, rfl⟩
  refine ⟨⟨e.bytes, layout vm.pageSize b c, 0, 1, 0⟩, e.size, ?_, hn, rfl, ?_, hsize⟩
  · unfold hfPoolOpenAgain
    dsimp only
    rw [hs.layout, if_neg (by omega), hopen]
    rfl
  · intro x hx
    exact hs.bytes hb (layout_words vm b (lt_trans hn.count_lt (by decide))) hx

/-- a pool of some sizes comes from a header with their static words -/
theorem static_of_openAgain {p : Session} {size : Nat}
    (h : hfPoolOpenAgain vm blockSize blockCount (some e) = some (p, size))
    (hp : p.geo = layout vm.pageSize b c) : Static (layout vm.pageSize b c) e.bytes := by
  unfold hfPoolOpenAgain at h
  dsimp only at h
  split at h
  · cases h
  · obtain ⟨q, hq, he⟩ := Option.map_eq_some_iff.mp h
    cases he
    obtain ⟨-, hm, hrec⟩ := openFile_eq_some.mp hq
    refine ⟨hm, ?_⟩
    rw [← hp, hrec, Session.recover_geo]

theorem Usable.geo {p : Session} {size : Nat} (h : Usable vm b c p size) :
    p.geo = layout vm.pageSize b c := by
  rw [h.handle]

end

/-- **When a creation is all or nothing.**  After any first call on a path with no file, returned or
cut off, the next open with valid sizes gives the fresh pool or the completely created one exactly
if the first call left no file, or a header with all the static words of one of them. -/
theorem creation_usable_iff (vm : Vm) (os : Answers) {blockSize blockCount b c : Nat}
    {d : Option DiskFile} (hcount : blockCount < 2 ^ 64) (hd : Left vm os blockSize blockCount d)
    (hvalid : NoWrap vm b c) :
    (∃ p size, hfPoolOpenAgain vm b c d = some (p, size)
      ∧ (Usable vm b c p size ∨ Usable vm blockSize blockCount p size))
    ↔ d = none ∨ ∃ e, d = some e ∧ (Static (layout vm.pageSize b c) e.bytes
      ∨ NoWrap vm blockSize blockCount
      ∧ Static (layout vm.pageSize blockSize blockCount) e.bytes) := by
  cases d with
  | none =>
    refine iff_of_true ⟨_, _, rfl, Or.inl ⟨hvalid, rfl, ?_, ?_⟩⟩ (Or.inl rfl)
    · intro x _
      rfl
    · exact le_refl _
  | some e =>
    obtain ⟨hpart, hsize⟩ := hd.file
    have hwords := layout_words vm blockSize hcount
    have hfull : ∀ g, Static g e.bytes → g.totalSize ≤ e.size := by
      intro g hs
      have hle := hpart.totalSize_le hwords
      rw [hs.layout] at hle
      rcases hsize with h | h
      · rw [h]
        exact hle
      · exact absurd h hs.ne_zero
    have hblank := hpart.blank hwords
    constructor
    · intro h
      obtain ⟨p, size, hopen, hp⟩ := h
      refine Or.inr ⟨e, rfl, ?_⟩
      rcases hp with hp | hp
      · exact Or.inl (static_of_openAgain hopen hp.geo)
      · exact Or.inr ⟨hp.sizes, static_of_openAgain hopen hp.geo⟩
    · intro h
      rcases h with h | h
      · cases h
      · obtain ⟨e', he, hs⟩ := h
        cases he
        rcases hs with hs | hs
        · obtain ⟨p, size, h1, h2⟩ := openAgain_of_static hvalid hs hblank (hfull _ hs)
          exact ⟨p, size, h1, Or.inl h2⟩
        · obtain ⟨p, size, h1, h2⟩ := openAgain_of_static hs.1 hs.2 hblank (hfull _ hs.2)
          exact ⟨p, size, h1, Or.inr h2⟩

/-- a header whose checksum was not written -/
def uncheckedFile (g : Layout) : Mem := fun x => if x < 72 then createdFile g x else 0#8

/-- the machine stops before the checksum of the first slot is durable; the next open, with other
sizes, gives the pool that was created -/
theorem created_without_checksum :
    Left sampleVm ⟨true, true, true⟩ 64 8
    (some ⟨20480, uncheckedFile (layout sampleVm.pageSize 64 8)⟩)
      ∧ ∃ p size, hfPoolOpenAgain sampleVm 128 16
          (some ⟨20480, uncheckedFile (layout sampleVm.pageSize 64 8)⟩) = some (p, size)
        ∧ (Usable sampleVm 128 16 p size ∨ Usable sampleVm 64 8 p size) := by
  have htotal : (layout sampleVm.pageSize 64 8).totalSize = 20480 := by decide +kernel
  have hmmap : sampleVm.mmap (layout sampleVm.pageSize 64 8).totalSize ≠ 0 := by decide +kernel
  have hpart : Part (layout sampleVm.pageSize 64 8)
      (uncheckedFile (layout sampleVm.pageSize 64 8)) := by
    intro x
    unfold uncheckedFile
    split
    · exact Or.inr rfl
    · exact Or.inl rfl
  have hleft : Left sampleVm ⟨true, true, true⟩ 64 8
      (some ⟨20480, uncheckedFile (layout sampleVm.pageSize 64 8)⟩) := by
    rw [← htotal]
    exact Left.header rfl ⟨by decide, by decide⟩ ⟨rfl, by rw [htotal]; decide⟩ ⟨hmmap, rfl⟩ _ hpart
  have hstatic : Static (layout sampleVm.pageSize 64 8)
      (uncheckedFile (layout sampleVm.pageSize 64 8)) :=
    (createdFile_words (layout_words sampleVm 64 (by decide))).1.same fun x hx => if_pos (by omega)
  have hfirst : NoWrap sampleVm 64 8 :=
    ⟨by decide, by decide, by decide, by decide +kernel, by decide +kernel⟩
  have hnext : NoWrap sampleVm 128 16 :=
    ⟨by decide, by decide, by decide, by decide +kernel, by decide +kernel⟩
  exact ⟨hleft, (creation_usable_iff sampleVm _ (by decide) hleft hnext).mpr
    (Or.inr ⟨_, rfl, Or.inr ⟨hfirst, hstatic⟩⟩)⟩

/-- **An empty file stays.**  A call with block size 0 makes the file and returns NULL; a valid call
that stops after `ftruncate` leaves zeros.  Every later open refuses both. -/
theorem empty_file_refused :
    hfPoolOpenNew sampleVm ⟨true, true, true⟩ 0 8 = some (none, some ⟨0, Mem.zero⟩)
    ∧ Left sampleVm ⟨true, true, true⟩ 0 8 (some ⟨0, Mem.zero⟩)
    ∧ (hfPoolOpenAgain sampleVm 64 8 (some ⟨0, Mem.zero⟩)).isNone
    ∧ Left sampleVm ⟨true, true, true⟩ 64 8 (some ⟨20480, Mem.zero⟩)
    ∧ (hfPoolOpenAgain sampleVm 64 8 (some ⟨20480, Mem.zero⟩)).isNone
    ∧ NoWrap sampleVm 64 8 := by
  have hz : (readLayout Mem.zero).totalSize = 0 := Mem.load_zero 48 8
  have hrefuse : ∀ n, (hfPoolOpenAgain sampleVm 64 8 (some ⟨n, Mem.zero⟩)).isNone := by
    intro n
    unfold hfPoolOpenAgain
    dsimp only
    rw [hz]
    rfl
  have htotal : (layout sampleVm.pageSize 64 8).totalSize = 20480 := by decide +kernel
  refine ⟨rfl, Left.returned none _ rfl, hrefuse 0, ?_, hrefuse 20480,
    ⟨by decide, by decide, by decide, by decide +kernel, by decide +kernel⟩⟩
  rw [← htotal]
  exact Left.resized rfl ⟨by decide, by decide⟩ ⟨rfl, by decide +kernel⟩

end HeapForge.CPool
