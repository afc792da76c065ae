import HeapForge.CPool.Bytes

/-!
# What the pool writes

The bytes that a call, a recovery or a crash inside one can change are those of the slots, the ring
and the bitmap (`Touched`).  `FStep` is the life of one file: sessions opened, used, closed or cut
off, users writing into the data, and a crash losing what they wrote.

* `Kept`              a step of the pool leaves all other bytes;
* `FInv.step`         every run on bytes is a run of the model of `HeapForge.CPool.Crash`, so every
                      record that a recovery replays names a block of the pool;
* `pool_keeps_data`   **no run changes a static word of the header, no step of the pool a byte of
                      the data.**
-/

set_option linter.unusedSectionVars false
set_option linter.unusedVariables false

namespace HeapForge.CPool
open Lib

/-! ## bytes that may change -/

def Touched (g : Layout) (x : Nat) : Prop :=
  (56 ≤ x ∧ x < HEADER_BYTES) ∨ (g.walOffset ≤ x ∧ x < g.walOffset + WAL_BYTES)
    ∨ (g.bitmapOffset ≤ x ∧ x < g.bitmapOffset + (g.blockCount + 7) / 8)

def Kept (g : Layout) (f f' : Mem) : Prop := Mem.SameOn (fun x => ¬ Touched g x) f f'

section
variable {ps : Nat} {g : Layout} {f f' f'' : Mem} {i k n x : Nat} {a : Fin 2} {e : WalEntry}
  {m : MetaSlot}

theorem Kept.refl : Kept g f f := Mem.SameOn.refl

theorem Kept.trans (h : Kept g f f') (h' : Kept g f' f'') : Kept g f f'' := Mem.SameOn.trans h h'

/-- the change is confined to bytes that may change -/
theorem Kept.of_inside {lo hi : Nat} (hin : ∀ x, lo ≤ x → x < hi → Touched g x)
    (h : ∀ x, x < lo ∨ hi ≤ x → f' x = f x) : Kept g f f' := by
  intro x hx
  apply h
  by_contra hout
  exact hx (hin x (by omega) (by omega))

theorem Kept.of_record (hk : k < WAL_ENTRIES)
    (h : ∀ x, x < recordAt g k ∨ recordAt g k + 24 ≤ x → f' x = f x) : Kept g f f' := by
  have hb := recordAt_bounds (g := g) hk
  exact Kept.of_inside (fun x h1 h2 => Or.inr (Or.inl ⟨by omega, by omega⟩)) h

theorem Kept.of_slot (h : ∀ x, x < slotAt a ∨ slotAt a + 24 ≤ x → f' x = f x) : Kept g f f' := by
  have hb := slotAt_bounds a
  have hh : HEADER_BYTES = 104 := rfl
  exact Kept.of_inside (fun x h1 h2 => Or.inl ⟨by omega, by omega⟩) h

theorem Kept.of_bitmap
    (h : ∀ x, x < g.bitmapOffset ∨ g.bitmapOffset + (g.blockCount + 7) / 8 ≤ x → f' x = f x) :
    Kept g f f' :=
  Kept.of_inside (fun x h1 h2 => Or.inr (Or.inr ⟨h1, h2⟩)) h

theorem Kept.setByte (hi : i < g.blockCount) (v : BitVec 8) :
    Kept g f (f.setByte (g.bitmapOffset + i / 8) v) := by
  have := byte_lt hi
  exact Kept.of_bitmap fun x hx => if_neg (by omega)

/-- the data and the static words are none of them -/
theorem not_touched (hr : Regions ps g) (hx : x < 56 ∨ g.dataOffset ≤ x) : ¬ Touched g x := by
  have h1 := hr.header
  have h2 := hr.wal
  have h3 := hr.bitmap
  have hh : HEADER_BYTES = 104 := rfl
  unfold Touched
  omega

end

namespace Session

section
variable {ps : Nat} {p : Session} {seq op index : Nat}

theorem kept_walAppend (p : Session) (seq op index : Nat) :
    Kept p.geo p.file (p.walAppend seq op index).file :=
  Kept.of_record (ring_lt seq) fun x hx => writeRecord_of_notMem hx

theorem kept_applyOp (hi : index < p.geo.blockCount) :
    Kept p.geo p.file (p.applyOp op index).file := by
  unfold applyOp
  split <;> split
  · exact Kept.refl
  · exact Kept.setByte hi _
  · exact Kept.setByte hi _
  · exact Kept.refl

theorem kept_metaCommit (p : Session) (seq : Nat) : Kept p.geo p.file (p.metaCommit seq).file :=
  Kept.of_slot fun x hx => writeSlot_of_notMem hx

/-- the three writes of a commit -/
theorem kept_applied (hi : index < p.geo.blockCount) :
    Kept p.geo p.file (applyOp (walAppend (takeSeq p) p.nextSeq op index) op index).file := by
  have h1 : Kept p.geo p.file (walAppend (takeSeq p) p.nextSeq op index).file :=
    kept_walAppend (takeSeq p) p.nextSeq op index
  have h2 : Kept p.geo (walAppend (takeSeq p) p.nextSeq op index).file
      (applyOp (walAppend (takeSeq p) p.nextSeq op index) op index).file :=
    kept_applyOp (p := walAppend (takeSeq p) p.nextSeq op index) hi
  exact h1.trans h2

theorem kept_commit (hi : index < p.geo.blockCount) :
    Kept p.geo p.file (p.commit op index).file := by
  have h := kept_metaCommit (applyOp (walAppend (takeSeq p) p.nextSeq op index) op index) p.nextSeq
  rw [applyOp_geo] at h
  exact (kept_applied hi).trans h

theorem kept_foldl {g : Layout} {r : Replay} (hr : Regions ps g) (l : List Nat) (h : r.Ok ps g) :
    Kept g r.pool.file (l.foldl replayStep r).pool.file := by
  induction l generalizing r with
  | nil => exact Kept.refl
  | cons s l ih =>
    have hstep : Kept g r.pool.file (replayStep r s).pool.file := by
      unfold replayStep
      dsimp only
      split
      · exact Kept.refl
      · rename_i hv
        have hk := ring_lt s
        have hidx := h.log (s % WAL_ENTRIES)
        rw [show r.pool.view.img.wal (s % WAL_ENTRIES) = _ from image_wal hk] at hidx
        have hlt := hidx (not_not.mp (not_or.mp hv).2)
        obtain ⟨rfl, -, -, -⟩ := h
        exact kept_applyOp hlt
    have hrest := ih (view_replayStep hr h s).2
    rw [List.foldl_cons]
    exact hstep.trans hrest

theorem kept_replayAll (hr : Regions ps p.geo) (hl : LogIn p.geo.blockCount p.view.img) :
    Kept p.geo p.file (replayAll p).pool.file := by
  have h := kept_foldl hr (replaySeqs (selectMeta (image p.geo p.file)).2)
    (view_beginRecover hr hl).2
  unfold replayAll
  exact h

theorem kept_recover (hr : Regions ps p.geo) (hl : LogIn p.geo.blockCount p.view.img) :
    Kept p.geo p.file p.recover.file := by
  have hall := kept_replayAll hr hl
  have hgeo := (view_replayAll hr hl).2.geo
  unfold recover
  dsimp only
  generalize replayAll p = r at hall hgeo ⊢
  split
  · have h := kept_metaCommit { r.pool with nextSeq := (r.maxSeq + 1) % 2 ^ 64 } r.maxSeq
    rw [show ({ r.pool with nextSeq := (r.maxSeq + 1) % 2 ^ 64 } : Session).geo
      = p.geo from hgeo] at h
    exact hall.trans h
  · exact hall

/-! ## crashes -/

/-- the files a crash inside `commit` can leave; a torn record or slot fails its checksum -/
inductive CommitCrash (p : Session) (op index : Nat) : Mem → Prop
  | before : CommitCrash p op index p.file
  | tornWal (f : Mem) (hsame : ∀ x, x < recordAt p.geo (p.nextSeq % WAL_ENTRIES)
        ∨ recordAt p.geo (p.nextSeq % WAL_ENTRIES) + 24 ≤ x → f x = p.file x)
      (hbad : ¬ (readRecord p.geo f (p.nextSeq % WAL_ENTRIES)).Valid) : CommitCrash p op index f
  | afterWal : CommitCrash p op index (walAppend (takeSeq p) p.nextSeq op index).file
  | afterByte : CommitCrash p op index
      (applyOp (walAppend (takeSeq p) p.nextSeq op index) op index).file
  | tornMeta (f : Mem) (hsame : ∀ x, x < slotAt (other p.activeMeta)
      ∨ slotAt (other p.activeMeta) + 24 ≤ x →
        f x = (applyOp (walAppend (takeSeq p) p.nextSeq op index) op index).file x)
      (hbad : ¬ (readSlot f (other p.activeMeta)).Valid) : CommitCrash p op index f
  | afterMeta : CommitCrash p op index (commit p op index).file

inductive OpCrash (p : Session) : Option (Nat × Nat) → Mem → Prop
  | idle (o : Option (Nat × Nat)) : OpCrash p o p.file
  | commit {op index : Nat} {f : Mem} (h : CommitCrash p op (index % 2 ^ 32) f) : OpCrash p
      (some (op, index)) f

/-- the files a crash inside `recover` can leave -/
inductive RecoverCrash (p : Session) : Mem → Prop
  | bitmap (f : Mem) (hsame : ∀ x, x < p.geo.bitmapOffset
        ∨ p.geo.bitmapOffset + (p.geo.blockCount + 7) / 8 ≤ x → f x = p.file x)
      (hbits : ∀ j, j < (p.geo.blockCount + 7) / 8 →
        ∃ k, f (p.geo.bitmapOffset + j) = (replayed p k).pool.file (p.geo.bitmapOffset + j)) :
      RecoverCrash p f
  | tornMeta (f : Mem) (hsame : ∀ x, x < slotAt (other (replayAll p).pool.activeMeta)
        ∨ slotAt (other (replayAll p).pool.activeMeta) + 24 ≤ x → f x = (replayAll p).pool.file x)
      (hbad : ¬ (readSlot f (other (replayAll p).pool.activeMeta)).Valid)
      (hr : (replayAll p).replayed = true) : RecoverCrash p f
  | afterMeta : RecoverCrash p p.recover.file

/-- the states between the writes of a commit, as the model has them -/
theorem view_between (hr : Regions ps p.geo) (hw : p.Words) (ho : op < 2 ^ 32)
    (hi : index < p.geo.blockCount) (hi32 : index < 2 ^ 32) :
    image p.geo (walAppend (takeSeq p) p.nextSeq op index).file
        = (CPool.walAppend (CPool.takeSeq p.view) p.view.nextSeq op index).img
      ∧ image p.geo (applyOp (walAppend (takeSeq p) p.nextSeq op index) op index).file
        = (CPool.applyOp (CPool.walAppend (CPool.takeSeq p.view) p.view.nextSeq op index) op
          index).img := by
  have h1 : (walAppend (takeSeq p) p.nextSeq op index).view
      = CPool.walAppend (CPool.takeSeq p.view) p.view.nextSeq op index :=
    view_walAppend (p := takeSeq p) hr hw.next ho hi32
  have h2 : (applyOp (walAppend (takeSeq p) p.nextSeq op index) op index).view
      = CPool.applyOp (walAppend (takeSeq p) p.nextSeq op index).view op index :=
    view_applyOp (p := walAppend (takeSeq p) p.nextSeq op index) hr hi
  rw [h1] at h2
  constructor
  · rw [← h1]
    rfl
  · rw [← h2]
    generalize hq : applyOp (walAppend (takeSeq p) p.nextSeq op index) op index = q
    have hg : q.geo = p.geo := by
      rw [← hq, applyOp_geo]
      rfl
    show image p.geo q.file = image q.geo q.file
    rw [hg]

theorem view_commitCrash {f : Mem} (hr : Regions ps p.geo) (hw : p.Words) (ho : op < 2 ^ 32)
    (hi : index < p.geo.blockCount) (hi32 : index < 2 ^ 32) (h : CommitCrash p op index f) :
    CPool.CommitCrash p.view op index (image p.geo f) ∧ Kept p.geo p.file f := by
  obtain ⟨hwal, hbyte⟩ := view_between hr hw ho hi hi32
  have hk := ring_lt p.nextSeq
  cases h with
  | before => exact ⟨CPool.CommitCrash.before, Kept.refl⟩
  | tornWal f hsame hbad =>
    refine ⟨?_, Kept.of_record hk hsame⟩
    rw [image_of_record hr hk hsame]
    exact CPool.CommitCrash.tornWal _ hbad
  | afterWal =>
    refine ⟨?_, kept_walAppend (takeSeq p) p.nextSeq op index⟩
    rw [hwal]
    exact CPool.CommitCrash.afterWal
  | afterByte =>
    refine ⟨?_, kept_applied hi⟩
    rw [hbyte]
    exact CPool.CommitCrash.afterByte
  | tornMeta f hsame hbad =>
    refine ⟨?_, (kept_applied hi).trans (Kept.of_slot hsame)⟩
    rw [image_of_slot hr hsame, hbyte]
    have hslots : (CPool.applyOp (CPool.walAppend (CPool.takeSeq p.view) p.view.nextSeq op index) op
        index).img.metaSlots = p.view.img.metaSlots := applyOp_metaSlots _ _ _
    rw [hslots]
    exact CPool.CommitCrash.tornMeta _ hbad
  | afterMeta =>
    refine ⟨?_, kept_commit hi⟩
    have himg := congrArg Pool.img (view_commit hr hw ho hi hi32)
    rw [show (p.commit op index).view.img
      = image (p.commit op index).geo (p.commit op index).file from rfl, commit_geo] at himg
    rw [himg]
    exact CPool.CommitCrash.afterMeta

theorem view_opCrash {f : Mem} {o : Option (Nat × Nat)} (hr : Regions ps p.geo) (hw : p.Words)
    (ho : ∀ x ∈ o, IsOp p x) (h : OpCrash p o f) :
    CPool.OpCrash p.view o (image p.geo f) ∧ Kept p.geo p.file f := by
  cases h with
  | idle => exact ⟨CPool.OpCrash.idle _, Kept.refl⟩
  | commit h =>
    rename_i op index
    obtain ⟨h1, h2⟩ := ho (op, index) rfl
    obtain ⟨h3, h4⟩ := view_commitCrash hr hw h1 (lt_of_le_of_lt (Nat.mod_le _ _) h2)
      (half_lt _) h
    exact ⟨CPool.OpCrash.commit h3, h4⟩

/-- the geometry stays through the replay -/
theorem replayed_geo (hr : Regions ps p.geo) (hl : LogIn p.geo.blockCount p.view.img) (k : Nat) :
    (replayed p k).pool.geo = p.geo :=
  (view_foldl hr ((replaySeqs (selectMeta (image p.geo p.file)).2).take k) _
    (view_beginRecover hr hl).2).2.geo

theorem replayAll_metaSlots (q : Pool) :
    (CPool.replayAll q).pool.img.metaSlots = q.img.metaSlots := by
  rw [replayAll_records]
  exact foldl_redo_metaSlots _ (CPool.beginRecover q).pool

/-- the state before the last slot is written, as the model has it -/
theorem view_replay {g : Layout} {r : Replay} (hg : r.pool.geo = g) :
    image g r.pool.file = r.view.pool.img ∧ r.pool.activeMeta = r.view.pool.activeMeta
      ∧ r.replayed = r.view.replayed := by
  subst hg
  exact ⟨rfl, rfl, rfl⟩

theorem view_recoverCrash {f : Mem} (hr : Regions ps p.geo) (hl : LogIn p.geo.blockCount p.view.img)
    (h : RecoverCrash p f) : CPool.RecoverCrash p.view (image p.geo f) ∧ Kept p.geo p.file f := by
  cases h with
  | bitmap f hsame hbits =>
    refine ⟨?_, Kept.of_bitmap hsame⟩
    rw [image_of_bitmap hr hsame]
    refine CPool.RecoverCrash.bitmap _ fun j => ?_
    by_cases hj : j < (p.geo.blockCount + 7) / 8
    · obtain ⟨k, hk⟩ := hbits j hj
      refine ⟨k, ?_⟩
      have hv := view_replayed hr hl k
      have hg := replayed_geo hr hl k
      rw [← hv, image_bitmap hj, hk]
      generalize replayed p k = r at hg ⊢
      show _ = (image r.pool.geo r.pool.file).bitmap j
      rw [hg, image_bitmap hj]
    · refine ⟨0, ?_⟩
      have hv := view_replayed hr hl 0
      have hg := replayed_geo hr hl 0
      rw [← hv]
      generalize replayed p 0 = r at hg ⊢
      show _ = (image r.pool.geo r.pool.file).bitmap j
      rw [hg]
      exact (if_neg hj).trans (if_neg hj).symm
  | tornMeta f hsame hbad hrep =>
    refine ⟨?_, (kept_replayAll hr hl).trans (Kept.of_slot hsame)⟩
    obtain ⟨hv, hok⟩ := view_replayAll hr hl
    obtain ⟨h1, h2, h3⟩ := view_replay hok.geo
    rw [hv] at h1 h2 h3
    rw [h2] at hsame hbad
    rw [h3] at hrep
    rw [image_of_slot hr hsame, h1, replayAll_metaSlots]
    exact CPool.RecoverCrash.tornMeta _ hbad hrep
  | afterMeta =>
    refine ⟨?_, kept_recover hr hl⟩
    obtain ⟨hv, hg, -⟩ := view_recover hr hl
    have himg := congrArg Pool.img hv
    generalize p.recover = q at himg hg ⊢
    rw [show q.view.img = image q.geo q.file from rfl, hg] at himg
    rw [himg]
    exact CPool.RecoverCrash.afterMeta

end

end Session

/-! ## a new file -/

/-- the static words of the header -/
structure Static (g : Layout) (f : Mem) : Prop where
  magic : f.load64 0 = POOL_MAGIC
  layout : readLayout f = g

section
variable {ps : Nat} {g : Layout} {f f' : Mem}

theorem Static.same (h : Static g f) (hsame : ∀ x, x < 56 → f' x = f x) : Static g f' := by
  have hw : ∀ a, a + 8 ≤ 56 → f'.load64 a = f.load64 a :=
    fun a ha => Mem.load_congr fun x h1 h2 => hsame x (by omega)
  obtain ⟨hm, hl⟩ := h
  refine ⟨(hw 0 (by decide)).trans hm, ?_⟩
  rw [← hl]
  unfold readLayout
  rw [hw 8 (by decide), hw 16 (by decide), hw 24 (by decide), hw 32 (by decide), hw 40 (by decide),
    hw 48 (by decide)]

/-- the sizes and offsets are words -/
structure Layout.Words (g : Layout) : Prop where
  blockSize : g.blockSize < 2 ^ 64
  blockCount : g.blockCount < 2 ^ 64
  walOffset : g.walOffset < 2 ^ 64
  bitmapOffset : g.bitmapOffset < 2 ^ 64
  dataOffset : g.dataOffset < 2 ^ 64
  totalSize : g.totalSize < 2 ^ 64

theorem createdFile_words (hg : g.Words) :
    Static g (createdFile g) ∧ readSlot (createdFile g) 0 = mkMeta 0 0 := by
  have h := Mem.loadFields_storeFields Mem.zero 0
    [(8, POOL_MAGIC), (8, g.blockSize), (8, g.blockCount), (8, g.walOffset), (8, g.bitmapOffset),
    (8, g.dataOffset), (8, g.totalSize), (8, 0), (8, 0), (8, metaCrc ⟨0, 0, 0⟩)]
  have h' : [(createdFile g).load64 0, (createdFile g).load64 8, (createdFile g).load64 16,
      (createdFile g).load64 24, (createdFile g).load64 32, (createdFile g).load64 40,
      (createdFile g).load64 48, (createdFile g).load64 56, (createdFile g).load64 64,
      (createdFile g).load64 72] = _ := h
  have hcrc : metaCrc ⟨0, 0, 0⟩ < 2 ^ 64 := fnv1a_lt _
  have h1 : (256 : Nat) ^ 8 = 2 ^ 64 := by norm_num
  have h2 : POOL_MAGIC < 2 ^ 64 := by decide
  simp only [List.map_cons, List.map_nil, h1, List.cons.injEq, and_true, Nat.mod_eq_of_lt h2,
    Nat.mod_eq_of_lt hg.blockSize, Nat.mod_eq_of_lt hg.blockCount, Nat.mod_eq_of_lt hg.walOffset,
    Nat.mod_eq_of_lt hg.bitmapOffset, Nat.mod_eq_of_lt hg.dataOffset, Nat.mod_eq_of_lt hg.totalSize,
    Nat.mod_eq_of_lt hcrc, Nat.zero_mod] at h'
  obtain ⟨w0, w1, w2, w3, w4, w5, w6, w7, w8, w9⟩ := h'
  refine ⟨⟨w0, ?_⟩, ?_⟩
  · unfold readLayout
    rw [w1, w2, w3, w4, w5, w6]
  · show (⟨(createdFile g).load64 56, (createdFile g).load64 64, (createdFile g).load64 72⟩ :
      MetaSlot) = _
    rw [w7, w8, w9]
    rfl

/-- behind the first slot a new file is zero -/
theorem createdFile_zero {x : Nat} (hx : 80 ≤ x) : createdFile g x = 0#8 :=
  Mem.storeFields_of_notMem (Or.inr hx)

theorem image_created (hr : Regions ps g) (hg : g.Words) :
    image g (createdFile g) = (created g.blockCount).img := by
  have h1 := hr.header
  have h2 := hr.wal
  have hh : HEADER_BYTES = 104 := rfl
  have hzero : ∀ a n, 80 ≤ a → (createdFile g).load a n = 0 := by
    intro a n ha
    rw [← Mem.load_zero a n]
    exact Mem.load_congr fun x hx _ => createdFile_zero (by omega)
  apply Image.ext_of
  · intro a
    show readSlot (createdFile g) a = if a = 0 then mkMeta 0 0 else ⟨0, 0, 0⟩
    by_cases ha : a = 0
    · rw [if_pos ha, ha]
      exact (createdFile_words hg).2
    · have ha1 : slotAt a = 80 := by
        have hv : a.val = 1 := by
          have := a.isLt
          have hne : a.val ≠ 0 := fun h0 => ha (Fin.ext h0)
          omega
        unfold slotAt
        rw [hv]
        rfl
      rw [if_neg ha]
      unfold readSlot Mem.load64
      rw [ha1, hzero _ _ (by decide), hzero _ _ (by decide), hzero _ _ (by decide)]
  · intro k
    show (image g (createdFile g)).wal k = ⟨0, 0, 0, 0⟩
    by_cases hk : k < WAL_ENTRIES
    · have hb := recordAt_bounds (g := g) hk
      rw [image_wal hk]
      unfold readRecord Mem.load64 Mem.load32
      rw [hzero _ _ (by omega), hzero _ _ (by omega), hzero _ _ (by omega), hzero _ _ (by omega)]
    · exact if_neg hk
  · intro j
    show (image g (createdFile g)).bitmap j = 0#8
    by_cases hj : j < (g.blockCount + 7) / 8
    · rw [image_bitmap hj]
      exact createdFile_zero (by omega)
    · exact if_neg hj

theorem view_createSession (hr : Regions ps g) (hg : g.Words) :
    (createSession g).view = created g.blockCount := by
  unfold Session.view createSession
  dsimp only
  rw [image_created hr hg]
  rfl

end

/-! ## the life of a file -/

inductive FPhase where
  | closed (f : Mem)
  | running (p : Session)

def FPhase.file : FPhase → Mem
  | .closed f => f
  | .running p => p.file

def FPhase.view (g : Layout) : FPhase → Phase
  | .closed f => .closed (image g f)
  | .running p => .running p.view

/-- a step of the pool, or a change of the data: users write, and a crash loses what they wrote -/
inductive FAct where
  | pool (a : Act)
  | data

def DataOnly (g : Layout) (f f' : Mem) : Prop :=
  ∀ x, x < g.dataOffset ∨ g.totalSize ≤ x → f' x = f x

inductive FStep (size : Nat) : FPhase → FAct → FPhase → Prop
  | openPool (f : Mem) (p : Session) (h : openFile size f = some p) :
      FStep size (.closed f) (.pool .openPool) (.running p)
  | openCrash (f f' : Mem) (hsize : HEADER_BYTES ≤ size) (hm : f.load64 0 = POOL_MAGIC)
      (h : Session.RecoverCrash ⟨f, readLayout f, 0, 1, 0⟩ f') :
      FStep size (.closed f) (.pool .openCrash) (.closed f')
  | allocate (p : Session) : FStep size (.running p) (.pool .allocate) (.running p.hfPoolAllocate.1)
  | allocateCrash (p : Session) (f : Mem) (h : Session.OpCrash p p.allocateOp f) :
      FStep size (.running p) (.pool .allocateCrash) (.closed f)
  | free (p : Session) (index : Nat) :
      FStep size (.running p) (.pool (.free index)) (.running (p.hfPoolFree index))
  | freeCrash (p : Session) (index : Nat) (f : Mem) (h : Session.OpCrash p (p.freeOp index) f) :
      FStep size (.running p) (.pool (.freeCrash index)) (.closed f)
  | close (p : Session) : FStep size (.running p) (.pool .close) (.closed p.file)
  | crash (p : Session) : FStep size (.running p) (.pool .crash) (.closed p.file)
  | dataRunning (p : Session) (f : Mem) (h : DataOnly p.geo p.file f) :
      FStep size (.running p) .data (.running { p with file := f })
  | dataClosed (f f' : Mem) (h : DataOnly (readLayout f) f f') : FStep size (.closed f) .data
      (.closed f')

/-- the header stands, an open pool has it, and the pool has come here in a run of the model -/
structure FInv (g : Layout) (s : FPhase) : Prop where
  static : Static g s.file
  handle : ∀ p, s = .running p → p.geo = g ∧ p.Words
  run : ∃ acts last pend,
    Steps (Step g.blockCount) (Sys.created g.blockCount) acts ⟨s.view g, last, pend⟩

section
variable {ps size : Nat} {g : Layout} {s s' : FPhase} {a : Act}

theorem openFile_eq_some {f : Mem} {p : Session} :
    openFile size f = some p ↔ HEADER_BYTES ≤ size ∧ f.load64 0 = POOL_MAGIC
      ∧ p = Session.recover ⟨f, readLayout f, 0, 1, 0⟩ := by
  unfold openFile
  by_cases h1 : size < HEADER_BYTES
  · rw [if_pos h1]
    exact iff_of_false (by simp) fun h => absurd h.1 (by omega)
  · rw [if_neg h1]
    by_cases h2 : f.load64 0 ≠ POOL_MAGIC
    · rw [if_pos h2]
      exact iff_of_false (by simp) fun h => h2 h.2.1
    · rw [if_neg h2, Option.some_inj]
      exact ⟨fun h => ⟨by omega, not_not.mp h2, h.symm⟩, fun h => h.2.2.symm⟩

/-- every record in the ring names a block -/
theorem FInv.logIn (h : FInv g s) (hr : Regions ps g) (hpos : 0 < g.blockCount) :
    LogIn g.blockCount (image g s.file) := by
  obtain ⟨acts, last, pend, hrun⟩ := h.run
  have hc : Counted g.blockCount ⟨s.view g, last, pend⟩ :=
    hrun.invariant (Counted.created hpos) fun _ _ _ hI hs => hI.step hr.count hs
  cases s with
  | closed f => exact hc
  | running p =>
    obtain ⟨hg, -⟩ := h.handle p rfl
    have hl := hc.2.1
    subst hg
    exact hl

/-- an open, on bytes and in the model -/
theorem view_openFile {f : Mem} {p : Session} (hr : Regions ps g) (hs : Static g f)
    (hl : LogIn g.blockCount (image g f)) (h : openFile size f = some p) :
    p.view = hfPoolOpen g.blockCount (image g f) ∧ Kept g f p.file ∧ p.geo = g ∧ p.Words := by
  obtain ⟨-, -, hp⟩ := openFile_eq_some.mp h
  rw [hs.layout] at hp
  obtain ⟨hv, hg, hw⟩ := Session.view_recover (p := ⟨f, g, 0, 1, 0⟩) hr hl
  have hk := Session.kept_recover (p := ⟨f, g, 0, 1, 0⟩) hr hl
  rw [← hp] at hv hg hw hk
  exact ⟨hv, hk, hg, hw⟩

/-- an operation, on bytes and in the model -/
theorem view_commitOp_step {p : Session} {o : Option (Nat × Nat)} (h : FInv p.geo (.running p))
    (hr : Regions ps p.geo) (ho : ∀ x ∈ o, Session.IsOp p x) :
    (p.commitOp o).view = commitOp p.view o ∧ Kept p.geo p.file (p.commitOp o).file
      ∧ (p.commitOp o).geo = p.geo ∧ (p.commitOp o).Words := by
  obtain ⟨-, hw⟩ := h.handle p rfl
  obtain ⟨h1, h2, h3⟩ := Session.view_commitOp hr hw ho
  refine ⟨h1, ?_, h2, h3⟩
  cases o with
  | none => exact Kept.refl
  | some x => exact Session.kept_commit (lt_of_le_of_lt (Nat.mod_le _ _) (ho x rfl).block)

/-- **Every step of the pool on bytes is a step of the model**, and it leaves all bytes but those of
the slots, the ring and the bitmap. -/
theorem FInv.pool_step (h : FInv g s) (hr : Regions ps g) (hpos : 0 < g.blockCount)
    (hs : FStep size s (.pool a) s') (last : Bitmap) (pend : Option (Nat × Nat)) :
    (∃ last' pend', Step g.blockCount ⟨s.view g, last, pend⟩ a ⟨s'.view g, last', pend'⟩)
      ∧ Kept g s.file s'.file ∧ ∀ p, s' = .running p → p.geo = g ∧ p.Words := by
  have hlog := h.logIn hr hpos
  cases hs with
  | openPool f p hp =>
    obtain ⟨hv, hk, hh⟩ := view_openFile (f := f) hr h.static hlog hp
    refine ⟨⟨p.view.img.bitmap, none, ?_⟩, hk, ?_⟩
    · show Step g.blockCount ⟨.closed (image g f), last, pend⟩ .openPool
        ⟨.running p.view, p.view.img.bitmap, none⟩
      rw [hv]
      exact Step.openPool _ _ _
    · intro q hq
      cases hq
      exact hh
  | openCrash f f' hsize hm hc =>
    have hlay : readLayout f = g := h.static.layout
    rw [hlay] at hc
    obtain ⟨h1, h2⟩ := Session.view_recoverCrash (p := ⟨f, g, 0, 1, 0⟩) hr hlog hc
    have hview : (⟨f, g, 0, 1, 0⟩ : Session).view = CPool.handle g.blockCount (image g f) := rfl
    rw [hview] at h1
    refine ⟨⟨last, pend, Step.openCrash _ _ _ _ h1⟩, h2, ?_⟩
    intro p hp
    cases hp
  | allocate p =>
    obtain ⟨rfl, -⟩ := h.handle p rfl
    obtain ⟨h1, h2, h3⟩ := view_commitOp_step h hr fun x hx => Session.allocateOp_isOp hx
    refine ⟨⟨(p.commitOp p.allocateOp).view.img.bitmap, pend, ?_⟩, h2, ?_⟩
    · show Step _ ⟨.running p.view, last, pend⟩ .allocate
        ⟨.running (p.commitOp p.allocateOp).view, (p.commitOp p.allocateOp).view.img.bitmap, pend⟩
      rw [h1, Session.view_allocateOp]
      exact Step.allocate _ _ _
    · intro q hq
      cases hq
      exact h3
  | allocateCrash p f hc =>
    obtain ⟨rfl, hw⟩ := h.handle p rfl
    obtain ⟨h1, h2⟩ := Session.view_opCrash hr hw (fun x hx => Session.allocateOp_isOp hx) hc
    rw [Session.view_allocateOp] at h1
    refine ⟨⟨last, _, Step.allocateCrash _ _ _ _ h1⟩, h2, ?_⟩
    intro q hq
    cases hq
  | free p index =>
    obtain ⟨rfl, -⟩ := h.handle p rfl
    obtain ⟨h1, h2, h3⟩ := view_commitOp_step h hr fun x hx => Session.freeOp_isOp hx
    refine ⟨⟨(p.commitOp (p.freeOp index)).view.img.bitmap, pend, ?_⟩, h2, ?_⟩
    · show Step _ ⟨.running p.view, last, pend⟩ (.free index)
        ⟨.running (p.commitOp (p.freeOp index)).view,
        (p.commitOp (p.freeOp index)).view.img.bitmap, pend⟩
      rw [h1, Session.view_freeOp]
      exact Step.free _ _ _ _
    · intro q hq
      cases hq
      exact h3
  | freeCrash p index f hc =>
    obtain ⟨rfl, hw⟩ := h.handle p rfl
    obtain ⟨h1, h2⟩ := Session.view_opCrash hr hw (fun x hx => Session.freeOp_isOp hx) hc
    rw [Session.view_freeOp] at h1
    refine ⟨⟨last, _, Step.freeCrash _ _ _ _ _ h1⟩, h2, ?_⟩
    intro q hq
    cases hq
  | close p =>
    obtain ⟨rfl, -⟩ := h.handle p rfl
    refine ⟨⟨last, none, Step.close _ _ _⟩, Kept.refl, ?_⟩
    intro q hq
    cases hq
  | crash p =>
    obtain ⟨rfl, -⟩ := h.handle p rfl
    refine ⟨⟨last, none, Step.crash _ _ _⟩, Kept.refl, ?_⟩
    intro q hq
    cases hq

/-- a change of the data leaves header, ring and bitmap -/
theorem image_dataOnly {f f' : Mem} (hr : Regions ps g) (h : DataOnly g f f') :
    image g f' = image g f := by
  have h1 := hr.header
  have h2 := hr.wal
  have h3 := hr.bitmap
  apply Image.ext_of
  · exact image_slots_congr fun x _ hx => h x (Or.inl (by omega))
  · exact image_wal_congr fun x _ hx => h x (Or.inl (by omega))
  · exact image_bitmap_congr fun x _ hx => h x (Or.inl (by omega))

theorem Static.dataOnly {f f' : Mem} (hr : Regions ps g) (hs : Static g f) (h : DataOnly g f f') :
    Static g f' := by
  have h1 := hr.header
  have h2 := hr.wal
  have h3 := hr.bitmap
  have hh : HEADER_BYTES = 104 := rfl
  exact hs.same fun x hx => h x (Or.inl (by omega))

theorem FInv.step {act : FAct} (h : FInv g s) (hr : Regions ps g) (hpos : 0 < g.blockCount)
    (hs : FStep size s act s') : FInv g s' := by
  obtain ⟨acts, last, pend, hrun⟩ := h.run
  cases act with
  | pool a =>
    obtain ⟨⟨last', pend', hstep⟩, hk, hh⟩ := h.pool_step hr hpos hs last pend
    exact ⟨h.static.same fun x hx => hk x (not_touched hr (Or.inl hx)), hh, _, _, _,
      hrun.snoc hstep⟩
  | data =>
    cases hs with
    | dataRunning p f hd =>
      obtain ⟨rfl, hw⟩ := h.handle p rfl
      refine ⟨h.static.dataOnly hr hd, ?_, acts, last, pend, ?_⟩
      · intro q hq
        cases hq
        exact ⟨rfl, ⟨hw.used, hw.next⟩⟩
      · have hv : ({ p with file := f } : Session).view = p.view := by
          unfold Session.view
          dsimp only
          rw [image_dataOnly hr hd]
        show Steps (Step p.geo.blockCount) (Sys.created p.geo.blockCount) acts
          ⟨.running ({ p with file := f } : Session).view, last, pend⟩
        rw [hv]
        exact hrun
    | dataClosed f f' hd =>
      rw [show readLayout f = g from h.static.layout] at hd
      refine ⟨h.static.dataOnly hr hd, ?_, acts, last, pend, ?_⟩
      · intro q hq
        cases hq
      · show Steps (Step g.blockCount) (Sys.created g.blockCount) acts
          ⟨.closed (image g f'), last, pend⟩
        rw [image_dataOnly hr hd]
        exact hrun

theorem FInv.init (hr : Regions ps g) (hg : g.Words) : FInv g (.running (createSession g)) := by
  refine ⟨(createdFile_words hg).1, ?_, [], (created g.blockCount).img.bitmap, none, ?_⟩
  · intro p hp
    cases hp
    exact ⟨rfl, ⟨show 0 < 2 ^ 64 by decide, show 1 < 2 ^ 64 by decide⟩⟩
  · show Steps (Step g.blockCount) (Sys.created g.blockCount) []
      ⟨.running (createSession g).view, (created g.blockCount).img.bitmap, none⟩
    rw [view_createSession hr hg]
    exact Steps.nil _

end

/-! ## the data -/

theorem layout_words (vm : Vm) (blockSize : Nat) {blockCount : Nat} (h : blockCount < 2 ^ 64) :
    (layout vm.pageSize blockSize blockCount).Words :=
  ⟨hfAlignUp_lt (k := 4) blockSize (by decide), h, lt_of_le_of_lt vm.pageSize_le (by decide),
  wadd_lt _ _,
    wadd_lt _ _, wadd_lt _ _⟩

/-- header, ring, bitmap and data as sets of bytes -/
def Layout.parts (g : Layout) : List (Nat → Prop) :=
  [fun x => x < HEADER_BYTES, fun x => g.walOffset ≤ x ∧ x < g.walOffset + WAL_BYTES,
    fun x => g.bitmapOffset ≤ x ∧ x < g.bitmapOffset + (g.blockCount + 7) / 8,
    fun x => g.dataOffset ≤ x ∧ x < g.totalSize]

section
variable {ps : Nat} {g : Layout}

theorem Regions.parts_disjoint (h : Regions ps g) :
    g.parts.Pairwise fun P Q => ∀ x, P x → ¬ Q x := by
  have h1 := h.header
  have h2 := h.wal
  have h3 := h.bitmap
  unfold Layout.parts
  simp only [List.pairwise_cons, List.mem_cons, List.not_mem_nil, or_false, forall_eq_or_imp,
    forall_eq, List.Pairwise.nil, and_true, false_imp_iff, forall_const]
  refine ⟨⟨?_, ?_, ?_⟩, ⟨?_, ?_⟩, ?_⟩ <;> intro x hx <;> omega

/-- the blocks lie in the data -/
theorem Regions.block_inside (h : Regions ps g) {i : Nat} (hi : i < g.blockCount) :
    g.dataOffset + (i + 1) * g.blockSize ≤ g.totalSize := by
  have hmul := Nat.mul_le_mul_right g.blockSize (show i + 1 ≤ g.blockCount from hi)
  rw [Nat.mul_comm g.blockCount] at hmul
  have := h.data
  omega

theorem hfPoolAt_offset {p : Session} {i x : Nat} (h : Regions ps p.geo)
    (hx : p.hfPoolAt i = some x) :
    x = p.geo.dataOffset + i * p.geo.blockSize := by
  unfold Session.hfPoolAt at hx
  split at hx
  · cases hx
  · rename_i hc
    cases hx
    have hin := h.block_inside (not_le.mp (not_or.mp hc).1)
    have htot := h.total
    have hsum : p.geo.dataOffset + i * p.geo.blockSize
        ≤ p.geo.dataOffset + (i + 1) * p.geo.blockSize :=
      Nat.add_le_add_left (Nat.mul_le_mul_right _ (Nat.le_succ i)) _
    rw [wmul_of_lt (by omega), wadd_of_lt (by omega)]

end

/-- **The pool never touches user data.**  In every run on a file whose creation did not wrap: the
four parts are disjoint, three of them start on pages and each block lies in the data; the static
words of the header stand; a block in use is where its index says, in every session; and no step of
the pool, completed or cut off, changes a byte of the data or a static word. -/
theorem pool_keeps_data {vm : Vm} {blockSize blockCount : Nat} {g : Layout} {acts : List FAct}
    {s : FPhase} (hnw : NoWrap vm blockSize blockCount)
    (hg : g = layout vm.pageSize blockSize blockCount)
    (hrun : Steps (FStep g.totalSize) (.running (createSession g)) acts s) :
    (g.parts.Pairwise (fun P Q => ∀ x, P x → ¬ Q x)
      ∧ vm.pageSize ∣ g.walOffset ∧ vm.pageSize ∣ g.bitmapOffset ∧ vm.pageSize ∣ g.dataOffset)
    ∧ (∀ i, i < blockCount → g.dataOffset + (i + 1) * g.blockSize ≤ g.totalSize)
    ∧ Static g s.file
    ∧ (∀ p, s = .running p → p.geo = g
      ∧ ∀ i x, p.hfPoolAt i = some x → x = g.dataOffset + i * g.blockSize)
    ∧ ∀ a s', FStep g.totalSize s (.pool a) s' → ∀ x, x < 56 ∨ g.dataOffset ≤ x →
    s'.file x = s.file x := by
  have hr : Regions vm.pageSize g := hg ▸ hnw.regions
  have hcount : g.blockCount = blockCount := hg ▸ rfl
  have hpos : 0 < g.blockCount := hcount ▸ hnw.count_pos
  have hinv : FInv g s := by
    apply hrun.invariant
      (FInv.init hr (hg ▸ layout_words vm blockSize (lt_trans hnw.count_lt (by decide))))
    intro s a s' hI hs
    exact hI.step hr hpos hs
  refine ⟨⟨hr.parts_disjoint, hr.walPage, hr.bitmapPage, hr.dataPage⟩, ?_, hinv.static, ?_, ?_⟩
  · intro i hi
    exact hr.block_inside (hcount ▸ hi)
  · intro p hp
    obtain ⟨rfl, -⟩ := hinv.handle p hp
    exact ⟨rfl, fun i x hx => hfPoolAt_offset hr hx⟩
  · intro a s' hs x hx
    obtain ⟨-, hk, -⟩ := hinv.pool_step hr hpos hs Bitmap.empty none
    exact hk x (not_touched hr hx)

/-- eight blocks of 64 bytes, one allocated and then the machine stops -/
theorem data_kept_in_small_pool : ∃ s,
    Steps (FStep 20480) (.running (createSession (layout sampleVm.pageSize 64 8)))
    [.pool .allocate, .pool .crash] s
      ∧ Static (layout sampleVm.pageSize 64 8) s.file := by
  have hnw : NoWrap sampleVm 64 8 :=
    ⟨by decide, by decide, by decide, by decide +kernel, by decide +kernel⟩
  have htotal : (layout sampleVm.pageSize 64 8).totalSize = 20480 := by decide +kernel
  have hrun :=
    (((Steps.nil _).snoc (FStep.allocate (createSession (layout sampleVm.pageSize 64 8)))).snoc
    (FStep.crash _ : FStep (layout sampleVm.pageSize 64 8).totalSize _ _ _))
  exact ⟨_, htotal ▸ hrun, (pool_keeps_data hnw rfl hrun).2.2.1⟩

end HeapForge.CPool
