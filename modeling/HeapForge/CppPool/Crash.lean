import Mathlib.Data.List.GetD
import Mathlib.Data.Nat.ModEq
import HeapForge.Lib.Run
import HeapForge.CppPool.Impl

/-!
# Crash consistency of the C++ pool

The life of a pool is modelled as for the C pool: every call completes, or is cut off between two
durable writes or inside one.  A torn metadata slot mixes old and new words and fails its
checksum; its generation, which `meta_commit` reads without checking, is the old or the new one.

Repeated crashes can destroy both slots.  Recovery then starts from watermark `0` and replays the
whole ring, and this is harmless: the ring is a suffix of the history of operations, and the
bitmap differs from the one after that history at most in bits that the suffix writes.

* `Ring`, `Holds`      the valid records of the ring are operations of the history, and the
                       recent operations are all there;
* `Quiet`, `Dirty`     the file between sessions: nothing to replay, or a suffix to replay;
* `sortedPending_eq`   what recovery collects and sorts is the suffix, in order;
* `open_restores_history`   the first completed open after a session yields its bitmap.
-/

set_option linter.unusedSectionVars false
set_option linter.unusedVariables false

namespace HeapForge.CppPool
open Lib

attribute [local instance] neZero_slots

/-! ## crashes -/

structure TornSlot (old new s : MetaSlot) : Prop where
  seq : s.appliedSeq = old.appliedSeq ∨ s.appliedSeq = new.appliedSeq
  gen : s.generation = old.generation ∨ s.generation = new.generation
  crc : s.crc = old.crc ∨ s.crc = new.crc
  bad : ¬ s.Valid

/-- a metadata write cut off in the middle -/
inductive TornMeta (img : Image) (seq : Nat) : Image → Prop
  | mk (s : MetaSlot)
      (hs : TornSlot (img.slots (nextSlot img)) (makeSlot seq (nextGen img)) s) :
      TornMeta img seq { img with slots := Function.update img.slots (nextSlot img) s }

/-- the pool once `commit` has written the log record, and then the bitmap byte -/
def logged (p : Pool) (op : WalOp) (index : Nat) : Pool :=
  walAppend { p with nextSeq := (p.nextSeq + 1) % 2 ^ 64 } p.nextSeq op.code (index % 2 ^ 32)

def marked (p : Pool) (op : WalOp) (index : Nat) : Pool := applyAt (logged p op index) op.code index

theorem commit_eq (p : Pool) (op : WalOp) (index : Nat) :
    commit p op index
      = { marked p op index with img := metaCommit (marked p op index).img p.nextSeq } := rfl

/-- the files a crash inside `commit` can leave -/
inductive CommitCrash (p : Pool) (op : WalOp) (index : Nat) : Image → Prop
  | before : CommitCrash p op index p.img
  | tornWal (r : WalRecord) (hr : ¬ r.Valid) : CommitCrash p op index
      { p.img with wal := Function.update p.img.wal (p.nextSeq % p.walCapacity) r }
  | afterWal : CommitCrash p op index (logged p op index).img
  | afterByte : CommitCrash p op index (marked p op index).img
  | tornMeta {img : Image} (h : TornMeta (marked p op index).img p.nextSeq img) :
      CommitCrash p op index img
  | afterMeta : CommitCrash p op index (commit p op index).img

inductive OpCrash (p : Pool) : Option (WalOp × Nat) → Image → Prop
  | idle (o : Option (WalOp × Nat)) : OpCrash p o p.img
  | commit {op : WalOp} {index : Nat} {img : Image} (h : CommitCrash p op index img) :
      OpCrash p (some (op, index)) img

/-- the bitmap of `p` after the first `k` records were replayed -/
def replayed (p : Pool) (applied k : Nat) : Bitmap :=
  replay p.img.bitmap ((sortedPending p applied).take k)

/-- the image between the sync of the bitmap and the slot write of `recover` -/
def replayedAll (p : Pool) (applied : Nat) : Image :=
  { p.img with bitmap := replay p.img.bitmap (sortedPending p applied) }

theorem recover_eq (p : Pool) (applied : Nat) :
    recover p applied = if sortedPending p applied = [] then { p with img := replayedAll p applied }
      else { p with
        img := metaCommit (replayedAll p applied) (maxSeq applied (sortedPending p applied))
        nextSeq := (maxSeq applied (sortedPending p applied) + 1) % 2 ^ 64 } := rfl

/-- the files a crash inside `recover` can leave: until the sync every byte of the bitmap may
hold any of the values that the replay gave it -/
inductive RecoverCrash (p : Pool) (applied : Nat) : Image → Prop
  | bitmap (b : Bitmap) (hb : ∀ j, ∃ k, b j = replayed p applied k j) :
      RecoverCrash p applied { p.img with bitmap := b }
  | tornMeta {img : Image} (hne : sortedPending p applied ≠ [])
      (h : TornMeta (replayedAll p applied) (maxSeq applied (sortedPending p applied)) img) :
      RecoverCrash p applied img
  | afterMeta : RecoverCrash p applied (recover p applied).img

/-- the files a crash inside the constructor can leave -/
inductive OpenCrash (n cap : Nat) (img : Image) : Image → Prop
  | before : OpenCrash n cap img img
  | recover {img' : Image} (hd : img.cleanShutdown = 0)
      (h : RecoverCrash (loaded n cap img) (loadAppliedSeq img) img') : OpenCrash n cap img img'
  | afterFlag : OpenCrash n cap img (openPool n cap img).img

/-! ## the life of a pool -/

inductive Phase where
  | closed (img : Image)
  | running (p : Pool)

structure Sys where
  phase : Phase
  last : Bitmap
  pending : Option (WalOp × Nat)

inductive Act where
  | openPool
  | openCrash
  | allocate
  | allocateCrash
  | deallocate (index : Nat)
  | deallocateCrash (index : Nat)
  | close
  | crash

/-- calls on the pool, returned or interrupted: an open is one too, since it may write a slot -/
def Act.isCall : Act → Bool
  | .close | .crash => false
  | _ => true

inductive Step (n cap : Nat) : Sys → Act → Sys → Prop
  | openPool (img : Image) (last : Bitmap) (pend : Option (WalOp × Nat)) :
      Step n cap ⟨.closed img, last, pend⟩ .openPool
        ⟨.running (openPool n cap img), (openPool n cap img).img.bitmap, none⟩
  | openCrash (img img' : Image) (last : Bitmap) (pend : Option (WalOp × Nat))
      (h : OpenCrash n cap img img') :
      Step n cap ⟨.closed img, last, pend⟩ .openCrash ⟨.closed img', last, pend⟩
  | allocate (p : Pool) (last : Bitmap) (pend : Option (WalOp × Nat)) :
      Step n cap ⟨.running p, last, pend⟩ .allocate
        ⟨.running (allocate p).1, (allocate p).1.img.bitmap, pend⟩
  | allocateCrash (p : Pool) (img : Image) (last : Bitmap) (pend : Option (WalOp × Nat))
      (h : OpCrash p (allocateOp p) img) :
      Step n cap ⟨.running p, last, pend⟩ .allocateCrash ⟨.closed img, last, allocateOp p⟩
  | deallocate (p : Pool) (index : Nat) (last : Bitmap) (pend : Option (WalOp × Nat)) :
      Step n cap ⟨.running p, last, pend⟩ (.deallocate index)
        ⟨.running (deallocate p index), (deallocate p index).img.bitmap, pend⟩
  | deallocateCrash (p : Pool) (index : Nat) (img : Image) (last : Bitmap)
      (pend : Option (WalOp × Nat)) (h : OpCrash p (deallocateOp p index) img) :
      Step n cap ⟨.running p, last, pend⟩ (.deallocateCrash index)
        ⟨.closed img, last, deallocateOp p index⟩
  | close (p : Pool) (last : Bitmap) (pend : Option (WalOp × Nat)) :
      Step n cap ⟨.running p, last, pend⟩ .close ⟨.closed (close p), last, none⟩
  | crash (p : Pool) (last : Bitmap) (pend : Option (WalOp × Nat)) :
      Step n cap ⟨.running p, last, pend⟩ .crash ⟨.closed p.img, last, none⟩

/-- a completely created pool, still open in the session that created it -/
def Sys.created (n cap : Nat) : Sys :=
  ⟨.running (CppPool.created n cap), (CppPool.created n cap).img.bitmap, none⟩

/-- the write to the bitmap that an operation stands for -/
def write (o : WalOp × Nat) : Nat × Bool := (o.2, decide (o.1 = .alloc))

/-- the bitmap `b` with the operation `o` applied -/
def applied (b : Bitmap) (o : WalOp × Nat) : Bitmap := b.put o.2 (decide (o.1 = .alloc))

/-- the bitmap after a history of operations -/
def bitmapOf (hist : List (WalOp × Nat)) : Bitmap :=
  Bitmap.empty.putAll (hist.map write)

theorem bitmapOf_snoc (hist : List (WalOp × Nat)) (o : WalOp × Nat) :
    bitmapOf (hist ++ [o]) = applied (bitmapOf hist) o := by
  unfold bitmapOf
  rw [List.map_append, Bitmap.putAll_append]
  rfl

theorem apply_eq_put (b : Bitmap) (op : WalOp) (index : Nat) :
    apply b op.code index = applied b (op, index) := by
  cases op <;> rfl

/-! ## the slots -/

def SlotsBelow (img : Image) (n : Nat) : Prop :=
  ∀ i, (img.slots i).Valid → (img.slots i).appliedSeq ≤ n

def GensBelow (img : Image) (g : Nat) : Prop := ∀ i, (img.slots i).generation ≤ g

theorem loadStep_le {n : Nat} {best : Nat × Nat} {s : MetaSlot} (hb : best.1 ≤ n)
    (hs : s.Valid → s.appliedSeq ≤ n) : (loadStep best s).1 ≤ n := by
  unfold loadStep
  split
  · exact hb
  · split
    · exact hb
    · rename_i h
      split
      · exact hs (not_not.mp h)
      · exact hb

theorem loadAppliedSeq_le {img : Image} {n : Nat} (h : SlotsBelow img n) :
    loadAppliedSeq img ≤ n :=
  loadStep_le (loadStep_le (Nat.zero_le n) (h 0)) (h 1)

theorem loadStep_gen_le {best : Nat × Nat} {s : MetaSlot} {g : Nat} (hb : best.2 ≤ g)
    (hs : s.generation ≤ g) : (loadStep best s).2 ≤ g := by
  unfold loadStep
  split
  · exact hb
  · split
    · exact hb
    · split
      · exact hs
      · exact hb

theorem loadStep_older {best : Nat × Nat} {s : MetaSlot} (h : s.generation ≤ best.2) :
    loadStep best s = best := by
  unfold loadStep
  split
  · rfl
  · split
    · rfl
    · rw [if_neg (Nat.not_lt.mpr h)]

theorem loadStep_newer {best : Nat × Nat} {seq gen : Nat} (h : best.2 < gen) :
    loadStep best (makeSlot seq gen) = (seq, gen) := by
  unfold loadStep
  have h0 : ¬ (makeSlot seq gen).generation = 0 := by
    show ¬ gen = 0
    omega
  rw [if_neg h0, if_neg (not_not.mpr (makeSlot_valid seq gen))]
  exact if_pos h

section
variable {img img' : Image} {n g seq : Nat}

theorem nextGen_eq (hg : GensBelow img g) (hlt : g + 1 < 2 ^ 64) :
    nextGen img = max (img.slots 0).generation (img.slots 1).generation + 1 := by
  have h0 := hg 0
  have h1 := hg 1
  unfold nextGen
  apply Nat.mod_eq_of_lt
  omega

theorem lt_nextGen (hg : GensBelow img g) (hlt : g + 1 < 2 ^ 64) (i : Fin 2) :
    (img.slots i).generation < nextGen img := by
  rw [nextGen_eq hg hlt]
  rcases (show i = 0 ∨ i = 1 by omega) with rfl | rfl <;> omega

theorem nextGen_le (hg : GensBelow img g) (hlt : g + 1 < 2 ^ 64) : nextGen img ≤ g + 1 := by
  have h0 := hg 0
  have h1 := hg 1
  rw [nextGen_eq hg hlt]
  omega

/-- a completed slot write has the newest generation, whatever the other slot holds -/
theorem loadAppliedSeq_metaCommit (hg : GensBelow img g) (hlt : g + 1 < 2 ^ 64) :
    loadAppliedSeq (metaCommit img seq) = seq := by
  have hnew := lt_nextGen hg hlt
  unfold loadAppliedSeq metaCommit
  rcases (show nextSlot img = 0 ∨ nextSlot img = 1 by omega) with h | h
  · rw [h]
    show (loadStep (loadStep (0, 0) (Function.update img.slots 0 (makeSlot seq (nextGen img)) 0))
      (Function.update img.slots 0 (makeSlot seq (nextGen img)) 1)).1 = seq
    rw [Function.update_self, Function.update_of_ne (by decide),
      loadStep_newer (Nat.lt_of_le_of_lt (Nat.zero_le _) (hnew 0)),
      loadStep_older (Nat.le_of_lt (hnew 1))]
  · rw [h]
    show (loadStep (loadStep (0, 0) (Function.update img.slots 1 (makeSlot seq (nextGen img)) 0))
      (Function.update img.slots 1 (makeSlot seq (nextGen img)) 1)).1 = seq
    rw [Function.update_self, Function.update_of_ne (by decide)]
    have h0 : (loadStep (0, 0) (img.slots 0)).2 ≤ (img.slots 0).generation :=
      loadStep_gen_le (Nat.zero_le _) (le_refl _)
    rw [loadStep_newer (Nat.lt_of_le_of_lt h0 (hnew 0))]

theorem GensBelow.metaCommit (hg : GensBelow img g) (hlt : g + 1 < 2 ^ 64) :
    GensBelow (metaCommit img seq) (g + 1) := by
  intro i
  show (Function.update img.slots (nextSlot img) _ i).generation ≤ g + 1
  by_cases h : i = nextSlot img
  · rw [h, Function.update_self]
    exact nextGen_le hg hlt
  · rw [Function.update_of_ne h]
    exact Nat.le_succ_of_le (hg i)

theorem SlotsBelow.metaCommit {m : Nat} (hs : SlotsBelow img m) (hm : m ≤ seq) :
    SlotsBelow (metaCommit img seq) seq := by
  intro i
  show (Function.update img.slots (nextSlot img) _ i).Valid →
    (Function.update img.slots (nextSlot img) _ i).appliedSeq ≤ seq
  by_cases h : i = nextSlot img
  · rw [h, Function.update_self]
    exact fun _ => le_refl seq
  · rw [Function.update_of_ne h]
    exact fun hv => le_trans (hs i hv) hm

theorem GensBelow.torn (hg : GensBelow img g) (hlt : g + 1 < 2 ^ 64)
    (ht : TornMeta img seq img') : GensBelow img' (g + 1) := by
  cases ht with
  | mk s hs =>
    intro i
    show (Function.update img.slots (nextSlot img) s i).generation ≤ g + 1
    by_cases h : i = nextSlot img
    · rw [h, Function.update_self]
      rcases hs.gen with e | e
      · rw [e]
        exact Nat.le_succ_of_le (hg _)
      · rw [e]
        exact nextGen_le hg hlt
    · rw [Function.update_of_ne h]
      exact Nat.le_succ_of_le (hg i)

theorem SlotsBelow.torn (hs : SlotsBelow img n) (ht : TornMeta img seq img') :
    SlotsBelow img' n := by
  cases ht with
  | mk s hb =>
    intro i
    show (Function.update img.slots (nextSlot img) s i).Valid →
      (Function.update img.slots (nextSlot img) s i).appliedSeq ≤ n
    by_cases h : i = nextSlot img
    · rw [h, Function.update_self]
      exact fun hv => absurd hv hb.bad
    · rw [Function.update_of_ne h]
      exact hs i

theorem TornMeta.frame (ht : TornMeta img seq img') :
    img'.wal = img.wal ∧ img'.bitmap = img.bitmap ∧ img'.cleanShutdown = img.cleanShutdown := by
  cases ht with
  | mk s hs => exact ⟨rfl, rfl, rfl⟩

end

/-! ## the ring and the history -/

/-- the record of operation number `s` of the history -/
def recordAt (hist : List (WalOp × Nat)) (s : Nat) : WalRecord :=
  makeRecord s (hist.getD (s - 1) (.free, 0)).1.code (hist.getD (s - 1) (.free, 0)).2

theorem recordAt_snoc {hist : List (WalOp × Nat)} {s : Nat} (o : WalOp × Nat) (h1 : 1 ≤ s)
    (h2 : s ≤ hist.length) : recordAt (hist ++ [o]) s = recordAt hist s := by
  unfold recordAt
  rw [List.getD_append _ _ _ _ (by omega)]

theorem recordAt_last (hist : List (WalOp × Nat)) (o : WalOp × Nat) :
    recordAt (hist ++ [o]) (hist.length + 1) = makeRecord (hist.length + 1) o.1.code o.2 := by
  unfold recordAt
  rw [List.getD_append_right _ _ _ _ (by omega)]
  simp

/-- a valid record of the ring is an operation of the history, in its own slot, and not so old
that a later operation has taken the slot -/
structure InHistory (cap : Nat) (hist : List (WalOp × Nat)) (j : Nat) (r : WalRecord) : Prop where
  le : r.seq ≤ hist.length
  recent : hist.length < r.seq + cap
  slot : r.seq % cap = j
  eq : r = recordAt hist r.seq

def Ring (cap : Nat) (img : Image) (hist : List (WalOp × Nat)) : Prop :=
  ∀ j, j < cap → (img.wal j).Valid → (img.wal j).seq ≠ 0 → InHistory cap hist j (img.wal j)

/-- the last `cap - d` operations of the history are in the ring -/
def Holds (cap d : Nat) (img : Image) (hist : List (WalOp × Nat)) : Prop :=
  ∀ s, 1 ≤ s → s ≤ hist.length → hist.length + d < s + cap →
    img.wal (s % cap) = recordAt hist s

section
variable {cap : Nat} {img img' : Image} {hist : List (WalOp × Nat)} {o : WalOp × Nat}

theorem Ring.congr (h : Ring cap img hist) (hw : img'.wal = img.wal) : Ring cap img' hist := by
  intro j
  rw [hw]
  exact h j

theorem Holds.congr {d : Nat} (h : Holds cap d img hist) (hw : img'.wal = img.wal) :
    Holds cap d img' hist := by
  intro s
  rw [hw]
  exact h s

theorem Holds.mono {d : Nat} (h : Holds cap 0 img hist) : Holds cap d img hist :=
  fun s h1 h2 h3 => h s h1 h2 (by omega)

/-- a torn write of the next record destroys at most the oldest record of the ring -/
theorem Ring.torn (h : Ring cap img hist) {r : WalRecord} {j : Nat} (hr : ¬ r.Valid)
    (hw : img'.wal = Function.update img.wal j r) : Ring cap img' hist := by
  intro i hi
  rw [hw]
  by_cases e : i = j
  · rw [e, Function.update_self]
    exact fun hv => absurd hv hr
  · rw [Function.update_of_ne e]
    exact h i hi

theorem Holds.torn (h : Holds cap 1 img hist) {r : WalRecord}
    (hw : img'.wal = Function.update img.wal ((hist.length + 1) % cap) r) :
    Holds cap 1 img' hist := by
  intro s h1 h2 h3
  rw [hw, Function.update_of_ne]
  · exact h s h1 h2 h3
  · -- two numbers in one slot differ by a multiple of `cap`, and these are too close
    intro e
    obtain ⟨k, hk⟩ := (Nat.modEq_iff_dvd' (by omega)).mp
      (show Nat.ModEq cap s (hist.length + 1) from e)
    have : k ≠ 0 := by
      rintro rfl
      omega
    have : cap ≤ cap * k := Nat.le_mul_of_pos_right _ (by omega)
    omega

/-- the ring once the record of the next operation is written -/
theorem Ring.append (h : Ring cap img hist)
    (hw : img'.wal = Function.update img.wal ((hist.length + 1) % cap)
      (recordAt (hist ++ [o]) (hist.length + 1))) : Ring cap img' (hist ++ [o]) := by
  intro j hj
  rw [hw]
  by_cases e : j = (hist.length + 1) % cap
  · intro _ _
    rw [e, Function.update_self]
    refine ⟨?_, ?_, rfl, rfl⟩
    · show hist.length + 1 ≤ (hist ++ [o]).length
      simp
    · show (hist ++ [o]).length < hist.length + 1 + cap
      simp only [List.length_append, List.length_cons, List.length_nil]
      omega
  · rw [Function.update_of_ne e]
    intro hv h0
    obtain ⟨hle, hrec, hslot, heq⟩ := h j hj hv h0
    refine ⟨?_, ?_, hslot, ?_⟩
    · rw [List.length_append]
      omega
    · simp only [List.length_append, List.length_cons, List.length_nil]
      have : hist.length + 1 ≠ (img.wal j).seq + cap := by
        intro e'
        apply e
        rw [e', Nat.add_mod_right, hslot]
      omega
    · rw [recordAt_snoc o (by omega) hle]
      exact heq

theorem Holds.append (h : Holds cap 1 img hist)
    (hw : img'.wal = Function.update img.wal ((hist.length + 1) % cap)
      (recordAt (hist ++ [o]) (hist.length + 1))) : Holds cap 0 img' (hist ++ [o]) := by
  intro s h1 h2 h3
  simp only [List.length_append, List.length_cons, List.length_nil] at h2 h3
  rw [hw]
  by_cases e : s = hist.length + 1
  · rw [e, Function.update_self]
  · have hs : s ≤ hist.length := by omega
    rw [recordAt_snoc o h1 hs]
    have ht : Holds cap 1 img' hist := h.torn hw
    rw [← hw]
    exact ht s h1 hs (by omega)

end

/-! ## what recovery collects -/

/-- the number of operations that recovery does not look at -/
def settled (cap : Nat) (img : Image) (hist : List (WalOp × Nat)) : Nat :=
  max (loadAppliedSeq img) (hist.length - cap)

section
variable {n cap : Nat} {img : Image} {hist : List (WalOp × Nat)}

theorem mem_pending {p : Pool} {a : Nat} {r : WalRecord} : r ∈ pending p a ↔
    (∃ j, j < p.walCapacity ∧ p.img.wal j = r) ∧ r.seq ≠ 0 ∧ a < r.seq ∧ r.Valid ∧
      r.index < p.blockCount := by
  unfold pending
  rw [List.mem_filter, List.mem_map]
  simp only [List.mem_range, Bool.not_eq_true', Bool.or_eq_false_iff, decide_eq_false_iff_not,
    not_or, not_not, Nat.not_le]
  tauto

theorem mem_pending_iff (hcap : 0 < cap) (hr : Ring cap img hist) (hh : Holds cap 0 img hist)
    (hn : ∀ o ∈ hist, o.2 < n) (r : WalRecord) :
    r ∈ pending (loaded n cap img) (loadAppliedSeq img) ↔
      ∃ s, settled cap img hist < s ∧ s ≤ hist.length ∧ r = recordAt hist s := by
  unfold settled
  rw [mem_pending]
  constructor
  · rintro ⟨⟨j, hj, rfl⟩, h0, ha, hv, hi⟩
    obtain ⟨hle, hrec, hslot, heq⟩ := hr j hj hv h0
    have ha' : loadAppliedSeq img < (img.wal j).seq := ha
    exact ⟨_, by omega, hle, heq⟩
  · rintro ⟨s, hs, hle, rfl⟩
    have h1 : 1 ≤ s := by omega
    refine ⟨⟨s % cap, Nat.mod_lt _ hcap, hh s h1 hle (by omega)⟩, ?_, ?_,
      makeRecord_valid _ _ _, ?_⟩
    · show s ≠ 0
      omega
    · show loadAppliedSeq img < s
      omega
    · show (hist.getD (s - 1) (.free, 0)).2 < n
      rw [List.getD_eq_getElem _ _ (by omega)]
      exact hn _ (List.getElem_mem _)

theorem nodup_pending (hr : Ring cap img hist) :
    (pending (loaded n cap img) (loadAppliedSeq img)).Nodup := by
  unfold pending
  rw [List.filter_map]
  apply List.Nodup.map_on
  · intro i hi j hj e
    obtain ⟨hi1, hi2⟩ := List.mem_filter.mp hi
    obtain ⟨hj1, hj2⟩ := List.mem_filter.mp hj
    simp only [Function.comp_apply, Bool.not_eq_true', Bool.or_eq_false_iff,
      decide_eq_false_iff_not, not_or, not_not, Nat.not_le] at hi2 hj2
    -- a valid record sits in the slot of its own number
    have h1 := (hr i (List.mem_range.mp hi1) hi2.1.2 hi2.1.1.1).slot
    have h2 := (hr j (List.mem_range.mp hj1) hj2.1.2 hj2.1.1.1).slot
    have e' : (img.wal i).seq = (img.wal j).seq := congrArg WalRecord.seq e
    rw [← h1, ← h2, e']
  · exact List.nodup_range.filter _

/-- the records of the operations after number `m`, in order -/
def recordsFrom (hist : List (WalOp × Nat)) (m : Nat) : List WalRecord :=
  (List.range' (m + 1) (hist.length - m)).map (recordAt hist)

/-- **What recovery collects and sorts is a suffix of the history, in order.** -/
theorem sortedPending_eq (hcap : 0 < cap) (hr : Ring cap img hist) (hh : Holds cap 0 img hist)
    (hn : ∀ o ∈ hist, o.2 < n) :
    sortedPending (loaded n cap img) (loadAppliedSeq img)
      = recordsFrom hist (settled cap img hist) := by
  have hseq : ∀ s, (recordAt hist s).seq = s := fun s => rfl
  have hperm : (sortedPending (loaded n cap img) (loadAppliedSeq img)).Perm
      (recordsFrom hist (settled cap img hist)) := by
    refine (List.mergeSort_perm _ _).trans ?_
    apply (List.perm_ext_iff_of_nodup (nodup_pending hr) ?_).mpr
    · intro r
      rw [mem_pending_iff hcap hr hh hn]
      unfold recordsFrom
      rw [List.mem_map]
      constructor
      · rintro ⟨s, h1, h2, rfl⟩
        exact ⟨s, List.mem_range'_1.mpr (by omega), rfl⟩
      · rintro ⟨s, hs, rfl⟩
        have := List.mem_range'_1.mp hs
        exact ⟨s, by omega, by omega, rfl⟩
    · apply List.Nodup.map
      · intro s s' e
        exact congrArg WalRecord.seq e
      · exact List.nodup_range'
  refine @List.Perm.eq_of_pairwise WalRecord (fun a b => a.seq ≤ b.seq) _ _ ?_ ?_ ?_ hperm
  · -- records of the history with one number are one record
    intro a b ha hb hab hba
    have ha' := hperm.subset ha
    obtain ⟨s, -, rfl⟩ := List.mem_map.mp ha'
    obtain ⟨s', -, rfl⟩ := List.mem_map.mp hb
    have e : s = s' := le_antisymm hab hba
    rw [e]
  · have htrans : ∀ a b c : WalRecord, decide (a.seq ≤ b.seq) = true →
        decide (b.seq ≤ c.seq) = true → decide (a.seq ≤ c.seq) = true := by
      intro a b c hab hbc
      simp only [decide_eq_true_eq] at *
      omega
    have htotal : ∀ a b : WalRecord, (decide (a.seq ≤ b.seq) || decide (b.seq ≤ a.seq)) = true := by
      intro a b
      simp only [Bool.or_eq_true, decide_eq_true_eq]
      omega
    exact (List.pairwise_mergeSort htrans htotal _).imp (fun h => of_decide_eq_true h)
  · unfold recordsFrom
    rw [List.pairwise_map]
    exact (List.pairwise_lt_range' 1).imp (fun h => le_of_lt h)

end

/-! ## replaying a suffix of the history -/

theorem replay_eq_putAll (b : Bitmap) (rs : List WalRecord) :
    replay b rs = b.putAll (rs.map (fun r => (r.index, decide (r.op = WalOp.alloc.code)))) := by
  unfold replay Bitmap.putAll
  rw [List.foldl_map]
  congr 1
  funext b r
  unfold apply Bitmap.put
  by_cases h : r.op = WalOp.alloc.code <;> simp [h]

theorem recordsFrom_writes (hist : List (WalOp × Nat)) (m : Nat) :
    (recordsFrom hist m).map (fun r => (r.index, decide (r.op = WalOp.alloc.code)))
      = (hist.drop m).map write := by
  apply List.ext_getElem
  · simp [recordsFrom]
  · intro i h1 h2
    simp only [List.length_map, List.length_drop] at h2
    simp only [recordsFrom, List.getElem_map, List.getElem_range', List.getElem_drop, recordAt]
    have e : m + 1 + 1 * i - 1 = m + i := by omega
    rw [e, List.getD_eq_getElem _ _ (by omega)]
    show (hist[m + i].2, decide (hist[m + i].1.code = WalOp.alloc.code)) = write hist[m + i]
    unfold write
    cases hist[m + i].1 <;> rfl

theorem replay_recordsFrom (b : Bitmap) (hist : List (WalOp × Nat)) (m k : Nat) :
    replay b ((recordsFrom hist m).take k) = b.putAll (((hist.drop m).map write).take k) := by
  rw [replay_eq_putAll, List.map_take, recordsFrom_writes]

theorem bitmapOf_eq_putAll (hist : List (WalOp × Nat)) (m : Nat) :
    bitmapOf hist = (bitmapOf (hist.take m)).putAll ((hist.drop m).map write) := by
  unfold bitmapOf
  rw [← Bitmap.putAll_append, ← List.map_append, List.take_append_drop]

/-- replaying a suffix over a bitmap that is right away from it gives the bitmap of the history -/
theorem replay_suffix {b : Bitmap} {hist : List (WalOp × Nat)} {m : Nat}
    (h : ∀ j, (∀ o ∈ hist.drop m, o.2 ≠ j) → b.test j = (bitmapOf hist).test j) :
    b.putAll ((hist.drop m).map write) = bitmapOf hist := by
  conv_rhs => rw [bitmapOf_eq_putAll hist m]
  apply Bitmap.putAll_congr
  intro j hj
  have hj' : ∀ o ∈ hist.drop m, o.2 ≠ j := fun o ho => hj (write o) (List.mem_map_of_mem ho)
  rw [h j hj', bitmapOf_eq_putAll hist m, Bitmap.test_putAll_of_forall_ne hj]

theorem maxSeq_recordsFrom {hist : List (WalOp × Nat)} {m : Nat} (h : m < hist.length) (a : Nat) :
    maxSeq a (recordsFrom hist m) = hist.length := by
  unfold maxSeq recordsFrom
  obtain ⟨k, hk⟩ : ∃ k, hist.length - m = k + 1 := ⟨hist.length - m - 1, by omega⟩
  rw [hk, List.range'_1_concat, List.map_append, List.foldl_append]
  show m + 1 + k = hist.length
  omega

theorem recordsFrom_ne_nil {hist : List (WalOp × Nat)} {m : Nat} (h : m < hist.length) :
    recordsFrom hist m ≠ [] := by
  intro e
  have : (recordsFrom hist m).length = hist.length - m := by simp [recordsFrom]
  rw [e] at this
  simp only [List.length_nil] at this
  omega

/-! ## the invariant -/

/-- the file needs no replay: the watermark is the whole history and the bitmap is its bitmap -/
structure Quiet (n cap g : Nat) (img : Image) (hist : List (WalOp × Nat)) : Prop where
  gens : GensBelow img g
  ring : Ring cap img hist
  index : ∀ o ∈ hist, o.2 < n
  load : loadAppliedSeq img = hist.length
  below : SlotsBelow img hist.length
  holds : Holds cap 1 img hist
  bitmap : img.bitmap = bitmapOf hist

/-- the file needs a replay: the last operation is not covered by any valid slot -/
structure Dirty (n cap g : Nat) (img : Image) (hist : List (WalOp × Nat)) : Prop where
  gens : GensBelow img g
  ring : Ring cap img hist
  index : ∀ o ∈ hist, o.2 < n
  pos : 0 < hist.length
  below : SlotsBelow img (hist.length - 1)
  holds : Holds cap 0 img hist
  flag : img.cleanShutdown = 0
  agree : ∀ j, (∀ o ∈ hist.drop (settled cap img hist), o.2 ≠ j) →
    img.bitmap.test j = (bitmapOf hist).test j

structure Running (n cap g : Nat) (p : Pool) (hist : List (WalOp × Nat)) : Prop where
  quiet : Quiet n cap g p.img hist
  flag : p.img.cleanShutdown = 0
  next : p.nextSeq = hist.length + 1
  count : p.blockCount = n
  capacity : p.walCapacity = cap

/-- the invariant after `calls` calls -/
def Inv (n cap calls : Nat) (s : Sys) : Prop :=
  match s.phase with
  | .running p => ∃ hist, hist.length ≤ calls ∧ Running n cap (calls + 1) p hist ∧
      s.last = bitmapOf hist
  | .closed img => ∃ hist, hist.length ≤ calls ∧
      (bitmapOf hist = s.last ∨ ∃ o, s.pending = some o ∧ bitmapOf hist = applied s.last o) ∧
      (Quiet n cap (calls + 1) img hist ∨ Dirty n cap (calls + 1) img hist)

section
variable {n cap g : Nat} {img img' : Image} {hist : List (WalOp × Nat)} {p : Pool}

theorem Quiet.mono {g' : Nat} (h : Quiet n cap g img hist) (hg : g ≤ g') :
    Quiet n cap g' img hist :=
  { h with gens := fun i => le_trans (h.gens i) hg }

theorem Dirty.mono {g' : Nat} (h : Dirty n cap g img hist) (hg : g ≤ g') :
    Dirty n cap g' img hist :=
  { h with gens := fun i => le_trans (h.gens i) hg }

theorem Quiet.setFlag (h : Quiet n cap g img hist) (v : Nat) :
    Quiet n cap g { img with cleanShutdown := v } hist :=
  ⟨h.gens, h.ring, h.index, h.load, h.below, h.holds, h.bitmap⟩

theorem Dirty.settleBitmap (h : Dirty n cap g img hist) :
    Dirty n cap g { img with bitmap := bitmapOf hist } hist :=
  ⟨h.gens, h.ring.congr rfl, h.index, h.pos, h.below, h.holds.congr rfl, h.flag, fun _ _ => rfl⟩

theorem Dirty.settled_lt (hcap : 0 < cap) (h : Dirty n cap g img hist) :
    settled cap img hist < hist.length := by
  have h1 := loadAppliedSeq_le h.below
  have h2 := h.pos
  unfold settled
  omega

/-- a completed slot write with every operation applied makes the file quiet -/
theorem quiet_metaCommit (hcap : 0 < cap) (hg : GensBelow img g) (hlt : g + 1 < 2 ^ 64)
    (hr : Ring cap img hist) (hi : ∀ o ∈ hist, o.2 < n) (hs : SlotsBelow img (hist.length - 1))
    (hh : Holds cap 0 img hist) (hb : img.bitmap = bitmapOf hist) :
    Quiet n cap (g + 1) (metaCommit img hist.length) hist where
  gens := hg.metaCommit hlt
  ring := hr.congr rfl
  index := hi
  load := loadAppliedSeq_metaCommit hg hlt
  below := hs.metaCommit (Nat.sub_le _ _)
  holds := hh.mono.congr rfl
  bitmap := hb

/-- a torn slot write leaves the file dirty -/
theorem dirty_torn {seq : Nat} (hpos : 0 < hist.length) (hg : GensBelow img g)
    (hlt : g + 1 < 2 ^ 64) (hr : Ring cap img hist) (hi : ∀ o ∈ hist, o.2 < n)
    (hs : SlotsBelow img (hist.length - 1)) (hh : Holds cap 0 img hist)
    (hf : img.cleanShutdown = 0) (hb : img.bitmap = bitmapOf hist)
    (ht : TornMeta img seq img') : Dirty n cap (g + 1) img' hist where
  gens := hg.torn hlt ht
  ring := hr.congr ht.frame.1
  index := hi
  pos := hpos
  below := hs.torn ht
  holds := hh.congr ht.frame.1
  flag := ht.frame.2.2.trans hf
  agree := fun j _ => by rw [ht.frame.2.1, hb]

/-! ### inside `commit` -/

theorem Running.logged_wal (h : Running n cap g p hist) (op : WalOp) {index : Nat}
    (hi : index < 2 ^ 32) : (logged p op index).img.wal
      = Function.update p.img.wal ((hist.length + 1) % cap)
        (recordAt (hist ++ [(op, index)]) (hist.length + 1)) := by
  rw [recordAt_last]
  show Function.update p.img.wal (p.nextSeq % p.walCapacity)
    (makeRecord p.nextSeq op.code (index % 2 ^ 32)) = _
  rw [h.next, h.capacity, Nat.mod_eq_of_lt hi]

theorem index_snoc {o : WalOp × Nat} (h : ∀ o ∈ hist, o.2 < n) (ho : o.2 < n) :
    ∀ o' ∈ hist ++ [o], o'.2 < n := by
  intro o' ho'
  rcases List.mem_append.mp ho' with h1 | h1
  · exact h o' h1
  · rw [List.mem_singleton.mp h1]
    exact ho

/-- once the record is written, the file is dirty until the slot is: only the bit of the new
operation may differ from the new history -/
theorem Running.dirty (h : Running n cap g p hist) (hcap : 0 < cap) (hn : n ≤ 2 ^ 32) (op : WalOp)
    {index : Nat} (hi : index < n) {b : Bitmap}
    (hb : ∀ j, j ≠ index → b.test j = p.img.bitmap.test j) :
    Dirty n cap g { (logged p op index).img with bitmap := b } (hist ++ [(op, index)]) := by
  have hwal := h.logged_wal op (lt_of_lt_of_le hi hn)
  have hlen : (hist ++ [(op, index)]).length = hist.length + 1 := by simp
  refine ⟨h.quiet.gens, h.quiet.ring.append hwal, index_snoc h.quiet.index hi, by omega, ?_,
    h.quiet.holds.append hwal, h.flag, ?_⟩
  · rw [hlen, Nat.add_sub_cancel]
    exact h.quiet.below
  · intro j hj
    have hload : loadAppliedSeq p.img = hist.length := h.quiet.load
    have hset : settled cap { (logged p op index).img with bitmap := b } (hist ++ [(op, index)])
        = hist.length := by
      unfold settled
      rw [hlen]
      show max (loadAppliedSeq p.img) _ = _
      omega
    rw [hset, List.drop_left] at hj
    have hne : j ≠ index := fun e => hj (op, index) (List.mem_singleton.mpr rfl) e.symm
    rw [bitmapOf_snoc, ← h.quiet.bitmap]
    show b.test j = _
    rw [hb j hne]
    exact ((Bitmap.test_put _ _ _ _).trans (if_neg hne)).symm

theorem marked_bitmap (p : Pool) (op : WalOp) (index : Nat) :
    (marked p op index).img.bitmap = applied p.img.bitmap (op, index) := apply_eq_put _ _ _

/-- everything `quiet_metaCommit` and `dirty_torn` ask of the image before the slot write -/
theorem Running.marked_dirty (h : Running n cap g p hist) (hcap : 0 < cap) (hn : n ≤ 2 ^ 32)
    (op : WalOp) {index : Nat} (hi : index < n) :
    Dirty n cap g (marked p op index).img (hist ++ [(op, index)]) ∧
      (marked p op index).img.bitmap = bitmapOf (hist ++ [(op, index)]) := by
  constructor
  · apply h.dirty hcap hn op hi
    intro j hj
    show (apply p.img.bitmap op.code index).test j = _
    rw [apply_eq_put]
    exact (Bitmap.test_put _ _ _ _).trans (if_neg hj)
  · rw [marked_bitmap, bitmapOf_snoc, h.quiet.bitmap]

theorem Running.commit (h : Running n cap g p hist) (hcap : 0 < cap) (hn : n ≤ 2 ^ 32)
    (hlt : g + 1 < 2 ^ 64) (hlen : hist.length + 2 < 2 ^ 64) (op : WalOp) {index : Nat}
    (hi : index < n) : Running n cap (g + 1) (commit p op index) (hist ++ [(op, index)]) := by
  obtain ⟨hd, hb⟩ := h.marked_dirty hcap hn op hi
  have hseq : p.nextSeq = (hist ++ [(op, index)]).length := by
    rw [h.next]
    simp
  rw [commit_eq, hseq]
  refine ⟨quiet_metaCommit hcap hd.gens hlt hd.ring hd.index hd.below hd.holds hb, hd.flag, ?_,
    h.count, h.capacity⟩
  show (p.nextSeq + 1) % 2 ^ 64 = _
  rw [hseq, Nat.mod_eq_of_lt
    (by simp only [List.length_append, List.length_cons, List.length_nil]; omega)]

/-- **Every crash inside `commit` leaves a file of the old history or of the new one.** -/
theorem Running.commitCrash (h : Running n cap g p hist) (hcap : 0 < cap) (hn : n ≤ 2 ^ 32)
    (hlt : g + 1 < 2 ^ 64) (hlen : hist.length + 2 < 2 ^ 64) {op : WalOp} {index : Nat}
    (hi : index < n) (hc : CommitCrash p op index img) :
    Quiet n cap (g + 1) img hist ∨ Quiet n cap (g + 1) img (hist ++ [(op, index)]) ∨
      Dirty n cap (g + 1) img (hist ++ [(op, index)]) := by
  cases hc with
  | before => exact Or.inl (h.quiet.mono (Nat.le_succ g))
  | tornWal r hr =>
    have hw : Function.update p.img.wal (p.nextSeq % p.walCapacity) r
        = Function.update p.img.wal ((hist.length + 1) % cap) r := by rw [h.next, h.capacity]
    refine Or.inl (Quiet.mono ?_ (Nat.le_succ g))
    exact ⟨h.quiet.gens, h.quiet.ring.torn hr hw, h.quiet.index, h.quiet.load, h.quiet.below,
      h.quiet.holds.torn hw, h.quiet.bitmap⟩
  | afterWal =>
    exact Or.inr (Or.inr ((h.dirty hcap hn op hi (fun j _ => rfl)).mono (Nat.le_succ g)))
  | afterByte => exact Or.inr (Or.inr ((h.marked_dirty hcap hn op hi).1.mono (Nat.le_succ g)))
  | tornMeta ht =>
    obtain ⟨hd, hb⟩ := h.marked_dirty hcap hn op hi
    exact Or.inr (Or.inr (dirty_torn hd.pos hd.gens hlt hd.ring hd.index hd.below hd.holds hd.flag
      hb ht))
  | afterMeta => exact Or.inr (Or.inl (h.commit hcap hn hlt hlen op hi).quiet)

/-! ### inside the constructor -/

/-- a quiet file has nothing to replay -/
theorem Quiet.sortedPending (h : Quiet n cap g img hist) :
    sortedPending (loaded n cap img) (loadAppliedSeq img) = [] := by
  have hp : pending (loaded n cap img) (loadAppliedSeq img) = [] := by
    apply List.eq_nil_iff_forall_not_mem.mpr
    intro r hr
    obtain ⟨⟨j, hj, rfl⟩, h0, ha, hv, -⟩ := mem_pending.mp hr
    have h1 := (h.ring j hj hv h0).le
    have h2 : loadAppliedSeq img < (img.wal j).seq := ha
    rw [h.load] at h2
    omega
  unfold CppPool.sortedPending
  rw [hp, List.mergeSort_nil]

theorem Quiet.recover (h : Quiet n cap g img hist) :
    CppPool.recover (loaded n cap img) (loadAppliedSeq img) = loaded n cap img := by
  unfold CppPool.recover
  rw [h.sortedPending]
  rfl

theorem Quiet.recovered (h : Quiet n cap g img hist) :
    CppPool.recovered n cap img = loaded n cap img := by
  unfold CppPool.recovered
  rw [h.recover, ite_self]

theorem Quiet.openPool (h : Quiet n cap g img hist) (hlen : hist.length + 1 < 2 ^ 64) :
    Running n cap g (openPool n cap img) hist := by
  unfold CppPool.openPool
  rw [h.recovered]
  refine ⟨h.setFlag 0, rfl, ?_, rfl, rfl⟩
  show (loadAppliedSeq img + 1) % 2 ^ 64 = hist.length + 1
  rw [h.load, Nat.mod_eq_of_lt hlen]

/-- the image of a dirty file between the sync of the bitmap and the slot write -/
theorem Dirty.replayedAll (hcap : 0 < cap) (h : Dirty n cap g img hist) :
    replayedAll (loaded n cap img) (loadAppliedSeq img) = { img with bitmap := bitmapOf hist } := by
  unfold CppPool.replayedAll
  have hs := sortedPending_eq hcap h.ring h.holds h.index
  have hb : replay img.bitmap (recordsFrom hist (settled cap img hist)) = bitmapOf hist := by
    rw [replay_eq_putAll, recordsFrom_writes]
    exact replay_suffix h.agree
  show { img with bitmap := replay img.bitmap _ } = _
  rw [hs, hb]

theorem Dirty.recover (hcap : 0 < cap) (h : Dirty n cap g img hist) :
    CppPool.recover (loaded n cap img) (loadAppliedSeq img)
      = { loaded n cap img with
          img := metaCommit { img with bitmap := bitmapOf hist } hist.length
          nextSeq := (hist.length + 1) % 2 ^ 64 } := by
  have hlt := h.settled_lt hcap
  rw [recover_eq, h.replayedAll hcap, sortedPending_eq hcap h.ring h.holds h.index,
    if_neg (recordsFrom_ne_nil hlt), maxSeq_recordsFrom hlt]

theorem Dirty.recover_quiet (hcap : 0 < cap) (h : Dirty n cap g img hist) (hlt : g + 1 < 2 ^ 64) :
    Quiet n cap (g + 1) (CppPool.recover (loaded n cap img) (loadAppliedSeq img)).img hist := by
  rw [h.recover hcap]
  exact quiet_metaCommit hcap h.gens hlt (h.ring.congr rfl) h.index h.below (h.holds.congr rfl) rfl

theorem Dirty.openPool (hcap : 0 < cap) (h : Dirty n cap g img hist) (hlt : g + 1 < 2 ^ 64)
    (hlen : hist.length + 1 < 2 ^ 64) : Running n cap (g + 1) (openPool n cap img) hist := by
  unfold CppPool.openPool CppPool.recovered
  rw [if_pos h.flag]
  refine ⟨(h.recover_quiet hcap hlt).setFlag 0, rfl, ?_, ?_, ?_⟩
  · rw [h.recover hcap]
    exact Nat.mod_eq_of_lt hlen
  · rw [h.recover hcap]
    rfl
  · rw [h.recover hcap]
    rfl

/-- **Every crash inside the constructor leaves a file of the same history.** -/
theorem openCrash_history (hcap : 0 < cap) (hlt : g + 1 < 2 ^ 64) (hlen : hist.length + 1 < 2 ^ 64)
    (h : Quiet n cap g img hist ∨ Dirty n cap g img hist) (hc : OpenCrash n cap img img') :
    Quiet n cap (g + 1) img' hist ∨ Dirty n cap (g + 1) img' hist := by
  rcases h with h | h
  · refine Or.inl (Quiet.mono ?_ (Nat.le_succ g))
    cases hc with
    | before => exact h
    | recover hd hc =>
      cases hc with
      | bitmap b hb =>
        have e : b = img.bitmap := by
          funext j
          obtain ⟨k, hk⟩ := hb j
          rw [hk]
          unfold replayed
          rw [h.sortedPending, List.take_nil]
          rfl
        rw [e]
        exact h
      | tornMeta hne _ => exact absurd h.sortedPending hne
      | afterMeta =>
        rw [h.recover]
        exact h
    | afterFlag => exact (h.openPool hlen).quiet
  · cases hc with
    | before => exact Or.inr (h.mono (Nat.le_succ g))
    | recover hd hc =>
      cases hc with
      | bitmap b hb =>
        refine Or.inr (Dirty.mono ?_ (Nat.le_succ g))
        refine ⟨h.gens, h.ring.congr rfl, h.index, h.pos, h.below, h.holds.congr rfl, h.flag, ?_⟩
        intro j hj
        rw [← h.agree j hj]
        obtain ⟨k, hk⟩ := hb (j / 8)
        show (b (j / 8)).getLsbD (j % 8) = _
        rw [hk]
        show (replay img.bitmap
          ((sortedPending (loaded n cap img) (loadAppliedSeq img)).take k)).test j
          = _
        rw [sortedPending_eq hcap h.ring h.holds h.index, replay_recordsFrom]
        apply Bitmap.test_putAll_of_forall_ne
        intro w hw
        obtain ⟨o, ho, rfl⟩ := List.mem_map.mp (List.mem_of_mem_take hw)
        exact hj o ho
      | tornMeta hne ht =>
        rw [h.replayedAll hcap] at ht
        have hd := h.settleBitmap
        exact Or.inr
          (dirty_torn hd.pos hd.gens hlt hd.ring hd.index hd.below hd.holds hd.flag rfl ht)
      | afterMeta => exact Or.inl (h.recover_quiet hcap hlt)
    | afterFlag => exact Or.inl (h.openPool hcap hlt hlen).quiet

end

/-! ## whole lives -/

def callCount (as : List Act) : Nat := as.countP Act.isCall

theorem created_running (n cap : Nat) : Running n cap 1 (created n cap) [] := by
  have hgen : ∀ i, ((created n cap).img.slots i).generation ≤ 1 := by
    intro i
    show (if i = 0 then makeSlot 0 1 else ⟨0, 0, 0⟩ : MetaSlot).generation ≤ 1
    split
    · exact le_refl 1
    · exact Nat.zero_le 1
  have hseq : ∀ i, ((created n cap).img.slots i).appliedSeq ≤ 0 := by
    intro i
    show (if i = 0 then makeSlot 0 1 else ⟨0, 0, 0⟩ : MetaSlot).appliedSeq ≤ 0
    split <;> exact le_refl 0
  refine ⟨⟨hgen, fun j _ _ h0 => absurd rfl h0, by simp, ?_, fun i _ => hseq i, ?_, rfl⟩, rfl, rfl,
    rfl, rfl⟩
  · exact Nat.le_zero.mp (loadAppliedSeq_le (fun i _ => hseq i))
  · intro s h1 h2
    simp only [List.length_nil] at h2
    omega

section
variable {n cap calls : Nat} {p : Pool} {img : Image} {hist : List (WalOp × Nat)}
  {o : Option (WalOp × Nat)}

theorem allocateOp_lt {op : WalOp} {index : Nat} (h : allocateOp p = some (op, index)) :
    index < p.blockCount := by
  unfold allocateOp firstFree at h
  obtain ⟨i, hi, e⟩ := Option.map_eq_some_iff.mp h
  have h1 := List.mem_range.mp (List.mem_of_find?_eq_some hi)
  have h2 : i = index := congrArg Prod.snd e
  omega

theorem deallocateOp_lt {i : Nat} {op : WalOp} {index : Nat}
    (h : deallocateOp p i = some (op, index)) : index < p.blockCount := by
  unfold deallocateOp at h
  split at h
  · exact absurd h (by simp)
  · split at h
    · have h2 : i = index := congrArg Prod.snd (Option.some.inj h)
      omega
    · exact absurd h (by simp)

theorem opCrash_inv (hcap : 0 < cap) (hn : n ≤ 2 ^ 32) (hlt : calls + 3 < 2 ^ 64)
    (hlen : hist.length ≤ calls) (h : Running n cap (calls + 1) p hist)
    (ho : ∀ op index, o = some (op, index) → index < n) (hc : OpCrash p o img) :
    Inv n cap (calls + 1) ⟨.closed img, bitmapOf hist, o⟩ := by
  cases hc with
  | idle =>
    exact ⟨hist, Nat.le_succ_of_le hlen, Or.inl rfl, Or.inl (h.quiet.mono (Nat.le_succ _))⟩
  | commit hc =>
    rename_i op index
    have hlen' : (hist ++ [(op, index)]).length ≤ calls + 1 := by
      simp only [List.length_append, List.length_cons, List.length_nil]
      omega
    have hb : bitmapOf (hist ++ [(op, index)]) = applied (bitmapOf hist) (op, index) :=
      bitmapOf_snoc hist _
    rcases h.commitCrash hcap hn (by omega) (by omega) (ho op index rfl) hc with hq | hq | hd
    · exact ⟨hist, Nat.le_succ_of_le hlen, Or.inl rfl, Or.inl hq⟩
    · exact ⟨_, hlen', Or.inr ⟨_, rfl, hb⟩, Or.inl hq⟩
    · exact ⟨_, hlen', Or.inr ⟨_, rfl, hb⟩, Or.inr hd⟩

theorem commitOp_inv (hcap : 0 < cap) (hn : n ≤ 2 ^ 32) (hlt : calls + 3 < 2 ^ 64)
    (hlen : hist.length ≤ calls) (h : Running n cap (calls + 1) p hist)
    (ho : ∀ op index, o = some (op, index) → index < n) (pend : Option (WalOp × Nat)) :
    Inv n cap (calls + 1) ⟨.running (commitOp p o), (commitOp p o).img.bitmap, pend⟩ := by
  cases o with
  | none =>
    exact ⟨hist, Nat.le_succ_of_le hlen,
      ⟨h.quiet.mono (Nat.le_succ _), h.flag, h.next, h.count, h.capacity⟩, h.quiet.bitmap⟩
  | some o =>
    obtain ⟨op, index⟩ := o
    have hr := h.commit hcap hn (by omega) (by omega) op (ho op index rfl)
    refine ⟨hist ++ [(op, index)], ?_, hr, hr.quiet.bitmap⟩
    simp only [List.length_append, List.length_cons, List.length_nil]
    omega

end

theorem step_inv {n cap calls : Nat} {s s' : Sys} {act : Act} (hcap : 0 < cap) (hn : n ≤ 2 ^ 32)
    (hlt : calls + 3 < 2 ^ 64) (h : Inv n cap calls s) (hs : Step n cap s act s') :
    Inv n cap (calls + if act.isCall then 1 else 0) s' := by
  cases hs with
  | openPool img last pend =>
    obtain ⟨hist, hlen, -, hq | hd⟩ := h
    · have hr := hq.openPool (by omega)
      exact ⟨hist, Nat.le_succ_of_le hlen, ⟨hr.quiet.mono (Nat.le_succ _), hr.flag, hr.next,
        hr.count, hr.capacity⟩, hr.quiet.bitmap⟩
    · have hr := hd.openPool hcap (by omega) (by omega)
      exact ⟨hist, Nat.le_succ_of_le hlen, hr, hr.quiet.bitmap⟩
  | openCrash img img' last pend hc =>
    obtain ⟨hist, hlen, hb, hqd⟩ := h
    have h1 : calls + 1 + 1 < 2 ^ 64 := by omega
    exact ⟨hist, Nat.le_succ_of_le hlen, hb, openCrash_history hcap h1 (by omega) hqd hc⟩
  | allocate p last pend =>
    obtain ⟨hist, hlen, hr, -⟩ := h
    exact commitOp_inv hcap hn hlt hlen hr (fun op index e => hr.count ▸ allocateOp_lt e) pend
  | allocateCrash p img last pend hc =>
    obtain ⟨hist, hlen, hr, hl⟩ := h
    have hl' : last = bitmapOf hist := hl
    rw [hl']
    exact opCrash_inv hcap hn hlt hlen hr (fun op index e => hr.count ▸ allocateOp_lt e) hc
  | deallocate p index last pend =>
    obtain ⟨hist, hlen, hr, -⟩ := h
    exact commitOp_inv hcap hn hlt hlen hr (fun op index e => hr.count ▸ deallocateOp_lt e) pend
  | deallocateCrash p index img last pend hc =>
    obtain ⟨hist, hlen, hr, hl⟩ := h
    have hl' : last = bitmapOf hist := hl
    rw [hl']
    exact opCrash_inv hcap hn hlt hlen hr (fun op index e => hr.count ▸ deallocateOp_lt e) hc
  | close p last pend =>
    obtain ⟨hist, hlen, hr, hl⟩ := h
    exact ⟨hist, hlen, Or.inl hl.symm, Or.inl (hr.quiet.setFlag 1)⟩
  | crash p last pend =>
    obtain ⟨hist, hlen, hr, hl⟩ := h
    exact ⟨hist, hlen, Or.inl hl.symm, Or.inl hr.quiet⟩

theorem run_inv {n cap : Nat} {s : Sys} {as : List Act} (hcap : 0 < cap) (hn : n ≤ 2 ^ 32)
    (hrun : Steps (Step n cap) (Sys.created n cap) as s) (hcalls : callCount as < 2 ^ 63) :
    Inv n cap (callCount as) s := by
  refine hrun.invariant_trace (I := fun as s => callCount as < 2 ^ 63 → Inv n cap (callCount as) s)
    (fun _ => ⟨[], le_refl 0, created_running n cap, rfl⟩) ?_ hcalls
  intro as s act s' ih hs hlt
  have hcount : callCount (as ++ [act]) = callCount as + if act.isCall then 1 else 0 := by
    simp [callCount, List.countP_append, List.countP_cons]
  rw [hcount] at hlt ⊢
  have h0 : callCount as < 2 ^ 63 := by omega
  exact step_inv hcap hn (by omega) (ih h0) hs

/-- **Crash consistency.**  In every life of a completely created pool, a completed open yields
the bitmap of the last returned call, with the interrupted call wholly applied or not at all,
also when crashes in a row have left no valid slot. -/
theorem open_restores_history {n pageSize : Nat} {s s' : Sys} {as : List Act} (hn : n ≤ 2 ^ 32)
    (hps : 32 ≤ pageSize)
    (hrun : Steps (Step n (pageSize / 32)) (Sys.created n (pageSize / 32)) as s)
    (hcalls : callCount as < 2 ^ 63) (hopen : Step n (pageSize / 32) s .openPool s') :
    ∃ p, s'.phase = .running p ∧
      (p.img.bitmap = s.last ∨ ∃ o, s.pending = some o ∧ p.img.bitmap = applied s.last o) := by
  have hcap : 0 < pageSize / 32 := by omega
  have hinv := run_inv hcap hn hrun hcalls
  cases hopen with
  | openPool img last pend =>
    refine ⟨openPool n (pageSize / 32) img, rfl, ?_⟩
    obtain ⟨hist, hlen, hb, hq | hd⟩ := hinv
    · rw [(hq.openPool (by omega)).quiet.bitmap]
      exact hb
    · rw [(hd.openPool hcap (by omega) (by omega)).quiet.bitmap]
      exact hb

/-- the first slot write of a pool destroys its only valid slot if it is torn: the generation is
new, the other words are old -/
def tornFirst : MetaSlot := ⟨0, 2, slotCrc ⟨0, 1, 0⟩⟩

/-- the file left by the first allocation of a pool of eight blocks, cut off in that write -/
def tornImage : Image :=
  { (marked (created 8 (4096 / 32)) .alloc 0).img with
    slots := Function.update (created 8 (4096 / 32)).img.slots 0 tornFirst }

/-- with no valid slot left, the next open still yields the empty bitmap or the one with block
`0` allocated -/
theorem open_restores_history_no_valid_slot :
    (∀ i, ¬ (tornImage.slots i).Valid) ∧
    Steps (Step 8 (4096 / 32)) (Sys.created 8 (4096 / 32)) [.allocateCrash]
      ⟨.closed tornImage, Bitmap.empty, some (.alloc, 0)⟩ ∧
    ∃ (p : Pool) (s : Sys),
      Step 8 (4096 / 32) ⟨.closed tornImage, Bitmap.empty, some (.alloc, 0)⟩ .openPool s ∧
      s.phase = .running p ∧
      (p.img.bitmap = Bitmap.empty ∨ ∃ o, some (WalOp.alloc, 0) = some o ∧
        p.img.bitmap = applied Bitmap.empty o) := by
  have hbad : ¬ tornFirst.Valid := by decide +kernel
  have ht : TornMeta (marked (created 8 (4096 / 32)) .alloc 0).img 1 tornImage :=
    TornMeta.mk tornFirst ⟨Or.inl rfl, Or.inr rfl, Or.inl rfl, hbad⟩
  have hc : OpCrash (created 8 (4096 / 32)) (allocateOp (created 8 (4096 / 32))) tornImage :=
    OpCrash.commit (CommitCrash.tornMeta ht)
  have hrun : Steps (Step 8 (4096 / 32)) (Sys.created 8 (4096 / 32)) [.allocateCrash]
      ⟨.closed tornImage, Bitmap.empty, some (.alloc, 0)⟩ :=
    (Steps.nil _).snoc (Step.allocateCrash _ _ _ none hc)
  have hopen : Step 8 (4096 / 32) ⟨.closed tornImage, Bitmap.empty, some (.alloc, 0)⟩ .openPool _ :=
    Step.openPool tornImage Bitmap.empty (some (.alloc, 0))
  obtain ⟨p, hp, h⟩ := open_restores_history (by decide) (by decide) hrun (by decide) hopen
  refine ⟨?_, hrun, p, _, hopen, hp, h⟩
  decide +kernel

end HeapForge.CppPool
