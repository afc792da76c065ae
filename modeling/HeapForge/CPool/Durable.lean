import HeapForge.Lib.Run
import HeapForge.CPool.Plans

/-!
# The pool through kills and power failures

The life of a pool whose file is cached: calls run command by command, the system writes bytes back
when it likes, users write and flush their blocks, and at any moment the process is killed or the
power fails.  A killed process leaves its file in the cache, dirty bytes included, and the next
process goes on with it; when the power fails, what is not on the disk is lost.

* `DStep`   a call begins, goes on or returns; bytes are written back; a user writes or flushes; the
            session ends in one of three ways.  Two things are assumed.  A half-written record or
            slot fails its checksum, in the file and on the disk (`Caught`).  After a kill, until a
            call has written its slot, the power does not fail while the newest slot on the disk is
            two behind the newest of the file (`Near`);
* `DInv.step`   each step keeps the disk behind the file, in the sense of `HeapForge.CPool.Stages`;
* `pool_survives_power_loss`   **a call that has returned, and a block that was flushed, survive
                               every kill and every such power failure.**
-/

set_option linter.unusedSectionVars false
set_option linter.unusedVariables false

namespace HeapForge.CPool
open Lib

/-! ## the machine -/

inductive DMode
  /-- no process has the file open; the next one reads `cache` -/
  | closed (cache disk : Mem)
  /-- between two calls; the file of the session is the cached one -/
  | idle (p : Session) (disk : Mem)
  /-- in a call that began with the file `base`, will leave the handle `p`, and has `todo` before
  it -/
  | busy (base : Mem) (p : Session) (todo : List (Cmd Nat (BitVec 8))) (io : Cached Nat (BitVec 8))

namespace DMode

/-- the file as a process reads it, and as the disk has it -/
def file : DMode → Mem
  | closed c _ => c
  | idle p _ => p.file
  | busy _ _ _ io => io.cache

def disk : DMode → Mem
  | closed _ d => d
  | idle _ d => d
  | busy _ _ _ io => io.disk

def isOpen : DMode → Bool
  | closed _ _ => false
  | _ => true

/-- something happens to the cached file -/
def withIo (act : Cached Nat (BitVec 8) → Cached Nat (BitVec 8)) : DMode → DMode
  | closed c d => closed (act ⟨c, d⟩).cache (act ⟨c, d⟩).disk
  | idle p d => idle { p with file := (act ⟨p.file, d⟩).cache } (act ⟨p.file, d⟩).disk
  | busy base p todo io => busy base p todo (act io)

end DMode

structure DSys where
  mode : DMode
  /-- the bitmap when the last returned call finished -/
  last : Bitmap
  /-- the call that is under way, or was when the session ended -/
  pending : Option (Nat × Nat)
  /-- the bytes of the data that were flushed and not written since -/
  saved : Nat → Option (BitVec 8)
  /-- a process was killed, and no call has written its slot since -/
  exposed : Bool

/-- `hf_pool_flush` waits for the block, `hf_pool_flush_all` for the whole file -/
def flushed (ps : Nat) (g : Layout) (index : Nat) : Nat → Bool :=
  if index ≥ g.blockCount then fun _ => false
  else syncedRange ps (wadd g.dataOffset (wmul index g.blockSize)) g.blockSize

def flushedAll (g : Layout) : Nat → Bool := fun x => decide (x < g.totalSize)

/-- the record of what was flushed -/
def DSys.save (s : DSys) (g : Layout) (S : Nat → Bool) : Nat → Option (BitVec 8) :=
  fun x => if S x = true ∧ g.dataOffset ≤ x then some (s.mode.file x) else s.saved x

inductive DAct
  | openPool
  | allocate
  | free (index : Nat)
  | exec
  | ret
  | writeBack (S : Nat → Bool)
  | write (x : Nat) (v : BitVec 8)
  | flush (index : Nat)
  | flushAll
  | close
  | kill
  | powerLoss

def DAct.isCall : DAct → Bool
  | .allocate | .free _ => true
  | _ => false

inductive DStep (ps : Nat) (g : Layout) : DSys → DAct → DSys → Prop
  | openPool {s : DSys} {c d : Mem} {p : Session} (hs : s.mode = .closed c d)
      (h : openFile g.totalSize c = some p) :
      DStep ps g s .openPool
        { s with mode := .busy c p (Session.recoverCmds ps ⟨c, readLayout c, 0, 1, 0⟩) ⟨c, d⟩ }
  | allocate {s : DSys} {p : Session} {d : Mem} (hs : s.mode = .idle p d) :
      DStep ps g s .allocate { s with
        mode := .busy p.file p.hfPoolAllocate.1 (p.opCmds ps p.allocateOp) ⟨p.file, d⟩
        pending := p.allocateOp }
  | free {s : DSys} {p : Session} {d : Mem} (hs : s.mode = .idle p d) (index : Nat) :
      DStep ps g s (.free index) { s with
        mode := .busy p.file (p.hfPoolFree index) (p.opCmds ps (p.freeOp index)) ⟨p.file, d⟩
        pending := p.freeOp index }
  | exec {s : DSys} {base : Mem} {p : Session} {cmd : Cmd Nat (BitVec 8)}
      {todo : List (Cmd Nat (BitVec 8))} {io : Cached Nat (BitVec 8)}
      (hs : s.mode = .busy base p (cmd :: todo) io) (hc : Caught g base p.file (cmd.exec io).cache)
      (hd : Caught g io.disk io.cache (cmd.exec io).disk) :
      -- the last command of a call waits for its slot
      DStep ps g s .exec { s with
        mode := .busy base p todo (cmd.exec io)
        exposed := s.exposed && !todo.isEmpty }
  | ret {s : DSys} {base : Mem} {p : Session} {io : Cached Nat (BitVec 8)}
      (hs : s.mode = .busy base p [] io) :
      DStep ps g s .ret { s with
        mode := .idle { p with file := io.cache } io.disk
        last := (image g io.cache).bitmap
        pending := none }
  | writeBack {s : DSys} (S : Nat → Bool)
      (hd : Caught g s.mode.disk s.mode.file (s.mode.withIo fun m => m.writeBack S).disk) :
      DStep ps g s (.writeBack S) { s with mode := s.mode.withIo fun m => m.writeBack S }
  | write {s : DSys} {x : Nat} (v : BitVec 8) (hopen : s.mode.isOpen = true) (hx : g.dataOffset ≤ x)
      (hx' : x < g.totalSize) :
      DStep ps g s (.write x v) { s with
        mode := s.mode.withIo (Cmd.exec · (.put x v))
        saved := Function.update s.saved x none }
  | flush {s : DSys} (index : Nat) (hopen : s.mode.isOpen = true) :
      DStep ps g s (.flush index) { s with
        mode := s.mode.withIo fun m => m.writeBack (flushed ps g index)
        saved := s.save g (flushed ps g index) }
  | flushAll {s : DSys} (hopen : s.mode.isOpen = true) :
      DStep ps g s .flushAll { s with
        mode := s.mode.withIo fun m => m.writeBack (flushedAll g)
        saved := s.save g (flushedAll g) }
  | close {s : DSys} {p : Session} {d : Mem} (hs : s.mode = .idle p d) :
      DStep ps g s .close { s with
        mode := .closed p.file (Cached.writeBack ⟨p.file, d⟩ (flushedAll g)).disk
        saved := s.save g (flushedAll g)
        exposed := false }
  | kill {s : DSys} (hopen : s.mode.isOpen = true) :
      DStep ps g s .kill { s with mode := .closed s.mode.file s.mode.disk, exposed := true }
  | powerLoss {s : DSys}
      (hn : s.exposed = true → Near (image g s.mode.file) (image g s.mode.disk)) :
      DStep ps g s .powerLoss { s with mode := .closed s.mode.disk s.mode.disk }

/-- a new pool, still open in the session that created it -/
def DSys.created (g : Layout) : DSys :=
  ⟨.idle (createSession g) (createdFile g), (image g (createdFile g)).bitmap, none,
  fun _ => none, false⟩

/-! ## the invariant -/

/-- no process has the file open -/
def Shut (g : Layout) (K : Nat) (last : Bitmap) (pend : Option (Nat × Nat)) (y : Bool) (c d : Mem) :
    Prop :=
  ∃ a v b o, Behind g K c d a v b o ∧ (∀ u, Outcome b o u → Outcome last pend u)
    ∧ (y = false → Anchored (image g c) (image g d) a v)

/-- between two calls, `v` numbers used -/
structure Idle (g : Layout) (K : Nat) (y : Bool) (p : Session) (d : Mem) (v : Nat) : Prop where
  geo : p.geo = g
  words : p.Words
  next : p.nextSeq = v + 1
  behind : Behind g K p.file d p.activeMeta v (image g p.file).bitmap none
  done : Done (image g p.file) v
  slot : y = false → readSlot d p.activeMeta = readSlot p.file p.activeMeta

/-- a call is under way, with commands before it or at its end -/
def Busy (ps : Nat) (g : Layout) (K : Nat) (last : Bitmap) (pend : Option (Nat × Nat)) (y : Bool)
    (base : Mem) (p : Session) (todo : List (Cmd Nat (BitVec 8)))
    (io : Cached Nat (BitVec 8)) : Prop :=
  Caught g base p.file io.cache
    ∧ ((todo = [] ∧ ∃ v, Idle g K y { p with file := io.cache } io.disk v
        ∧ Outcome last pend (image g io.cache).bitmap)
      ∨ ∃ t : Plan, t.Ok g K y base p ∧ (∀ u, Outcome t.b t.o u → Outcome last pend u)
        ∧ (y = false → readSlot io.disk t.a = readSlot base t.a)
        ∧ t.At ps g K base p todo io.cache io.disk)

def DInv (ps : Nat) (g : Layout) (K : Nat) (s : DSys) : Prop :=
  match s.mode with
  | .closed c d => Shut g K s.last s.pending s.exposed c d
  | .idle p d => s.pending = none ∧ s.last = (image g p.file).bitmap ∧ ∃ v, Idle g K s.exposed p d v
  | .busy base p todo io => Busy ps g K s.last s.pending s.exposed base p todo io

/-- what was flushed is in the file, and on the disk -/
def Saved (g : Layout) (s : DSys) : Prop :=
  ∀ x v, s.saved x = some v → g.dataOffset ≤ x ∧ s.mode.file x = v ∧ s.mode.disk x = v

section
variable {ps K : Nat} {g : Layout} {base c d d' f : Mem} {p q : Session} {last : Bitmap}
  {pend o : Option (Nat × Nat)} {y : Bool} {v : Nat} {s s' : DSys} {act : DAct}
  {io : Cached Nat (BitVec 8)} {cmd : Cmd Nat (BitVec 8)} {todo : List (Cmd Nat (BitVec 8))}

/-! ## each mode -/

theorem Caught.old (g : Layout) (f f' : Mem) : Caught g f f' f :=
  ⟨fun _ _ _ => Or.inl rfl, fun _ _ => Or.inl rfl⟩

theorem Idle.anchored (h : Idle g K y p d v) (hy : y = false) :
    Anchored (image g p.file) (image g d) p.activeMeta v :=
  ⟨h.slot hy, fun s e hr => Nat.le_succ_of_le (h.done s e hr)⟩

theorem Idle.writeBack (hr : Regions ps g) (h : Idle g K y p d v) (hd : Caught g d p.file d')
    (hmix : ∀ z, d' z = d z ∨ d' z = p.file z) : Idle g K y p d' v :=
  { h with
    behind := h.behind.writeBack (h.behind.whole hr fun _ _ => rfl) hd hmix
    slot := fun hy => readSlot_mix (h.slot hy) rfl hmix }

/-- somebody writes into the data -/
theorem Idle.below (hr : Regions ps g) (h : Idle g K y p d v)
    (hf : ∀ x < g.dataOffset, f x = p.file x) :
    Idle g K y { p with file := f } d v := by
  have himg := image_below hr hf
  refine ⟨h.geo, ⟨h.words.used, h.words.next⟩, h.next, ?_, ?_, fun hy => ?_⟩
  · show Behind g K f d p.activeMeta v (image g f).bitmap none
    rw [himg]
    exact h.behind.below hr hf fun _ _ => rfl
  · show Done (image g f) v
    rw [himg]
    exact h.done
  · exact (h.slot hy).trans (readSlot_below hr hf _).symm

/-- a call has come to its end -/
theorem Plan.Ok.idle {t : Plan} (hr : Regions ps g) (ht : t.Ok g K y base p)
    (hc : ∀ x < g.dataOffset, c x = p.file x)
    (hb : Behind g K p.file d (other t.a) t.w (t.result g) none)
    (hs : readSlot d (other t.a) = readSlot p.file (other t.a)) (y' : Bool) :
    Idle g K y' { p with file := c } d t.w ∧ (image g c).bitmap = t.result g := by
  have himg := image_below hr hc
  have hbits : (image g p.file).bitmap = t.result g := by rw [ht.image_file hr]
  have hidle : Idle g K y' p d t.w := by
    refine ⟨ht.geo, ht.words, ht.next, ?_, ?_, fun _ => ?_⟩
    · rw [ht.active, hbits]
      exact hb
    · unfold Done
      rw [ht.image_file hr]
      exact ht.done
    · rw [ht.active]
      exact hs
  refine ⟨hidle.below hr hc, ?_⟩
  rw [himg]
  exact hbits

/-- all the files of a call have the slot of before -/
theorem Plan.At.slot {t : Plan} (hr : Regions ps g) (ht : t.Ok g K y base p)
    (h : t.At ps g K base p todo c d) : readSlot c t.a = readSlot base t.a := by
  have hslots : ∀ i, readSlot t.r.file i = readSlot base i := fun i =>
    (congrFun (congrArg Image.metaSlots (ht.image_r hr)) i).trans (ht.slots i)
  rcases h with ⟨x, h⟩ | h | h
  · rcases h.phase with ⟨-, hh⟩ | ⟨hs, -⟩
    · exact hh.half.active
    · exact (readSlot_below hr (h.whole hr hs) _).trans (ht.slots _)
  · exact (h.half hr ht).half.active.trans (ht.slots _)
  · rcases h.phase with ⟨-, hh⟩ | ⟨hs, -⟩
    · exact hh.half.active.trans (hslots _)
    · rw [readSlot_below hr (h.whole ht hs)]
      have hfile := congrFun (congrArg Image.metaSlots (ht.image_file hr)) t.a
      exact (hfile.trans (Function.update_of_ne (other_ne t.a).symm _ _)).trans (ht.slots _)

theorem Plan.At.todo_ne {t : Plan} (h : t.At ps g K base p todo c d) : todo ≠ [] := by
  rcases h with ⟨x, h⟩ | h | h
  · exact h.within.ne_nil
  · exact h.within.ne_nil
  · exact h.within.ne_nil

/-! ## what every mode has -/

/-- **The disk is behind the file in every mode**, and what they give back is the last returned call
with the pending one or without. -/
theorem DInv.standing (hr : Regions ps g) (h : DInv ps g K s) :
    ∃ a v b o, Behind g K s.mode.file s.mode.disk a v b o
      ∧ (∀ u, Outcome b o u → Outcome s.last s.pending u)
      ∧ (s.exposed = false → Tied (image g s.mode.file) (image g s.mode.disk)) := by
  obtain ⟨mode, last, pend, saved, y⟩ := s
  cases mode with
  | closed c d =>
    obtain ⟨a, v, b, o, hb, ho, ha⟩ := h
    exact ⟨a, v, b, o, hb, ho, fun hy => (ha hy).tied hb.lag.mark⟩
  | idle p d =>
    obtain ⟨hpend, hlast, v, hi⟩ := h
    refine ⟨_, v, _, none, hi.behind, fun u hu => Or.inl ?_,
      fun hy => (hi.anchored hy).tied hi.behind.lag.mark⟩
    exact (outcome_none.mp hu).trans hlast.symm
  | busy base p todo io =>
    obtain ⟨-, ⟨-, v, hi, ho⟩ | ⟨t, ht, ho, hslot, hat⟩⟩ := h
    · exact ⟨_, v, _, none, hi.behind, fun u hu => outcome_none.mp hu ▸ ho,
        fun hy => (hi.anchored hy).tied hi.behind.lag.mark⟩
    · obtain ⟨a, v, b, o, hb, ho', hv, hd⟩ := hat.standing hr ht
      refine ⟨a, v, b, o, hb, fun u hu => ho u (ho' u hu), fun hy => ?_⟩
      -- the slot of before is on the disk, and the call uses one number
      have hone := ht.one hy
      have hseq : (readSlot io.disk t.a).seq = t.v := by rw [hslot hy]; exact ht.mark.seq
      refine ⟨t.a, ?_, ?_, fun s e he => ?_⟩
      · show (readSlot io.disk t.a).Valid
        rw [hslot hy]
        exact ht.mark.valid
      · show (selectMeta (image g io.cache)).2 ≤ (readSlot io.disk t.a).seq + 1
        rw [hb.lag.mark.select, hseq, ← hone]
        exact hv
      · show s ≤ (readSlot io.disk t.a).seq + 1
        rw [hseq, ← hone]
        exact hd s e he

/-- the power fails -/
theorem DInv.powerLoss (hr : Regions ps g) (h : DInv ps g K s)
    (hn : s.exposed = true → Near (image g s.mode.file) (image g s.mode.disk)) :
    Shut g K s.last s.pending s.exposed s.mode.disk s.mode.disk := by
  obtain ⟨a, v, b, o, hb, ho, ht⟩ := h.standing hr
  have hnear : Near (image g s.mode.file) (image g s.mode.disk) := by
    cases hy : s.exposed with
    | true => exact hn hy
    | false => exact (ht hy).near
  obtain ⟨a', v', b', o', hl, ha, ho'⟩ := hb.lag.power hnear
  exact ⟨a', v', b', o', ⟨hb.static.same hb.head, fun _ _ => rfl, hl⟩, fun u hu => ho u (ho' u hu),
    fun hy => ha (ht hy)⟩

/-! ## steps -/

/-- bytes are written back -/
theorem DInv.writeBack {saved : Nat → Option (BitVec 8)} (hr : Regions ps g) (h : DInv ps g K s)
    (S : Nat → Bool)
    (hd : Caught g s.mode.disk s.mode.file (s.mode.withIo fun m => m.writeBack S).disk) :
    DInv ps g K { s with mode := s.mode.withIo fun m => m.writeBack S, saved := saved } := by
  obtain ⟨mode, last, pend, saved', y⟩ := s
  cases mode with
  | closed c d =>
    obtain ⟨a, v, b, o, hb, ho, ha⟩ := h
    refine ⟨a, v, b, o, hb.writeBack (hb.whole hr fun _ _ => rfl) hd (writeBack_disk ⟨c, d⟩ S), ho,
      fun hy => ?_⟩
    exact ⟨readSlot_mix (ha hy).slot rfl (writeBack_disk ⟨c, d⟩ S), (ha hy).ahead⟩
  | idle p d =>
    obtain ⟨hpend, hlast, v, hi⟩ := h
    exact ⟨hpend, hlast, v, hi.writeBack hr hd (writeBack_disk ⟨p.file, d⟩ S)⟩
  | busy base p todo io =>
    obtain ⟨hc, ⟨htodo, v, hi, ho⟩ | ⟨t, ht, ho, hslot, hat⟩⟩ := h
    · exact ⟨hc, Or.inl ⟨htodo, v, hi.writeBack hr hd (writeBack_disk io S), ho⟩⟩
    · refine ⟨hc, Or.inr ⟨t, ht, ho, fun hy => ?_, hat.writeBack hr ht hd (writeBack_disk io S)⟩⟩
      exact readSlot_mix (hslot hy) (hat.slot hr ht) (writeBack_disk io S)

theorem DInv.write {saved : Nat → Option (BitVec 8)} {x : Nat} (hr : Regions ps g)
    (h : DInv ps g K s) (hopen : s.mode.isOpen = true) (hx : g.dataOffset ≤ x) (u : BitVec 8) :
    DInv ps g K { s with mode := s.mode.withIo (Cmd.exec · (.put x u)), saved := saved } := by
  obtain ⟨mode, last, pend, saved', y⟩ := s
  have hsame : ∀ (m : Nat → BitVec 8), ∀ z < g.dataOffset, Function.update m x u z = m z :=
    fun m z hz => Function.update_of_ne (by omega) _ _
  cases mode with
  | closed c d => cases hopen
  | idle p d =>
    obtain ⟨hpend, hlast, v, hi⟩ := h
    refine ⟨hpend, ?_, v, hi.below hr (hsame p.file)⟩
    have himg : image g (Function.update p.file x u) = image g p.file :=
      image_below hr (hsame p.file)
    show last = (image g (Function.update p.file x u)).bitmap
    rw [himg]
    exact hlast
  | busy base p todo io =>
    obtain ⟨hc, ⟨htodo, v, hi, ho⟩ | ⟨t, ht, ho, hslot, hat⟩⟩ := h
    · refine ⟨hc.below hr (hsame io.cache), Or.inl ⟨htodo, v, ?_, ?_⟩⟩
      · exact Idle.below (p := { p with file := io.cache }) hr hi (hsame io.cache)
      · have himg : image g (Function.update io.cache x u) = image g io.cache :=
          image_below hr (hsame io.cache)
        show Outcome last pend (image g (Function.update io.cache x u)).bitmap
        rw [himg]
        exact ho
    · exact ⟨hc.below hr (hsame io.cache), Or.inr ⟨t, ht, ho, hslot, hat.below hr (hsame io.cache)⟩⟩

/-- what a call commits -/
def IsCall (q : Session) (o : Option (Nat × Nat)) : Prop := o = q.allocateOp ∨ ∃ i, o = q.freeOp i

theorem IsCall.isOp (h : IsCall q o) : ∀ x ∈ o, Session.IsOp q x := by
  rcases h with rfl | ⟨i, rfl⟩
  · exact fun x hx => Session.allocateOp_isOp hx
  · exact fun x hx => Session.freeOp_isOp hx

-- what the calls compute plays no part from here on
attribute [local irreducible] Session.recover Session.recoverCmds Session.commit Session.commitCmds
  Session.replayAll

/-- `hf_pool_allocate` or `hf_pool_free` begins -/
theorem Idle.begin (hr : Regions ps g) (hn : g.blockCount ≤ 2 ^ 32) (hK : K + 1 + 300 < 2 ^ 64)
    (h : Idle g K y q d v) (ho : IsCall q o) :
    Busy ps g (K + 1) (image g q.file).bitmap o y q.file (q.commitOp o)
    (q.opCmds ps o) ⟨q.file, d⟩ := by
  refine ⟨Caught.old _ _ _, ?_⟩
  cases o with
  | none =>
    exact Or.inl ⟨rfl, v, { h with behind := h.behind.mono (Nat.le_succ K) }, Or.inl rfl⟩
  | some x =>
    obtain ⟨op, index⟩ := x
    obtain ⟨hop, hblock⟩ := ho.isOp (op, index) rfl
    obtain ⟨rfl, hw, hnext, hb, hd, hslot⟩ := h
    have hindex : index % 2 ^ 32 = index := Nat.mod_eq_of_lt (lt_of_lt_of_le hblock hn)
    have hi32 : index < 2 ^ 32 := lt_of_lt_of_le hblock hn
    have hv : v + 1 ≤ K + 1 := Nat.succ_le_succ hb.lag.most
    have hb' := hb.mono (Nat.le_succ K)
    show _ ∨ ∃ t : Plan, t.Ok q.geo (K + 1) y q.file (q.commit op (index % 2 ^ 32)) ∧ _ ∧ _
      ∧ t.At ps q.geo (K + 1) q.file (q.commit op (index % 2 ^ 32))
        (q.commitCmds ps op (index % 2 ^ 32)) q.file d
    rw [hindex]
    exact Or.inr ⟨q.commitPlan ps op index,
      Session.commitPlan_ok hr hw hop hblock hi32 hnext hv hK hb.lag.mark hd, fun u hu => hu, hslot,
      Session.commit_begin hr hw hop hblock hi32 hnext hb' hd⟩

/-- `hf_pool_open` begins to recover -/
theorem Shut.begin (hr : Regions ps g) (hn : g.blockCount ≤ 2 ^ 32) (hK : K + 300 < 2 ^ 64)
    (h : Shut g K last pend y c d) :
    Busy ps g K last pend y c (Session.fresh g c).recover
    (Session.recoverCmds ps (Session.fresh g c)) ⟨c, d⟩ := by
  obtain ⟨a, v, b, o, hb, ho, ha⟩ := h
  refine ⟨Caught.old _ _ _, ?_⟩
  by_cases he : records (image g c) = []
  · obtain ⟨hcmds, hfile, hact, hnext⟩ := Session.recover_idle_file hr hK hb he
    obtain ⟨-, hgeo, hwords⟩ := Session.view_recover (p := Session.fresh g c) hr hb.lag.log.1
    obtain ⟨hd, rfl⟩ := hb.lag.quiet_of_records hK he
    have hbits : (image g c).bitmap = b := outcome_none.mp hb.lag.file
    refine Or.inl ⟨hcmds, v, ⟨hgeo, ⟨hwords.used, hwords.next⟩, hnext, ?_, hd, fun hy => ?_⟩,
      ho _ (Or.inl hbits)⟩
    · show Behind g K c d (Session.fresh g c).recover.activeMeta v (image g c).bitmap none
      rw [hact, hbits]
      exact hb
    · show readSlot d (Session.fresh g c).recover.activeMeta
        = readSlot c (Session.fresh g c).recover.activeMeta
      rw [hact]
      exact (ha hy).slot
  · exact Or.inr ⟨Session.recoverPlan ps (Session.fresh g c) a v b o,
      Session.recoverPlan_ok hr hn hK hb he ha, ho, fun hy => (ha hy).slot,
      Session.recover_begin hr hb he⟩

/-- one command of a call -/
theorem Busy.exec (hr : Regions ps g) (h : Busy ps g K last pend y base p (cmd :: todo) io)
    (hc : Caught g base p.file (cmd.exec io).cache)
    (hd : Caught g io.disk io.cache (cmd.exec io).disk) :
    Busy ps g K last pend (y && !todo.isEmpty) base p todo (cmd.exec io) := by
  refine ⟨hc, ?_⟩
  obtain ⟨-, ⟨htodo, -⟩ | ⟨t, ht, ho, hslot, hat⟩⟩ := h
  · cases htodo
  rcases hat.exec hr ht hc hd with hat' | ⟨rfl, hfile, hb, hs⟩
  · have hy : (y && !todo.isEmpty) = y := by
      rw [List.isEmpty_eq_false_iff.mpr hat'.todo_ne, Bool.not_false, Bool.and_true]
    rw [hy]
    refine Or.inr ⟨t, ht, ho, fun hfalse => ?_, hat'⟩
    cases cmd with
    | put z u => exact hslot hfalse
    | sync S => exact readSlot_mix (hslot hfalse) (hat.slot hr ht) (writeBack_disk io S)
  · obtain ⟨hi, hbits⟩ := ht.idle hr hfile hb hs (y && !([] : List (Cmd Nat (BitVec 8))).isEmpty)
    refine Or.inl ⟨rfl, t.w, hi, ?_⟩
    rw [hbits]
    exact ho _ ht.result_outcome

/-- the whole file is written back -/
theorem writeBack_all (hr : Regions ps g) (m : Cached Nat (BitVec 8)) :
    ∀ x < g.dataOffset, (m.writeBack (flushedAll g)).disk x = m.cache x := by
  intro x hx
  have hdata := hr.data
  exact if_pos (decide_eq_true (show x < g.totalSize by omega))

theorem caught_all (hr : Regions ps g) (m : Cached Nat (BitVec 8)) :
    Caught g m.disk m.cache (m.writeBack (flushedAll g)).disk :=
  ⟨fun _ hk _ => Or.inr (readRecord_below hr (writeBack_all hr m) hk),
    fun a _ => Or.inr (readSlot_below hr (writeBack_all hr m) a)⟩

/-- `hf_pool_close` waits for the whole file -/
theorem Idle.close (hr : Regions ps g) (h : Idle g K y p d v) :
    Shut g K (image g p.file).bitmap none false p.file
      (Cached.writeBack ⟨p.file, d⟩ (flushedAll g)).disk := by
  have h' := h.writeBack hr (caught_all hr ⟨p.file, d⟩) (writeBack_disk ⟨p.file, d⟩ _)
  exact ⟨_, v, _, none, h'.behind, fun u hu => hu, fun _ =>
    ⟨readSlot_below hr (writeBack_all hr ⟨p.file, d⟩) _,
      fun s e he => Nat.le_succ_of_le (h.done s e he)⟩⟩

/-- a block is written back: nothing below the data -/
theorem caught_block (hr : Regions ps g) (m : Cached Nat (BitVec 8)) (index : Nat) :
    Caught g m.disk m.cache (m.writeBack (flushed ps g index)).disk := by
  have hsame : ∀ x < g.dataOffset, (m.writeBack (flushed ps g index)).disk x = m.disk x := by
    intro x hx
    refine if_neg ?_
    unfold flushed
    split
    · exact Bool.false_ne_true
    · rename_i hi
      have hdata := hr.data
      have htotal := hr.total
      have hmul : index * g.blockSize ≤ g.blockSize * g.blockCount := by
        rw [Nat.mul_comm]
        exact Nat.mul_le_mul_left _ (by omega)
      rw [wmul_of_lt (by omega), wadd_of_lt (by omega)]
      unfold syncedRange
      rw [decide_eq_true_eq]
      rintro ⟨hle, -⟩
      -- the data begin with a page
      obtain ⟨k, hk⟩ := hr.dataPage
      have hpage : k ≤ (g.dataOffset + index * g.blockSize) / ps := by
        rcases Nat.eq_zero_or_pos ps with h0 | hpos
        · rw [h0, Nat.zero_mul] at hk
          omega
        · rw [Nat.le_div_iff_mul_le hpos, Nat.mul_comm k ps, ← hk]
          exact Nat.le_add_right _ _
      have hmono := Nat.mul_le_mul_right ps hpage
      rw [Nat.mul_comm k ps, ← hk] at hmono
      omega
  exact (Caught.old g m.disk m.cache).below hr hsame

theorem DInv.step (hr : Regions ps g) (hn : g.blockCount ≤ 2 ^ 32) (hK : K + 1 + 300 < 2 ^ 64)
    (h : DInv ps g K s) (hs : DStep ps g s act s') :
    DInv ps g (K + if act.isCall then 1 else 0) s' := by
  obtain ⟨mode, last, pend, saved, y⟩ := s
  cases hs with
  | openPool hm ho =>
    rename_i c d p
    obtain rfl : mode = .closed c d := hm
    have hshut : Shut g K last pend y c d := h
    obtain ⟨-, -, hp⟩ := openFile_eq_some.mp ho
    obtain ⟨a, v, b, o, hb, -⟩ := id hshut
    rw [hb.static.layout] at hp ⊢
    rw [hp]
    exact Shut.begin (K := K) hr hn (by omega) hshut
  | allocate hm =>
    rename_i p d
    obtain rfl : mode = .idle p d := hm
    obtain ⟨-, hlast, v, hi⟩ := h
    obtain rfl : last = _ := hlast
    exact hi.begin hr hn hK (Or.inl rfl)
  | free hm index =>
    rename_i p d
    obtain rfl : mode = .idle p d := hm
    obtain ⟨-, hlast, v, hi⟩ := h
    obtain rfl : last = _ := hlast
    exact hi.begin hr hn hK (Or.inr ⟨index, rfl⟩)
  | exec hm hc hd =>
    obtain rfl : mode = _ := hm
    exact Busy.exec hr h hc hd
  | ret hm =>
    obtain rfl : mode = _ := hm
    obtain ⟨-, ⟨-, v, hi, -⟩ | ⟨t, -, -, -, hat⟩⟩ := h
    · exact ⟨rfl, rfl, v, hi⟩
    · exact absurd rfl hat.todo_ne
  | writeBack S hd => exact h.writeBack hr S hd
  | write u hopen hx hx' => exact h.write hr hopen hx u
  | flush index hopen =>
    refine h.writeBack hr _ ?_
    cases mode with
    | closed c d => cases hopen
    | idle p d => exact caught_block hr ⟨p.file, d⟩ index
    | busy base p todo io => exact caught_block hr io index
  | flushAll hopen =>
    refine h.writeBack hr _ ?_
    cases mode with
    | closed c d => cases hopen
    | idle p d => exact caught_all hr ⟨p.file, d⟩
    | busy base p todo io => exact caught_all hr io
  | close hm =>
    rename_i p d
    obtain rfl : mode = .idle p d := hm
    obtain ⟨hpend, hlast, v, hi⟩ := h
    obtain rfl : pend = none := hpend
    obtain rfl : last = _ := hlast
    exact hi.close hr
  | kill hopen =>
    obtain ⟨a, v, b, o, hb, ho, -⟩ := h.standing hr
    exact ⟨a, v, b, o, hb, ho, fun hy => by cases hy⟩
  | powerLoss hnear => exact h.powerLoss hr hnear

/-! ## flushed data -/

/-- bytes that were waited for, or not -/
theorem withIo_writeBack (m : DMode) (S : Nat → Bool) (x : Nat) :
    (m.withIo fun io => io.writeBack S).file x = m.file x
      ∧ (m.withIo fun io => io.writeBack S).disk x = if S x then m.file x else m.disk x := by
  cases m <;> exact ⟨rfl, rfl⟩

theorem withIo_put (m : DMode) (y : Nat) (w : BitVec 8) (x : Nat) (hne : x ≠ y) :
    (m.withIo (Cmd.exec · (.put y w))).file x = m.file x
      ∧ (m.withIo (Cmd.exec · (.put y w))).disk x = m.disk x := by
  cases m <;> exact ⟨Function.update_of_ne hne _ _, rfl⟩

theorem Saved.writeBack (h : Saved g s) (S : Nat → Bool) :
    Saved g { s with mode := s.mode.withIo fun m => m.writeBack S } := by
  intro x v hx
  obtain ⟨h1, h2, h3⟩ := h x v hx
  obtain ⟨hf, hd⟩ := withIo_writeBack s.mode S x
  refine ⟨h1, hf.trans h2, hd.trans ?_⟩
  split
  · exact h2
  · exact h3

theorem Saved.write (h : Saved g s) (y : Nat) (w : BitVec 8) :
    Saved g { s with
      mode := s.mode.withIo (Cmd.exec · (.put y w)), saved := Function.update s.saved y none } := by
  intro x v hx
  have hne : x ≠ y := by
    rintro rfl
    have hx' : (Function.update s.saved x none : Nat → Option (BitVec 8)) x = some v := hx
    rw [Function.update_self] at hx'
    cases hx'
  obtain ⟨h1, h2, h3⟩ := h x v ((Function.update_of_ne hne _ _).symm.trans hx)
  obtain ⟨hf, hd⟩ := withIo_put s.mode y w x hne
  exact ⟨h1, hf.trans h2, hd.trans h3⟩

theorem Saved.flush (h : Saved g s) (S : Nat → Bool) :
    Saved g { s with mode := s.mode.withIo fun m => m.writeBack S, saved := s.save g S } := by
  intro x v hx
  have hx' : (if S x = true ∧ g.dataOffset ≤ x then some (s.mode.file x) else s.saved x)
    = some v := hx
  by_cases hS : S x = true ∧ g.dataOffset ≤ x
  · rw [if_pos hS] at hx'
    have hv := Option.some.inj hx'
    obtain ⟨hf, hd⟩ := withIo_writeBack s.mode S x
    exact ⟨hS.2, hf.trans hv, (hd.trans (if_pos hS.1)).trans hv⟩
  · rw [if_neg hS] at hx'
    exact h.writeBack S x v hx'

theorem Busy.put_below {x : Nat} {w : BitVec 8} (hr : Regions ps g)
    (h : Busy ps g K last pend y base p (.put x w :: todo) io) : x < g.dataOffset := by
  obtain ⟨-, ⟨htodo, -⟩ | ⟨t, ht, -, -, hat⟩⟩ := h
  · cases htodo
  · exact hat.put_below hr ht

theorem Saved.step (hr : Regions ps g) (h : Saved g s) (hi : DInv ps g K s)
    (hs : DStep ps g s act s') :
    Saved g s' := by
  obtain ⟨mode, last, pend, saved, y⟩ := s
  cases hs with
  | openPool hm ho =>
    obtain rfl : mode = _ := hm
    exact h
  | allocate hm =>
    obtain rfl : mode = _ := hm
    exact h
  | free hm index =>
    obtain rfl : mode = _ := hm
    exact h
  | exec hm hc hd =>
    rename_i base p cmd todo io
    obtain rfl : mode = .busy base p (cmd :: todo) io := hm
    intro x v hx
    obtain ⟨h1, h2, h3⟩ := h x v hx
    cases cmd with
    | put z w =>
      have hz : z < g.dataOffset := Busy.put_below hr hi
      exact ⟨h1, (Function.update_of_ne (show x ≠ z by omega) _ _).trans h2, h3⟩
    | sync S =>
      refine ⟨h1, h2, ?_⟩
      show (if S x then io.cache x else io.disk x) = v
      split
      · exact h2
      · exact h3
  | ret hm =>
    obtain rfl : mode = _ := hm
    exact h
  | writeBack S hd => exact h.writeBack S
  | write v hopen hx hx' => exact h.write _ v
  | flush index hopen => exact h.flush _
  | flushAll hopen => exact h.flush _
  | close hm =>
    obtain rfl : mode = _ := hm
    exact h.flush (flushedAll g)
  | kill hopen => exact h
  | powerLoss hn =>
    intro x v hx
    obtain ⟨h1, -, h3⟩ := h x v hx
    exact ⟨h1, h3, h3⟩

/-! ## whole lives -/

/-- the number of allocate and free calls among the actions -/
def callCount (acts : List DAct) : Nat := acts.countP DAct.isCall

theorem callCount_snoc (acts : List DAct) (act : DAct) :
    callCount (acts ++ [act]) = callCount acts + if act.isCall then 1 else 0 := by
  simp [callCount, List.countP_append, List.countP_cons]

/-- a new pool has no record -/
theorem Lag.created (n : Nat) :
    Lag n 0 (CPool.created n).img (CPool.created n).img 0 0 (CPool.created n).img.bitmap none := by
  have hnone : ∀ s e, record (CPool.created n).img.wal s ≠ some e := by
    intro s e hr
    obtain ⟨h1, -, h3⟩ := record_eq_some.mp hr
    have hzero : (⟨0, 0, 0, 0⟩ : WalEntry) = e := h1
    rw [← hzero] at h3
    exact absurd h3 (by decide +kernel)
  have hm : Marked (CPool.created n).img 0 0 := (created_running n).mark.marked
  have hlog : LogIn n (CPool.created n).img := by
    intro j hj
    exact absurd (show (⟨0, 0, 0, 0⟩ : WalEntry).Valid from hj) (by decide +kernel)
  exact ⟨hm, fun s e hr => absurd hr (hnone s e), Or.inl rfl, fun _ => rfl, fun i hi => hm.le hi,
    fun s e hr => absurd hr (hnone s e), Or.inl rfl, Or.inl rfl, Nat.le_refl 0,
    fun s e hr => absurd hr (hnone s e), ⟨hlog, hlog⟩, fun x hx => by cases hx⟩

theorem DInv.created (hr : Regions ps g) (hg : g.Words) : DInv ps g 0 (DSys.created g) := by
  have himg := image_created hr hg
  have hlag := Lag.created g.blockCount
  refine ⟨rfl, rfl, 0, rfl, ⟨show 0 < 2 ^ 64 by decide, show 1 < 2 ^ 64 by decide⟩, rfl, ?_, ?_,
    fun _ => rfl⟩
  · refine ⟨(createdFile_words hg).1, fun _ _ => rfl, ?_⟩
    show Lag g.blockCount 0 (image g (createdFile g)) (image g (createdFile g)) 0 0
      (image g (createdFile g)).bitmap none
    rw [himg]
    exact hlag
  · show Done (image g (createdFile g)) 0
    rw [himg]
    exact hlag.bound

theorem DInv.of_run {acts : List DAct} (hr : Regions ps g) (hg : g.Words)
    (hn : g.blockCount ≤ 2 ^ 32) (hrun : Steps (DStep ps g) (DSys.created g) acts s)
    (hcalls : callCount acts < 2 ^ 63) :
    DInv ps g (callCount acts) s ∧ Saved g s := by
  refine hrun.invariant_trace (I := fun (acts : List DAct) (s : DSys) => callCount acts < 2 ^ 63 →
    DInv ps g (callCount acts) s ∧ Saved g s)
      (fun _ => ⟨DInv.created hr hg, fun x v hx => ?_⟩) ?_ hcalls
  · cases hx
  · intro acts s act s' ih hs hlt
    rw [callCount_snoc] at hlt ⊢
    obtain ⟨hi, hsaved⟩ := ih (by omega)
    exact ⟨hi.step hr hn (by omega) hs, hsaved.step hr hi hs⟩

end

/-- **A pool survives kills and power failures.**  In every life of a pool on a cached file, with
bytes written back in any order, half-written records and slots failing their checksums, and no
power failure while the newest slot on the disk is two behind after a kill:

* between two calls the blocks of the last returned call are on the disk, and so is its slot unless
  a kill came in between;
* after a kill or a power failure, inside a call or not, the file can be opened, and the pool then
  has the blocks of the last returned call, with the interrupted one wholly done or not at all;
* every byte that was flushed and not written since is still there;
* without a kill the newest slot on the disk is never two behind. -/
theorem pool_survives_power_loss {vm : Vm} {blockSize blockCount : Nat} {g : Layout}
    {acts : List DAct} {s : DSys} (hnw : NoWrap vm blockSize blockCount)
    (hg : g = layout vm.pageSize blockSize blockCount) (hn : blockCount ≤ 2 ^ 32)
    (hrun : Steps (DStep vm.pageSize g) (DSys.created g) acts s)
    (hcalls : callCount acts < 2 ^ 63) :
    (∀ p d, s.mode = .idle p d → s.last = (image g p.file).bitmap ∧ (image g d).bitmap = s.last
      ∧ (s.exposed = false → readSlot d p.activeMeta = readSlot p.file p.activeMeta))
    ∧ (∀ c d, s.mode = .closed c d → ∃ p, openFile g.totalSize c = some p
      ∧ (p.view.img.bitmap = s.last ∨ ∃ o, s.pending = some o
        ∧ p.view.img.bitmap = applied s.last o)
      ∧ ∀ x v, s.saved x = some v → p.file x = v)
    ∧ (∀ x v, s.saved x = some v → s.mode.file x = v ∧ s.mode.disk x = v)
    ∧ (s.exposed = false → Near (image g s.mode.file) (image g s.mode.disk)) := by
  have hr : Regions vm.pageSize g := hg ▸ hnw.regions
  have hcount : g.blockCount = blockCount := hg ▸ rfl
  have hwords : g.Words := hg ▸ layout_words vm blockSize (lt_trans hnw.count_lt (by decide))
  rw [← hcount] at hn
  obtain ⟨hi, hsaved⟩ := DInv.of_run hr hwords hn hrun hcalls
  refine ⟨fun p d hm => ?_, fun c d hm => ?_, fun x v hx => (hsaved x v hx).2, fun hy => ?_⟩
  · unfold DInv at hi
    rw [hm] at hi
    obtain ⟨-, hlast, v, hidle⟩ := hi
    exact ⟨hlast, (outcome_none.mp hidle.behind.lag.disk).trans hlast.symm, hidle.slot⟩
  · unfold DInv at hi
    rw [hm] at hi
    obtain ⟨a, v, b, o, hb, ho, -⟩ := hi
    have hsize : HEADER_BYTES ≤ g.totalSize := by
      have h1 := hr.header_below
      have h2 := hr.data
      omega
    have hopen : openFile g.totalSize c = some (Session.recover ⟨c, readLayout c, 0, 1, 0⟩) :=
      openFile_eq_some.mpr ⟨hsize, hb.static.magic, rfl⟩
    obtain ⟨hv, hk, -⟩ := view_openFile hr hb.static hb.lag.log.1 hopen
    refine ⟨_, hopen, ?_, fun x v hx => ?_⟩
    · rw [hv]
      exact ho _ (hb.lag.restored (by omega))
    · obtain ⟨hdata, hfile, -⟩ := hsaved x v hx
      rw [hm] at hfile
      exact (hk x (not_touched hr (Or.inr hdata))).trans hfile
  · obtain ⟨-, -, -, -, -, -, ht⟩ := hi.standing hr
    exact (ht hy).near

/-! ## a life of it -/

/-- in a call, with no kill before it -/
def DSys.under (s : DSys) (base : Mem) (p : Session) (todo : List (Cmd Nat (BitVec 8)))
    (io : Cached Nat (BitVec 8)) : DSys :=
  { s with mode := .busy base p todo io, exposed := false }

section
variable {ps : Nat} {g : Layout} {base f d : Mem} {p : Session} {l : List (Nat × BitVec 8)}
  {S : Nat → Bool} {rest : List (Cmd Nat (BitVec 8))}

theorem Caught.new (g : Layout) (f f' : Mem) : Caught g f f' f' :=
  ⟨fun _ _ _ => Or.inr rfl, fun _ _ => Or.inr rfl⟩

theorem DSys.under_exec (s : DSys) {cmd : Cmd Nat (BitVec 8)} {io : Cached Nat (BitVec 8)}
    (hc : Caught g base p.file (cmd.exec io).cache)
    (hd : Caught g io.disk io.cache (cmd.exec io).disk) :
    DStep ps g (s.under base p (cmd :: rest) io) .exec (s.under base p rest (cmd.exec io)) :=
  DStep.exec (s := s.under base p (cmd :: rest) io) rfl hc hd

/-- a batch of writes, each of which leaves nothing that the checksums do not catch -/
theorem DSys.under_puts (s : DSys)
    (hc : ∀ l₁ l₂, l = l₁ ++ l₂ → Caught g base p.file (Lib.write l₁ f)) :
    ∃ acts, callCount acts = 0 ∧ Steps (DStep ps g) (s.under base p (puts l ++ rest) ⟨f, d⟩) acts
      (s.under base p rest ⟨Lib.write l f, d⟩) := by
  induction l generalizing f with
  | nil => exact ⟨[], rfl, Steps.nil _⟩
  | cons e l ih =>
    obtain ⟨acts, hcount, hrun⟩ := ih (f := Function.update f e.1 e.2) fun l₁ l₂ hl =>
      hc (e :: l₁) l₂ (by rw [hl]; rfl)
    have hstep : DStep ps g (s.under base p (puts (e :: l) ++ rest) ⟨f, d⟩) .exec
        (s.under base p (puts l ++ rest) ⟨Function.update f e.1 e.2, d⟩) :=
      s.under_exec (hc [e] l rfl) (Caught.old _ _ _)
    refine ⟨[.exec] ++ acts, ?_, ((Steps.nil _).snoc hstep).trans hrun⟩
    rw [callCount, List.countP_append]
    exact (Nat.zero_add _).trans hcount

/-- a batch and the `sync_range` behind it, from a disk that has all of the file -/
theorem DSys.under_batch (s : DSys) (hS : ∀ e ∈ l, S e.1 = true)
    (hc : ∀ l₁ l₂, l = l₁ ++ l₂ → Caught g base p.file (Lib.write l₁ f)) :
    ∃ acts, callCount acts = 0
      ∧ Steps (DStep ps g) (s.under base p (puts l ++ .sync S :: rest) ⟨f, f⟩) acts
        (s.under base p rest ⟨Lib.write l f, Lib.write l f⟩) := by
  obtain ⟨acts, hcount, hrun⟩ : ∃ acts, callCount acts = 0
      ∧ Steps (DStep ps g) (s.under base p (puts l ++ .sync S :: rest) ⟨f, f⟩) acts
        (s.under base p (.sync S :: rest) ⟨Lib.write l f, f⟩) := s.under_puts hc
  have hdisk : (Cached.writeBack ⟨Lib.write l f, f⟩ S).disk = Lib.write l f := by
    funext x
    show (if S x then Lib.write l f x else f x) = Lib.write l f x
    split
    · rfl
    · rename_i hx
      exact (write_of_notMem fun u hu => hx (hS _ hu)).symm
  have hd : Caught g f (Lib.write l f) (Cached.writeBack ⟨Lib.write l f, f⟩ S).disk :=
    Eq.mpr (congrArg (Caught g f (Lib.write l f)) hdisk) (Caught.new _ _ _)
  have hstep : DStep ps g (s.under base p (.sync S :: rest) ⟨Lib.write l f, f⟩) .exec
      (s.under base p rest (Cmd.exec ⟨Lib.write l f, f⟩ (.sync S))) :=
    s.under_exec (hc l [] (List.append_nil l).symm) hd
  have hio : Cmd.exec ⟨Lib.write l f, f⟩ (.sync S) = ⟨Lib.write l f, Lib.write l f⟩ :=
    congrArg (Cached.mk (Lib.write l f)) hdisk
  rw [hio] at hstep
  refine ⟨acts ++ [.exec], ?_, hrun.snoc hstep⟩
  rw [callCount_snoc, hcount]
  rfl

theorem readRecord_of_wal {f f' : Mem} {k : Nat} (hk : k < WAL_ENTRIES)
    (h : (image g f').wal k = (image g f).wal k) : readRecord g f' k = readRecord g f k := by
  rwa [image_wal hk, image_wal hk] at h

section
variable {K : Nat} {y : Bool} {t : Plan} {x : Nat × Nat} {c : Mem}

/-! each write of a call is caught, if the checksums catch the beginnings of its record and of its
slot -/

theorem Plan.Ok.caught_record (hr : Regions ps g) (ht : t.Ok g K y base p)
    (hc : Partly (recordPuts g t.ring (t.entry x)) base c)
    (hv : (readRecord g c t.ring).Valid → c = t.f) : Caught g base p.file c := by
  have himg := image_of_record hr t.ring_bound fun z hz => partly_record hc hz
  refine ⟨fun k hk hvalid => ?_, fun a _ => Or.inl (congrFun (congrArg Image.metaSlots himg) a)⟩
  by_cases hkr : k = t.ring
  · subst hkr
    rw [hv hvalid]
    refine Or.inr (readRecord_of_wal hk ?_)
    rw [ht.image_file hr]
  · refine Or.inl (readRecord_of_wal hk ?_)
    rw [himg]
    exact Function.update_of_ne hkr _ _

theorem Plan.Ok.caught_bits (hr : Regions ps g) (ht : t.Ok g K y base p)
    (hc : Partly t.bits t.f c) :
    Caught g base p.file c := by
  have himg := image_of_bitmap hr fun z hz => bits_same ht hc hz
  refine ⟨fun k hk _ => Or.inr (readRecord_of_wal hk ?_), fun a _ => Or.inl ?_⟩
  · rw [himg, ht.image_file hr]
  · exact (congrFun (congrArg Image.metaSlots himg) a).trans (ht.slots a)

theorem Plan.Ok.caught_slot (hr : Regions ps g) (ht : t.Ok g K y base p)
    (hc : Partly (slotPuts (other t.a) t.slot) t.r.file c)
    (hv : (readSlot c (other t.a)).Valid → c = p.file) : Caught g base p.file c := by
  have himg := image_of_slot hr fun z hz => partly_slot hc hz
  rw [ht.image_r hr] at himg
  refine ⟨fun k hk _ => Or.inr (readRecord_of_wal hk ?_), fun a hvalid => ?_⟩
  · rw [himg, ht.image_file hr]
  · rcases eq_or_other t.a a with rfl | rfl
    · have h := congrFun (congrArg Image.metaSlots himg) t.a
      exact Or.inl ((h.trans (Function.update_of_ne (other_ne t.a).symm _ _)).trans (ht.slots t.a))
    · exact Or.inr (by rw [hv hvalid])

/-- a call with a record runs to its end, from a disk that has all of the file -/
theorem Plan.Ok.steps (s : DSys) (hr : Regions ps g) (ht : t.Ok g K y base p)
    (hfile : t.f = writeRecord g base t.ring (t.entry x)) (hwait : ∀ e ∈ t.bits, t.wait e.1 = true)
    (hrec : ∀ l₁ l₂, recordPuts g t.ring (t.entry x) = l₁ ++ l₂ → l₂ ≠ [] →
      ¬ (readRecord g (Lib.write l₁ base) t.ring).Valid)
    (hslot : ∀ l₁ l₂, slotPuts (other t.a) t.slot = l₁ ++ l₂ → l₂ ≠ [] →
      ¬ (readSlot (Lib.write l₁ t.r.file) (other t.a)).Valid) :
    ∃ acts, callCount acts = 0 ∧ Steps (DStep ps g)
      (s.under base p (puts (recordPuts g t.ring (t.entry x))
        ++ .sync (syncedRange ps (recordAt g t.ring) WAL_ENTRY_BYTES) :: t.cmds ps) ⟨base, base⟩)
        acts
      (s.under base p [] ⟨p.file, p.file⟩) := by
  have hpartly : ∀ {f : Mem} {l l₁ l₂ : List (Nat × BitVec 8)}, l = l₁ ++ l₂ →
      Partly l f (Lib.write l₁ f) :=
    fun hl z => (write_partly _ _ z).imp_right fun hm => by
      rw [hl]
      exact List.mem_append_left _ hm
  -- the record
  obtain ⟨acts₁, hcount₁, hrun₁⟩ : ∃ acts, callCount acts = 0 ∧ Steps (DStep ps g)
      (s.under base p (puts (recordPuts g t.ring (t.entry x))
        ++ .sync (syncedRange ps (recordAt g t.ring) WAL_ENTRY_BYTES) :: t.cmds ps) ⟨base, base⟩)
          acts
      (s.under base p (t.cmds ps) ⟨Lib.write (recordPuts g t.ring (t.entry x)) base,
        Lib.write (recordPuts g t.ring (t.entry x)) base⟩) := by
    refine s.under_batch (fun e he => ?_) fun l₁ l₂ hl =>
      ht.caught_record hr (hpartly hl) fun hv => ?_
    · obtain ⟨h1, h2, -⟩ := mem_fieldPuts base he
      exact syncedRange_covers h1 h2
    · by_cases hlast : l₂ = []
      · rw [hfile, ← write_recordPuts, hl, hlast, List.append_nil]
      · exact absurd hv (hrec l₁ l₂ hl hlast)
  rw [write_recordPuts, ← hfile] at hrun₁
  -- the bitmap
  obtain ⟨acts₂, hcount₂, hrun₂⟩ : ∃ acts, callCount acts = 0 ∧ Steps (DStep ps g)
      (s.under base p (t.cmds ps) ⟨t.f, t.f⟩) acts
      (s.under base p (t.r.metaCmds ps t.w) ⟨Lib.write t.bits t.f, Lib.write t.bits t.f⟩) :=
    s.under_batch hwait fun l₁ l₂ hl => ht.caught_bits hr (hpartly hl)
  rw [ht.wrote] at hrun₂
  -- the slot
  have hmeta : t.r.metaCmds ps t.w = puts (slotPuts (other t.a) t.slot)
      ++ .sync (syncedRange ps (slotAt (other t.a)) META_BYTES) :: [] := by
    rw [← ht.act]
    rfl
  obtain ⟨acts₃, hcount₃, hrun₃⟩ : ∃ acts, callCount acts = 0 ∧ Steps (DStep ps g)
      (s.under base p (t.r.metaCmds ps t.w) ⟨t.r.file, t.r.file⟩) acts
      (s.under base p [] ⟨Lib.write (slotPuts (other t.a) t.slot) t.r.file,
        Lib.write (slotPuts (other t.a) t.slot) t.r.file⟩) := by
    rw [hmeta]
    refine s.under_batch (fun e he => ?_) fun l₁ l₂ hl =>
      ht.caught_slot hr (hpartly hl) fun hv => ?_
    · obtain ⟨h1, h2, -⟩ := mem_fieldPuts base he
      exact syncedRange_covers h1 h2
    · by_cases hlast : l₂ = []
      · rw [ht.file, ← write_slotPuts, hl, hlast, List.append_nil]
      · exact absurd hv (hslot l₁ l₂ hl hlast)
  rw [write_slotPuts, ← ht.file] at hrun₃
  refine ⟨acts₁ ++ acts₂ ++ acts₃, ?_, (hrun₁.trans hrun₂).trans hrun₃⟩
  unfold callCount at hcount₁ hcount₂ hcount₃ ⊢
  rw [List.countP_append, List.countP_append, hcount₁, hcount₂, hcount₃]

end

end

/-- the beginnings of a list, by their length -/
theorem forall_beginnings {α : Type*} {l : List α} {n : Nat} {P : List α → Prop}
    (hlen : l.length = n) (h : ∀ j < n, P (l.take j)) : ∀ l₁ l₂, l = l₁ ++ l₂ → l₂ ≠ [] → P l₁ := by
  intro l₁ l₂ hl hne
  have hj : l₁.length < n := by
    have hpos := List.length_pos_of_ne_nil hne
    rw [hl, List.length_append] at hlen
    omega
  have htake := h _ hj
  rwa [hl, List.take_left] at htake

/-- a pool of eight blocks hands out its first one -/
theorem sample_allocate (hr : Regions 4096 (layout 4096 64 8)) (hg : (layout 4096 64 8).Words) :
    ∃ acts, callCount acts = 0 ∧ Steps (DStep 4096 (layout 4096 64 8))
      (DSys.created (layout 4096 64 8)) ([.allocate] ++ acts)
      (DSys.under { DSys.created (layout 4096 64 8) with pending := some (1, 0) }
        (createdFile (layout 4096 64 8)) ((createSession (layout 4096 64 8)).commit 1 0) []
        ⟨((createSession (layout 4096 64 8)).commit 1 0).file,
          ((createSession (layout 4096 64 8)).commit 1 0).file⟩) := by
  have hop : (createSession (layout 4096 64 8)).allocateOp = some (1, 0) := by decide +kernel
  have himg := image_created hr hg
  have hlag := Lag.created 8
  have ht : ((createSession (layout 4096 64 8)).commitPlan 4096 1 0).Ok (layout 4096 64 8) 1 false
      (createdFile (layout 4096 64 8)) ((createSession (layout 4096 64 8)).commit 1 0) :=
    Session.commitPlan_ok (q := createSession (layout 4096 64 8)) (v := 0) hr
      ⟨show 0 < 2 ^ 64 by decide, show 1 < 2 ^ 64 by decide⟩ (by decide) (show 0 < 8 by decide)
      (by decide) rfl (Nat.le_refl 1) (by decide) (himg ▸ hlag.mark) (himg ▸ hlag.bound)
  -- no beginning of the record or of the slot has its checksum
  obtain ⟨acts, hcount, hrun⟩ := ht.steps (x := (1, 0))
    { DSys.created (layout 4096 64 8) with pending := some (1, 0) } hr rfl
    (Session.commitPlan_waits 4096 (createSession (layout 4096 64 8)) 1 0)
    (forall_beginnings (n := 24) (by decide +kernel) (by decide +kernel))
    (forall_beginnings (n := 24) (by decide +kernel) (by decide +kernel))
  have hcall : DStep 4096 (layout 4096 64 8) (DSys.created (layout 4096 64 8)) .allocate
      (DSys.under { DSys.created (layout 4096 64 8) with pending := some (1, 0) }
        (createdFile (layout 4096 64 8)) ((createSession (layout 4096 64 8)).commit 1 0)
        ((createSession (layout 4096 64 8)).commitCmds 4096 1 0)
        ⟨createdFile (layout 4096 64 8), createdFile (layout 4096 64 8)⟩) := by
    have h : DStep 4096 (layout 4096 64 8) (DSys.created (layout 4096 64 8)) .allocate _ :=
      DStep.allocate rfl
    rw [Session.hfPoolAllocate, hop, Session.commitOp, Session.opCmds, Nat.zero_mod] at h
    exact h
  rw [Session.commitCmds_eq] at hcall
  exact ⟨acts, hcount, ((Steps.nil _).snoc hcall).trans hrun⟩

/-- in a block that is allocated a byte is written and flushed; the process is killed, and then the
power fails -/
theorem pool_survives_power_loss_flushed : ∃ acts s c d p,
    Steps (DStep 4096 (layout 4096 64 8)) (DSys.created (layout 4096 64 8))
        (acts ++ [.write 16384 0x2a#8] ++ [.flush 0] ++ [.kill] ++ [.powerLoss]) s
      ∧ s.mode = .closed c d ∧ openFile 20480 c = some p ∧ p.view.img.bitmap.test 0 = true
      ∧ p.file 16384 = 0x2a#8 := by
  have hnw : NoWrap sampleVm 64 8 :=
    ⟨by decide, by decide, by decide, by decide +kernel, by decide +kernel⟩
  have hps : sampleVm.pageSize = 4096 := by decide +kernel
  have hr : Regions 4096 (layout 4096 64 8) := hps ▸ hnw.regions
  have hwords : (layout 4096 64 8).Words := hps ▸ layout_words sampleVm 64 (by decide)
  have hdata : (layout 4096 64 8).dataOffset = 16384 := by decide +kernel
  have htotal : (layout 4096 64 8).totalSize = 20480 := by decide +kernel
  have hflushed : flushed 4096 (layout 4096 64 8) 0 16384 = true := by decide +kernel
  have hsave : ∀ s : DSys, s.mode.file 16384 = 0x2a#8 →
      s.save (layout 4096 64 8) (flushed 4096 (layout 4096 64 8) 0) 16384 = some 0x2a#8 := by
    intro s hs
    rw [← hs]
    exact if_pos ⟨hflushed, by rw [hdata]⟩
  obtain ⟨acts, hcount, hrun⟩ := sample_allocate hr hwords
  have hcalls : ∀ l, callCount l < 4 → callCount ([.allocate] ++ acts ++ [.ret] ++ l) < 2 ^ 63 := by
    intro l hl
    unfold callCount at hcount hl ⊢
    rw [List.countP_append, List.countP_append, List.countP_append, hcount]
    have hhead : List.countP DAct.isCall [.allocate] = 1 := rfl
    have hret : List.countP DAct.isCall [.ret] = 0 := rfl
    omega
  have s2 := hrun.snoc (DStep.ret rfl)
  have s3 := s2.snoc (DStep.write (x := 16384) 0x2a#8 rfl (by rw [hdata]) (by rw [htotal]; decide))
  have s4 := s3.snoc (DStep.flush 0 rfl)
  have hcalls₄ := hcalls [.write 16384 0x2a#8, .flush 0] (by decide)
  have hcalls₆ := hcalls [.write 16384 0x2a#8, .flush 0, .kill, .powerLoss] (by decide)
  -- nobody was killed so far, so the disk is not two slots behind
  have hnear := (pool_survives_power_loss hnw (by rw [hps]) (by decide) (hps ▸ s4)
    (by simpa using hcalls₄)).2.2.2 rfl
  have s6 := (s4.snoc (DStep.kill rfl)).snoc (DStep.powerLoss fun _ => hnear)
  obtain ⟨p, hopen, hbits, hsaved⟩ := (pool_survives_power_loss hnw (by rw [hps]) (by decide)
    (hps ▸ s6) (by simpa using hcalls₆)).2.1 _ _ rfl
  refine ⟨_, _, _, _, p, s6, rfl, ?_, ?_, hsaved 16384 _ ?_⟩
  · rw [← htotal]
    exact hopen
  · rcases hbits with hlast | ⟨o, ho, -⟩
    · rw [hlast]
      decide +kernel
    · cases ho
  · exact hsave _ rfl

end HeapForge.CPool
