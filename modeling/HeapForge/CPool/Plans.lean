import HeapForge.CPool.Stages

/-!
# The plans of the calls

`commit` and `recover` as plans in the sense of `HeapForge.CPool.Stages`, and what their first
command finds.

* `commitPlan_ok`, `commit_begin`     a commit, from a session between two calls;
* `recoverPlan_ok`, `recover_begin`   a recovery that has something to replay, from any file that a
                                      kill or a power failure leaves;
* `recover_idle_file`                 one that has nothing to replay leaves the file alone.
-/

set_option linter.unusedSectionVars false
set_option linter.unusedVariables false

namespace HeapForge.CPool
open Lib

/-! ## the plan of a commit -/

namespace Session

section
variable {ps K v : Nat} {g : Layout} {q : Session} {op index : Nat} {d : Mem} {b : Bitmap}
  {y : Bool}

def commitPlan (ps : Nat) (q : Session) (op index : Nat) : Plan :=
  let q' := walAppend (takeSeq q) q.nextSeq op index
  { a := q.activeMeta
    v := q.nextSeq - 1
    b := (image q.geo q.file).bitmap
    o := some (op, index)
    f := q'.file
    bits := applyPuts q' op index
    wait := syncedRange ps (q.geo.bitmapOffset + index / 8) 1
    r := applyOp q' op index
    w := q.nextSeq }

theorem commitCmds_eq (ps : Nat) (q : Session) (op index : Nat) :
    commitCmds ps q op index = puts
    (recordPuts q.geo (q.nextSeq % WAL_ENTRIES) (mkWal q.nextSeq op index))
      ++ .sync (syncedRange ps (recordAt q.geo (q.nextSeq % WAL_ENTRIES)) WAL_ENTRY_BYTES)
        :: (commitPlan ps q op index).cmds ps := by
  unfold commitCmds walCmds byteCmds Plan.cmds syncRange
  simp only [List.append_assoc, List.cons_append, List.nil_append]
  rfl

/-- the bitmap before and after `apply_op` -/
theorem commit_bitmaps (hr : Regions ps q.geo) (hw : q.Words) (ho : op < 2 ^ 32)
    (hi : index < q.geo.blockCount) (hi32 : index < 2 ^ 32) :
    (image q.geo (walAppend (takeSeq q) q.nextSeq op index).file).bitmap
      = (image q.geo q.file).bitmap
      ∧ (image q.geo (applyOp (walAppend (takeSeq q) q.nextSeq op index) op index).file).bitmap
        = applied (image q.geo q.file).bitmap (op, index) := by
  obtain ⟨h1, h2⟩ := view_between hr hw ho hi hi32
  constructor
  · rw [h1]
    rfl
  · rw [h2, applyOp_bitmap]
    rfl

/-- the record is all that `wal_append` changes -/
theorem commit_image (hr : Regions ps q.geo) (hw : q.Words) (ho : op < 2 ^ 32)
    (hi32 : index < 2 ^ 32) :
    image q.geo (walAppend (takeSeq q) q.nextSeq op index).file
      = ⟨(image q.geo q.file).metaSlots, Function.update (image q.geo q.file).wal
        (q.nextSeq % WAL_ENTRIES) (mkWal q.nextSeq op index), (image q.geo q.file).bitmap⟩ :=
  image_writeRecord hr (ring_lt _) (mkWal_fits hw.next ho hi32)

/-- the records are the old ones and the one of the call -/
theorem commit_record {s : Nat} {e : WalEntry} (hr : Regions ps q.geo) (hw : q.Words)
    (ho : op < 2 ^ 32) (hi32 : index < 2 ^ 32) (hv : q.nextSeq = v + 1)
    (hd : Done (image q.geo q.file) v)
    (he : record (image q.geo (walAppend (takeSeq q) q.nextSeq op index).file).wal s = some e) :
    s ≤ v ∨ (s = q.nextSeq ∧ e = mkWal q.nextSeq op index) := by
  have hwal := congrArg Image.wal (commit_image hr hw ho hi32)
  rw [hv] at hwal he ⊢
  exact (hd.append (x := (op, index)) hwal he).imp_left And.left

/-- the fixed part of the header stays -/
theorem commit_head (hr : Regions ps q.geo) {x : Nat} (hx : x < 56) :
    (walAppend (takeSeq q) q.nextSeq op index).file x = q.file x := by
  have hb := recordAt_bounds (g := q.geo) (ring_lt q.nextSeq)
  have h1 := hr.header
  have hh : HEADER_BYTES = 104 := rfl
  exact writeRecord_of_notMem (g := q.geo) (Or.inl (by omega))

theorem commitPlan_ok (hr : Regions ps q.geo) (hw : q.Words) (ho : op < 2 ^ 32)
    (hi : index < q.geo.blockCount) (hi32 : index < 2 ^ 32) (hv : q.nextSeq = v + 1)
    (hK : v + 1 ≤ K) (hK' : K + 300 < 2 ^ 64) (hm : Marked (image q.geo q.file) q.activeMeta v)
    (hd : Done (image q.geo q.file) v) :
    (commitPlan ps q op index).Ok q.geo K y q.file (q.commit op index) := by
  obtain ⟨hb1, hb2⟩ := commit_bitmaps hr hw ho hi hi32
  have hact : (applyOp (walAppend (takeSeq q) q.nextSeq op index) op index).activeMeta
      = q.activeMeta :=
    applyOp_activeMeta _ _ _
  have hv' : q.nextSeq - 1 = v := by omega
  exact {
    mark := by
      show Marked _ q.activeMeta (q.nextSeq - 1)
      rw [hv']
      exact hm
    slots := fun i => congrFun (congrArg Image.metaSlots (commit_image hr hw ho hi32)) i
    head := fun x hx => commit_head hr hx
    wrote := write_applyPuts _ _ _
    act := hact
    fits := mkMeta_fits hw.next (applyOp_used hw.used)
    file := by
      show writeSlot _ (other _) _ = writeSlot _ (other q.activeMeta) _
      rw [hact]
      rfl
    geo := commit_geo _ _ _
    words := hw.commit
    next := by
      show (applyOp (walAppend (takeSeq q) q.nextSeq op index) op index).nextSeq = q.nextSeq + 1
      rw [applyOp_nextSeq]
      exact Nat.mod_eq_of_lt (by omega)
    active := congrArg other hact
    lt := by
      show q.nextSeq - 1 < q.nextSeq
      omega
    le := by
      show q.nextSeq ≤ K
      omega
    one := by
      intro _
      show q.nextSeq = q.nextSeq - 1 + 1
      omega
    inside := by
      intro e he
      have hlt := byte_lt hi
      rw [(mem_applyPuts (v := e.2) he).1]
      exact ⟨Nat.le_add_right _ _, Nat.add_lt_add_left hlt _⟩
    outcome := by
      intro f' hf'
      rcases applyPuts_partly hf' with rfl | rfl
      · exact Or.inl hb1
      · exact Or.inr ⟨(op, index), rfl, hb2⟩
    waits := by
      intro x hx
      obtain rfl := Option.some.inj hx
      exact syncedRange_covers (Nat.le_refl _) (Nat.lt_succ_self _)
    done := by
      intro s e he
      show s ≤ q.nextSeq
      rcases commit_record hr hw ho hi32 hv hd he with hle | ⟨rfl, -⟩ <;> omega
    last := by
      -- the record of the watermark is the one of the call, and its operation is in the bitmap
      intro e he
      rcases commit_record hr hw ho hi32 hv hd he with hle | ⟨-, rfl⟩
      · have hle' : q.nextSeq ≤ v := hle
        omega
      · show applied (image q.geo (applyOp _ op index).file).bitmap (op, index) = _
        rw [hb2]
        exact (applied_applied _ _).trans hb2.symm }

theorem commitPlan_waits (ps : Nat) (q : Session) (op index : Nat) :
    ∀ e ∈ (commitPlan ps q op index).bits, (commitPlan ps q op index).wait e.1 = true := by
  intro e he
  have hx : e.1 = q.geo.bitmapOffset + index / 8 :=
    (mem_applyPuts (p := walAppend (takeSeq q) q.nextSeq op index) (v := e.2) he).1
  exact syncedRange_covers (Nat.le_of_eq hx.symm) (by omega)

/-- a commit begins -/
theorem commit_begin (hr : Regions ps q.geo) (hw : q.Words) (ho : op < 2 ^ 32)
    (hi : index < q.geo.blockCount) (hi32 : index < 2 ^ 32) (hv : q.nextSeq = v + 1)
    (hb : Behind q.geo K q.file d q.activeMeta v (image q.geo q.file).bitmap none)
    (hd : Done (image q.geo q.file) v) :
    (commitPlan ps q op index).At ps q.geo K q.file (q.commit op index) (commitCmds ps q op index)
      q.file d := by
  have hv' : q.nextSeq - 1 + 1 = q.nextSeq := by omega
  have hv'' : q.nextSeq - 1 = v := by omega
  refine Or.inl ⟨(op, index), ⟨rfl, ?_, ?_, hi, ?_, ?_, Or.inl ?_⟩⟩
  · show writeRecord q.geo q.file _ _ = writeRecord q.geo q.file ((q.nextSeq - 1 + 1) % WAL_ENTRIES)
      (mkWal (q.nextSeq - 1 + 1) op index)
    rw [hv']
  · show (mkWal (q.nextSeq - 1 + 1) op index).Fits
    rw [hv']
    exact mkWal_fits hw.next ho hi32
  · show Done _ (q.nextSeq - 1)
    rw [hv'']
    exact hd
  · rw [commitCmds_eq]
    have hring : (commitPlan ps q op index).ring = q.nextSeq % WAL_ENTRIES :=
      congrArg (· % WAL_ENTRIES) hv'
    have hentry : (commitPlan ps q op index).entry (op, index) = mkWal q.nextSeq op index :=
      congrArg (mkWal · op index) hv'
    rw [hring, hentry]
    exact Within.start _ _ _ _ _
  · show Behind q.geo K q.file d q.activeMeta (q.nextSeq - 1) _ none ∧ HalfFile q.geo q.file q.file
      q.activeMeta (q.nextSeq - 1) _ none
    rw [hv'']
    exact ⟨hb, hb.whole hr fun _ _ => rfl⟩

end

/-! ## the plan of a recovery -/

def recoverPlan (ps : Nat) (q : Session) (a : Fin 2) (v : Nat) (b : Bitmap)
    (o : Option (Nat × Nat)) :
    Plan :=
  { a := a
    v := v
    b := b
    o := o
    f := q.file
    bits := recoverPuts q
    wait := syncedRange ps q.geo.bitmapOffset (bitmapBytes q.geo.blockCount)
    r := (replayAll q).pool
    w := (replayAll q).maxSeq }

section
variable {ps K v : Nat} {g : Layout} {q : Session} {f d : Mem} {a : Fin 2} {b : Bitmap}
  {o : Option (Nat × Nat)} {y : Bool}

-- from here on the loop is what `view_replayAll` says of it
attribute [local irreducible] replayAll recoverPuts CPool.replayAll records

theorem fresh_view (g : Layout) (f : Mem) :
    (fresh g f).view = CPool.handle g.blockCount (image g f) := rfl

/-- what the replay leaves, in terms of the records -/
theorem replayAll_fresh (hr : Regions ps g) (h : Behind g K f d a v b o) :
    ((replayAll (fresh g f)).replayed = !(records (image g f)).isEmpty)
      ∧ (replayAll (fresh g f)).maxSeq = lastSeq v (records (image g f))
      ∧ (replayAll (fresh g f)).pool.activeMeta = a
      ∧ (image g (replayAll (fresh g f)).pool.file).bitmap
        = (image g f).bitmap.putAll ((records (image g f)).map WalEntry.write)
      ∧ (replayAll (fresh g f)).Ok ps g := by
  obtain ⟨hv, hok⟩ := view_replayAll (p := fresh g f) hr h.lag.log.1
  have hok' : (replayAll (fresh g f)).Ok ps g := hok
  obtain ⟨himg, hact, hrep⟩ := view_replay hok'.geo
  rw [fresh_view] at hv
  rw [hv] at himg hact hrep
  obtain ⟨h1, h2, h3, h4⟩ := h.lag.mark.replayAll g.blockCount
  refine ⟨hrep.trans h1, ?_, hact.trans h3, ?_, hok'⟩
  · rw [← h2, ← hv]
    rfl
  · rw [himg]
    exact h4

/-- each byte that the replay went through gives back the operation or not -/
theorem recoverPuts_outcome {f' : Mem} (hr : Regions ps g) (h : Behind g K f d a v b o)
    (hK : K + 300 < 2 ^ 64) (hf : Partly (recoverPuts (fresh g f)) f f') :
    Outcome b o (image g f').bitmap := by
  have hround : ∀ k, Outcome b o
      (CPool.replayed (CPool.handle g.blockCount (image g f)) k).pool.img.bitmap := by
    intro k
    obtain ⟨es, hes, he⟩ := replayed_records (CPool.handle g.blockCount (image g f)) k
    rw [he, foldl_redo_bitmap]
    exact h.lag.file.redoAll fun e hmem => h.lag.records_tame hK (hes.subset hmem)
  refine Outcome.mix fun j => ?_
  by_cases hj : j < (g.blockCount + 7) / 8
  · rw [image_bitmap hj]
    rcases hf (g.bitmapOffset + j) with hold | hnew
    · refine ⟨_, h.lag.file, ?_⟩
      rw [image_bitmap hj, hold]
    · obtain ⟨-, k, hk⟩ := mem_recoverPuts (p := fresh g f) hr h.lag.log.1 hnew
      refine ⟨_, hround k, ?_⟩
      have hv := view_replayed (p := fresh g f) hr h.lag.log.1 k
      have hg := replayed_geo (p := fresh g f) hr h.lag.log.1 k
      rw [fresh_view] at hv
      rw [hk, ← hv]
      generalize replayed (fresh g f) k = r at hg ⊢
      show _ = (image r.pool.geo r.pool.file).bitmap j
      rw [hg]
      exact (image_bitmap hj).symm
  · exact ⟨_, h.lag.file, (if_neg hj).trans (if_neg hj).symm⟩

theorem bitmapBytes_of_le (h : g.blockCount ≤ 2 ^ 32) :
    bitmapBytes g.blockCount = (g.blockCount + 7) / 8 := by
  unfold bitmapBytes
  rw [wadd_of_lt (show g.blockCount + 7 < 2 ^ 64 by omega)]

/-- the end of `recover` -/
theorem recover_eq (q : Session) : q.recover = if (replayAll q).replayed then
      metaCommit { (replayAll q).pool with nextSeq := ((replayAll q).maxSeq + 1) % 2 ^ 64 }
      (replayAll q).maxSeq
    else { (replayAll q).pool with nextSeq := ((replayAll q).maxSeq + 1) % 2 ^ 64 } := rfl

/-- a recovery that has replayed something writes a slot for the last record -/
theorem recover_of_records (hr : Regions ps g) (h : Behind g K f d a v b o)
    (hne : records (image g f) ≠ []) :
    (fresh g f).recover = metaCommit { (replayAll (fresh g f)).pool with
      nextSeq := (lastSeq v (records (image g f)) + 1) % 2 ^ 64 }
      (lastSeq v (records (image g f))) := by
  obtain ⟨hrep, hmax, -⟩ := replayAll_fresh hr h
  rw [List.isEmpty_eq_false_iff.mpr hne, Bool.not_false] at hrep
  rw [recover_eq, hrep, hmax, if_pos rfl]

/-- on a disk that is not behind there is one record to replay at most -/
theorem lastSeq_of_anchored (h : Behind g K f d a v b o) (hK : K + 300 < 2 ^ 64)
    (hne : records (image g f) ≠ []) (hy : Anchored (image g f) (image g d) a v) :
    lastSeq v (records (image g f)) = v + 1 := by
  have hlt := h.lag.lt_lastSeq hK hne
  have hle : lastSeq v (records (image g f)) ≤ v + 1 := lastSeq_le_iff.mpr
    ⟨Nat.le_succ v, fun e he => hy.ahead e.seq e ((h.lag.mem_records hK).mp he).2⟩
  omega

/-- the operation that may be half done lies in the bitmap that a recovery waits for -/
theorem recover_waits (hn : g.blockCount ≤ 2 ^ 32) {i : Nat} (hi : i < g.blockCount) :
    syncedRange ps g.bitmapOffset (bitmapBytes g.blockCount) (g.bitmapOffset + i / 8) = true := by
  have hbyte := byte_lt hi
  refine syncedRange_covers (Nat.le_add_right _ _) ?_
  rw [bitmapBytes_of_le hn]
  omega

theorem recoverPlan_ok (hr : Regions ps g) (hn : g.blockCount ≤ 2 ^ 32) (hK : K + 300 < 2 ^ 64)
    (h : Behind g K f d a v b o) (hne : records (image g f) ≠ [])
    (hy : y = false → Anchored (image g f) (image g d) a v) :
    (recoverPlan ps (fresh g f) a v b o).Ok g K y f (fresh g f).recover := by
  obtain ⟨-, hmax, hact, hbits, hok⟩ := replayAll_fresh hr h
  have hle := h.lag.lastSeq_le hK
  have hrec := recover_of_records hr h hne
  have hw : (recoverPlan ps (fresh g f) a v b o).w = lastSeq v (records (image g f)) := hmax
  obtain ⟨-, hgeo, hwords⟩ := view_recover (p := fresh g f) hr h.lag.log.1
  exact {
    mark := h.lag.mark
    slots := fun _ => rfl
    head := fun _ _ => rfl
    wrote := write_recoverPuts _
    act := hact
    fits := mkMeta_fits hok.max hok.used
    file := by
      rw [hrec, Plan.slot, hw]
      show writeSlot _ (other _) _ = writeSlot _ (other a) _
      rw [hact]
      rfl
    geo := hgeo
    words := hwords
    next := by
      rw [hrec, hw]
      exact Nat.mod_eq_of_lt (show lastSeq v (records (image g f)) + 1 < 2 ^ 64 by omega)
    active := by
      rw [hrec]
      exact congrArg other hact
    lt := hw ▸ h.lag.lt_lastSeq hK hne
    le := hw ▸ hle
    one := fun hfalse => hw ▸ lastSeq_of_anchored h hK hne (hy hfalse)
    inside := fun e he => (mem_recoverPuts (p := fresh g f) (v := e.2) hr h.lag.log.1 he).1
    outcome := fun f' hf' => recoverPuts_outcome hr h hK hf'
    waits := fun x hx => recover_waits hn (h.lag.block x hx)
    done := hw ▸ h.lag.done_lastSeq hK
    last := by
      intro e he
      rw [hw] at he
      show applied (image g (replayAll (fresh g f)).pool.file).bitmap _
        = (image g (replayAll (fresh g f)).pool.file).bitmap
      rw [hbits]
      exact h.lag.last_done hK hne he }

/-- a recovery with something to replay begins -/
theorem recover_begin (hr : Regions ps g) (h : Behind g K f d a v b o)
    (hne : records (image g f) ≠ []) :
    (recoverPlan ps (fresh g f) a v b o).At ps g K f (fresh g f).recover
    (recoverCmds ps (fresh g f)) f d := by
  obtain ⟨hrep, -⟩ := replayAll_fresh hr h
  rw [List.isEmpty_eq_false_iff.mpr hne, Bool.not_false] at hrep
  refine Or.inr (Or.inl ⟨?_, h⟩)
  have hcmds : recoverCmds ps (fresh g f) = (recoverPlan ps (fresh g f) a v b o).cmds ps := by
    unfold recoverCmds Plan.cmds syncRange
    dsimp only
    rw [hrep, if_pos rfl, List.append_assoc]
    rfl
  rw [hcmds]
  exact Within.start _ _ _ _ _

/-- with nothing to replay there is nothing to write -/
theorem recover_idle_file (hr : Regions ps g) (hK : K + 300 < 2 ^ 64) (h : Behind g K f d a v b o)
    (he : records (image g f) = []) :
    recoverCmds ps (fresh g f) = [] ∧ (fresh g f).recover.file = f
    ∧ (fresh g f).recover.activeMeta = a
      ∧ (fresh g f).recover.nextSeq = v + 1 := by
  obtain ⟨hrep, hmax, hact, -, -⟩ := replayAll_fresh hr h
  rw [he] at hrep hmax
  have hputs := recoverPuts_of_not_replayed hrep
  have hv := h.lag.most
  have hrec := recover_eq (fresh g f)
  rw [hrep, hmax] at hrec
  have hfile := write_recoverPuts (fresh g f)
  rw [hputs] at hfile
  refine ⟨?_, ?_, ?_, ?_⟩
  · unfold recoverCmds
    dsimp only
    rw [hrep, hputs]
    rfl
  · rw [hrec]
    exact hfile.symm
  · rw [hrec]
    exact hact
  · rw [hrec]
    exact Nat.mod_eq_of_lt (show v + 1 < 2 ^ 64 by omega)

end

end Session

end HeapForge.CPool
