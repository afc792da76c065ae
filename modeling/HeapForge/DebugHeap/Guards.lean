import HeapForge.DebugHeap.Classify

/-!
# Which damage is seen

Around the bytes of a user lie a canary, the size and, behind them, a second canary.  The checks
read the two canaries and never the size.

* `GuardDamaged`    a byte around the block is not what `dh_allocate` stored;
* `CanaryDamaged`   such a byte belongs to a canary;
* `verifyBlock_iff` what `verify_block` answers;
* `reports_iff`     **damage is reported, and only damage, exactly if a canary is hit.**
-/

set_option linter.unusedSectionVars false
set_option linter.unusedVariables false

namespace HeapForge.DebugHeap
open Lib Function

/-- the byte at `x` is not the one that `write_guards` stores for the block at `raw` -/
def Damaged (m : Mem) (raw size x : Nat) : Prop := m x ≠ writeGuards m raw size x

/-- one of the 12 bytes before `p`, or of the 4 bytes behind the block -/
def GuardDamaged (m : Mem) (p size : Nat) : Prop :=
  ∃ x, (p - 12 ≤ x ∧ x < p ∨ p + size ≤ x ∧ x < p + size + 4) ∧ Damaged m (p - 12) size x

/-- one of the 4 bytes of the front canary, or of the 4 bytes behind the block -/
def CanaryDamaged (m : Mem) (p size : Nat) : Prop :=
  ∃ x, (p - 12 ≤ x ∧ x < p - 8 ∨ p + size ≤ x ∧ x < p + size + 4) ∧ Damaged m (p - 12) size x

/-- the slots among the first `n` that the check calls bad -/
def badSlots (m : Mem) (t : DhTable) (n : Nat) : List Nat :=
  (List.range n).filter fun i =>
    (t.table i).listed && !verifyBlock m (t.table i).raw (t.table i).size

section
variable {m : Mem} {t : DhTable} {rep : DhReport} {raw size p n : Nat}

theorem writeGuards_head (m : Mem) (raw size : Nat) :
    (writeGuards m raw size).load32 raw = DH_CANARY := by
  have h1 : raw + DH_HEAD = raw + 12 := rfl
  unfold writeGuards
  rw [Mem.load32, Mem.store32, Mem.load_store_of_disjoint (by omega), Mem.store64,
    Mem.load_store_of_disjoint (by omega), Mem.store32, Mem.load_store_same]
  decide

theorem writeGuards_tail (m : Mem) (raw size : Nat) :
    (writeGuards m raw size).load32 (raw + DH_HEAD + size) = DH_CANARY := by
  unfold writeGuards
  rw [Mem.load32, Mem.store32, Mem.load_store_same]
  decide

/-- the check reads the canaries -/
theorem verifyBlock_iff (hp : raw + DH_HEAD = p) :
    verifyBlock m raw size = false ↔ CanaryDamaged m p size := by
  have h12 : DH_HEAD = 12 := rfl
  have hraw : p - 12 = raw := by omega
  have hhead : m.load32 raw = DH_CANARY
      ↔ ∀ x, raw ≤ x → x < raw + 4 → m x = writeGuards m raw size x := by
    rw [← writeGuards_head m raw size]
    exact Mem.load_eq_iff
  have htail : m.load32 (raw + DH_HEAD + size) = DH_CANARY
      ↔ ∀ x, raw + DH_HEAD + size ≤ x → x < raw + DH_HEAD + size + 4 →
      m x = writeGuards m raw size x := by
    rw [← writeGuards_tail m raw size]
    exact Mem.load_eq_iff
  have hv : verifyBlock m raw size = true
      ↔ m.load32 raw = DH_CANARY ∧ m.load32 (raw + DH_HEAD + size) = DH_CANARY := by
    unfold verifyBlock
    rw [Bool.and_eq_true, beq_iff_eq, beq_iff_eq]
  rw [← Bool.not_eq_true, hv, hhead, htail]
  unfold CanaryDamaged Damaged
  rw [hraw]
  constructor
  · intro h
    by_contra hno
    apply h
    constructor
    · intro x h1 h2
      by_contra hx
      exact hno ⟨x, Or.inl ⟨h1, by omega⟩, hx⟩
    · intro x h1 h2
      by_contra hx
      exact hno ⟨x, Or.inr ⟨by omega, by omega⟩, hx⟩
  · rintro ⟨x, hx, hd⟩ ⟨h1, h2⟩
    cases hx with
    | inl hx => exact hd (h1 x hx.1 (by omega))
    | inr hx => exact hd (h2 x (by omega) (by omega))

/-- the sweep counts the bad slots -/
theorem checkLoop_eq (m : Mem) (t : DhTable) (rep : DhReport) (n : Nat) :
    (checkLoop m t rep n).1 = (badSlots m t n).length := by
  induction n with
  | zero => rfl
  | succ n ih =>
    unfold checkLoop badSlots
    dsimp only
    rw [List.range_succ, List.filter_append, List.length_append, ← badSlots, ← ih]
    cases h : (t.table n).listed && !verifyBlock m (t.table n).raw (t.table n).size
    · simp [h]
    · simp [h]

end

section
variable {β : Type*} (B : Allocator β)

/-- the check counts the block of `p` -/
def CountsBad (h : DhHeap β) (p : Nat) : Prop :=
  ∃ i ∈ badSlots (B.heap h.backend) h.tab h.tab.cap, (h.tab.table i).user = p

/-- `dh_deallocate` of `p` leaves the counter of violations at `v`; it counts before it calls the
backend -/
def FreeCounts (h : DhHeap β) (p size v : Nat) : Prop :=
  ∃ raw tab rep, raw + DH_HEAD = p
    ∧ (dhDeallocate B h p).2
      = (B.deallocate (B.setHeap h.backend ((B.heap h.backend).fill p size DH_POISON)) raw).map
        (fun b => ⟨b, tab, rep⟩)
    ∧ rep.canaryViolations = v

/-- **What the checks promise for a block**: they report it if a guard byte is damaged, and do not
otherwise. -/
def Reports (h : DhHeap β) (p size : Nat) : Prop :=
  (GuardDamaged (B.heap h.backend) p size →
    CountsBad B h p ∧ FreeCounts B h p size (wadd h.rep.canaryViolations 1))
  ∧ (¬ GuardDamaged (B.heap h.backend) p size →
    ¬ CountsBad B h p ∧ FreeCounts B h p size h.rep.canaryViolations)

variable {B}
variable {h : DhHeap β} {p raw size : Nat}

theorem CanaryDamaged.guard {m : Mem} (hd : CanaryDamaged m p size) : GuardDamaged m p size := by
  obtain ⟨x, hx, h⟩ := hd
  exact ⟨x, by omega, h⟩

theorem countsBad_iff (ht : TabInv h.tab) (hr : raw ≠ 0) (hraw : raw + DH_HEAD = p)
    (hg : h.tab.get p = some ⟨p, raw, size, false⟩) :
    CountsBad B h p ↔ CanaryDamaged (B.heap h.backend) p size := by
  have hp : p ≠ 0 := by
    rw [← hraw]
    exact Nat.succ_ne_zero _
  rw [← verifyBlock_iff hraw]
  obtain ⟨i, hi, he, -⟩ := (get_eq_some ht hp).mp hg
  have hlisted : (⟨p, raw, size, false⟩ : DhEntry).listed = true := by
    simp [DhEntry.listed, hp, hr]
  constructor
  · rintro ⟨j, hj, hu⟩
    obtain ⟨hjcap, hbad⟩ := List.mem_filter.mp hj
    -- the pointer has one slot
    have hji : j = i := ht.probed.inj (k := p) (List.mem_range.mp hjcap) hi
      ((key_eq_some hp).mpr hu) ((key_eq_some hp).mpr (by rw [he]))
    rw [hji, he, hlisted, Bool.true_and, Bool.not_eq_true'] at hbad
    exact hbad
  · intro hv
    refine ⟨i, List.mem_filter.mpr ⟨List.mem_range.mpr hi, ?_⟩, by rw [he]⟩
    rw [he, hlisted, Bool.true_and, Bool.not_eq_true']
    exact hv

theorem freeCounts_live (ht : TabInv h.tab) (hr : raw ≠ 0) (hraw : raw + DH_HEAD = p)
    (hg : h.tab.get p = some ⟨p, raw, size, false⟩) :
    FreeCounts B h p size (if verifyBlock (B.heap h.backend) raw size then h.rep.canaryViolations
      else wadd h.rep.canaryViolations 1) := by
  have hp : p ≠ 0 := by
    rw [← hraw]
    exact Nat.succ_ne_zero _
  obtain ⟨i, hf, he, -⟩ := dhDeallocate_found ht hp hg
  refine ⟨raw, { h.tab with table := update h.tab.table i ⟨p, 0, size, true⟩ }, { h.rep with
    canaryViolations := if verifyBlock (B.heap h.backend) raw size then h.rep.canaryViolations
      else wadd h.rep.canaryViolations 1
    totalFrees := wadd h.rep.totalFrees 1
    activeAllocs := wsub h.rep.activeAllocs 1 }, hraw, ?_, rfl⟩
  unfold dhDeallocate
  dsimp only
  rw [if_neg hp, hf]
  dsimp only
  rw [he, if_neg (by simp), if_neg (by simp), if_neg hr]

end

/-- **Damage next to a live block is reported exactly if it reaches a canary.**  In every state of
every run, for every live block: the check counts the bad slots, and it and the free report the
block as promised unless only bytes of the size field are damaged. -/
theorem reports_iff {β : Type*} {B : Allocator β} {cl : TableCalloc} {b : β} {h : DhHeap β}
    {acts : List (DhAct β)} {s : DhSys β} {p size : Nat} (hc : hfDebugHeapCreate cl b = some h)
    (hrun : Steps (DhStep B) (DhSys.start h) acts s) (hp : p ≠ 0)
    (hlive : s.status p = .live size) :
    (hfDebugHeapCheck B s.h).1 = (badSlots (B.heap s.h.backend) s.h.tab s.h.tab.cap).length
    ∧ (Reports B s.h p size
      ↔ (GuardDamaged (B.heap s.h.backend) p size →
        CanaryDamaged (B.heap s.h.backend) p size)) := by
  have hs : DhInv s := hrun.invariant (DhInv.start hc) fun _ _ _ => DhInv.step
  have htr := hs.tracks p hp
  rw [hlive] at htr
  obtain ⟨raw, hr, hraw, hg⟩ := htr
  have hcount := countsBad_iff (B := B) hs.tab hr hraw hg
  have hfree := freeCounts_live (B := B) hs.tab hr hraw hg
  have hv : verifyBlock (B.heap s.h.backend) raw size = false
    ↔ CanaryDamaged (B.heap s.h.backend) p size :=
    verifyBlock_iff hraw
  refine ⟨checkLoop_eq _ _ _ _, ?_⟩
  constructor
  · intro hrep hd
    exact hcount.mp (hrep.1 hd).1
  · intro himp
    constructor
    · intro hd
      refine ⟨hcount.mpr (himp hd), ?_⟩
      rwa [hv.mpr (himp hd), if_neg (by simp)] at hfree
    · intro hd
      have hnot : ¬ CanaryDamaged (B.heap s.h.backend) p size := fun hcd => hd hcd.guard
      refine ⟨fun hcb => hnot (hcount.mp hcb), ?_⟩
      rwa [if_pos (Bool.of_not_eq_false fun hf => hnot (hv.mp hf))] at hfree

/-! ## one byte too many -/

/-- an arena with the bytes of its blocks -/
def memArena : Allocator (Nat × Mem) where
  allocate b size _ := some (b.1, (b.1 + size, b.2))
  deallocate b _ := some b
  heap b := b.2
  setHeap b m := (b.1, m)

def memHeap : DhHeap (Nat × Mem) :=
  ⟨(4096, Mem.zero), ⟨fun _ => DhEntry.blank, 64, 0⟩, ⟨0, 0, 0, 0, 0, 0⟩⟩

/-- somebody writes the byte at `x` -/
def hit (s : DhSys (Nat × Mem)) (x : Nat) (v : BitVec 8) : DhSys (Nat × Mem) :=
  ⟨{ s.h with backend := (s.h.backend.1, s.h.backend.2.setByte x v) }, s.status⟩

theorem hit_run {s : DhSys (Nat × Mem)}
    (hs : (DhSys.start memHeap).act memArena grantAll (.alloc 16 16) = some s) (x : Nat)
    (v : BitVec 8) :
    Steps (DhStep memArena) (DhSys.start memHeap)
      [.alloc 16 16, .other (s.h.backend.1, s.h.backend.2.setByte x v)] (hit s x v) :=
  Steps.snoc (Steps.snoc (Steps.nil _) ⟨grantAll, hs⟩) ⟨grantAll, rfl⟩

/-- a byte of the front canary is overwritten: the block is reported -/
theorem reports_front_canary :
    ∃ s acts, Steps (DhStep memArena) (DhSys.start memHeap) acts s ∧ s.status 4108 = .live 16
      ∧ GuardDamaged s.h.backend.2 4108 16 ∧ Reports memArena s.h 4108 16 := by
  have h1 : ((DhSys.start memHeap).act memArena grantAll (.alloc 16 16)).map
      (fun s => ((hit s 4096 0).status 4108, (hit s 4096 0).h.backend.2 4096,
        writeGuards (hit s 4096 0).h.backend.2 4096 16 4096))
      = some (.live 16, 0x00#8, 0xef#8) := by decide +kernel
  obtain ⟨s, hs, he⟩ := Option.map_eq_some_iff.mp h1
  simp only [Prod.mk.injEq] at he
  obtain ⟨h2, h3, h4⟩ := he
  have hd : CanaryDamaged (hit s 4096 0).h.backend.2 4108 16 := by
    refine ⟨4096, Or.inl ⟨by omega, by omega⟩, ?_⟩
    show (hit s 4096 0).h.backend.2 4096 ≠ writeGuards (hit s 4096 0).h.backend.2 4096 16 4096
    rw [h3, h4]
    decide
  have hcreate : hfDebugHeapCreate grantAll ((4096, Mem.zero) : Nat × Mem) = some memHeap := rfl
  exact ⟨_, _, hit_run hs 4096 0, h2, hd.guard,
    (reports_iff hcreate (hit_run hs 4096 0) (by omega) h2).2.mpr fun _ => hd⟩

/-- an underrun of up to 8 bytes destroys the size and is not seen -/
theorem size_field_damage_unseen :
    ∃ s acts, Steps (DhStep memArena) (DhSys.start memHeap) acts s ∧ s.status 4108 = .live 16
      ∧ GuardDamaged s.h.backend.2 4108 16
      ∧ (hfDebugHeapCheck memArena s.h).1 = 0
      ∧ (dhDeallocate memArena s.h 4108).2.map (fun h => h.rep.canaryViolations) = some 0
      ∧ ¬ Reports memArena s.h 4108 16 := by
  have h1 : ((DhSys.start memHeap).act memArena grantAll (.alloc 16 16)).map
      (fun s => ((hit s 4107 1).status 4108, (hit s 4107 1).h.backend.2 4107,
        writeGuards (hit s 4107 1).h.backend.2 4096 16 4107,
        (hfDebugHeapCheck memArena (hit s 4107 1).h).1,
        (dhDeallocate memArena (hit s 4107 1).h 4108).2.map (fun h => h.rep.canaryViolations)))
      = some (.live 16, 0x01#8, 0x00#8, 0, some 0) := by decide +kernel
  obtain ⟨s, hs, he⟩ := Option.map_eq_some_iff.mp h1
  simp only [Prod.mk.injEq] at he
  obtain ⟨h2, h3, h4, h5, h6⟩ := he
  have hd : GuardDamaged (hit s 4107 1).h.backend.2 4108 16 := by
    refine ⟨4107, Or.inl ⟨by omega, by omega⟩, ?_⟩
    show (hit s 4107 1).h.backend.2 4107 ≠ writeGuards (hit s 4107 1).h.backend.2 4096 16 4107
    rw [h3, h4]
    decide
  refine ⟨_, _, hit_run hs 4107 1, h2, hd, h5, h6, ?_⟩
  intro hrep
  obtain ⟨⟨i, hi, -⟩, -⟩ := hrep.1 hd
  have hpos := List.length_pos_of_mem hi
  rw [← checkLoop_eq _ _ (hit s 4107 1).h.rep] at hpos
  exact absurd h5 (Nat.pos_iff_ne_zero.mp hpos)

end HeapForge.DebugHeap
