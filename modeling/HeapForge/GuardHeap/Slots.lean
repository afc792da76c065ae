import HeapForge.GuardHeap.Impl
import HeapForge.Lib.Bitmap
import HeapForge.Lib.Run

/-!
# The registry of the guard heap fills up

An entry goes from empty to active to quarantined and never back.  So the entries in use are the
allocations of the whole run, not the live blocks.

* `slots`             how many entries are in given states;
* `SlotInv`           the entries in use are the requests served, the quarantined ones the frees;
* `slots_of_run`      **there is an entry, and at most `Q` mappings are kept for freed blocks,
                      exactly as long as fewer than 4096 requests were served and at most `Q` blocks
                      freed;**
* `no_quarantine_bound`   no `Q` does, with one block live at a time.
-/

set_option linter.unusedSectionVars false
set_option linter.unusedVariables false

namespace HeapForge.GuardHeap
open Lib

-- the number of entries plays no part in the proofs, and its value should not be computed with
attribute [local irreducible] GH_MAX_REGIONS

/-- the number of entries whose state satisfies `f` -/
def slots (f : RegionState → Bool) (h : GhHeap) : Nat :=
  (List.range GH_MAX_REGIONS).countP fun i => f (h.table i).state

def live (h : GhHeap) : Nat := slots (· == .active) h

/-- the mappings held: a freed block keeps its own -/
def mappings (h : GhHeap) : Nat := slots (· != .empty) h

/-- a guard heap, and how many requests it has served and blocks it has freed -/
structure GhSys where
  h : GhHeap
  served : Nat
  freed : Nat

inductive GhAct
  | alloc (vm : Vm) (size alignment : Nat)
  | free (ptr : Nat)

/-- calls in which the system grants the mapping, and frees of live blocks -/
inductive GhStep (s : GhSys) : GhAct → GhSys → Prop
  | alloc {vm : Vm} {size alignment idx : Nat}
  (hmap : hfVmReserve vm (ghTotal vm.pageSize (ghSize size)) ≠ 0)
      (hslot : ghReserveSlot s.h = some idx) :
      GhStep s (.alloc vm size alignment)
        ⟨(ghAllocate vm s.h size alignment).2, s.served + 1, s.freed⟩
  | refused {vm : Vm} {size alignment : Nat}
      (hmap : hfVmReserve vm (ghTotal vm.pageSize (ghSize size)) ≠ 0)
      (hslot : ghReserveSlot s.h = none) :
      GhStep s (.alloc vm size alignment) ⟨(ghAllocate vm s.h size alignment).2, s.served, s.freed⟩
  | free {ptr idx : Nat} (hp : ptr ≠ 0) (hlive : ghFindByUser s.h ptr = some idx) :
      GhStep s (.free ptr) ⟨ghDeallocate s.h ptr, s.served, s.freed + 1⟩

structure SlotInv (s : GhSys) : Prop where
  used : mappings s.h = s.served
  live : live s.h + s.freed = s.served

section
variable {vm : Vm} {h : GhHeap} {s s' : GhSys} {act : GhAct} {acts : List GhAct}
  {f : RegionState → Bool} {r : GhRegion} {size a ptr idx : Nat}

/-- one entry changes -/
theorem slots_update (hidx : idx < GH_MAX_REGIONS) {h' : GhHeap}
    (ht : h'.table = Function.update h.table idx r) :
    slots f h' + (f (h.table idx).state).toNat = slots f h + (f r.state).toNat := by
  have hflip := countP_range_flip (f := fun i => f (h.table i).state)
    (g := fun i => f (h'.table i).state)
    hidx (fun j hj => by rw [ht, Function.update_of_ne hj])
  have hself : (h'.table idx).state = r.state := by rw [ht, Function.update_self]
  rw [hself] at hflip
  exact hflip

/-- an empty entry becomes active -/
theorem counts_activated (hidx : idx < GH_MAX_REGIONS) {h' : GhHeap}
    (ht : h'.table = Function.update h.table idx r) (hold : (h.table idx).state = .empty)
    (hnew : r.state = .active) : mappings h' = mappings h + 1 ∧ live h' = live h + 1 := by
  have h1 := slots_update (f := (· != .empty)) hidx ht
  have h2 := slots_update (f := (· == .active)) hidx ht
  rw [hold, hnew] at h1 h2
  have e1 : (RegionState.empty != .empty).toNat = 0 := rfl
  have e2 : (RegionState.active != .empty).toNat = 1 := rfl
  have e3 : (RegionState.empty == .active).toNat = 0 := rfl
  have e4 : (RegionState.active == .active).toNat = 1 := rfl
  rw [e1, e2, Nat.add_zero] at h1
  rw [e3, e4, Nat.add_zero] at h2
  exact ⟨h1, h2⟩

/-- an active entry is quarantined -/
theorem counts_quarantined (hidx : idx < GH_MAX_REGIONS) {h' : GhHeap}
    (ht : h'.table = Function.update h.table idx r) (hold : (h.table idx).state = .active)
    (hnew : r.state = .quarantined) : mappings h' = mappings h ∧ live h' + 1 = live h := by
  have h1 := slots_update (f := (· != .empty)) hidx ht
  have h2 := slots_update (f := (· == .active)) hidx ht
  rw [hold, hnew] at h1 h2
  have e1 : (RegionState.active != .empty).toNat = 1 := rfl
  have e2 : (RegionState.quarantined != .empty).toNat = 1 := rfl
  have e3 : (RegionState.active == .active).toNat = 1 := rfl
  have e4 : (RegionState.quarantined == .active).toNat = 0 := rfl
  rw [e1, e2] at h1
  rw [e3, e4, Nat.add_zero] at h2
  exact ⟨Nat.add_right_cancel h1, h2⟩

theorem ghReserveSlot_some (hs : ghReserveSlot h = some idx) :
    idx < GH_MAX_REGIONS ∧ (h.table idx).state = .empty := by
  unfold ghReserveSlot at hs
  have h1 := List.find?_some hs
  exact ⟨List.mem_range.mp (List.mem_of_find?_eq_some hs), of_decide_eq_true h1⟩

/-- there is no entry exactly if all of them are in use -/
theorem ghReserveSlot_none : ghReserveSlot h = none ↔ mappings h = GH_MAX_REGIONS := by
  have hcount : mappings h = GH_MAX_REGIONS ↔ ∀ i ∈ List.range GH_MAX_REGIONS,
      ((h.table i).state != .empty) = true := by
    unfold mappings slots
    rw [← List.countP_eq_length, List.length_range]
  rw [hcount]
  unfold ghReserveSlot
  rw [List.find?_eq_none]
  refine forall₂_congr fun i hi => ?_
  rw [decide_eq_true_eq, bne_iff_ne]

theorem ghFindByUser_some (hs : ghFindByUser h ptr = some idx) :
    idx < GH_MAX_REGIONS ∧ (h.table idx).state = .active ∧ (h.table idx).user = ptr := by
  have h1 := List.find?_some hs
  rw [Bool.and_eq_true, decide_eq_true_eq, decide_eq_true_eq] at h1
  exact ⟨List.mem_range.mp (List.mem_of_find?_eq_some hs), h1⟩

theorem ghAllocate_served (hmap : hfVmReserve vm (ghTotal vm.pageSize (ghSize size)) ≠ 0)
    (hslot : ghReserveSlot h = some idx) :
    ∃ r : GhRegion, r.state = .active ∧ r.user = (ghAllocate vm h size a).1
      ∧ r.base = hfVmReserve vm (ghTotal vm.pageSize (ghSize size))
      ∧ r.total = ghTotal vm.pageSize (ghSize size)
      ∧ (ghAllocate vm h size a).2.table = Function.update h.table idx r := by
  unfold ghAllocate
  dsimp only
  rw [if_neg hmap, hslot]
  exact ⟨_, rfl, rfl, rfl, rfl, rfl⟩

theorem ghAllocate_user (hmap : hfVmReserve vm (ghTotal vm.pageSize (ghSize size)) ≠ 0)
    (hslot : ghReserveSlot h = some idx) :
    (ghAllocate vm h size a).1
      = ghPlace vm.pageSize (hfVmReserve vm (ghTotal vm.pageSize (ghSize size)))
      (ghDataPages vm.pageSize (ghSize size)) (ghSize size) (ghAlignment a) := by
  unfold ghAllocate
  dsimp only
  rw [if_neg hmap, hslot]

theorem ghAllocate_refused (hmap : hfVmReserve vm (ghTotal vm.pageSize (ghSize size)) ≠ 0)
    (hslot : ghReserveSlot h = none) : ghAllocate vm h size a = (0, h) := by
  unfold ghAllocate
  dsimp only
  rw [if_neg hmap, hslot]

theorem ghDeallocate_live (hp : ptr ≠ 0) (hlive : ghFindByUser h ptr = some idx) :
    (ghDeallocate h ptr).table
      = Function.update h.table idx { h.table idx with state := .quarantined } := by
  unfold ghDeallocate
  rw [if_neg hp, hlive]

theorem SlotInv.step (hs : SlotInv s) (hstep : GhStep s act s') : SlotInv s' := by
  have hused := hs.used
  have hlive := hs.live
  cases hstep with
  | @alloc vm size alignment idx hmap hslot =>
    obtain ⟨hidx, hempty⟩ := ghReserveSlot_some hslot
    obtain ⟨r, hr, -, -, -, ht⟩ := ghAllocate_served (a := alignment) hmap hslot
    obtain ⟨h1, h2⟩ := counts_activated hidx ht hempty hr
    constructor
    · exact h1.trans (congrArg (· + 1) hused)
    · show GuardHeap.live (ghAllocate vm s.h size alignment).2 + s.freed = s.served + 1
      omega
  | refused hmap hslot =>
    rw [ghAllocate_refused hmap hslot]
    exact ⟨hused, hlive⟩
  | @free ptr idx hp hfind =>
    obtain ⟨hidx, hactive, -⟩ := ghFindByUser_some hfind
    obtain ⟨h1, h2⟩ := counts_quarantined hidx (ghDeallocate_live hp hfind) hactive rfl
    constructor
    · exact h1.trans hused
    · show GuardHeap.live (ghDeallocate s.h ptr) + (s.freed + 1) = s.served
      omega

theorem SlotInv.start {handle : Bool} {m : Mem} (hc : hfGuardHeapCreate handle m = some h) :
    SlotInv ⟨h, 0, 0⟩ := by
  unfold hfGuardHeapCreate at hc
  split at hc
  · obtain rfl := Option.some.inj hc
    have h0 : ∀ f : RegionState → Bool, f .empty = false →
        slots f ⟨fun _ => ⟨0, 0, 0, 0, .empty⟩, 0, 0, 0, m⟩ = 0 := by
      intro f hf
      refine List.countP_eq_zero.mpr fun i _ => ?_
      rw [hf]
      exact Bool.false_ne_true
    refine ⟨h0 _ rfl, ?_⟩
    rw [Nat.add_zero]
    exact h0 _ rfl
  · exact absurd hc (by simp)

end

/-- **What the registry has room for.**  In every state of every run the mappings held are the
requests served so far, live or freed; there is an entry for the next request exactly if fewer than
4096 were served, and the mappings exceed the live blocks by at most `Q` exactly if at most `Q`
blocks were freed. -/
theorem slots_of_run {handle : Bool} {m : Mem} {h : GhHeap} {acts : List GhAct}
    {s : GhSys} (Q : Nat) (hc : hfGuardHeapCreate handle m = some h)
    (hrun : Steps GhStep ⟨h, 0, 0⟩ acts s) :
    mappings s.h = s.served ∧ live s.h + s.freed = s.served
    ∧ (ghReserveSlot s.h ≠ none ∧ mappings s.h ≤ live s.h + Q
      ↔ s.served < GH_MAX_REGIONS ∧ s.freed ≤ Q) := by
  have hs : SlotInv s := hrun.invariant (I := SlotInv)
    (SlotInv.start hc) fun _ _ _ h hs => h.step hs
  have hused := hs.used
  have hlive := hs.live
  have hle : mappings s.h ≤ GH_MAX_REGIONS := countP_range_le _ _
  refine ⟨hused, hlive, ?_⟩
  rw [Ne, ghReserveSlot_none]
  omega

/-- a request on a fresh heap -/
theorem slots_of_first_request :
    ∃ s, Steps GhStep ⟨⟨fun _ => ⟨0, 0, 0, 0, .empty⟩, 0, 0, 0, Mem.zero⟩, 0, 0⟩
    [.alloc sampleVm 1 16] s
      ∧ (ghReserveSlot s.h ≠ none ∧ mappings s.h ≤ live s.h + 0
        ↔ s.served < GH_MAX_REGIONS ∧ s.freed ≤ 0) := by
  have hcreate : hfGuardHeapCreate true Mem.zero
      = some ⟨fun _ => ⟨0, 0, 0, 0, .empty⟩, 0, 0, 0, Mem.zero⟩ := rfl
  have hmap : hfVmReserve sampleVm (ghTotal sampleVm.pageSize (ghSize 1)) ≠ 0 := by decide +kernel
  have hslot : ∃ idx, ghReserveSlot ⟨fun _ => ⟨0, 0, 0, 0, .empty⟩, 0, 0, 0, Mem.zero⟩
      = some idx := by
    refine Option.isSome_iff_exists.mp (List.find?_isSome.mpr ⟨0, List.mem_range.mpr ?_, by simp⟩)
    unfold GH_MAX_REGIONS
    decide
  obtain ⟨idx, hidx⟩ := hslot
  have hrun : Steps GhStep ⟨⟨fun _ => ⟨0, 0, 0, 0, .empty⟩, 0, 0, 0, Mem.zero⟩, 0, 0⟩
      [.alloc sampleVm 1 16] _ := Steps.snoc (Steps.nil _) (GhStep.alloc hmap hidx)
  exact ⟨_, hrun, (slots_of_run 0 hcreate hrun).2.2⟩

/-! ## one block at a time -/

/-- the mapping for a request, if the system grants it, lies apart from every mapping held -/
def NewMapping (h : GhHeap) (vm : Vm) (size : Nat) : Prop :=
  let total := ghTotal vm.pageSize (ghSize size)
  ∀ i < GH_MAX_REGIONS, (h.table i).state ≠ .empty →
    hfVmReserve vm total + total ≤ (h.table i).base
    ∨ (h.table i).base + (h.table i).total ≤ hfVmReserve vm total

/-- runs with at most `B` blocks live, in which the system grants no place twice -/
def GhStepUpTo (B : Nat) (s : GhSys) (act : GhAct) (s' : GhSys) : Prop :=
  GhStep s act s' ∧ live s'.h ≤ B ∧ ∀ vm size alignment, act = .alloc vm size alignment →
  NewMapping s.h vm size

/-- a machine that gives up to 2^16 bytes, the `k`-th time behind the `k` places given before -/
def nextPlace (k n : Nat) : Nat :=
  if n = 0 ∨ 2 ^ 16 < n ∨ 2 ^ 30 < k then 0 else 2 ^ 20 + 2 ^ 16 * k

theorem nextPlace_zero (k : Nat) : nextPlace k 0 = 0 := if_pos (Or.inl rfl)

theorem nextPlace_aligned (k n : Nat) : 2 ^ 12 ∣ nextPlace k n := by
  unfold nextPlace
  split
  · exact dvd_zero _
  · omega

theorem nextPlace_bound (k n : Nat) (h : nextPlace k n ≠ 0) : nextPlace k n + n < 2 ^ 64 := by
  unfold nextPlace at h ⊢
  by_cases hn : n = 0 ∨ 2 ^ 16 < n ∨ 2 ^ 30 < k
  · exact absurd (if_pos hn) h
  · rw [if_neg hn]
    omega

def nextVm (k : Nat) : Vm :=
  ⟨12, sampleVm.pageOrder_ge, sampleVm.pageOrder_lt, nextPlace k, nextPlace_zero k,
  nextPlace_aligned k,
    nextPlace_bound k⟩

/-- the mappings held lie in the places given so far -/
def Placed (s : GhSys) : Prop :=
  ∀ i, (s.h.table i).state ≠ .empty →
  (s.h.table i).base + (s.h.table i).total ≤ 2 ^ 20 + 2 ^ 16 * s.served

section
variable {h : GhHeap} {s : GhSys} {ptr idx B n : Nat}

theorem ghFindByUser_exists (hidx : idx < GH_MAX_REGIONS) (hact : (h.table idx).state = .active)
    (hu : (h.table idx).user = ptr) : ∃ j, ghFindByUser h ptr = some j := by
  refine Option.isSome_iff_exists.mp (List.find?_isSome.mpr ⟨idx, List.mem_range.mpr hidx, ?_⟩)
  rw [hact, hu]
  simp

/-- one byte takes three pages -/
theorem nextVm_total (k : Nat) : ghTotal (nextVm k).pageSize (ghSize 1) = 12288 := by
  show ghTotal 4096 1 = 12288
  decide +kernel

theorem nextVm_reserve (hn : n ≤ GH_MAX_REGIONS) :
    hfVmReserve (nextVm n) (ghTotal (nextVm n).pageSize (ghSize 1)) = 2 ^ 20 + 2 ^ 16 * n := by
  have hround : hfAlignUp 12288 4096 = 12288 := by decide +kernel
  have hlt : n ≤ 4096 := by
    unfold GH_MAX_REGIONS at hn
    exact hn
  rw [nextVm_total]
  show nextPlace n (hfAlignUp 12288 4096) = _
  rw [hround]
  exact if_neg (by omega)

theorem nextVm_ne (hn : n ≤ GH_MAX_REGIONS) :
    hfVmReserve (nextVm n) (ghTotal (nextVm n).pageSize (ghSize 1)) ≠ 0 := by
  rw [nextVm_reserve hn]
  omega

theorem le_ghPlace (ps base d size a : Nat) : wadd base ps ≤ ghPlace ps base d size a := by
  unfold ghPlace
  dsimp only
  split
  · exact le_rfl
  · omega

theorem nextVm_user_ne (hn : n < GH_MAX_REGIONS) (hslot : ghReserveSlot h = some idx) :
    (ghAllocate (nextVm n) h 1 16).1 ≠ 0 := by
  have hlt : n < 4096 := by
    unfold GH_MAX_REGIONS at hn
    exact hn
  rw [ghAllocate_user (nextVm_ne hn.le) hslot, nextVm_reserve hn.le]
  refine Nat.ne_of_gt (Nat.lt_of_lt_of_le ?_ (le_ghPlace _ _ _ _ _))
  show 0 < wadd (2 ^ 20 + 2 ^ 16 * n) 4096
  rw [wadd_of_lt (by omega)]
  omega

theorem Placed.newMapping (hp : Placed s) (hroom : s.served ≤ GH_MAX_REGIONS) :
    NewMapping s.h (nextVm s.served) 1 := by
  intro i _ hi
  exact Or.inr ((hp i hi).trans (nextVm_reserve hroom).ge)

theorem Placed.alloc (hp : Placed s) (hroom : s.served < GH_MAX_REGIONS)
    (hslot : ghReserveSlot s.h = some idx) :
    Placed ⟨(ghAllocate (nextVm s.served) s.h 1 16).2, s.served + 1, s.freed⟩ := by
  have hbase := nextVm_reserve hroom.le
  obtain ⟨r, -, -, hrb, hrt, ht⟩ := ghAllocate_served (a := 16) (nextVm_ne hroom.le) hslot
  intro i hi
  dsimp only at hi ⊢
  rw [ht] at hi ⊢
  by_cases hx : i = idx
  · rw [hx, Function.update_self, hrb, hrt, hbase, nextVm_total]
    omega
  · rw [Function.update_of_ne hx] at hi ⊢
    have := hp i hi
    omega

theorem Placed.free (hp : Placed s) (hne : ptr ≠ 0) (hj : ghFindByUser s.h ptr = some idx) :
    Placed ⟨ghDeallocate s.h ptr, s.served, s.freed + 1⟩ := by
  intro i hi
  dsimp only at hi ⊢
  rw [ghDeallocate_live hne hj] at hi ⊢
  by_cases hx : i = idx
  · rw [hx, Function.update_self]
    refine hp idx ?_
    rw [(ghFindByUser_some hj).2.1]
    decide
  · rw [Function.update_of_ne hx] at hi ⊢
    exact hp i hi

/-- a block of one byte is allocated and freed -/
theorem pair_step (hs : SlotInv s) (hp : Placed s) (h0 : live s.h = 0)
    (hroom : s.served < GH_MAX_REGIONS) (hB : 1 ≤ B) :
    ∃ acts s', Steps (GhStepUpTo B) s acts s' ∧ Placed s' ∧ s'.served = s.served + 1
      ∧ s'.freed = s.freed + 1 := by
  have hused := hs.used
  have hmap := nextVm_ne hroom.le
  obtain ⟨idx, hslot⟩ : ∃ idx, ghReserveSlot s.h = some idx := by
    apply Option.ne_none_iff_exists'.mp
    rw [Ne, ghReserveSlot_none]
    omega
  have hne := nextVm_user_ne hroom hslot
  have hplaced := hp.alloc hroom hslot
  obtain ⟨hidx, hempty⟩ := ghReserveSlot_some hslot
  obtain ⟨r, hr, hu, -, -, ht⟩ := ghAllocate_served (a := 16) hmap hslot
  have hself : (ghAllocate (nextVm s.served) s.h 1 16).2.table idx = r := by
    rw [ht, Function.update_self]
  obtain ⟨j, hj⟩ := ghFindByUser_exists hidx (hself ▸ hr) (hself ▸ hu)
  have h1 := (counts_activated hidx ht hempty hr).2
  obtain ⟨hjlt, hjact, -⟩ := ghFindByUser_some hj
  have h2 := (counts_quarantined hjlt (ghDeallocate_live hne hj) hjact rfl).2
  have step1 : GhStepUpTo B s (.alloc (nextVm s.served) 1 16)
      ⟨(ghAllocate (nextVm s.served) s.h 1 16).2, s.served + 1, s.freed⟩ := by
    refine ⟨GhStep.alloc hmap hslot, ?_, ?_⟩
    · show live (ghAllocate _ _ _ _).2 ≤ B
      omega
    · intro vm size alignment he
      injection he with e1 e2
      subst e1 e2
      exact hp.newMapping hroom.le
  have step2 : GhStepUpTo B ⟨(ghAllocate (nextVm s.served) s.h 1 16).2, s.served + 1, s.freed⟩
      (.free (ghAllocate (nextVm s.served) s.h 1 16).1)
      ⟨ghDeallocate (ghAllocate (nextVm s.served) s.h 1 16).2
        (ghAllocate (nextVm s.served) s.h 1 16).1, s.served + 1, s.freed + 1⟩ := by
    refine ⟨GhStep.free hne hj, ?_, fun vm size alignment he => GhAct.noConfusion he⟩
    show live (ghDeallocate _ _) ≤ B
    omega
  exact ⟨_, _, Steps.snoc (Steps.snoc (Steps.nil s) step1) step2, hplaced.free hne hj, rfl, rfl⟩

theorem pairs_run (hs : SlotInv ⟨h, 0, 0⟩) (hp : Placed ⟨h, 0, 0⟩) (hB : 1 ≤ B)
    (hn : n ≤ GH_MAX_REGIONS) :
    ∃ acts s, Steps (GhStepUpTo B) ⟨h, 0, 0⟩ acts s ∧ SlotInv s ∧ Placed s ∧ s.served = n
    ∧ s.freed = n := by
  induction n with
  | zero => exact ⟨[], _, Steps.nil _, hs, hp, rfl, rfl⟩
  | succ n ih =>
    obtain ⟨acts, s, hrun, hinv, hplaced, h1, h2⟩ := ih (by omega)
    have hlive := hinv.live
    obtain ⟨acts', s', hrun', hplaced', h3, h4⟩ := pair_step hinv hplaced (by omega) (by omega) hB
    refine ⟨_, s', hrun.trans hrun', ?_, hplaced', by omega, by omega⟩
    exact hrun'.invariant (I := SlotInv) hinv fun _ _ _ h hs => h.step hs.1

end

/-- **Frees use the registry up.**  4096 times one block is allocated and freed, every mapping at a
new place; then there is no entry, although no block is live. -/
theorem no_quarantine_bound :
    ¬ ∃ Q, Q < GH_MAX_REGIONS - 1 ∧ ∀ handle m h acts s, hfGuardHeapCreate handle m = some h →
      Steps (GhStepUpTo (GH_MAX_REGIONS - 1 - Q)) ⟨h, 0, 0⟩ acts s →
      (∀ vm size alignment, hfVmReserve vm (ghTotal vm.pageSize (ghSize size)) ≠ 0 →
        NewMapping s.h vm size → (ghAllocate vm s.h size alignment).1 ≠ 0)
      ∧ mappings s.h ≤ live s.h + Q := by
  rintro ⟨Q, hQ, hall⟩
  have hcreate : hfGuardHeapCreate true Mem.zero
      = some ⟨fun _ => ⟨0, 0, 0, 0, .empty⟩, 0, 0, 0, Mem.zero⟩ := rfl
  obtain ⟨acts, s, hrun, hinv, hplaced, h1, -⟩ :=
    pairs_run (SlotInv.start hcreate) (fun i hi => absurd rfl hi)
      (show 1 ≤ GH_MAX_REGIONS - 1 - Q by omega) le_rfl
  have hfull : ghReserveSlot s.h = none := ghReserveSlot_none.mpr (hinv.used.trans h1)
  have hmap := nextVm_ne h1.le
  apply (hall _ _ _ acts s hcreate hrun).1 (nextVm s.served) 1 16 hmap (hplaced.newMapping h1.le)
  rw [ghAllocate_refused hmap hfull]

end HeapForge.GuardHeap
