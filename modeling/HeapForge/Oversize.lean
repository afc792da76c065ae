import HeapForge.Buddy.Order
import HeapForge.DebugHeap.Classify
import HeapForge.FreeList.Resolve
import HeapForge.Stack.Lifo

/-!
# Requests larger than the heap

A request for more bytes than the heap has is refused if the size computed from it does not wrap.
If it wraps, it is a request for a few bytes, refused only if there is no room for these.

* `Subject`              an allocator: which states are meant, when its arithmetic wraps, when it
                         has no room;
* `ExactlyRefused`       oversized requests, to it and to a debug heap over it;
* `exactlyRefused_of`    the part on the debug heap, for any allocator;
* `oversized_refused`    the free list, the buddy and the stack allocator.
-/

set_option linter.unusedSectionVars false
set_option linter.unusedVariables false

namespace HeapForge.Oversize
open Lib DebugHeap

/-- an allocator and what its refusals depend on -/
structure Subject (β : Type) where
  B : Allocator β
  capacity : β → Nat
  /-- the state after a refusal: `alloc_calls` and `failed_allocs` are one up -/
  counted : β → β
  /-- the states of its runs -/
  Reach : Vm → β → Prop
  /-- the block size computed from the request wraps -/
  Wraps : β → Nat → Nat → Prop
  /-- no block is as large as the size computed from the request -/
  NoRoom : β → Nat → Nat → Prop

/-- more than the heap has, with an alignment up to the page size -/
def Oversized (vm : Vm) (capacity size alignment : Nat) : Prop :=
  capacity < size ∧ size < 2 ^ 64 ∧ ∃ k ≤ vm.pageOrder, alignment = 2 ^ k

section
variable {β : Type} (S : Subject β)

/-- `NULL`, and nothing but the two counters has changed -/
def Subject.Refuses (b : β) (size alignment : Nat) : Prop :=
  S.B.allocate b size alignment = some (0, S.counted b)

/-- the same for a debug heap -/
def Subject.DhRefuses (cl : TableCalloc) (h : DhHeap β) (size alignment : Nat) : Prop :=
  dhAllocate S.B cl h size alignment = some (0, { h with backend := S.counted h.backend })

/-- **Which oversized requests are refused**: those that do not wrap, and those that wrap to a size
for which there is no room.  A debug heap asks its backend for sixteen bytes more. -/
def Subject.ExactlyRefused (vm : Vm) : Prop :=
  ∀ b size alignment, S.Reach vm b → Oversized vm (S.capacity b) size alignment →
    (S.Refuses b size alignment ↔ ¬ S.Wraps b size alignment ∨ S.NoRoom b size alignment)
    ∧ ∀ cl (h : DhHeap β), h.backend = b →
      (S.DhRefuses cl h size alignment
        ↔ (size + 16 < 2 ^ 64 ∧ ¬ S.Wraps b (size + 16) alignment)
          ∨ S.NoRoom b ((size + 16) % 2 ^ 64) alignment)

variable {S}

/-- the debug heap returns `NULL` when its backend does -/
theorem dhRefuses_iff (cl : TableCalloc) (h : DhHeap β) (size alignment : Nat) :
    S.DhRefuses cl h size alignment ↔ S.Refuses h.backend ((size + 16) % 2 ^ 64) alignment := by
  have htot : wadd (wadd DH_HEAD size) DH_TAIL = (size + 16) % 2 ^ 64 := by
    unfold wadd DH_HEAD DH_TAIL
    omega
  unfold Subject.DhRefuses Subject.Refuses dhAllocate
  dsimp only
  rw [htot]
  cases hb : S.B.allocate h.backend ((size + 16) % 2 ^ 64) alignment with
  | none => simp
  | some r =>
    obtain ⟨raw, b⟩ := r
    rw [Option.bind_some]
    by_cases hr : raw = 0
    · subst hr
      simp [DhHeap.mk.injEq]
    · have hno : ¬ some (raw, b) = some (0, S.counted h.backend) := by simp [hr]
      refine iff_of_false ?_ hno
      dsimp only
      rw [if_neg hr]
      split
      · simp
      · intro he
        obtain ⟨t, -, ht⟩ := Option.map_eq_some_iff.mp he
        have h0 : raw + DH_HEAD = 0 := congrArg Prod.fst ht
        omega

theorem exactlyRefused_of {vm : Vm}
    (hexact : ∀ b size alignment, S.Reach vm b → size < 2 ^ 64 →
      (S.Refuses b size alignment ↔ S.NoRoom b size alignment))
    (hover : ∀ b size alignment, S.Reach vm b → Oversized vm (S.capacity b) size alignment →
      ¬ S.Wraps b size alignment → S.NoRoom b size alignment) : S.ExactlyRefused vm := by
  intro b size alignment hb ho
  obtain ⟨h1, h2, hal⟩ := ho
  constructor
  · rw [hexact b size alignment hb h2]
    exact ⟨Or.inr, fun h => h.elim (hover b size alignment hb ⟨h1, h2, hal⟩) id⟩
  · intro cl h hh
    rw [dhRefuses_iff, hh, hexact b _ alignment hb (Nat.mod_lt _ (by norm_num))]
    refine ⟨Or.inr, fun h => h.elim (fun ⟨h3, h4⟩ => ?_) id⟩
    rw [Nat.mod_eq_of_lt h3]
    exact hover b (size + 16) alignment hb ⟨by omega, h3, hal⟩ h4

end

/-! ## the free list -/

section
open FreeList

/-- the runs in which earlier over-aligned requests did not wrap and frees found their headers -/
def FlReach (vm : Vm) (a : FlAlloc) : Prop :=
  ∃ handle m capacity policy a₀ acts s, hfFreeListCreate vm handle m capacity policy = some a₀
    ∧ Steps CarefulStep (Sys.start a₀) acts s ∧ s.a = a

def flSubject : Subject FlAlloc where
  B := FreeList.allocator
  capacity := FlAlloc.capacity
  counted a := FreeList.countFailed (FreeList.countAlloc a)
  Reach := FlReach
  Wraps _ size alignment := 2 ^ 64 ≤ size + (if alignment > 16 then alignment else 0) + 31
  NoRoom a size alignment :=
    ∃ bs, flWalk a = some bs ∧ ∀ b ∈ bs, b.isFree = true → b.size < flNeed size alignment

variable {a : FlAlloc} {bs : List Blk} {ring : List Nat} {s : Sys} {size alignment : Nat}

theorem usedSum_taken {b u : Blk} (l₁ l₂ rest : List Blk) (hf : b.used = false)
    (hu : u.used = true) :
    usedSum (l₁ ++ b :: l₂) < usedSum (l₁ ++ u :: (rest ++ l₂)) := by
  have hge := u.size_ge
  rw [usedSum_middle_free hf, usedSum_append, usedSum_append, usedSum_cons_used hu, usedSum_append]
  omega

/-- a request is refused exactly if no free block is large enough -/
theorem flAllocate_refused_iff (h : Inv a bs bs ring) :
    flAllocate a size alignment = some (0, FreeList.countFailed (FreeList.countAlloc a))
      ↔ ∀ b ∈ bs, b.used = false → b.size < flNeed size alignment := by
  rcases h.reserve (flNeed_ge size alignment) (flNeed_mod size alignment) with ⟨hr, hno⟩ |
    ⟨l₁, b, l₂, u, rest, a₁, ring', rfl, hf, hle, -, hu, -, hr, hinv, -⟩
  · refine iff_of_true ?_ hno
    unfold flAllocate
    rw [hr]
    rfl
  · refine iff_of_false (fun he => ?_) fun hno => ?_
    · -- the block taken is charged
      unfold flAllocate at he
      rw [hr, Option.map_some] at he
      dsimp only at he
      have hu0 := (hinv.heap.place (b := u) (by simp)).2.1
      rw [if_neg (by omega)] at he
      have hst : a₁.stats.used = a.stats.used :=
        congrArg (fun r : Nat × FlAlloc => r.2.stats.used) (Option.some.inj he)
      have h1 := hinv.used
      have h2 := h.used
      have hlt := usedSum_taken l₁ l₂ rest hf hu
      omega
    · have := hno b (by simp) hf
      omega

theorem flNoRoom_iff (h : Heap a bs) :
    flSubject.NoRoom a size alignment
    ↔ ∀ b ∈ bs, b.used = false → b.size < flNeed size alignment := by
  constructor
  · rintro ⟨l, hl, hno⟩ b hb hf
    rw [flWalk_eq h] at hl
    obtain rfl := Option.some.inj hl
    exact hno _ (List.mem_map_of_mem hb) (by show (!b.used) = true; rw [hf]; rfl)
  · intro hno
    refine ⟨_, flWalk_eq h, fun i hi hf => ?_⟩
    obtain ⟨b, hb, rfl⟩ := List.mem_map.mp hi
    exact hno b hb (by simpa [Blk.info] using hf)

/-- without a wrap the block is larger than the size -/
theorem flNeed_ge_size (hsz : size ≠ 0)
    (h : size + (if alignment > 16 then alignment else 0) + 31 < 2 ^ 64) :
    size ≤ flNeed size alignment := by
  unfold flNeed
  dsimp only
  rw [if_neg hsz]
  generalize hn : (if alignment > HF_DEFAULT_ALIGN then wadd size alignment else size) = n
  have hn1 : size ≤ n ∧ n + 31 < 2 ^ 64 := by
    rw [← hn]
    by_cases hal : alignment > 16
    · rw [if_pos hal] at h
      rw [if_pos (show alignment > HF_DEFAULT_ALIGN from hal), wadd_of_lt (by omega)]
      omega
    · rw [if_neg hal] at h
      rw [if_neg (show ¬ alignment > HF_DEFAULT_ALIGN from hal)]
      omega
  have hw : wadd FL_HDR n = 16 + n := wadd_of_lt (show 16 + n < 2 ^ 64 by omega)
  rw [hw]
  have hup : 16 + n ≤ hfAlignUp (16 + n) HF_DEFAULT_ALIGN :=
    (hfAlignUp_bounds (n := 16 + n) (k := 4) (by omega) (by decide)).1
  split <;> omega

theorem flSubject_refused (vm : Vm) : flSubject.ExactlyRefused vm := by
  refine exactlyRefused_of (fun a size alignment hr _ => ?_) fun a size alignment hr ho hw => ?_
  · obtain ⟨handle, m, capacity, policy, a₀, acts, s, hc, hrun, rfl⟩ := hr
    obtain ⟨bs, ring, hs⟩ := SysInv.of_careful hc hrun
    rw [flNoRoom_iff hs.inv.heap]
    exact flAllocate_refused_iff hs.inv
  · obtain ⟨handle, m, capacity, policy, a₀, acts, s, hc, hrun, rfl⟩ := hr
    obtain ⟨bs, ring, hs⟩ := SysInv.of_careful hc hrun
    rw [flNoRoom_iff hs.inv.heap]
    intro b hb hf
    obtain ⟨-, -, hlo, hhi, -⟩ := hs.inv.heap.place hb
    have hcap : s.a.capacity < size := ho.1
    have : size ≤ flNeed size alignment := flNeed_ge_size (by omega) (Nat.lt_of_not_le hw)
    omega

end

/-! ## the buddy allocator -/

section
open Buddy

/-- all runs from any creation -/
def BdReach (vm : Vm) (a : BdAlloc) : Prop :=
  ∃ cs m capacity minBlock a₀ acts s, capacity < 2 ^ 64 ∧ minBlock < 2 ^ 64
    ∧ hfBuddyCreate vm cs m capacity minBlock = some a₀
    ∧ Steps BdStep (Sys.start a₀) acts s ∧ s.a = a

def bdSubject : Subject BdAlloc where
  B := Buddy.allocator
  capacity := BdAlloc.capacity
  counted a := Buddy.countFailed (Buddy.countAlloc a)
  Reach := BdReach
  Wraps _ size alignment := 2 ^ 63 < size + 16 ∨ 2 ^ 63 < alignment + 16
  NoRoom a size alignment :=
    ∀ j, orderFor a (bdNeed size alignment) ≤ j → j ≤ a.maxOrder → a.freeLists j = 0

variable {a a' : BdAlloc} {s s' : Sys} {size alignment : Nat}

/-- what every call leaves alone -/
def SameShape (a a' : BdAlloc) : Prop := a'.capacity = a.capacity ∧ a'.maxOrder = a.maxOrder

theorem splitLoop_same (blk order d : Nat) :
    SameShape a (splitLoop blk order d a) ∧ (splitLoop blk order d a).stats = a.stats := by
  induction d generalizing a with
  | zero => exact ⟨⟨rfl, rfl⟩, rfl⟩
  | succ d ih => exact ih (a := bdPush a (wadd blk (2 ^ (order + d))) (order + d))

theorem bdCarve_same (order o : Nat) :
    SameShape a (bdCarve a order o).2
      ∧ (bdCarve a order o).2.stats.failedAllocs = a.stats.failedAllocs := by
  obtain ⟨h1, h2⟩ := splitLoop_same (a := (bdPop a o).2) (bdPop a o).1 order (o - order)
  refine ⟨h1, ?_⟩
  show (splitLoop (bdPop a o).1 order (o - order) (bdPop a o).2).stats.failedAllocs = _
  rw [h2]
  rfl

theorem bdAllocate_same : SameShape a (bdAllocate a size alignment).2 := by
  unfold bdAllocate
  dsimp only
  split
  · exact ⟨rfl, rfl⟩
  · split
    · exact ⟨rfl, rfl⟩
    · exact (bdCarve_same _ _).1

theorem bdUnlink_same (n order : Nat) : SameShape a (bdUnlink a n order) := by
  unfold bdUnlink
  dsimp only
  split <;> split <;> exact ⟨rfl, rfl⟩

theorem mergeLoop_same (fuel off order : Nat) : SameShape a (mergeLoop fuel a off order).1 := by
  induction fuel generalizing a off order with
  | zero => exact ⟨rfl, rfl⟩
  | succ fuel ih =>
    unfold mergeLoop
    dsimp only
    split
    · split
      · obtain ⟨h1, h2⟩ := ih (a := bdUnlink a (wadd a.mem (buddy off order)) order)
          (parent off order) (order + 1)
        obtain ⟨h3, h4⟩ := bdUnlink_same (a := a) (wadd a.mem (buddy off order)) order
        exact ⟨h1.trans h3, h2.trans h4⟩
      · exact ⟨rfl, rfl⟩
    · exact ⟨rfl, rfl⟩

-- on the constructor both sides reduce to the field; on a variable the kernel would compare the
-- records first
theorem releaseUsed_capacity (n : Nat) : ∀ a : BdAlloc, (releaseUsed a n).capacity = a.capacity
  | ⟨_, c, _, _, _, _, _, _⟩ => (rfl : c = c)

theorem releaseUsed_maxOrder (n : Nat) : ∀ a : BdAlloc, (releaseUsed a n).maxOrder = a.maxOrder
  | ⟨_, _, _, k, _, _, _, _⟩ => (rfl : k = k)

theorem bdDeallocate_same {ptr : Nat} (h : bdDeallocate a ptr = some a') : SameShape a a' := by
  unfold bdDeallocate at h
  dsimp only at h
  split at h
  · obtain rfl := Option.some.inj h
    exact ⟨rfl, rfl⟩
  · split at h
    · obtain ⟨h1, h2⟩ := mergeLoop_same (a := releaseUsed a (2 ^ tagOf a (wsub ptr BD_HDR)))
        (a.maxOrder - tagOf a (wsub ptr BD_HDR)) (wsub (wsub ptr BD_HDR) a.mem)
        (tagOf a (wsub ptr BD_HDR))
      rw [releaseUsed_capacity] at h1
      rw [releaseUsed_maxOrder] at h2
      obtain rfl := Option.some.inj h
      unfold SameShape
      simp only [bdPush]
      exact ⟨h1, h2⟩
    · exact absurd h (by simp)

theorem BdStep.same {act : BdAct} (h : BdStep s act s') : SameShape s.a s'.a := by
  cases h with
  | @fail size alignment a' _ _ hr =>
    have : SameShape s.a (bdAllocate s.a size alignment).2 := bdAllocate_same
    rwa [hr] at this
  | @alloc size alignment p a' _ _ hr _ =>
    have : SameShape s.a (bdAllocate s.a size alignment).2 := bdAllocate_same
    rwa [hr] at this
  | free _ hr => exact bdDeallocate_same hr
  | write _ _ _ => exact ⟨rfl, rfl⟩

theorem BdReach.shape {vm : Vm} (h : BdReach vm a) : a.capacity = 2 ^ a.maxOrder := by
  obtain ⟨cs, m, capacity, minBlock, a₀, acts, s, h1, h2, hc, hrun, rfl⟩ := h
  have hstart : a₀.capacity = 2 ^ a₀.maxOrder := by
    obtain ⟨a₁, ha, hg, -⟩ := create_geo h1 h2 hc
    have e1 : a₀.capacity = a₁.capacity := by rw [ha]; simp only [bdPush]
    have e2 : a₀.maxOrder = a₁.maxOrder := by rw [ha]; simp only [bdPush]
    rw [e1, e2]
    exact hg.cap
  refine hrun.invariant (I := fun s : Sys => s.a.capacity = 2 ^ s.a.maxOrder) hstart ?_
  intro s act s' hs hstep
  obtain ⟨h3, h4⟩ := BdStep.same hstep
  rw [h3, h4]
  exact hs

/-- a request is refused exactly if all lists from its order on are empty -/
theorem bdAllocate_refused_iff :
    bdAllocate a size alignment = (0, Buddy.countFailed (Buddy.countAlloc a))
      ↔ bdSubject.NoRoom a size alignment := by
  have hlists : ∀ j, (Buddy.countAlloc a).freeLists j = 0
    ↔ (if a.freeLists j = 0 then [] else [j]) = [] :=
    fun j => by show a.freeLists j = 0 ↔ _; split <;> simp [*]
  have hscan := scanLoop_spec (a.maxOrder + 1) (orderFor a (bdNeed size alignment)) hlists
    (by show a.maxOrder + 1 ≤ _; omega)
  obtain ⟨h1, h2, h3⟩ := hscan
  show _ ↔ ∀ j, orderFor a (bdNeed size alignment) ≤ j → j ≤ a.maxOrder → a.freeLists j = 0
  unfold bdAllocate
  dsimp only
  generalize orderFor a (bdNeed size alignment) = k at *
  have hempty : ∀ j, (if a.freeLists j = 0 then ([] : List Nat) else [j]) = [] →
      a.freeLists j = 0 := by
    intro j hj
    by_contra hne
    rw [if_neg hne] at hj
    exact absurd hj (by simp)
  split
  · next hk =>
    have hk' : k > a.maxOrder := hk
    exact iff_of_true rfl fun j _ _ => by omega
  · next hk =>
    split
    · next hs =>
      exact iff_of_true rfl fun j h4 h5 => hempty j (h2 j h4 (lt_of_le_of_lt h5 hs))
    · next hs =>
      refine iff_of_false (fun he => ?_) fun hno => ?_
      · -- a block that was carved is no failure
        have h4 := (bdCarve_same (a := Buddy.countAlloc a) k
          (scanLoop (Buddy.countAlloc a) (a.maxOrder + 1) k)).2
        have h5 : (bdCarve (Buddy.countAlloc a) k
            (scanLoop (Buddy.countAlloc a) (a.maxOrder + 1) k)).2.stats.failedAllocs
            = wadd a.stats.failedAllocs 1 :=
          congrArg (fun r : Nat × BdAlloc => r.2.stats.failedAllocs) he
        exact absurd (h5.symm.trans h4) (wadd_one_ne _)
      · have hle := Nat.le_of_not_lt hs
        exact h3 hle (if_pos (hno _ h1 hle))

theorem bdSubject_refused (vm : Vm) : bdSubject.ExactlyRefused vm := by
  refine exactlyRefused_of (fun a size alignment hr _ => ?_) fun a size alignment hr ho hw => ?_
  · exact (Option.some_inj.trans bdAllocate_refused_iff)
  · -- the order computed is above the top
    obtain ⟨hc, hsz, -⟩ := ho
    have hcap : 2 ^ a.maxOrder < size := by
      have h1 : a.capacity < size := hc
      rwa [hr.shape] at h1
    obtain ⟨h1, h2⟩ := not_or.mp hw
    obtain ⟨hneed, hneed'⟩ :=
      bdNeed_of_fits (by omega) (show NeedFits size alignment from Or.inr (by omega))
    have h3 : a.maxOrder < Nat.clog 2 (bdNeed size alignment) :=
      (Nat.lt_clog_iff_pow_lt (by norm_num)).mpr (by omega)
    have h4 : Nat.clog 2 (bdNeed size alignment) ≤ orderFor a (bdNeed size alignment) := by
      rw [orderFor_clog a hneed']
      exact le_max_right _ _
    intro j hj1 hj2
    omega

end

/-! ## the stack -/

section
open Stack

/-- whatever state it is in -/
def stSubject : Subject StAlloc where
  B := Stack.allocator
  capacity := StAlloc.capacity
  counted a := Stack.countFailed (Stack.countAlloc a)
  Reach _ _ := True
  Wraps a size alignment := 2 ^ 64 ≤ stPayload a alignment + size
  NoRoom a size alignment := a.capacity < wadd (stPayload a alignment) size

theorem stAllocate_refused_iff {a : StAlloc} {size alignment : Nat} :
    stAllocate a size alignment = (0, Stack.countFailed (Stack.countAlloc a))
      ↔ stSubject.NoRoom a size alignment := by
  show _ ↔ a.capacity < wadd (stPayload a alignment) size
  unfold stAllocate
  dsimp only
  rw [stPayload_countAlloc, Stack.countAlloc_capacity]
  split
  · next h => exact iff_of_true rfl h
  · next h =>
    refine iff_of_false (fun he => ?_) h
    simp only [Stack.countFailed, Prod.mk.injEq, StAlloc.mk.injEq, Stats.mk.injEq] at he
    obtain ⟨-, -, -, -, -, ⟨-, -, -, -, -, hf⟩, -⟩ := he
    exact absurd hf.symm (wadd_one_ne _)

theorem stSubject_refused (vm : Vm) : stSubject.ExactlyRefused vm := by
  refine exactlyRefused_of (fun a size alignment _ _ => ?_) fun a size alignment _ ho hw => ?_
  · exact Option.some_inj.trans stAllocate_refused_iff
  · have hc : a.capacity < size := ho.1
    have hw' : ¬ 2 ^ 64 ≤ stPayload a alignment + size := hw
    show a.capacity < wadd (stPayload a alignment) size
    rw [wadd_of_lt (by omega)]
    omega

end

/-- **Oversized requests are refused exactly if they do not wrap to a size for which there is
room**: by the free list, the buddy and the stack allocator and by a debug heap over any of them. -/
theorem oversized_refused (vm : Vm) :
    flSubject.ExactlyRefused vm ∧ bdSubject.ExactlyRefused vm ∧ stSubject.ExactlyRefused vm :=
  ⟨flSubject_refused vm, bdSubject_refused vm, stSubject_refused vm⟩

/-! ## sizes that wrap -/

theorem fl_sample : FlReach sampleVm FreeList.sampleHeap :=
  ⟨true, _, _, _, _, [], _, FreeList.sampleHeap_create, Steps.nil _, rfl⟩

theorem bd_sample : BdReach sampleVm Buddy.sampleBuddy :=
  ⟨⟨true, true, true⟩, _, _, _, _, [],
  _, by omega, by omega, Buddy.sampleBuddy_create, Steps.nil _, rfl⟩

theorem oversized_sample (size : Nat) (h : 4096 < size) (h' : size < 2 ^ 64) :
    Oversized sampleVm 4096 size 16 :=
  ⟨h, h', 4, by decide, by decide⟩

/-- on fresh heaps of 4096 bytes: 8192 bytes are refused, and by a debug heap over the stack -/
theorem oversized_refused_samples :
    flSubject.Refuses FreeList.sampleHeap 8192 16 ∧ bdSubject.Refuses Buddy.sampleBuddy 8192 16
      ∧ stSubject.Refuses Stack.emptyStack 8192 16
      ∧ stSubject.DhRefuses grantAll
      ⟨Stack.emptyStack, ⟨fun _ => DhEntry.blank, 64, 0⟩, ⟨0, 0, 0, 0, 0, 0⟩⟩ 8192 16 := by
  obtain ⟨hfl, hbd, hst⟩ := oversized_refused sampleVm
  have hover : Oversized sampleVm 4096 8192 16 := oversized_sample 8192 (by omega) (by omega)
  have hflWraps : ¬ 2 ^ 64 ≤ 8192 + (if 16 > 16 then 16 else 0) + 31 := by decide
  have hbdWraps : ¬ (2 ^ 63 < 8192 + 16 ∨ 2 ^ 63 < 16 + 16) := by decide
  have hpayload : Stack.stPayload Stack.emptyStack 16 = 16 := by decide +kernel
  have hstWraps : ∀ n, n < 2 ^ 63 → ¬ 2 ^ 64 ≤ Stack.stPayload Stack.emptyStack 16 + n := by
    intro n hn
    omega
  refine ⟨?_, ?_, ?_, ?_⟩
  · exact (hfl _ 8192 16 fl_sample hover).1.mpr (Or.inl hflWraps)
  · exact (hbd _ 8192 16 bd_sample hover).1.mpr (Or.inl hbdWraps)
  · exact (hst Stack.emptyStack 8192 16 trivial hover).1.mpr (Or.inl (hstWraps 8192 (by decide)))
  · exact ((hst Stack.emptyStack 8192 16 trivial hover).2 grantAll _ rfl).mpr
      (Or.inl ⟨by decide, hstWraps (8192 + 16) (by decide)⟩)

/-- on fresh heaps of 4096 bytes: each serves an oversized request, and a debug heap over the stack
faults when it fills the block -/
theorem oversized_served :
    (FlReach sampleVm FreeList.sampleHeap ∧ Oversized sampleVm 4096 (2 ^ 64 - 16) 16
      ∧ (FreeList.flAllocate FreeList.sampleHeap (2 ^ 64 - 16) 16).map Prod.fst = some (2 ^ 20 + 16)
      ∧ ¬ flSubject.Refuses FreeList.sampleHeap (2 ^ 64 - 16) 16)
    ∧ (BdReach sampleVm Buddy.sampleBuddy ∧ Oversized sampleVm 4096 (2 ^ 63) 16
      ∧ (Buddy.bdAllocate Buddy.sampleBuddy (2 ^ 63) 16).1 = 2 ^ 20 + 16
      ∧ ¬ bdSubject.Refuses Buddy.sampleBuddy (2 ^ 63) 16)
    ∧ Stack.hfStackCreate sampleVm true Mem.zero 4096 = some Stack.emptyStack
    ∧ (Stack.stAllocate Stack.emptyStack (2 ^ 64 - 16) 16).1 = 2 ^ 20 + 16
    ∧ ¬ stSubject.Refuses Stack.emptyStack (2 ^ 64 - 16) 16
    ∧ (dhAllocate Stack.allocator grantAll ⟨Stack.emptyStack, ⟨fun _ => DhEntry.blank, 64, 0⟩,
        ⟨0, 0, 0, 0, 0, 0⟩⟩ (2 ^ 64 - 16) 16).isNone = true := by
  have hfl : (FreeList.flAllocate FreeList.sampleHeap (2 ^ 64 - 16) 16).map Prod.fst
      = some (2 ^ 20 + 16) := by decide +kernel
  have hbd : (Buddy.bdAllocate Buddy.sampleBuddy (2 ^ 63) 16).1 = 2 ^ 20 + 16 := by decide +kernel
  have hst : (Stack.stAllocate Stack.emptyStack (2 ^ 64 - 16) 16).1 = 2 ^ 20 + 16 := by
    decide +kernel
  refine ⟨⟨?_, oversized_sample _ (by omega) (by omega), hfl, fun hr => ?_⟩,
    ⟨?_, oversized_sample _ (by omega) (by omega), hbd, fun hr => ?_⟩, Stack.emptyStack_create, hst,
    fun hr => ?_, by decide +kernel⟩
  · exact fl_sample
  · have h0 := congrArg (Option.map Prod.fst) hr
    exact absurd (hfl.symm.trans h0) (by simp)
  · exact bd_sample
  · have h0 := congrArg Prod.fst (Option.some.inj hr)
    exact absurd (hbd.symm.trans h0) (by omega)
  · have h0 := congrArg Prod.fst (Option.some.inj hr)
    exact absurd (hst.symm.trans h0) (by omega)

end HeapForge.Oversize
