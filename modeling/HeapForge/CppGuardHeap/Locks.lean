import HeapForge.CppGuardHeap.Run
import HeapForge.GuardHeap.Placement
import HeapForge.Lib.Lock

/-!
# The mutex of a guard heap

The public calls of `guard_heap.h` with the places where they take and give back `mu_`, which is a
member: one mutex for each instance.  `bump_fail` takes it itself, and `allocate` calls `bump_fail`
at two places: without the lock when the system refuses a mapping, and under the lock when no slot
is free.

* `allocateM`, `deallocateM`, `statsM`, `walkM`   the calls;
* `allocateM_eq`, `deallocateM_eq`   without the locks they are `allocate` and `deallocate`;
* `LockDiscipline`      which calls return, and which wait for their own lock;
* `lock_discipline`     **a call gives back what it takes, and `allocate` waits for ever exactly if
                        its mapping is granted while all slots are occupied**;
* `full_registry_blocks`   such a state is reached.
-/

set_option linter.unusedSectionVars false
set_option linter.unusedVariables false

namespace HeapForge.CppGuardHeap
open Lib Function LockM

attribute [local irreducible] kMaxRegions

/-! ## the calls -/

/-- `VM::reserve` and `VM::release` of a mapping -/
def Process.reserve (p : Process) (m : Nat × Nat) : Process :=
  { p with reserved := update p.reserved m (p.reserved m + 1) }

def Process.release (p : Process) (m : Nat × Nat) : Process :=
  { p with released := update p.released m (p.released m + 1) }

/-- the entry of a slot is written and published -/
def Process.publish (p : Process) (slot this : Nat) (r : Region) : Process :=
  { p with regions := update p.regions slot r, ownerOf := update p.ownerOf slot this }

def charge (h : GuardHeap) (data size : Nat) : GuardHeap :=
  let used := wadd h.stats.used size
  { h with stats := { h.stats with
    allocCalls := wadd h.stats.allocCalls 1
    capacity := wadd h.stats.capacity data
    used := used
    peakUsed := if used > h.stats.peakUsed then used else h.stats.peakUsed } }

/-- the alignments that are turned down before anything else is done -/
def Refused (ps alignment : Nat) : Prop :=
  askedAlignment alignment > ps ∨ hfIsPow2 (askedAlignment alignment) = false

instance (ps alignment : Nat) : Decidable (Refused ps alignment) :=
  inferInstanceAs (Decidable (_ ∨ _))

/-- the fills of the slack stay in the data pages -/
def Fills (ps : Nat) (underflow : Bool) (size alignment base : Nat) : Prop :=
  fillsSlack ps base (totalBytes ps size alignment) (wadd base ps)
    (wadd (wadd base ps) (dataBytes ps size alignment))
    (place ps base size alignment underflow) (askedSize size) = true

instance (ps : Nat) (u : Bool) (size alignment base : Nat) :
    Decidable (Fills ps u size alignment base) :=
  inferInstanceAs (Decidable (_ = true))

def heapOf (this : Nat) : LockM Nat Process GuardHeap := fun s =>
  match s.st.heaps this with
  | some g => .done (g, s)
  | none => .fault

def bumpFailM (this : Nat) : LockM Nat Process Unit :=
  guarded this do
    let h ← heapOf this
    write fun p => p.setHeap this (bumpFail h)

/-- the part of `allocate` under the lock; `bump_fail` takes the lock once more -/
def placeM (ps this size alignment base user : Nat) : LockM Nat Process Nat := do
  let p ← read
  match findFreeSlot p with
  | none => do
    write fun p => p.release (base, totalBytes ps size alignment)
    bumpFailM this
    pure 0
  | some slot => do
    let h ← heapOf this
    write fun p =>
      (p.publish slot this
        ⟨.live, base, totalBytes ps size alignment, user, askedSize size⟩).setHeap this
        (charge h (dataBytes ps size alignment) (askedSize size))
    pure user

def allocateM (ps this size alignment base : Nat) : LockM Nat Process Nat := do
  let h ← heapOf this
  if Refused ps alignment then pure 0
  else if base = 0 then do
    bumpFailM this
    pure 0
  else do
    write fun p => p.reserve (base, totalBytes ps size alignment)
    if Fills ps h.underflow size alignment base then
      guarded this (placeM ps this size alignment base (place ps base size alignment h.underflow))
    else fault

def deallocateM (ps this ptr : Nat) : LockM Nat Process Unit :=
  if ptr = 0 then pure ()
  else guarded this (attempt fun p => deallocate ps p this ptr)

def statsM (this : Nat) : LockM Nat Process Stats :=
  guarded this do
    let h ← heapOf this
    pure h.stats

/-- the loop of `walk`; the callback runs under the lock -/
def walkLoopM (this : Nat) (fn : BlockInfo → LockM Nat Process Unit) :
    List Nat → Nat → LockM Nat Process Unit
  | [], _ => pure ()
  | i :: is, off => do
    let p ← read
    if p.ownerOf i = this ∧ (p.regions i).state = .live then do
      fn ⟨off, (p.regions i).userSize, false⟩
      walkLoopM this fn is (wadd off (p.regions i).userSize)
    else walkLoopM this fn is off

def walkM (this : Nat) (fn : BlockInfo → LockM Nat Process Unit) : LockM Nat Process Unit :=
  guarded this (walkLoopM this fn (List.range kMaxRegions) 0)

/-! ## what they give back -/

theorem heapOf_balanced (this : Nat) : Balanced (heapOf this) := by
  intro s a s' h
  unfold heapOf at h
  split at h
  · cases h
    rfl
  · cases h

theorem bumpFailM_balanced (this : Nat) : Balanced (bumpFailM this) := by
  apply Balanced.guarded
  apply (heapOf_balanced this).bind
  intro h
  exact balanced_write _

theorem placeM_balanced (ps this size alignment base user : Nat) :
    Balanced (placeM ps this size alignment base user) := by
  apply balanced_read.bind
  intro p
  split
  · apply (balanced_write _).bind
    intro _
    exact (bumpFailM_balanced this).bind fun _ => balanced_pure 0
  · apply (heapOf_balanced this).bind
    intro h
    exact (balanced_write _).bind fun _ => balanced_pure user

theorem allocateM_balanced (ps this size alignment base : Nat) :
    Balanced (allocateM ps this size alignment base) := by
  apply (heapOf_balanced this).bind
  intro h
  apply (balanced_pure 0).ite
  apply Balanced.ite
  · exact (bumpFailM_balanced this).bind fun _ => balanced_pure 0
  · apply (balanced_write _).bind
    intro _
    exact ((placeM_balanced ps this size alignment base _).guarded this).ite balanced_fault

theorem deallocateM_balanced (ps this ptr : Nat) : Balanced (deallocateM ps this ptr) :=
  (balanced_pure ()).ite ((balanced_attempt _).guarded this)

theorem statsM_balanced (this : Nat) : Balanced (statsM this) := by
  apply Balanced.guarded
  exact (heapOf_balanced this).bind fun h => balanced_pure h.stats

theorem walkM_balanced (this : Nat) {fn : BlockInfo → LockM Nat Process Unit}
    (hfn : ∀ b, Balanced (fn b)) :
    Balanced (walkM this fn) := by
  have hloop : ∀ (is : List Nat) (off : Nat), Balanced (walkLoopM this fn is off) := by
    intro is
    induction is with
    | nil => exact fun off => balanced_pure ()
    | cons i is ih =>
      intro off
      apply balanced_read.bind
      intro p
      exact ((hfn _).bind fun _ => ih _).ite (ih off)
  exact (hloop _ 0).guarded this

section
variable {ps this size alignment base ptr : Nat} {p : Process} {g : GuardHeap} {held : Nat → Bool}
  {s : Locked Nat Process} {fn : BlockInfo → LockM Nat Process Unit}

/-! ## how they run -/

theorem heapOf_run (hg : s.st.heaps this = some g) : heapOf this s = .done (g, s) := by
  unfold heapOf
  rw [hg]

theorem bumpFailM_run (hg : p.heaps this = some g) (hfree : held this = false) :
    bumpFailM this ⟨p, held⟩ = .done ((), ⟨p.setHeap this (bumpFail g), held⟩) := by
  unfold bumpFailM
  have hbody : (heapOf this >>= fun h => write fun p => p.setHeap this (bumpFail h))
    ⟨p, update held this true⟩
      = .done ((), ⟨p.setHeap this (bumpFail g), update held this true⟩) :=
    bind_done (heapOf_run hg)
  exact guarded_keeps (s := ⟨p, held⟩) hfree hbody

theorem placeM_full {user : Nat} (hfull : findFreeSlot p = none) (hheld : held this = true) :
    placeM ps this size alignment base user ⟨p, held⟩ = .blocked := by
  unfold placeM
  rw [bind_done (a := p) (t := ⟨p, held⟩) rfl, hfull]
  dsimp only
  rw [bind_done (a := ()) (t := ⟨p.release (base, totalBytes ps size alignment), held⟩) rfl]
  exact bind_blocked (guarded_held hheld)

theorem placeM_serves {user slot : Nat} (hslot : findFreeSlot p = some slot)
    (hg : p.heaps this = some g) :
    placeM ps this size alignment base user ⟨p, held⟩
      = .done (user,
        ⟨(p.publish slot this
          ⟨.live, base, totalBytes ps size alignment, user, askedSize size⟩).setHeap this
          (charge g (dataBytes ps size alignment) (askedSize size)), held⟩) := by
  unfold placeM
  rw [bind_done (a := p) (t := ⟨p, held⟩) rfl, hslot]
  dsimp only
  rw [bind_done (heapOf_run hg)]
  rfl

/-- the call without its locks, in the words of this module -/
theorem allocate_eq (hg : p.heaps this = some g) :
    allocate ps p this size alignment base =
      if Refused ps alignment then some (0, p)
      else if base = 0 then some (0, p.setHeap this (bumpFail g))
      else if Fills ps g.underflow size alignment base then
        (findFreeSlot p).map fun slot => (place ps base size alignment g.underflow,
          ((p.reserve (base, totalBytes ps size alignment)).publish slot this
            ⟨.live, base, totalBytes ps size alignment, place ps base size alignment g.underflow,
            askedSize size⟩).setHeap this
            (charge g (dataBytes ps size alignment) (askedSize size)))
      else none := by
  unfold allocate
  rw [hg, Option.bind_some]
  by_cases hfill : Fills ps g.underflow size alignment base
  · rw [if_pos hfill]
    have hne : ¬ fillsSlack ps base (totalBytes ps size alignment) (wadd base ps)
        (wadd (wadd base ps) (dataBytes ps size alignment))
          (place ps base size alignment g.underflow)
        (askedSize size) = false := by
      rw [show fillsSlack _ _ _ _ _ _ _ = true from hfill]
      decide
    exact if_congr Iff.rfl rfl (if_congr Iff.rfl rfl (if_neg hne))
  · rw [if_neg hfill]
    exact if_congr Iff.rfl rfl (if_congr Iff.rfl rfl (if_pos (Bool.eq_false_iff.mpr hfill)))

/-- **With the lock free, `allocate` does what it does without locks, or it waits or faults.** -/
theorem allocateM_eq (hg : p.heaps this = some g) (hfree : held this = false) :
    allocateM ps this size alignment base ⟨p, held⟩ =
      match allocate ps p this size alignment base with
      | some r => .done (r.1, ⟨r.2, held⟩)
      | none => if Fills ps g.underflow size alignment base then .blocked else .fault := by
  unfold allocateM
  rw [bind_done (heapOf_run (s := ⟨p, held⟩) hg), allocate_eq hg]
  by_cases href : Refused ps alignment
  · rw [if_pos href, if_pos href]
    rfl
  rw [if_neg href, if_neg href]
  by_cases hbase : base = 0
  · rw [if_pos hbase, if_pos hbase, bind_done (bumpFailM_run hg hfree)]
    rfl
  rw [if_neg hbase, if_neg hbase]
  rw [bind_done (a := ()) (t := ⟨p.reserve (base, totalBytes ps size alignment), held⟩) rfl]
  by_cases hfill : Fills ps g.underflow size alignment base
  · rw [if_pos hfill, if_pos hfill]
    have hsame : findFreeSlot (p.reserve (base, totalBytes ps size alignment))
      = findFreeSlot p := rfl
    cases hslot : findFreeSlot p with
    | none =>
      rw [hslot] at hsame
      rw [guarded_blocked (s := ⟨p.reserve _, held⟩) hfree (placeM_full hsame (update_self _ _ _))]
      exact (if_pos hfill).symm
    | some slot =>
      rw [hslot] at hsame
      exact guarded_keeps (s := ⟨p.reserve _, held⟩) hfree (placeM_serves hsame hg)
  · rw [if_neg hfill, if_neg hfill]
    exact (if_neg hfill).symm

theorem deallocateM_eq (hg : p.heaps this = some g) (hfree : held this = false) :
    deallocateM ps this ptr ⟨p, held⟩ =
      match deallocate ps p this ptr with
      | some p' => .done ((), ⟨p', held⟩)
      | none => .fault := by
  unfold deallocateM
  by_cases h0 : ptr = 0
  · have hnone : deallocate ps p this ptr = some p := by
      unfold deallocate
      rw [hg, Option.bind_some, if_pos h0]
    rw [if_pos h0, hnone]
    rfl
  rw [if_neg h0]
  cases hd : deallocate ps p this ptr with
  | none => exact guarded_fault (s := ⟨p, held⟩) hfree (attempt_none hd)
  | some p' => exact guarded_keeps (s := ⟨p, held⟩) hfree (attempt_some hd)

theorem statsM_run (hg : p.heaps this = some g) (hfree : held this = false) :
    statsM this ⟨p, held⟩ = .done (g.stats, ⟨p, held⟩) := by
  have hbody : (heapOf this >>= fun h => pure h.stats) ⟨p, update held this true⟩
      = .done (g.stats, ⟨p, update held this true⟩) :=
    bind_done (heapOf_run hg)
  exact guarded_keeps (s := ⟨p, held⟩) hfree hbody

/-! ## callbacks -/

/-- a callback that returns while the lock is held, and keeps the locks as they are -/
def Quiet (this : Nat) (fn : BlockInfo → LockM Nat Process Unit) : Prop :=
  ∀ b s, s.held this = true → ∃ s', fn b s = .done ((), s') ∧ s'.held = s.held

theorem walkLoopM_quiet (hfn : Quiet this fn) (is : List Nat) (off : Nat) (s : Locked Nat Process)
    (hheld : s.held this = true) :
    ∃ s', walkLoopM this fn is off s = .done ((), s') ∧ s'.held = s.held := by
  induction is generalizing off s with
  | nil => exact ⟨s, rfl, rfl⟩
  | cons i is ih =>
    unfold walkLoopM
    rw [bind_done (a := s.st) (t := s) rfl]
    by_cases hi : s.st.ownerOf i = this ∧ (s.st.regions i).state = .live
    · obtain ⟨s₁, h1, hs1⟩ := hfn ⟨off, (s.st.regions i).userSize, false⟩ s hheld
      obtain ⟨s₂, h2, hs2⟩ := ih (wadd off (s.st.regions i).userSize) s₁ (by rw [hs1]; exact hheld)
      rw [if_pos hi, bind_done h1]
      exact ⟨s₂, h2, hs2.trans hs1⟩
    · rw [if_neg hi]
      exact ih off s hheld

/-- a callback that asks the heap itself -/
def asksStats (this : Nat) (b : BlockInfo) : LockM Nat Process Unit := do
  let _ ← statsM this
  pure ()

theorem walkLoopM_asks (is : List Nat) (off : Nat) (hheld : s.held this = true) :
    walkLoopM this (asksStats this) is off s =
      if ∃ i ∈ is, s.st.ownerOf i = this
      ∧ (s.st.regions i).state = .live then .blocked else .done ((), s) := by
  induction is generalizing off with
  | nil =>
    rw [if_neg (by intro h; obtain ⟨i, hi, -⟩ := h; cases hi)]
    rfl
  | cons i is ih =>
    unfold walkLoopM
    rw [bind_done (a := s.st) (t := s) rfl]
    by_cases hi : s.st.ownerOf i = this ∧ (s.st.regions i).state = .live
    · rw [if_pos hi, if_pos ⟨i, List.mem_cons_self, hi⟩]
      exact bind_blocked (bind_blocked (guarded_held hheld))
    · rw [if_neg hi, ih off]
      refine if_congr ?_ rfl rfl
      rw [List.exists_mem_cons_iff]
      exact (or_iff_right hi).symm

end

/-! ## the discipline -/

/-- no lock is held -/
def noLocks : Nat → Bool := fun _ => false

/-- the call, made without a lock, returns without a lock -/
def Returns {α : Type} (x : LockM Nat Process α) (p : Process) : Prop :=
  ∃ a p', x ⟨p, noLocks⟩ = .done (a, ⟨p', noLocks⟩)

structure LockDiscipline (ps this : Nat) (p : Process) (g : GuardHeap) : Prop where
  /-- whatever is held when a call is made is held when it returns -/
  balanced : (∀ size alignment base, Balanced (allocateM ps this size alignment base))
    ∧ (∀ ptr, Balanced (deallocateM ps this ptr)) ∧ Balanced (statsM this)
    ∧ ∀ fn, (∀ b, Balanced (fn b)) → Balanced (walkM this fn)
  allocate_blocked : ∀ size alignment base, allocateM ps this size alignment base ⟨p, noLocks⟩
    = .blocked ↔
    ¬ Refused ps alignment ∧ base ≠ 0 ∧ Fills ps g.underflow size alignment base
      ∧ ∀ i < kMaxRegions, (p.regions i).state ≠ .free
  allocate_returns : ∀ size alignment base, Returns (allocateM ps this size alignment base) p ↔
    Refused ps alignment ∨ base = 0 ∨ (Fills ps g.underflow size alignment base
      ∧ ∃ i < kMaxRegions, (p.regions i).state = .free)
  /-- the system refuses the mapping -/
  unmapped : ∀ size alignment, ¬ Refused ps alignment →
    allocateM ps this size alignment 0 ⟨p, noLocks⟩
    = .done (0, ⟨p.setHeap this (bumpFail g), noLocks⟩)
  deallocate : ∀ ptr, deallocateM ps this ptr ⟨p, noLocks⟩ ≠ .blocked
    ∧ (Returns (deallocateM ps this ptr) p ↔ (deallocate ps p this ptr).isSome = true)
  stats : statsM this ⟨p, noLocks⟩ = .done (g.stats, ⟨p, noLocks⟩)
  walk : ∀ fn, Quiet this fn → Returns (walkM this fn) p
  walk_asks : walkM this (asksStats this) ⟨p, noLocks⟩ = .blocked ↔
    ∃ i < kMaxRegions, p.ownerOf i = this ∧ (p.regions i).state = .live

section
variable {ps this : Nat} {p : Process} {g : GuardHeap}

theorem findFreeSlot_eq_none (h : Core p) :
    findFreeSlot p = none ↔ ∀ i < kMaxRegions, (p.regions i).state ≠ .free := by
  unfold findFreeSlot
  rw [List.find?_eq_none]
  refine forall_congr' fun i => ?_
  rw [List.mem_range, Bool.and_eq_true, decide_eq_true_iff, decide_eq_true_iff,
    ← h.null i, and_self]

/-- which requests have no result -/
theorem allocate_eq_none (hg : p.heaps this = some g) (size alignment base : Nat) :
    allocate ps p this size alignment base = none ↔ ¬ Refused ps alignment ∧ base ≠ 0
      ∧ (Fills ps g.underflow size alignment base → findFreeSlot p = none) := by
  rw [allocate_eq hg]
  by_cases href : Refused ps alignment
  · rw [if_pos href]
    exact iff_of_false (Option.some_ne_none _) fun h => h.1 href
  rw [if_neg href]
  by_cases hbase : base = 0
  · rw [if_pos hbase]
    exact iff_of_false (Option.some_ne_none _) fun h => h.2.1 hbase
  rw [if_neg hbase]
  by_cases hfill : Fills ps g.underflow size alignment base
  · rw [if_pos hfill, Option.map_eq_none_iff]
    exact ⟨fun h => ⟨href, hbase, fun _ => h⟩, fun h => h.2.2 hfill⟩
  · rw [if_neg hfill]
    exact iff_of_true rfl ⟨href, hbase, fun h => absurd h hfill⟩

theorem allocateM_blocked (hc : Core p) (hg : p.heaps this = some g) (size alignment base : Nat) :
    allocateM ps this size alignment base ⟨p, noLocks⟩ = .blocked ↔
      ¬ Refused ps alignment ∧ base ≠ 0 ∧ Fills ps g.underflow size alignment base
        ∧ ∀ i < kMaxRegions, (p.regions i).state ≠ .free := by
  rw [← findFreeSlot_eq_none hc, allocateM_eq hg rfl]
  have hnone : allocate ps p this size alignment base = none ↔ _ :=
    allocate_eq_none hg size alignment base
  cases ha : allocate ps p this size alignment base with
  | some r =>
    rw [ha] at hnone
    refine iff_of_false (fun h => by cases h) fun h => ?_
    exact Option.some_ne_none r (hnone.mpr ⟨h.1, h.2.1, fun _ => h.2.2.2⟩)
  | none =>
    obtain ⟨href, hbase, hslot⟩ := hnone.mp ha
    dsimp only
    by_cases hfill : Fills ps g.underflow size alignment base
    · rw [if_pos hfill]
      exact iff_of_true rfl ⟨href, hbase, hfill, hslot hfill⟩
    · rw [if_neg hfill]
      exact iff_of_false (fun h => by cases h) fun h => hfill h.2.2.1

theorem allocateM_returns (hc : Core p) (hg : p.heaps this = some g) (size alignment base : Nat) :
    Returns (allocateM ps this size alignment base) p ↔
      Refused ps alignment ∨ base = 0 ∨ (Fills ps g.underflow size alignment base
        ∧ ∃ i < kMaxRegions, (p.regions i).state = .free) := by
  have hsome : Returns (allocateM ps this size alignment base) p
    ↔ allocate ps p this size alignment base ≠ none := by
    unfold Returns
    rw [allocateM_eq hg rfl]
    cases ha : allocate ps p this size alignment base with
    | some r => exact iff_of_true ⟨r.1, r.2, rfl⟩ (Option.some_ne_none r)
    | none =>
      refine iff_of_false (fun h => ?_) fun h => h rfl
      obtain ⟨a, p', h⟩ := h
      dsimp only at h
      split at h
      · cases h
      · cases h
  have hslot := findFreeSlot_eq_none hc
  rw [hsome, Ne, allocate_eq_none hg, hslot]
  push Not
  exact ⟨fun h => by
    by_cases href : Refused ps alignment
    · exact Or.inl href
    by_cases hbase : base = 0
    · exact Or.inr (Or.inl hbase)
    exact Or.inr (Or.inr (h href hbase)), fun h href hbase => by
    obtain h | h | h := h
    · exact absurd h href
    · exact absurd h hbase
    · exact h⟩

theorem deallocateM_returns (hg : p.heaps this = some g) (ptr : Nat) :
    deallocateM ps this ptr ⟨p, noLocks⟩ ≠ .blocked
      ∧ (Returns (deallocateM ps this ptr) p ↔ (deallocate ps p this ptr).isSome = true) := by
  unfold Returns
  rw [deallocateM_eq hg rfl]
  cases hd : deallocate ps p this ptr with
  | some p' => exact ⟨(fun h => by cases h), iff_of_true ⟨(), p', rfl⟩ rfl⟩
  | none =>
    refine ⟨(fun h => by cases h), iff_of_false (fun h => ?_) Bool.false_ne_true⟩
    obtain ⟨a, p', h⟩ := h
    cases h

theorem walkM_returns {fn : BlockInfo → LockM Nat Process Unit} (hfn : Quiet this fn) :
    Returns (walkM this fn) p := by
  obtain ⟨s', hs, hheld⟩ :=
    walkLoopM_quiet hfn (List.range kMaxRegions) 0 ⟨p, update noLocks this true⟩
    (update_self _ _ _)
  obtain ⟨st, held⟩ := s'
  obtain rfl : held = update noLocks this true := hheld
  exact ⟨(), st, guarded_keeps (s := ⟨p, noLocks⟩) rfl hs⟩

theorem walkM_asks : walkM this (asksStats this) ⟨p, noLocks⟩ = .blocked ↔
    ∃ i < kMaxRegions, p.ownerOf i = this ∧ (p.regions i).state = .live := by
  have hrun := walkLoopM_asks (s := ⟨p, update noLocks this true⟩) (List.range kMaxRegions) 0
    (update_self this true noLocks)
  have hmem : (∃ i ∈ List.range kMaxRegions, p.ownerOf i = this ∧ (p.regions i).state = .live)
      ↔ ∃ i < kMaxRegions, p.ownerOf i = this ∧ (p.regions i).state = .live := by
    refine exists_congr fun i => ?_
    rw [List.mem_range]
  rw [← hmem]
  by_cases hlive : ∃ i ∈ List.range kMaxRegions, p.ownerOf i = this ∧ (p.regions i).state = .live
  · rw [if_pos hlive] at hrun
    exact iff_of_true (guarded_blocked (s := ⟨p, noLocks⟩) rfl hrun) hlive
  · rw [if_neg hlive] at hrun
    refine iff_of_false (fun h => ?_) hlive
    unfold walkM at h
    rw [guarded_done (s := ⟨p, noLocks⟩) rfl hrun] at h
    cases h

/-- **In every reachable state and on every path a call gives back the lock that it takes, and takes
it once, with two exceptions.**  `allocate` waits for itself exactly if its mapping is granted and
filled while no slot is free; `walk` does if its callback asks the heap. -/
theorem lock_discipline {acts : List GAct} (hrun : Steps (GStep ps) Process.start acts p)
    (hg : p.heaps this = some g) : LockDiscipline ps this p g := by
  have h := RegInv.run hrun
  refine ⟨⟨allocateM_balanced ps this, deallocateM_balanced ps this, statsM_balanced this,
    fun fn => walkM_balanced this⟩, allocateM_blocked h.core hg, allocateM_returns h.core hg,
    fun size alignment href => ?_, deallocateM_returns hg, statsM_run hg rfl,
      fun fn => walkM_returns, walkM_asks⟩
  rw [allocateM_eq hg rfl, allocate_eq hg, if_neg href, if_pos rfl]

end

theorem lock_discipline_oneHeap : Returns (allocateM 4096 1 24 16 4096) oneHeap :=
  ((lock_discipline (oneHeap_reached 4096) oneHeap_heap).allocate_returns 24 16 4096).mpr
    (Or.inr (Or.inr ⟨by decide +kernel, 0, by decide +kernel, rfl⟩))

/-! ## a full registry -/

/-- the first `k` slots hold one page each, for one instance -/
structure Filled (k : Nat) (p : Process) : Prop where
  heap : ∃ g, p.heaps 1 = some g ∧ g.underflow = false
  busy : ∀ i < k, (p.regions i).state ≠ .free
  rest : ∀ i, k ≤ i → (p.regions i).state = .free ∧ p.ownerOf i = 0
  below : ∀ m, p.Mapped m → m.1 + m.2 ≤ (k + 1) * 2 ^ 16

/-- a request of one page leaves no slack -/
theorem page_fills {base : Nat} (hb : base < 2 ^ 32) : fillsSlack 4096 base 12288 (wadd base 4096)
    (wadd (wadd base 4096) 4096) (wsub (wadd (wadd base 4096) 4096) 4096) 4096 = true := by
  have h1 : wadd base 4096 = base + 4096 := wadd_of_lt (by omega)
  have h2 : wadd (base + 4096) 4096 = base + 8192 := wadd_of_lt (by omega)
  have h3 : wsub (base + 8192) 4096 = base + 4096 := by
    rw [wsub_of_le (by omega) (by omega)]
    omega
  unfold fillsSlack
  rw [h1, h2, h3, h2, decide_eq_true le_rfl, decide_eq_true le_rfl]
  rfl

theorem page_request : totalBytes 4096 4096 16 = 12288 ∧ dataBytes 4096 4096 16 = 4096
    ∧ hfAlignUp (askedSize 4096) (askedAlignment 16) = 4096 ∧ askedSize 4096 = 4096 := by
  decide +kernel

theorem filled_oneHeap : Filled 0 oneHeap :=
  ⟨⟨_, oneHeap_heap, rfl⟩, fun i hi => absurd hi (Nat.not_lt_zero i), fun i _ => ⟨rfl, rfl⟩,
    fun m hm => absurd hm (lt_irrefl 0)⟩

/-- one more page -/
theorem Filled.succ {k : Nat} {p : Process} (h : Filled k p) (hk : k < kMaxRegions) :
    ∃ p', GStep 4096 p (.allocate 1 4096 16 ((k + 1) * 2 ^ 16)) p' ∧ Filled (k + 1) p' := by
  have hmax : kMaxRegions = 4096 := by decide +kernel
  obtain ⟨ht, hd, ha, hs⟩ := page_request
  obtain ⟨g, hg, hu⟩ := h.heap
  have hslot : findFreeSlot p = some k :=
    findFreeSlot_eq hk (h.rest k le_rfl).1 (h.rest k le_rfl).2 h.busy
  obtain ⟨user, r, g', hcall, hlive, hrb, hrt, -, hu', -⟩ :=
    allocate_serves 4096 4096 16 ((k + 1) * 2 ^ 16) hg hu hslot (by decide) (by omega) (by
      rw [ht, hd, ha, hs]
      exact page_fills (by omega))
  refine ⟨_, GStep.allocate (by decide)
    (fun _ => ⟨by rw [ht]; decide, fun m hm => Or.inr (h.below m hm)⟩) hcall,
    ⟨g', setHeap_self _ 1 g', hu'⟩, ?_, ?_, ?_⟩
  · intro i hi
    show ((p.occupy k 1 r).regions i).state ≠ .free
    by_cases hik : i = k
    · rw [hik, (occupy_self p k 1 r).2, hlive]
      decide
    · rw [(occupy_other p k 1 r i hik).2.1]
      exact h.busy i (by omega)
  · intro i hi
    have hik : i ≠ k := by omega
    show ((p.occupy k 1 r).regions i).state = .free ∧ (p.occupy k 1 r).ownerOf i = 0
    rw [(occupy_other p k 1 r i hik).1, (occupy_other p k 1 r i hik).2.1]
    exact h.rest i (by omega)
  · intro m hm
    by_cases hmr : m = r.mapping
    · rw [hmr]
      show r.base + r.total ≤ _
      rw [hrb, hrt, ht]
      omega
    · have hold : (p.occupy k 1 r).reserved m = p.reserved m := update_of_ne hmr _ _
      have hout : p.released m < (p.occupy k 1 r).reserved m := hm
      rw [hold] at hout
      exact (h.below m hout).trans (Nat.mul_le_mul_right _ (Nat.le_succ _))

theorem filled_reached (k : Nat) (hk : k ≤ kMaxRegions) :
    ∃ acts p, Steps (GStep 4096) Process.start acts p ∧ Filled k p := by
  induction k with
  | zero => exact ⟨_, oneHeap, oneHeap_reached 4096, filled_oneHeap⟩
  | succ k ih =>
    obtain ⟨acts, p, hrun, hp⟩ := ih (Nat.le_of_succ_le hk)
    obtain ⟨p', hstep, hp'⟩ := hp.succ hk
    exact ⟨_, p', hrun.snoc hstep, hp'⟩

/-- **After one live block for each slot, the next request never returns**: its mapping is granted
and given back, and `bump_fail` waits for the lock that the call holds. -/
theorem full_registry_blocks : ∃ acts p, Steps (GStep 4096) Process.start acts p
    ∧ (∀ i < kMaxRegions, (p.regions i).state ≠ .free)
    ∧ allocateM 4096 1 4096 16 (2 ^ 30) ⟨p, noLocks⟩ = .blocked := by
  obtain ⟨acts, p, hrun, hp⟩ := filled_reached kMaxRegions le_rfl
  obtain ⟨g, hg, hu⟩ := hp.heap
  have hfill : Fills 4096 g.underflow 4096 16 (2 ^ 30) := by
    rw [hu]
    decide +kernel
  exact ⟨acts, p, hrun, hp.busy, (allocateM_blocked (RegInv.run hrun).core hg 4096 16 (2 ^ 30)).mpr
    ⟨by decide, (Nat.two_pow_pos 30).ne', hfill, hp.busy⟩⟩

end HeapForge.CppGuardHeap
