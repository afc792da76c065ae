import HeapForge.DebugHeap.Table
import HeapForge.Lib.Run

/-!
# What `dh_deallocate` makes of a pointer

The status of a pointer is what a run has done with it: never issued, live with the size asked for,
freed, or freed with the table grown since (`stale`).

* `Classified`           what the call has to do for each status;
* `Tracks`               how the table represents a status, `DhInv.step` keeps it;
* `free_classified`      the call does what it has to, exactly for the pointers that are not stale;
* `stale_free_faults`    a run that ends with a second free of a stale pointer.
-/

set_option linter.unusedSectionVars false
set_option linter.unusedVariables false

namespace HeapForge.DebugHeap
open Lib Function

inductive Status
  | never
  | live (size : Nat)
  | freed
  | stale
  deriving DecidableEq

/-- the table has grown -/
def Status.regrown : Status → Status
  | .freed => .stale
  | s => s

def Status.isLive : Status → Bool
  | .live _ => true
  | _ => false

/-- a debug heap, and what the run has done with every pointer -/
structure DhSys (β : Type*) where
  h : DhHeap β
  status : Nat → Status

inductive DhAct (β : Type*)
  | alloc (size alignment : Nat)
  | free (p : Nat)
  | other (b : β)

section
variable {β : Type*} (B : Allocator β)

/-- `dh_allocate`; runs in which the backend hands out a block that is still allocated are left
out -/
def DhSys.alloc (cl : TableCalloc) (s : DhSys β) (size alignment : Nat) : Option (DhSys β) :=
  (dhAllocate B cl s.h size alignment).bind fun (p, h') =>
    if p = 0 then some ⟨h', s.status⟩
    else if (s.status p).isLive then none
    else
      let status := if h'.tab.cap = s.h.tab.cap then s.status else fun q => (s.status q).regrown
      some ⟨h', update status p (.live size)⟩

def DhSys.free (s : DhSys β) (p : Nat) : Option (DhSys β) :=
  (dhDeallocate B s.h p).2.map fun h' =>
    ⟨h', if (s.status p).isLive then update s.status p .freed else s.status⟩

/-- users write into their blocks and others use the backend -/
def DhSys.act (cl : TableCalloc) (s : DhSys β) : DhAct β → Option (DhSys β)
  | .alloc size alignment => s.alloc B cl size alignment
  | .free p => s.free B p
  | .other b => some ⟨{ s.h with backend := b }, s.status⟩

/-- one call, whatever `calloc` grants -/
def DhStep (s : DhSys β) (a : DhAct β) (s' : DhSys β) : Prop := ∃ cl, s.act B cl a = some s'

def DhSys.start (h : DhHeap β) : DhSys β := ⟨h, fun _ => .never⟩

def countInvalid (h : DhHeap β) : DhHeap β :=
  { h with rep := { h.rep with invalidFrees := wadd h.rep.invalidFrees 1 } }

def countDouble (h : DhHeap β) : DhHeap β :=
  { h with rep := { h.rep with doubleFrees := wadd h.rep.doubleFrees 1 } }

/-- **What `dh_deallocate` has to do with `p`.**  A live block is checked, poisoned and given back,
and counted; any other pointer is counted and nothing else happens. -/
def Classified (s : DhSys β) (p : Nat) : Prop :=
  match s.status p with
  | .never => dhDeallocate B s.h p = ([], some (countInvalid s.h))
  | .freed => dhDeallocate B s.h p = ([], some (countDouble s.h))
  | .stale => dhDeallocate B s.h p = ([], some (countDouble s.h))
  | .live size => ∃ raw tab rep, raw + DH_HEAD = p
      ∧ dhDeallocate B s.h p = ([.readCanary raw, .readCanary (p + size), .poison p size,
          .backendFree raw],
        (B.deallocate (B.setHeap s.h.backend ((B.heap s.h.backend).fill p size DH_POISON)) raw).map
          fun b => ⟨b, tab, rep⟩)
      ∧ rep.totalFrees = wadd s.h.rep.totalFrees 1
      ∧ rep.activeAllocs = wsub s.h.rep.activeAllocs 1
      ∧ rep.totalAllocs = s.h.rep.totalAllocs
      ∧ rep.doubleFrees = s.h.rep.doubleFrees
      ∧ rep.invalidFrees = s.h.rep.invalidFrees

end

/-- the entry of a pointer with the given status -/
def Tracks (p : Nat) : Status → Option DhEntry → Prop
  | .never, o => o = none
  | .live size, o => ∃ raw, raw ≠ 0 ∧ raw + DH_HEAD = p ∧ o = some ⟨p, raw, size, false⟩
  | .freed, o => ∃ size, o = some ⟨p, 0, size, true⟩
  | .stale, o => ∃ size, o = some ⟨p, 0, size, false⟩

structure DhInv {β : Type*} (s : DhSys β) : Prop where
  tab : TabInv s.h.tab
  tracks : ∀ p, p ≠ 0 → Tracks p (s.status p) (s.h.tab.get p)

section
variable {β : Type*} {B : Allocator β} {h h' : DhHeap β} {s s' : DhSys β} {t : DhTable}
  {e e' : DhEntry} {cl : TableCalloc} {p q i size alignment : Nat} {st : Status}
  {o : Option DhEntry}

theorem Tracks.regrown (h : Tracks p st o) : Tracks p st.regrown (o.map DhEntry.regrown) := by
  cases st with
  | never =>
    rw [show o = none from h]
    rfl
  | live size =>
    obtain ⟨raw, h1, h2, rfl⟩ := h
    exact ⟨raw, h1, h2, rfl⟩
  | freed =>
    obtain ⟨size, rfl⟩ := h
    exact ⟨size, rfl⟩
  | stale =>
    obtain ⟨size, rfl⟩ := h
    exact ⟨size, rfl⟩

/-! ## the call, by the entry it finds -/

theorem dhDeallocate_absent (hp : p ≠ 0) (hg : h.tab.get p = none) :
    dhDeallocate B h p = ([], some (countInvalid h)) := by
  have hf : dhFind h.tab p = none := Option.map_eq_none_iff.mp hg
  unfold dhDeallocate
  dsimp only
  rw [if_neg hp, hf]
  rfl

theorem dhDeallocate_found (ht : TabInv h.tab) (hp : p ≠ 0) (hg : h.tab.get p = some e) :
    ∃ i, dhFind h.tab p = some i ∧ h.tab.table i = e ∧ e.user = p := by
  obtain ⟨i, hi, he, hu⟩ := (get_eq_some ht hp).mp hg
  exact ⟨i, (dhFind_eq_some ht hp).mpr ⟨hi, by rw [he]; exact hu⟩, he, hu⟩

theorem dhDeallocate_freed (ht : TabInv h.tab) (hp : p ≠ 0) (hg : h.tab.get p = some e)
    (hfr : e.freed = true) : dhDeallocate B h p = ([], some (countDouble h)) := by
  obtain ⟨i, hf, he, hu⟩ := dhDeallocate_found ht hp hg
  unfold dhDeallocate
  dsimp only
  rw [if_neg hp, hf]
  dsimp only
  rw [he, if_neg (not_not.mpr hu), if_pos hfr]
  rfl

theorem dhDeallocate_null (ht : TabInv h.tab) (hp : p ≠ 0) (hg : h.tab.get p = some e)
    (hfr : e.freed = false) (hr : e.raw = 0) : dhDeallocate B h p = ([.readCanary 0], none) := by
  obtain ⟨i, hf, he, hu⟩ := dhDeallocate_found ht hp hg
  unfold dhDeallocate
  dsimp only
  rw [if_neg hp, hf]
  dsimp only
  rw [he, if_neg (not_not.mpr hu), if_neg (by rw [hfr]; simp), if_pos hr]

/-- an entry is overwritten in its slot -/
theorem setEntry_spec (ht : TabInv t) (hp : p ≠ 0) (hf : dhFind t p = some i) (hu : e'.user = p) :
    TabInv { t with table := update t.table i e' }
      ∧ ∀ q, q ≠ 0 → DhTable.get { t with table := update t.table i e' } q
        = if q = p then some e' else t.get q := by
  obtain ⟨hi, hui⟩ := (dhFind_eq_some ht hp).mp hf
  have hkey : DhTable.key { t with table := update t.table i e' } = t.key := by
    funext j
    by_cases hj : j = i
    · subst hj
      simp [DhTable.key, hu, hui]
    · simp [DhTable.key, hj]
  have hinv : TabInv { t with table := update t.table i e' } := by
    refine ⟨ht.order, by rw [hkey]; exact ht.probed, by rw [hkey]; exact ht.count, ht.load, ?_⟩
    intro j hj
    by_cases hji : j = i
    · subst hji
      simp only [update_self] at hj
      exact absurd (hu.symm.trans hj) hp
    · simp only [update_of_ne hji] at hj ⊢
      exact ht.blank j hj
  refine ⟨hinv, fun q hq => get_ext hinv hq fun e => ?_⟩
  by_cases hqp : q = p
  · subst hqp
    rw [if_pos rfl, Option.some_inj]
    constructor
    · rintro ⟨j, hj, he, hu'⟩
      have hji : j = i := ht.probed.inj (k := q) hj hi
        (by rw [← hkey, key_eq_some hq, he]; exact hu') ((key_eq_some hq).mpr hui)
      subst hji
      simpa using he
    · rintro rfl
      exact ⟨i, hi, by simp, hu⟩
  · rw [if_neg hqp, get_eq_some ht hq]
    constructor
    · rintro ⟨j, hj, he, hu'⟩
      have hji : j ≠ i := by
        rintro rfl
        simp only [update_self] at he
        rw [← he] at hu'
        exact hqp (hu'.symm.trans hu)
      simp only [update_of_ne hji] at he
      exact ⟨j, hj, he, hu'⟩
    · rintro ⟨j, hj, he, hu'⟩
      have hji : j ≠ i := by
        rintro rfl
        rw [he] at hui
        exact hqp (hu'.symm.trans hui)
      exact ⟨j, hj, by simp only [update_of_ne hji]; exact he, hu'⟩

theorem dhDeallocate_live (ht : TabInv h.tab) (hp : p ≠ 0) {raw : Nat} (hr : raw ≠ 0)
    (hraw : raw + DH_HEAD = p) (hg : h.tab.get p = some ⟨p, raw, size, false⟩) :
    ∃ tab rep, dhDeallocate B h p = ([.readCanary raw, .readCanary (p + size), .poison p size,
          .backendFree raw],
        (B.deallocate (B.setHeap h.backend ((B.heap h.backend).fill p size DH_POISON)) raw).map
          fun b => ⟨b, tab, rep⟩)
      ∧ TabInv tab
      ∧ (∀ q, q ≠ 0 → tab.get q = if q = p then some ⟨p, 0, size, true⟩ else h.tab.get q)
      ∧ rep.totalFrees = wadd h.rep.totalFrees 1 ∧ rep.activeAllocs = wsub h.rep.activeAllocs 1
      ∧ rep.totalAllocs = h.rep.totalAllocs ∧ rep.doubleFrees = h.rep.doubleFrees
      ∧ rep.invalidFrees = h.rep.invalidFrees := by
  obtain ⟨i, hf, he, hu⟩ := dhDeallocate_found ht hp hg
  obtain ⟨hinv, hget⟩ := setEntry_spec ht hp hf (rfl : (⟨p, 0, size, true⟩ : DhEntry).user = p)
  refine ⟨_, { h.rep with
    canaryViolations := if verifyBlock (B.heap h.backend) raw size then h.rep.canaryViolations
      else wadd h.rep.canaryViolations 1
    totalFrees := wadd h.rep.totalFrees 1
    activeAllocs := wsub h.rep.activeAllocs 1 }, ?_, hinv, hget, rfl, rfl, rfl, rfl, rfl⟩
  unfold dhDeallocate
  dsimp only
  rw [if_neg hp, hf]
  dsimp only
  rw [he, if_neg (by simp), if_neg (by simp), if_neg hr]
  dsimp only
  rw [hraw]

/-! ## runs -/

theorem dhAllocate_cases (ha : dhAllocate B cl h size alignment = some (p, h')) :
    (p = 0 ∧ h'.tab = h.tab) ∨ ∃ raw, raw ≠ 0 ∧ raw + DH_HEAD = p
      ∧ dhPut cl 64 h.tab p raw size = some h'.tab := by
  unfold dhAllocate at ha
  dsimp only at ha
  obtain ⟨⟨raw, b⟩, -, ha⟩ := Option.bind_eq_some_iff.mp ha
  dsimp only at ha
  split at ha
  · obtain ⟨rfl, rfl⟩ := Prod.mk.inj (Option.some.inj ha)
    exact Or.inl ⟨rfl, rfl⟩
  · next hr =>
    split at ha
    · exact absurd ha (by simp)
    · obtain ⟨t, hput, ha⟩ := Option.map_eq_some_iff.mp ha
      obtain ⟨rfl, rfl⟩ := Prod.mk.inj ha
      exact Or.inr ⟨raw, hr, rfl, hput⟩

theorem DhInv.alloc (hs : DhInv s) (ha : s.alloc B cl size alignment = some s') : DhInv s' := by
  unfold DhSys.alloc at ha
  obtain ⟨⟨p, h'⟩, halloc, ha⟩ := Option.bind_eq_some_iff.mp ha
  dsimp only at ha
  rcases dhAllocate_cases halloc with ⟨rfl, htab⟩ | ⟨raw, hr, hraw, hput⟩
  · rw [if_pos rfl] at ha
    obtain rfl := Option.some.inj ha
    exact ⟨by rw [htab]; exact hs.tab, fun q hq => by rw [htab]; exact hs.tracks q hq⟩
  · have hp : p ≠ 0 := by
      rw [← hraw]
      exact Nat.succ_ne_zero _
    rw [if_neg hp] at ha
    split at ha
    · exact absurd ha (by simp)
    · obtain rfl := Option.some.inj ha
      obtain ⟨hinv, hget⟩ := dhPut_spec cl hs.tab hp hput
      refine ⟨hinv, fun q hq => ?_⟩
      show Tracks q (update (if h'.tab.cap = s.h.tab.cap then s.status
        else fun q => (s.status q).regrown) p (Status.live size) q) (h'.tab.get q)
      rw [hget q hq]
      by_cases hqp : q = p
      · subst hqp
        rw [update_self, if_pos rfl]
        exact ⟨raw, hr, hraw, rfl⟩
      · rw [update_of_ne hqp, if_neg hqp]
        split
        · exact hs.tracks q hq
        · exact (hs.tracks q hq).regrown

theorem DhInv.free (hs : DhInv s) (hf : s.free B p = some s') : DhInv s' := by
  obtain ⟨h', hd, rfl⟩ := Option.map_eq_some_iff.mp hf
  by_cases hp : p = 0
  · subst hp
    obtain rfl := Option.some.inj hd
    refine ⟨hs.tab, fun q hq => ?_⟩
    show Tracks q ((if (s.status 0).isLive then update s.status 0 Status.freed else s.status) q) _
    split
    · rw [update_of_ne hq]
      exact hs.tracks q hq
    · exact hs.tracks q hq
  have htr := hs.tracks p hp
  cases hst : s.status p with
  | never =>
    rw [hst] at htr
    rw [dhDeallocate_absent hp htr] at hd
    obtain rfl := Option.some.inj hd
    exact ⟨hs.tab, hs.tracks⟩
  | live size =>
    rw [hst] at htr
    obtain ⟨raw, hr, hraw, hg⟩ := htr
    obtain ⟨tab, rep, hcall, hinv, hget, -⟩ := dhDeallocate_live (B := B) hs.tab hp hr hraw hg
    rw [hcall] at hd
    obtain ⟨b, -, rfl⟩ := Option.map_eq_some_iff.mp hd
    refine ⟨hinv, fun q hq => ?_⟩
    show Tracks q (update s.status p Status.freed q) (tab.get q)
    rw [hget q hq]
    by_cases hqp : q = p
    · subst hqp
      rw [update_self, if_pos rfl]
      exact ⟨size, rfl⟩
    · rw [update_of_ne hqp, if_neg hqp]
      exact hs.tracks q hq
  | freed =>
    rw [hst] at htr
    obtain ⟨size, hg⟩ := htr
    rw [dhDeallocate_freed hs.tab hp hg rfl] at hd
    obtain rfl := Option.some.inj hd
    exact ⟨hs.tab, hs.tracks⟩
  | stale =>
    rw [hst] at htr
    obtain ⟨size, hg⟩ := htr
    rw [dhDeallocate_null hs.tab hp hg rfl rfl] at hd
    exact absurd hd (by simp)

/-- **Every call keeps the table in step with the statuses.** -/
theorem DhInv.step {a : DhAct β} (hs : DhInv s) (hstep : DhStep B s a s') : DhInv s' := by
  obtain ⟨cl, hact⟩ := hstep
  cases a with
  | alloc size alignment => exact hs.alloc hact
  | free p => exact hs.free hact
  | other b =>
    obtain rfl := Option.some.inj hact
    exact ⟨hs.tab, hs.tracks⟩

theorem DhInv.start {b : β} (hc : hfDebugHeapCreate cl b = some h) : DhInv (DhSys.start h) := by
  unfold hfDebugHeapCreate at hc
  split at hc
  · obtain rfl := Option.some.inj hc
    exact ⟨TabInv.empty (k := 6) (by omega) (by omega),
      fun p hp => get_empty (k := 6) (by omega) (by omega) hp⟩
  · exact absurd hc (by simp)

end

/-- **`dh_deallocate` classifies exactly the pointers that are not stale.**  In every state of every
run over a backend that hands out no block twice, the call does what it has to do with `p`, unless
`p` was freed and the table has grown since. -/
theorem free_classified {β : Type*} {B : Allocator β} {cl : TableCalloc} {b : β} {h : DhHeap β}
    {acts : List (DhAct β)} {s : DhSys β} {p : Nat} (hc : hfDebugHeapCreate cl b = some h)
    (hrun : Steps (DhStep B) (DhSys.start h) acts s) (hp : p ≠ 0) :
    Classified B s p ↔ s.status p ≠ .stale := by
  have hs : DhInv s := hrun.invariant (DhInv.start hc) fun _ _ _ => DhInv.step
  have htr := hs.tracks p hp
  unfold Classified
  cases hst : s.status p with
  | never =>
    rw [hst] at htr
    exact iff_of_true (dhDeallocate_absent hp htr) (by simp)
  | live size =>
    rw [hst] at htr
    obtain ⟨raw, hr, hraw, hg⟩ := htr
    obtain ⟨tab, rep, hcall, -, -, hrep⟩ := dhDeallocate_live (B := B) hs.tab hp hr hraw hg
    exact iff_of_true ⟨raw, tab, rep, hraw, hcall, hrep⟩ (by simp)
  | freed =>
    rw [hst] at htr
    obtain ⟨size, hg⟩ := htr
    exact iff_of_true (dhDeallocate_freed hs.tab hp hg rfl) (by simp)
  | stale =>
    rw [hst] at htr
    obtain ⟨size, hg⟩ := htr
    refine iff_of_false ?_ (by simp)
    dsimp only
    rw [dhDeallocate_null hs.tab hp hg rfl rfl]
    simp

/-! ## a second free after the table has grown -/

/-- an arena that hands out one block behind the other -/
def arena : Allocator Nat where
  allocate next size _ := some (next, next + size)
  deallocate next _ := some next
  heap _ := Mem.zero
  setHeap next _ := next

def grantAll : TableCalloc := ⟨fun n => decide (n * 32 < 2 ^ 64), fun n h => by simpa using h⟩

def arenaHeap : DhHeap Nat := ⟨4096, ⟨fun _ => DhEntry.blank, 64, 0⟩, ⟨0, 0, 0, 0, 0, 0⟩⟩

theorem free_classified_live_block :
    ∃ s, (DhSys.start arenaHeap).act arena grantAll (.alloc 16 16) = some s
      ∧ (Classified arena s (4096 + 12) ↔ s.status (4096 + 12) ≠ .stale) := by
  have h1 : ((DhSys.start arenaHeap).act arena grantAll (.alloc 16 16)).isSome = true := by
    decide +kernel
  obtain ⟨s, hs⟩ := Option.isSome_iff_exists.mp h1
  have hcreate : hfDebugHeapCreate grantAll 4096 = some arenaHeap := rfl
  exact ⟨s, hs, free_classified hcreate
    (Steps.snoc (Steps.nil _) ⟨grantAll, hs⟩) (by omega)⟩

/-- a block is issued and freed, 44 further blocks follow: the last of them makes the table grow -/
def staleActs : List (DhAct Nat) :=
  .alloc 16 16 :: .free (4096 + 12) :: List.replicate 44 (.alloc 16 16)

/-- the second free of the first block reads its canary through a null pointer -/
theorem stale_free_faults :
    ∃ s, Steps (DhStep arena) (DhSys.start arenaHeap) staleActs s
      ∧ s.h.tab.cap = 128 ∧ s.status (4096 + 12) = .stale
      ∧ dhDeallocate arena s.h (4096 + 12) = ([.readCanary 0], none)
      ∧ ¬ Classified arena s (4096 + 12) := by
  have h1 : (staleActs.foldlM (DhSys.act arena grantAll) (DhSys.start arenaHeap)).map
      (fun s => (s.h.tab.cap, s.status (4096 + 12), (dhDeallocate arena s.h (4096 + 12)).1,
        (dhDeallocate arena s.h (4096 + 12)).2.isNone))
      = some (128, .stale, [.readCanary 0], true) := by decide +kernel
  obtain ⟨s, hs, he⟩ := Option.map_eq_some_iff.mp h1
  simp only [Prod.mk.injEq] at he
  obtain ⟨h2, h3, h4, h5⟩ := he
  have hcall : dhDeallocate arena s.h (4096 + 12) = ([.readCanary 0], none) :=
    Prod.ext h4 (Option.isNone_iff_eq_none.mp h5)
  refine ⟨s, Steps.of_foldlM (fun _ _ _ h => ⟨grantAll, h⟩) hs, h2, h3, hcall, ?_⟩
  unfold Classified
  rw [h3]
  dsimp only
  rw [hcall]
  simp

end HeapForge.DebugHeap
