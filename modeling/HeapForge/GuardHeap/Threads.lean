import HeapForge.Lib.Sum
import HeapForge.GuardHeap.Pages

/-!
# The lock-free registry of the guard heap, step by step

`gh_allocate` and `gh_deallocate` take no lock.  Here every access to the table and to the counters
is a step of its own, and the steps of the threads come in any order; plain fields are read and
written as the atomic ones are.

* `Pc`                where a thread is, with what it has read so far;
* `RSys.advance`      its next step; a weak exchange may fail without a reason;
* `RStep`             a thread begins a call or goes on with one;
* `Phase`             what an entry is, and for whom: a history variable of the proof;
* `Claims`            what a thread may rely on where it is;
* `RInv`              the entries are as their phases say, the counters as the entries say.
-/

set_option linter.unusedSectionVars false
set_option linter.unusedVariables false

namespace HeapForge.GuardHeap
open Lib Function

-- the number of entries plays no part in the proofs, and its value should not be computed with
attribute [local irreducible] GH_MAX_REGIONS

/-- a mapping, and the block in it -/
structure Block where
  base : Nat
  total : Nat
  user : Nat
  size : Nat
  deriving DecidableEq

/-- what `gh_allocate` has computed when it looks for an entry -/
def ghBlock (vm : Vm) (size alignment : Nat) : Block :=
  let base := hfVmReserve vm (ghTotal vm.pageSize (ghSize size))
  ⟨base, ghTotal vm.pageSize (ghSize size),
    ghPlace vm.pageSize base (ghDataPages vm.pageSize (ghSize size)) (ghSize size)
      (ghAlignment alignment), ghSize size⟩

inductive Pc
  | idle
  /-- `gh_reserve_slot` at entry `i` -/
  | reserveSlot (b : Block) (i : Nat)
  /-- `n` of the five fields of the entry are stored -/
  | fill (b : Block) (idx n : Nat)
  /-- `atomic_fetch_add` on `used_bytes` -/
  | charge (b : Block) (idx : Nat)
  | loadPeak (b : Block) (idx u : Nat)
  /-- `while (u > pk && !atomic_compare_exchange_weak(..))` -/
  | raisePeak (b : Block) (idx u pk : Nat)
  /-- `gh_find_by_user`: the state of entry `i`, then its pointer -/
  | findByUser (ptr i : Nat)
  | compareUser (ptr i : Nat)
  | loadBase (idx : Nat)
  | loadTotal (idx base : Nat)
  | loadSize (idx base total : Nat)
  /-- `atomic_fetch_sub` on `used_bytes` -/
  | discharge (idx base total size : Nat)
  | protectAll (idx base total : Nat)
  | quarantine (idx : Nat)
  deriving DecidableEq

structure RSys where
  table : Nat → GhRegion
  usedBytes : Nat
  peakBytes : Nat
  pc : Nat → Pc
  /-- the mappings that the system has given and not taken back -/
  mapped : List Block
  /-- the blocks returned to the clients and not freed -/
  held : List Block
  /-- the ranges that frees have protected -/
  closed : List (Nat × Nat)
  /-- the largest value that an allocation has brought `used_bytes` to -/
  top : Nat

def RSys.start : RSys := ⟨fun _ => ⟨0, 0, 0, 0, .empty⟩, 0, 0, fun _ => .idle, [], [], [], 0⟩

/-- the stores behind `gh_reserve_slot`, in their order -/
def writeField (b : Block) (r : GhRegion) : Nat → GhRegion
  | 0 => { r with total := b.total }
  | 1 => { r with user := b.user }
  | 2 => { r with userSize := b.size }
  | 3 => { r with base := b.base }
  | _ => { r with state := .active }

def RSys.goto (s : RSys) (t : Nat) (pc : Pc) : RSys := { s with pc := update s.pc t pc }

def RSys.advance (s : RSys) (t : Nat) (spurious : Bool) : RSys :=
  match s.pc t with
  | .idle => s
  | .reserveSlot b i =>
    if i < GH_MAX_REGIONS then
      if (s.table i).state = .empty then
        { s.goto t (.fill b i 0) with
          table := update s.table i { s.table i with state := .active } }
      else s.goto t (.reserveSlot b (i + 1))
    else { s.goto t .idle with mapped := s.mapped.erase b }
  | .fill b idx n =>
    { s.goto t (if n < 4 then .fill b idx (n + 1) else .charge b idx) with
      table := update s.table idx (writeField b (s.table idx) n) }
  | .charge b idx =>
    let u := wadd s.usedBytes b.size
    { s.goto t (.loadPeak b idx u) with usedBytes := u, top := max s.top u }
  | .loadPeak b idx u => s.goto t (.raisePeak b idx u s.peakBytes)
  | .raisePeak b idx u pk =>
    if u > pk then
      if s.peakBytes = pk ∧ spurious = false then
        { s.goto t .idle with peakBytes := u, held := b :: s.held }
      else s.goto t (.raisePeak b idx u s.peakBytes)
    else { s.goto t .idle with held := b :: s.held }
  | .findByUser ptr i =>
    if i < GH_MAX_REGIONS then
      s.goto t (if (s.table i).state = .active then .compareUser ptr i else .findByUser ptr (i + 1))
    else s.goto t .idle
  | .compareUser ptr i =>
    s.goto t (if (s.table i).user = ptr then .loadBase i else .findByUser ptr (i + 1))
  | .loadBase idx => s.goto t (.loadTotal idx (s.table idx).base)
  | .loadTotal idx base => s.goto t (.loadSize idx base (s.table idx).total)
  | .loadSize idx base total => s.goto t (.discharge idx base total (s.table idx).userSize)
  | .discharge idx base total size =>
    { s.goto t (.protectAll idx base total) with usedBytes := wsub s.usedBytes size }
  | .protectAll idx base total =>
    { s.goto t (.quarantine idx) with closed := (base, total) :: s.closed }
  | .quarantine idx =>
    { s.goto t .idle with table := update s.table idx { s.table idx with state := .quarantined } }

inductive RAct
  | allocate (t : Nat) (vm : Vm) (size alignment : Nat)
  | deallocate (t : Nat) (b : Block)
  | advance (t : Nat) (spurious : Bool)

/-- two mappings with no byte in common -/
def Block.Apart (b c : Block) : Prop := b.base + b.total ≤ c.base ∨ c.base + c.total ≤ b.base

/-- a thread that is idle asks for a block, and the system gives a mapping that is not in use; or it
frees a block that was returned and not yet freed; or a thread goes on -/
inductive RStep (s : RSys) : RAct → RSys → Prop
  | allocate {t size alignment : Nat} {vm : Vm} (hpc : s.pc t = .idle)
      (hsize : ghSize size + 3 * vm.pageSize ≤ 2 ^ 64)
      (hbase : (ghBlock vm size alignment).base ≠ 0)
      (hfresh : ∀ c ∈ s.mapped, (ghBlock vm size alignment).Apart c) :
      RStep s (.allocate t vm size alignment)
        { s.goto t (.reserveSlot (ghBlock vm size alignment) 0) with
          mapped := ghBlock vm size alignment :: s.mapped }
  | deallocate {t : Nat} {b : Block} (hpc : s.pc t = .idle) (hb : b ∈ s.held) :
      RStep s (.deallocate t b) { s.goto t (.findByUser b.user 0) with held := s.held.erase b }
  | advance (t : Nat) (spurious : Bool) : RStep s (.advance t spurious) (s.advance t spurious)

/-! ## phases -/

inductive Phase
  | empty
  /-- reserved by thread `t`; `n` fields are stored, and the sixth step charges it -/
  | taken (t : Nat) (b : Block) (n : Nat)
  | live (b : Block)
  /-- being freed by thread `t` -/
  | leaving (t : Nat) (b : Block) (charged : Bool)
  | gone (b : Block)

def Block.entry (b : Block) (state : RegionState) : GhRegion :=
  ⟨b.base, b.total, b.user, b.size, state⟩

/-- an entry with its first `n` fields stored -/
def filled (b : Block) : Nat → GhRegion
  | 0 => ⟨0, 0, 0, 0, .active⟩
  | n + 1 => writeField b (filled b n) n

def Phase.entry : Phase → GhRegion
  | .empty => ⟨0, 0, 0, 0, .empty⟩
  | .taken _ b n => filled b n
  | .live b | .leaving _ b _ => b.entry .active
  | .gone b => b.entry .quarantined

def Phase.block : Phase → Option Block
  | .empty => none
  | .taken _ b _ | .live b | .leaving _ b _ | .gone b => some b

def Phase.owner : Phase → Option Nat
  | .taken t _ _ | .leaving t _ _ => some t
  | _ => none

/-- what the entry has in `used_bytes` -/
def Phase.weight : Phase → Nat
  | .taken _ b n => if 6 ≤ n then b.size else 0
  | .live b | .leaving _ b true => b.size
  | _ => 0

/-- the mapping a thread has no entry for yet -/
def Pc.pending : Pc → Option Block
  | .reserveSlot b _ => some b
  | _ => none

/-- the value a thread is about to raise `peak_bytes` to -/
def Pc.raising : Pc → Option Nat
  | .loadPeak _ _ u | .raisePeak _ _ u _ => some u
  | _ => none

/-- the thread has an entry -/
def Pc.busy : Pc → Bool
  | .idle | .reserveSlot _ _ => false
  | _ => true

def Claims (phase : Nat → Phase) (peak t : Nat) : Pc → Prop
  | .idle => True
  | .reserveSlot _ i => ∀ j < i, phase j ≠ .empty
  | .fill b idx n => phase idx = .taken t b n ∧ n ≤ 4
  | .charge b idx => phase idx = .taken t b 5
  | .loadPeak b idx _ => phase idx = .taken t b 6
  | .raisePeak b idx _ pk => phase idx = .taken t b 6 ∧ pk ≤ peak
  | .findByUser ptr i | .compareUser ptr i =>
    ∃ idx b, phase idx = .leaving t b true ∧ b.user = ptr ∧ i ≤ idx
  | .loadBase idx => ∃ b, phase idx = .leaving t b true
  | .loadTotal idx base => ∃ b, phase idx = .leaving t b true ∧ base = b.base
  | .loadSize idx base total => ∃ b, phase idx = .leaving t b true ∧ base = b.base ∧ total = b.total
  | .discharge idx base total size =>
    ∃ b, phase idx = .leaving t b true ∧ base = b.base ∧ total = b.total ∧ size = b.size
  | .protectAll idx base total =>
    ∃ b, phase idx = .leaving t b false ∧ base = b.base ∧ total = b.total
  | .quarantine idx => ∃ b, phase idx = .leaving t b false

/-- the mappings of the process -/
structure Mapped (l : List Block) : Prop where
  nodup : l.Nodup
  inside : ∀ b ∈ l, 0 < b.user ∧ b.base ≤ b.user ∧ b.user < b.base + b.total ∧ b.size < 2 ^ 64
  apart : ∀ b ∈ l, ∀ c ∈ l, b ≠ c → b.Apart c

/-- who has which entry -/
structure Owners (phase : Nat → Phase) (pc : Nat → Pc) : Prop where
  busy : ∀ i t, (phase i).owner = some t → (pc t).busy = true
  single : ∀ i j t, (phase i).owner = some t → (phase j).owner = some t → i = j

/-- every mapping is in one place -/
structure Blocks (phase : Nat → Phase) (pc : Nat → Pc) (mapped : List Block) : Prop where
  mem : ∀ i b, (phase i).block = some b → b ∈ mapped
  single : ∀ i j b, (phase i).block = some b → (phase j).block = some b → i = j
  pending : ∀ t b, (pc t).pending = some b → b ∈ mapped ∧ (∀ i, (phase i).block ≠ some b)
    ∧ ∀ t', (pc t').pending = some b → t' = t

structure Peak (pc : Nat → Pc) (peak top : Nat) : Prop where
  le : peak ≤ top
  raising : ∀ t u, (pc t).raising = some u → u ≤ top
  /-- the top has reached the counter, or a thread is bringing it there -/
  pending : top ≤ peak ∨ ∃ t u, (pc t).raising = some u ∧ top ≤ u

structure RInv (s : RSys) (phase : Nat → Phase) : Prop where
  mapped : Mapped s.mapped
  table : ∀ i, s.table i = (phase i).entry
  bounded : ∀ i, phase i ≠ .empty → i < GH_MAX_REGIONS
  claims : ∀ t, Claims phase s.peakBytes t (s.pc t)
  owners : Owners phase s.pc
  blocks : Blocks phase s.pc s.mapped
  held : ∀ b, b ∈ s.held ↔ ∃ i, phase i = .live b
  heldNodup : s.held.Nodup
  closed : ∀ c ∈ s.closed, ∃ i b, c = (b.base, b.total)
    ∧ ((∃ t, phase i = .leaving t b false) ∨ phase i = .gone b)
  used : s.usedBytes = sumTo (fun i => (phase i).weight) GH_MAX_REGIONS % 2 ^ 64
  peak : Peak s.pc s.peakBytes s.top

section
variable {s s' : RSys} {phase : Nat → Phase} {ph : Phase} {pc : Nat → Pc} {q : Pc} {b c : Block}
  {l : List Block} {t t' i j idx n peak peak' top u w : Nat} {spurious : Bool}

theorem filled_state (b : Block) (n : Nat) : (filled b n).state = .active := by
  induction n with
  | zero => rfl
  | succ n ih =>
    unfold filled writeField
    split <;> first | exact ih | rfl

/-- until it is stored, the pointer of an entry is that of the cleared table -/
theorem filled_user (b : Block) (n : Nat) : (filled b n).user = 0 ∨ (filled b n).user = b.user := by
  induction n with
  | zero => exact Or.inl rfl
  | succ n ih =>
    unfold filled writeField
    split
    · exact ih
    · exact Or.inr rfl
    · exact ih
    · exact ih
    · exact ih

theorem Phase.entry_user (ph : Phase) :
    ph.entry.user = 0 ∨ ∃ b, ph.block = some b ∧ ph.entry.user = b.user := by
  cases ph with
  | empty => exact Or.inl rfl
  | taken t b n => exact (filled_user b n).imp_right fun h => ⟨b, rfl, h⟩
  | live b => exact Or.inr ⟨b, rfl, rfl⟩
  | leaving t b charged => exact Or.inr ⟨b, rfl, rfl⟩
  | gone b => exact Or.inr ⟨b, rfl, rfl⟩

theorem Phase.entry_empty : ph.entry.state = .empty ↔ ph = .empty := by
  cases ph with
  | empty => exact ⟨fun _ => rfl, fun _ => rfl⟩
  | taken t b n =>
    refine ⟨fun h => ?_, fun h => Phase.noConfusion h⟩
    rw [show (Phase.taken t b n).entry.state = .active from filled_state b n] at h
    exact RegionState.noConfusion h
  | live b => exact ⟨fun h => RegionState.noConfusion h, fun h => Phase.noConfusion h⟩
  | leaving t b charged => exact ⟨fun h => RegionState.noConfusion h, fun h => Phase.noConfusion h⟩
  | gone b => exact ⟨fun h => RegionState.noConfusion h, fun h => Phase.noConfusion h⟩

/-! ## what other threads may do to the claims of a thread -/

/-- an entry that the thread does not own changes, and is not emptied -/
theorem Claims.frame (h : Claims phase peak t q) (hown : (phase idx).owner ≠ some t)
    (hne : ph ≠ .empty) (hpk : peak ≤ peak') : Claims (update phase idx ph) peak' t q := by
  have keep : ∀ {i : Nat} {p : Phase}, phase i = p → p.owner = some t →
      update phase idx ph i = p := by
    intro i p hp ho
    have hi : i ≠ idx := fun hc => hown (by rw [← hc, hp, ho])
    rw [update_of_ne hi, hp]
  cases q with
  | idle => trivial
  | reserveSlot b i =>
    intro j hj
    by_cases hji : j = idx
    · rw [hji, update_self]
      exact hne
    · rw [update_of_ne hji]
      exact h j hj
  | fill b i n => exact ⟨keep h.1 rfl, h.2⟩
  | charge b i => exact keep h rfl
  | loadPeak b i u => exact keep h rfl
  | raisePeak b i u pk => exact ⟨keep h.1 rfl, Nat.le_trans h.2 hpk⟩
  | findByUser ptr i =>
    obtain ⟨j, b, hp, hr⟩ := h
    exact ⟨j, b, keep hp rfl, hr⟩
  | compareUser ptr i =>
    obtain ⟨j, b, hp, hr⟩ := h
    exact ⟨j, b, keep hp rfl, hr⟩
  | loadBase i =>
    obtain ⟨b, hp⟩ := h
    exact ⟨b, keep hp rfl⟩
  | loadTotal i base =>
    obtain ⟨b, hp, hr⟩ := h
    exact ⟨b, keep hp rfl, hr⟩
  | loadSize i base total =>
    obtain ⟨b, hp, hr⟩ := h
    exact ⟨b, keep hp rfl, hr⟩
  | discharge i base total size =>
    obtain ⟨b, hp, hr⟩ := h
    exact ⟨b, keep hp rfl, hr⟩
  | protectAll i base total =>
    obtain ⟨b, hp, hr⟩ := h
    exact ⟨b, keep hp rfl, hr⟩
  | quarantine i =>
    obtain ⟨b, hp⟩ := h
    exact ⟨b, keep hp rfl⟩

/-! ## a thread goes on, and no entry changes -/

theorem pending_of_update (hq : ∀ b, q.pending = some b → (pc t).pending = some b)
    (h : (update pc t q t').pending = some b) : (pc t').pending = some b := by
  by_cases ht : t' = t
  · rw [ht, update_self] at h
    rw [ht]
    exact hq b h
  · rwa [update_of_ne ht] at h

theorem Owners.move (h : Owners phase pc) (hq : (pc t).busy = true → q.busy = true) :
    Owners phase (update pc t q) where
  busy := by
    intro i t' ho
    have hb := h.busy i t' ho
    by_cases ht : t' = t
    · rw [ht, update_self]
      exact hq (ht ▸ hb)
    · rwa [update_of_ne ht]
  single := h.single

theorem Blocks.move (h : Blocks phase pc l)
    (hq : ∀ b, q.pending = some b → (pc t).pending = some b) :
    Blocks phase (update pc t q) l where
  mem := h.mem
  single := h.single
  pending := by
    intro t' b hb
    obtain ⟨h1, h2, h3⟩ := h.pending t' b (pending_of_update hq hb)
    exact ⟨h1, h2, fun t₂ ht₂ => h3 t₂ (pending_of_update hq ht₂)⟩

theorem Peak.move (h : Peak pc peak top) (hq : q.raising = (pc t).raising) :
    Peak (update pc t q) peak top := by
  have hsame : ∀ t', (update pc t q t').raising = (pc t').raising := by
    intro t'
    by_cases ht : t' = t
    · rw [ht, update_self, hq]
    · rw [update_of_ne ht]
  refine ⟨h.le, fun t' u hu => h.raising t' u ((hsame t').symm.trans hu), h.pending.imp_right ?_⟩
  rintro ⟨t', u, hu, hle⟩
  exact ⟨t', u, (hsame t').trans hu, hle⟩

theorem claims_move (h : ∀ t, Claims phase peak t (pc t)) (hq : Claims phase peak t q) (t' : Nat) :
    Claims phase peak t' (update pc t q t') := by
  by_cases ht : t' = t
  · rw [ht, update_self]
    exact hq
  · rw [update_of_ne ht]
    exact h t'

theorem RInv.move (h : RInv s phase) (hq : Claims phase s.peakBytes t q)
    (hb : (s.pc t).busy = true → q.busy = true)
    (hp : ∀ b, q.pending = some b → (s.pc t).pending = some b) (hr : q.raising = (s.pc t).raising) :
    RInv (s.goto t q) phase :=
  ⟨h.mapped, h.table, h.bounded, claims_move h.claims hq, h.owners.move hb,
  h.blocks.move hp, h.held,
    h.heldNodup, h.closed, h.used, h.peak.move hr⟩

/-! ## a thread changes an entry -/

theorem claims_change (h : ∀ t, Claims phase peak t (pc t))
    (hown : ∀ t', (phase idx).owner = some t' → t' = t) (hne : ph ≠ .empty) (hpk : peak ≤ peak')
    (hq : Claims (update phase idx ph) peak' t q) (t' : Nat) :
    Claims (update phase idx ph) peak' t' (update pc t q t') := by
  by_cases ht : t' = t
  · rw [ht, update_self]
    exact hq
  · rw [update_of_ne ht]
    exact (h t').frame (fun hc => ht (hown t' hc)) hne hpk

theorem Owners.change (h : Owners phase pc) (hmine : ∀ i, i ≠ idx → (phase i).owner ≠ some t)
    (ho : ∀ t', ph.owner = some t' → t' = t ∧ q.busy = true) :
    Owners (update phase idx ph) (update pc t q) where
  busy := by
    intro i t' hi
    by_cases hid : i = idx
    · rw [hid, update_self] at hi
      obtain ⟨rfl, hb⟩ := ho t' hi
      rw [update_self]
      exact hb
    · rw [update_of_ne hid] at hi
      have ht : t' ≠ t := fun hc => hmine i hid (hc ▸ hi)
      rw [update_of_ne ht]
      exact h.busy i t' hi
  single := by
    intro i j t' hi hj
    by_cases hid : i = idx
    · by_cases hjd : j = idx
      · exact hid.trans hjd.symm
      · rw [hid, update_self] at hi
        rw [update_of_ne hjd] at hj
        exact absurd ((ho t' hi).1 ▸ hj) (hmine j hjd)
    · rw [update_of_ne hid] at hi
      by_cases hjd : j = idx
      · rw [hjd, update_self] at hj
        exact absurd ((ho t' hj).1 ▸ hi) (hmine i hid)
      · rw [update_of_ne hjd] at hj
        exact h.single i j t' hi hj

theorem Blocks.change (h : Blocks phase pc l) (hb : ph.block = (phase idx).block)
    (hq : ∀ b, q.pending = some b → (pc t).pending = some b) :
    Blocks (update phase idx ph) (update pc t q) l := by
  have hsame : ∀ i, (update phase idx ph i).block = (phase i).block := by
    intro i
    by_cases hid : i = idx
    · rw [hid, update_self, hb]
    · rw [update_of_ne hid]
  refine ⟨fun i b hi => h.mem i b ((hsame i).symm.trans hi), fun i j b hi hj =>
    h.single i j b ((hsame i).symm.trans hi) ((hsame j).symm.trans hj), fun t' b hp => ?_⟩
  obtain ⟨h1, h2, h3⟩ := h.pending t' b (pending_of_update hq hp)
  exact ⟨h1, fun i hi => h2 i ((hsame i).symm.trans hi),
    fun t₂ ht₂ => h3 t₂ (pending_of_update hq ht₂)⟩

theorem table_change {table : Nat → GhRegion} (ph : Phase) (h : ∀ i, table i = (phase i).entry)
    (i : Nat) :
    update table idx ph.entry i = (update phase idx ph i).entry := by
  by_cases hid : i = idx
  · rw [hid, update_self, update_self]
  · rw [update_of_ne hid, update_of_ne hid, h i]

theorem bounded_change (h : ∀ i, phase i ≠ .empty → i < GH_MAX_REGIONS)
    (hidx : idx < GH_MAX_REGIONS) (i : Nat) (hi : update phase idx ph i ≠ .empty) :
    i < GH_MAX_REGIONS := by
  by_cases hid : i = idx
  · rw [hid]
    exact hidx
  · rw [update_of_ne hid] at hi
    exact h i hi

/-- an entry that is not live and does not become so -/
theorem live_change (h : ∀ b, b ∈ l ↔ ∃ i, phase i = .live b) (hold : ∀ b, phase idx ≠ .live b)
    (hnew : ∀ b, ph ≠ .live b) (b : Block) : b ∈ l ↔ ∃ i, update phase idx ph i = .live b := by
  rw [h b]
  constructor
  · rintro ⟨i, hi⟩
    have hid : i ≠ idx := fun hc => hold b (hc ▸ hi)
    exact ⟨i, (update_of_ne hid _ _).trans hi⟩
  · rintro ⟨i, hi⟩
    by_cases hid : i = idx
    · rw [hid, update_self] at hi
      exact absurd hi (hnew b)
    · rw [update_of_ne hid] at hi
      exact ⟨i, hi⟩

/-- an entry that no free has protected -/
theorem closed_change {closed : List (Nat × Nat)}
    (h : ∀ c ∈ closed, ∃ i b, c = (b.base, b.total)
      ∧ ((∃ t, phase i = .leaving t b false) ∨ phase i = .gone b))
    (hold : ∀ b, (∀ t, phase idx ≠ .leaving t b false) ∧ phase idx ≠ .gone b) (c : Nat × Nat)
    (hc : c ∈ closed) :
    ∃ i b, c = (b.base, b.total)
      ∧ ((∃ t, update phase idx ph i = .leaving t b false) ∨ update phase idx ph i = .gone b) := by
  obtain ⟨i, b, hcb, hi⟩ := h c hc
  have hid : i ≠ idx := by
    rintro rfl
    rcases hi with ⟨t, hi⟩ | hi
    · exact (hold b).1 t hi
    · exact (hold b).2 hi
  refine ⟨i, b, hcb, ?_⟩
  rw [update_of_ne hid]
  exact hi

/-- the sum of the weights, when one entry changes -/
theorem weight_change (phase : Nat → Phase) (ph : Phase) (hidx : idx < GH_MAX_REGIONS) :
    sumTo (fun i => (update phase idx ph i).weight) GH_MAX_REGIONS + (phase idx).weight
      = sumTo (fun i => (phase i).weight) GH_MAX_REGIONS + ph.weight := by
  have hch := sumTo_change (f := fun i => (phase i).weight)
    (g := fun i => (update phase idx ph i).weight) hidx
    fun j hj => by rw [update_of_ne hj]
  rwa [update_self] at hch

theorem used_change (h : w = sumTo (fun i => (phase i).weight) GH_MAX_REGIONS % 2 ^ 64)
    (hidx : idx < GH_MAX_REGIONS) (hw : ph.weight = (phase idx).weight) :
    w = sumTo (fun i => (update phase idx ph i).weight) GH_MAX_REGIONS % 2 ^ 64 := by
  have hch := weight_change phase ph hidx
  rw [h]
  congr 1
  omega

/-- the thread that has an entry has no other -/
theorem RInv.mine (h : RInv s phase) (hown : (phase idx).owner = some t) (i : Nat) (hi : i ≠ idx) :
    (phase i).owner ≠ some t := fun hc => hi (h.owners.single i idx t hc hown)

theorem RInv.idx_lt (h : RInv s phase) (hown : (phase idx).owner = some t) : idx < GH_MAX_REGIONS :=
  h.bounded idx fun hc => by
    rw [hc] at hown
    exact absurd hown (by simp [Phase.owner])

theorem RInv.only (h : RInv s phase) (hown : (phase idx).owner = some t) (t' : Nat)
    (ht : (phase idx).owner = some t') : t' = t := Option.some.inj (ht.symm.trans hown)

/-- a thread without an entry -/
theorem RInv.none_mine (h : RInv s phase) (hpc : (s.pc t).busy = false) (i : Nat) :
    (phase i).owner ≠ some t :=
  fun hc => by
    have := h.owners.busy i t hc
    rw [hpc] at this
    exact absurd this Bool.false_ne_true

end

end HeapForge.GuardHeap
