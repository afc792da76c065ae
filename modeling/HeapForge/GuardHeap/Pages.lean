import HeapForge.Lib.Pages
import HeapForge.Lib.Words
import HeapForge.GuardHeap.Slots

/-!
# The pages of the guard heap, and its signal handler

A process with any number of guard heaps.  An access to a page without rights raises a signal; the
handler knows only the heap that was created last, `g_active`, and looks the address up in its
table.

* `PageState`          what the system knows of a page; a page that the handler has opened is
                       marked;
* `ghLocate`           the entry whose mapping has the address, and the kind of the fault;
* `ghHandler`          counts the fault, and opens the page or lets the process die;
* `access`             an instruction that touches a byte;
* `PStep`              the steps of the process;
* `Layout`             where the mappings lie and how their pages are protected, and what keeps it
                       so.
-/

set_option linter.unusedSectionVars false
set_option linter.unusedVariables false

namespace HeapForge.GuardHeap
open Lib Function

-- the number of entries plays no part in the proofs, and its value should not be computed with
attribute [local irreducible] GH_MAX_REGIONS

inductive GuardPolicy
  | guardAbort
  | guardContinue
  deriving DecidableEq

inductive GuardKind
  | guardOverflow
  | guardUnderflow
  | guardQuarantine
  deriving DecidableEq

inductive PageState
  | unmapped
  | protNone
  | protRw
  /-- readable and writable, because the handler has let a faulting instruction pass -/
  | opened
  deriving DecidableEq

def PageState.accessible : PageState → Bool
  | .protRw | .opened => true
  | _ => false

def hfVmProtect (ps : Nat) (pages : Nat → PageState) (ptr size : Nat) (v : PageState) :
    Nat → PageState :=
  onPages ps pages ptr (hfAlignUp size ps) v

def hfVmRelease (ps : Nat) (pages : Nat → PageState) (ptr size : Nat) : Nat → PageState :=
  if ptr = 0 then pages else onPages ps pages ptr (hfAlignUp size ps) .unmapped

/-- the rest of `gh_heap` -/
structure Watched where
  h : GhHeap
  policy : GuardPolicy
  violations : Nat

structure Process where
  heaps : Nat → Option Watched
  /-- the number of the next heap -/
  count : Nat
  gActive : Option Nat
  pages : Nat → PageState
  killed : Bool

def Process.start : Process := ⟨fun _ => none, 0, none, fun _ => .unmapped, false⟩

/-! ## the handler -/

def ghLocate (h : GhHeap) (addr : Nat) : Option (Nat × GuardKind) :=
  (List.range GH_MAX_REGIONS).findSome? fun i =>
    let r := h.table i
    if r.state = .empty then none
    else if r.base ≤ addr ∧ addr < wadd r.base r.total then
      some (i, if r.state = .quarantined then .guardQuarantine
        else if addr < r.user then .guardUnderflow else .guardOverflow)
    else none

/-- what becomes of an instruction: it is done, it is done after a report for heap `i`, the process
dies in it after a report, or the previous handler of the signal is called -/
inductive Outcome
  | done
  | reported (i : Nat) (kind : GuardKind)
  | died (i : Nat) (kind : GuardKind)
  | chained
  deriving DecidableEq

/-- a fault that belongs to heap `i`, as its policy wants it -/
def Watched.report (w : Watched) (ps : Nat) (p : Process) (i addr : Nat) (kind : GuardKind) :
    Outcome × Process :=
  let heaps := update p.heaps i (some { w with violations := wadd w.violations 1 })
  match w.policy with
  | .guardContinue =>
    (.reported i kind,
      { p with
        heaps := heaps
        pages := hfVmProtect ps p.pages (addr &&& wnot (wsub ps 1)) ps .opened })
  -- the default action is restored, and the instruction raises the signal again
  | .guardAbort => (.died i kind, { p with heaps := heaps, killed := true })

def ghHandler (ps : Nat) (p : Process) (addr : Nat) : Outcome × Process :=
  match p.gActive with
  | none => (.chained, p)
  | some i =>
    match p.heaps i with
    | none => (.chained, p)
    | some w =>
      match ghLocate w.h addr with
      | none => (.chained, p)
      | some (_, kind) => w.report ps p i addr kind

/-- an instruction that reads or writes the byte at `addr` -/
def access (ps : Nat) (p : Process) (addr : Nat) : Outcome × Process :=
  if (p.pages (addr / ps)).accessible then (.done, p) else ghHandler ps p addr

/-! ## the calls, with the pages they map and protect -/

def Process.create (p : Process) (h : GhHeap) (policy : GuardPolicy) : Process :=
  { p with
    heaps := update p.heaps p.count (some ⟨h, policy, 0⟩)
    count := p.count + 1
    gActive := some p.count }

def guardedPages (ps : Nat) (pages : Nat → PageState) (base dataPages total : Nat) :
    Nat → PageState :=
  let pages := onPages ps pages base (hfAlignUp total ps) .protRw
  let pages := hfVmProtect ps pages base ps .protNone
  hfVmProtect ps pages (wadd (wadd base ps) dataPages) ps .protNone

def Process.allocate (vm : Vm) (p : Process) (i : Nat) (w : Watched) (size alignment : Nat) :
    Nat × Process :=
  let ps := vm.pageSize
  let total := ghTotal ps (ghSize size)
  let base := hfVmReserve vm total
  if base = 0 then (0, p)
  else
    let pages := guardedPages ps p.pages base (ghDataPages ps (ghSize size)) total
    match ghReserveSlot w.h with
    | none => (0, { p with pages := hfVmRelease ps pages base total })
    | some _ =>
      let r := ghAllocate vm w.h size alignment
      (r.1, { p with heaps := update p.heaps i (some { w with h := r.2 }), pages := pages })

def Process.deallocate (ps : Nat) (p : Process) (i : Nat) (w : Watched) (ptr : Nat) : Process :=
  if ptr = 0 then p
  else
    match ghFindByUser w.h ptr with
    | none => p
    | some idx =>
      { p with
        heaps := update p.heaps i (some { w with h := ghDeallocate w.h ptr })
        pages := hfVmProtect ps p.pages (w.h.table idx).base (w.h.table idx).total .protNone }

/-- the loop of `gh_destroy` over the entries -/
def releaseLoop (ps : Nat) (h : GhHeap) (pages : Nat → PageState) : List Nat → Nat → PageState :=
  List.foldl (fun pages i => if (h.table i).state = .empty then pages
    else hfVmRelease ps pages (h.table i).base (h.table i).total) pages

def Process.destroy (ps : Nat) (p : Process) (i : Nat) (w : Watched) : Process :=
  { p with
    heaps := update p.heaps i none
    gActive := if p.gActive = some i then none else p.gActive
    pages := releaseLoop ps w.h p.pages (List.range GH_MAX_REGIONS) }

/-! ## regions -/

/-- entry `idx` of heap `i` is in use, for `r` -/
def Process.Region (p : Process) (i idx : Nat) (r : GhRegion) : Prop :=
  ∃ w, p.heaps i = some w ∧ w.h.table idx = r ∧ r.state ≠ .empty

def Covers (r : GhRegion) (x : Nat) : Prop := r.base ≤ x ∧ x < r.base + r.total

instance (r : GhRegion) (x : Nat) : Decidable (Covers r x) := inferInstanceAs (Decidable (_ ∧ _))

/-- between the two guard pages -/
def Inner (ps : Nat) (r : GhRegion) (x : Nat) : Prop := r.base + ps ≤ x ∧ x + ps < r.base + r.total

inductive PAct
  | create (policy : GuardPolicy)
  | allocate (vm : Vm) (i size alignment : Nat)
  | deallocate (i ptr : Nat)
  | access (addr : Nat) (out : Outcome)
  | destroy (i : Nat)
  | others

/-- the steps of a process that is not dead.  The system maps only pages that are not in use, and
the rest of the program leaves the mappings of the heaps alone. -/
inductive PStep (ps : Nat) (p : Process) : PAct → Process → Prop
  | create {policy : GuardPolicy} {m : Mem} {h : GhHeap} (hk : p.killed = false)
      (hc : hfGuardHeapCreate true m = some h) : PStep ps p (.create policy) (p.create h policy)
  | allocate {vm : Vm} {i size alignment : Nat} {w : Watched} (hk : p.killed = false)
      (hw : p.heaps i = some w)
      (hps : vm.pageSize = ps) (hsize : ghSize size + 3 * ps ≤ 2 ^ 64)
      (hfresh : ∀ x, hfVmReserve vm (ghTotal ps (ghSize size)) ≤ x →
        x < hfVmReserve vm (ghTotal ps (ghSize size)) + ghTotal ps (ghSize size) →
        p.pages (x / ps) = .unmapped) :
      PStep ps p (.allocate vm i size alignment) (p.allocate vm i w size alignment).2
  | deallocate {i ptr : Nat} {w : Watched} (hk : p.killed = false) (hw : p.heaps i = some w) :
      PStep ps p (.deallocate i ptr) (p.deallocate ps i w ptr)
  | access {addr : Nat} (hk : p.killed = false) (haddr : addr < 2 ^ 64) :
      PStep ps p (.access addr (access ps p addr).1) (access ps p addr).2
  | destroy {i : Nat} {w : Watched} (hk : p.killed = false) (hw : p.heaps i = some w) :
      PStep ps p (.destroy i) (p.destroy ps i w)
  | others {pages : Nat → PageState} (hk : p.killed = false)
      (hsame : ∀ i idx r x, p.Region i idx r → Covers r x → pages (x / ps) = p.pages (x / ps)) :
      PStep ps p .others { p with pages := pages }

/-! ## how the mappings lie -/

/-- a mapping of whole pages, with the block between the guard pages -/
structure Framed (ps : Nat) (r : GhRegion) : Prop where
  base_pos : 0 < r.base
  base_dvd : ps ∣ r.base
  total_dvd : ps ∣ r.total
  below : r.base + r.total < 2 ^ 64
  front : r.base + ps ≤ r.user
  back : r.user + r.userSize + ps ≤ r.base + r.total

/-- the page of an address in `r` is as the state of the block wants it, or was opened -/
def Kept (ps : Nat) (pages : Nat → PageState) (r : GhRegion) (x : Nat) : Prop :=
  (r.state = .active ∧ Inner ps r x → pages (x / ps) = .protRw)
    ∧ (¬ (r.state = .active ∧ Inner ps r x) → pages (x / ps) = .protNone ∨ pages (x / ps) = .opened)

structure Layout (ps : Nat) (R : Nat → Nat → GhRegion → Prop) (pages : Nat → PageState) : Prop where
  slot : ∀ i idx r, R i idx r → idx < GH_MAX_REGIONS
  framed : ∀ i idx r, R i idx r → Framed ps r
  apart : ∀ i idx r j jdx r' x, R i idx r → R j jdx r' → ¬ (i = j ∧ idx = jdx) → Covers r x →
    ¬ Covers r' x
  kept : ∀ i idx r x, R i idx r → Covers r x → Kept ps pages r x

section
variable {ps k i j idx jdx x y base total d : Nat} {R R' : Nat → Nat → GhRegion → Prop}
  {pages pages' : Nat → PageState} {r r' : GhRegion}

theorem Kept.congr (h : Kept ps pages r x) (hx : pages' (x / ps) = pages (x / ps)) :
    Kept ps pages' r x := by
  unfold Kept
  rw [hx]
  exact h

theorem Kept.mapped (h : Kept ps pages r x) : pages (x / ps) ≠ .unmapped := by
  by_cases hin : r.state = .active ∧ Inner ps r x
  · rw [h.1 hin]
    exact fun hc => PageState.noConfusion hc
  · rcases h.2 hin with hp | hp
    · rw [hp]
      exact fun hc => PageState.noConfusion hc
    · rw [hp]
      exact fun hc => PageState.noConfusion hc

/-- fewer regions, and the pages of those left are as before -/
theorem Layout.restrict (h : Layout ps R pages) (hR : ∀ i idx r, R' i idx r → R i idx r)
    (hsame : ∀ i idx r x, R' i idx r → Covers r x → pages' (x / ps) = pages (x / ps)) :
    Layout ps R' pages' where
  slot := fun i idx r hr => h.slot i idx r (hR i idx r hr)
  framed := fun i idx r hr => h.framed i idx r (hR i idx r hr)
  apart := fun i idx r j jdx r' x hr hr' =>
    h.apart i idx r j jdx r' x (hR i idx r hr) (hR j jdx r' hr')
  kept := fun i idx r x hr hx => (h.kept i idx r x (hR i idx r hr) hx).congr (hsame i idx r x hr hx)

/-- entry `idx` of heap `i` is given to `r` -/
theorem Layout.put (h : Layout ps R pages) (hidx : idx < GH_MAX_REGIONS) (hr : Framed ps r)
    (hR : ∀ j jdx r', R' j jdx r' →
      (j = i ∧ jdx = idx ∧ r' = r) ∨ (R j jdx r' ∧ ¬ (i = j ∧ idx = jdx)))
    (hap : ∀ j jdx r' x, R j jdx r' → ¬ (i = j ∧ idx = jdx) → Covers r x → ¬ Covers r' x)
    (hkept : ∀ x, Covers r x → Kept ps pages' r x)
    (hsame : ∀ x, ¬ Covers r x → pages' (x / ps) = pages (x / ps)) : Layout ps R' pages' where
  slot := by
    intro j jdx r' hj
    rcases hR j jdx r' hj with ⟨rfl, rfl, rfl⟩ | ⟨hj, -⟩
    · exact hidx
    · exact h.slot j jdx r' hj
  framed := by
    intro j jdx r' hj
    rcases hR j jdx r' hj with ⟨rfl, rfl, rfl⟩ | ⟨hj, -⟩
    · exact hr
    · exact h.framed j jdx r' hj
  apart := by
    intro j jdx r₁ j' jdx' r₂ x h1 h2 hne hx hx'
    rcases hR j jdx r₁ h1 with ⟨rfl, rfl, rfl⟩ | ⟨h1, hn1⟩
    · rcases hR j' jdx' r₂ h2 with ⟨rfl, rfl, rfl⟩ | ⟨h2, hn2⟩
      · exact hne ⟨rfl, rfl⟩
      · exact hap j' jdx' r₂ x h2 hn2 hx hx'
    · rcases hR j' jdx' r₂ h2 with ⟨rfl, rfl, rfl⟩ | ⟨h2, hn2⟩
      · exact hap j jdx r₁ x h1 hn1 hx' hx
      · exact h.apart j jdx r₁ j' jdx' r₂ x h1 h2 hne hx hx'
  kept := by
    intro j jdx r' x hj hx
    rcases hR j jdx r' hj with ⟨rfl, rfl, rfl⟩ | ⟨hj, hne⟩
    · exact hkept x hx
    · exact (h.kept j jdx r' x hj hx).congr (hsame x fun hc => hap j jdx r' x hj hne hc hx)

/-- a page that faults is opened -/
theorem Layout.open_page (h : Layout ps R pages) (h0 : 0 < ps) (hy : pages (y / ps) ≠ .protRw) :
    Layout ps R (onPages ps pages (y / ps * ps) ps .opened) where
  slot := h.slot
  framed := h.framed
  apart := h.apart
  kept := by
    intro i idx r x hr hx
    have hold := h.kept i idx r x hr hx
    unfold Kept
    rw [onPages_page h0]
    by_cases hxy : x / ps = y / ps
    · rw [if_pos hxy]
      refine ⟨fun hin => absurd (hxy ▸ hold.1 hin) hy, fun _ => Or.inr rfl⟩
    · rw [if_neg hxy]
      exact hold

/-! ## the calls on the pages -/

theorem hfVmProtect_div (hk : k < 64) (hp : 2 ^ k ∣ base) (ht : 2 ^ k ∣ total)
    (hlt : total < 2 ^ 64) (v : PageState) : hfVmProtect (2 ^ k) pages base total v (x / 2 ^ k)
      = if base ≤ x ∧ x < base + total then v else pages (x / 2 ^ k) := by
  unfold hfVmProtect
  rw [hfAlignUp_of_dvd hlt hk ht]
  exact onPages_div (Nat.two_pow_pos k) hp ht

theorem hfVmRelease_div (hk : k < 64) (h0 : base ≠ 0) (hp : 2 ^ k ∣ base) (ht : 2 ^ k ∣ total)
    (hlt : total < 2 ^ 64) : hfVmRelease (2 ^ k) pages base total (x / 2 ^ k)
      = if base ≤ x ∧ x < base + total then .unmapped else pages (x / 2 ^ k) := by
  unfold hfVmRelease
  rw [if_neg h0, hfAlignUp_of_dvd hlt hk ht]
  exact onPages_div (Nat.two_pow_pos k) hp ht

/-- the pages of a mapping of `d` bytes of data pages: those between the guard pages can be used -/
theorem guardedPages_div (hk : k < 64) (hp : 2 ^ k ∣ base) (hd : 2 ^ k ∣ d)
    (hlt : base + (2 ^ k + d + 2 ^ k) < 2 ^ 64) :
    guardedPages (2 ^ k) pages base d (2 ^ k + d + 2 ^ k) (x / 2 ^ k)
      = if base ≤ x ∧ x < base + (2 ^ k + d + 2 ^ k) then
          if base + 2 ^ k ≤ x ∧ x < base + 2 ^ k + d then .protRw else .protNone
        else pages (x / 2 ^ k) := by
  have ht : 2 ^ k ∣ 2 ^ k + d + 2 ^ k := Nat.dvd_add (Nat.dvd_add dvd_rfl hd) dvd_rfl
  have hb : 2 ^ k ∣ base + 2 ^ k + d := Nat.dvd_add (Nat.dvd_add hp dvd_rfl) hd
  unfold guardedPages
  rw [wadd_of_lt (show base + 2 ^ k < 2 ^ 64 by omega),
    wadd_of_lt (show base + 2 ^ k + d < 2 ^ 64 by omega), hfVmProtect_div hk hb dvd_rfl (by omega),
    hfVmProtect_div hk hp dvd_rfl (by omega), hfAlignUp_of_dvd (by omega) hk ht,
    onPages_div (Nat.two_pow_pos k) hp ht]
  by_cases hin : base ≤ x ∧ x < base + (2 ^ k + d + 2 ^ k)
  · rw [if_pos hin, if_pos hin]
    by_cases hback : base + 2 ^ k + d ≤ x ∧ x < base + 2 ^ k + d + 2 ^ k
    · rw [if_pos hback, if_neg (by omega)]
    · rw [if_neg hback]
      by_cases hfront : base ≤ x ∧ x < base + 2 ^ k
      · rw [if_pos hfront, if_neg (by omega)]
      · rw [if_neg hfront, if_pos (by omega)]
  · rw [if_neg hin, if_neg (by omega), if_neg (by omega), if_neg hin]

/-- the block of a request lies between the guard pages, whatever the alignment -/
theorem ghPlace_bounds {size : Nat} (alignment : Nat) (hs : size ≤ d)
    (hlt : base + (ps + d + ps) < 2 ^ 64) :
    base + ps ≤ ghPlace ps base d size alignment
    ∧ ghPlace ps base d size alignment + size ≤ base + ps + d := by
  unfold ghPlace
  dsimp only
  rw [wadd_of_lt (show base + ps < 2 ^ 64 by omega),
    wadd_of_lt (show base + ps + d < 2 ^ 64 by omega),
    wsub_of_le (show size ≤ base + ps + d by omega) (by omega)]
  have hmask : (base + ps + d - size) &&& wnot (wsub alignment 1) ≤ base + ps + d - size :=
    Nat.and_le_left
  split
  · omega
  · omega

/-- what a mapping for a request looks like -/
theorem mapping_spec {vm : Vm} {size : Nat} (hsize : ghSize size + 3 * vm.pageSize ≤ 2 ^ 64)
    (hbase : hfVmReserve vm (ghTotal vm.pageSize (ghSize size)) ≠ 0) :
    ∃ d base, ghDataPages vm.pageSize (ghSize size) = d
    ∧ ghTotal vm.pageSize (ghSize size) = vm.pageSize + d + vm.pageSize
      ∧ hfVmReserve vm (ghTotal vm.pageSize (ghSize size)) = base ∧ vm.pageSize ∣ d
      ∧ ghSize size ≤ d
      ∧ vm.pageSize ∣ base ∧ base + (vm.pageSize + d + vm.pageSize) < 2 ^ 64 := by
  have hps : vm.pageSize = 2 ^ vm.pageOrder := rfl
  have hpos : 0 < vm.pageSize := by
    have := vm.pageSize_ge
    omega
  obtain ⟨hle, hlt⟩ := vm.alignPage (n := ghSize size) (by omega)
  have hd : vm.pageSize ∣ ghDataPages vm.pageSize (ghSize size) := vm.alignPage_dvd _
  have htotal : ghTotal vm.pageSize (ghSize size)
      = vm.pageSize + ghDataPages vm.pageSize (ghSize size) + vm.pageSize := by
    unfold ghTotal ghDataPages
    rw [wadd_of_lt (show vm.pageSize + hfAlignUp (ghSize size) vm.pageSize < 2 ^ 64 by omega),
      wadd_of_lt (by omega)]
  have hlt' : vm.pageSize + ghDataPages vm.pageSize (ghSize size) + vm.pageSize < 2 ^ 64 := by
    unfold ghDataPages
    omega
  rw [htotal] at hbase ⊢
  obtain ⟨h1, h2, -⟩ := hfVmReserve_spec vm hlt'
    (Nat.dvd_add (Nat.dvd_add dvd_rfl hd) dvd_rfl) hbase
  exact ⟨_, _, rfl, rfl, rfl, hd, hle, h1, h2⟩

end

end HeapForge.GuardHeap
