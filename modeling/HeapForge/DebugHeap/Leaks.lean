import HeapForge.DebugHeap.Decorate

/-!
# What the decorator reports as leaked, and what it gives back

* `hfDebugHeapReport`       the counters, and the blocks and bytes that are still listed;
* `Guarded.slots`           the listed entries are the client's blocks, each once;
* `debug_heap_reclaims`     **the report is exact, and `dh_destroy` gives everything back.**
-/

set_option linter.unusedSectionVars false
set_option linter.unusedVariables false

namespace HeapForge.DebugHeap
open Lib Function

/-- the loop of `hf_debug_heap_report` over the first slots: `leaked_blocks` and `leaked_bytes` -/
def reportLoop (t : DhTable) : Nat → Nat × Nat
  | 0 => (0, 0)
  | i + 1 =>
    let (blocks, bytes) := reportLoop t i
    if (t.table i).listed then (wadd blocks 1, wadd bytes (t.table i).size) else (blocks, bytes)

/-- `hf_debug_heap_report` -/
def hfDebugHeapReport {β : Type*} (h : DhHeap β) : DhReport × Nat × Nat :=
  (h.rep, reportLoop h.tab h.tab.cap)

/-- the client's range of an entry -/
def DhEntry.extent (e : DhEntry) : Extent := ⟨e.user, e.size⟩

/-- the listed entries among the first slots -/
def listedEntries (t : DhTable) (n : Nat) : List DhEntry :=
  ((List.range n).map t.table).filter DhEntry.listed

section
variable {t : DhTable} {n : Nat}

theorem listedEntries_succ (t : DhTable) (n : Nat) :
    listedEntries t (n + 1) = listedEntries t n
      ++ if (t.table n).listed then [t.table n] else [] := by
  unfold listedEntries
  rw [List.range_succ, List.map_append, List.filter_append, List.map_singleton,
    List.filter_singleton]
  cases (t.table n).listed <;> rfl

theorem destroyLoop_eq (t : DhTable) (n : Nat) :
    destroyLoop t n = (listedEntries t n).map DhEntry.raw := by
  induction n with
  | zero => rfl
  | succ n ih =>
    rw [listedEntries_succ, List.map_append, ← ih, destroyLoop]
    cases (t.table n).listed <;> rfl

/-- the two sums, as the loop computes them -/
theorem reportLoop_eq (t : DhTable) (n : Nat) :
    reportLoop t n = ((listedEntries t n).length % 2 ^ 64,
      ((listedEntries t n).map DhEntry.size).sum % 2 ^ 64) := by
  induction n with
  | zero => rfl
  | succ n ih =>
    rw [listedEntries_succ, reportLoop, ih]
    dsimp only
    cases hl : (t.table n).listed with
    | false => simp
    | true =>
      rw [if_pos rfl, if_pos rfl, List.length_append, List.map_append, List.sum_append, wadd, wadd,
        Nat.mod_add_mod, Nat.mod_add_mod]
      simp

end

section
variable {β : Type*} {B : Allocator β} {Req : Nat → Nat → Prop}
  {Frees : List Extent → Extent → Prop} {Ok : β → List Extent → Prop} {cl : TableCalloc}
  {h : DhHeap β} {l : List Extent} {en : DhEntry}

/-- a listed entry is what the table has for its pointer -/
theorem get_of_listed (ht : TabInv h.tab) (hen : en ∈ listedEntries h.tab h.tab.cap) :
    en.user ≠ 0 ∧ en.raw ≠ 0 ∧ h.tab.get en.user = some en := by
  obtain ⟨hm, hl⟩ := List.mem_filter.mp hen
  obtain ⟨i, hi, rfl⟩ := List.mem_map.mp hm
  have hl' : (h.tab.table i).user ≠ 0 ∧ (h.tab.table i).raw ≠ 0 := by
    simp only [DhEntry.listed, Bool.and_eq_true, bne_iff_ne, ne_eq] at hl
    exact ⟨hl.1.1, hl.2⟩
  exact ⟨hl'.1, hl'.2, (get_eq_some ht hl'.1).mpr ⟨i, List.mem_range.mp hi, rfl, rfl⟩⟩

/-- the entry of a client's range -/
theorem Guarded.entry_of_listed (hg : Guarded B Ok h l) (hen : en ∈ listedEntries h.tab h.tab.cap) :
    ∃ e ∈ l, en = ⟨e.ptr, e.ptr - 12, e.size, false⟩ := by
  obtain ⟨hu, hr, hget⟩ := get_of_listed hg.tab hen
  obtain ⟨e, he, hep⟩ := hg.listed _ _ hu hget hr
  have hent := (hg.entry e he).2
  rw [hep] at hent
  refine ⟨e, he, ?_⟩
  rw [Option.some.inj (hget.symm.trans hent), hep]

theorem Guarded.slots (hB : Implements B Req Frees Ok) (hg : Guarded B Ok h l) :
    ((listedEntries h.tab h.tab.cap).map DhEntry.extent).Perm l := by
  have hnd : l.Nodup :=
    (apart_of_wrapped hg.above (hB.apart hg.backend)).imp fun hne hc =>
      hne.1 (congrArg Extent.ptr hc)
  refine (List.perm_ext_iff_of_nodup ?_ hnd).mpr fun e => ?_
  · -- two slots hold different pointers
    unfold listedEntries
    rw [List.filter_map, List.map_map]
    refine List.Nodup.map_on (fun i hi j hj heq => ?_) (List.nodup_range.filter _)
    obtain ⟨hir, hil⟩ := List.mem_filter.mp hi
    obtain ⟨hjr, -⟩ := List.mem_filter.mp hj
    have hu : (h.tab.table i).user ≠ 0 := by
      simp only [Function.comp_apply, DhEntry.listed, Bool.and_eq_true, bne_iff_ne, ne_eq] at hil
      exact hil.1.1
    have heq' : (h.tab.table i).user = (h.tab.table j).user := congrArg Extent.ptr heq
    exact hg.tab.probed.inj (List.mem_range.mp hir) (List.mem_range.mp hjr)
      ((key_eq_some hu).mpr rfl)
      ((key_eq_some hu).mpr heq'.symm)
  · constructor
    · intro hm
      obtain ⟨en, hen, rfl⟩ := List.mem_map.mp hm
      obtain ⟨e, he, rfl⟩ := hg.entry_of_listed hen
      exact he
    · intro he
      obtain ⟨h12, hent⟩ := hg.entry e he
      obtain ⟨i, hi, hti, -⟩ := (get_eq_some hg.tab (show e.ptr ≠ 0 by omega)).mp hent
      refine List.mem_map.mpr ⟨⟨e.ptr, e.ptr - 12, e.size, false⟩, List.mem_filter.mpr
        ⟨List.mem_map.mpr ⟨i, List.mem_range.mpr hi, hti⟩, ?_⟩, rfl⟩
      have h1 : e.ptr ≠ 0 := by omega
      have h2 : e.ptr - 12 ≠ 0 := by omega
      simp [DhEntry.listed, h1, h2]

/-- with their guards the blocks fit in the address space, so the sums do not wrap -/
theorem Guarded.sums (hB : Implements B Req Frees Ok) (hg : Guarded B Ok h l) :
    (l.map Extent.size).sum + 16 * l.length ≤ 2 ^ 64 := by
  have hle : ((l.map wrapped).map Extent.size).sum ≤ 2 ^ 64 :=
    sum_size_le (hB.apart hg.backend) fun e he => (hB.inside hg.backend he).le
  have hsum : ∀ l : List Extent, ((l.map wrapped).map Extent.size).sum
      = (l.map Extent.size).sum + 16 * l.length := by
    intro l
    induction l with
    | nil => rfl
    | cons e l ih =>
      simp only [List.map_cons, List.sum_cons, List.length_cons, ih, wrapped]
      omega
  rw [hsum] at hle
  exact hle

theorem Guarded.report (hB : Implements B Req Frees Ok) (hg : Guarded B Ok h l) :
    (hfDebugHeapReport h).1.activeAllocs = l.length
      ∧ (hfDebugHeapReport h).2 = (l.length, (l.map Extent.size).sum) := by
  have hs := hg.sums hB
  have hperm := hg.slots hB
  have hlen := hperm.length_eq
  have hsum := (hperm.map Extent.size).sum_eq
  rw [List.length_map] at hlen
  rw [List.map_map] at hsum
  have hsum' : ((listedEntries h.tab h.tab.cap).map DhEntry.size).sum
    = (l.map Extent.size).sum := hsum
  have hlt : l.length < 2 ^ 64 ∧ (l.map Extent.size).sum < 2 ^ 64 := by
    cases l with
    | nil => simp
    | cons e l =>
      simp only [List.length_cons] at hs ⊢
      omega
  constructor
  · show h.rep.activeAllocs = l.length
    rw [hg.active, Nat.mod_eq_of_lt hlt.1]
  · show reportLoop h.tab h.tab.cap = _
    rw [reportLoop_eq, hlen, hsum', Nat.mod_eq_of_lt hlt.1, Nat.mod_eq_of_lt hlt.2]

theorem Guarded.destroy (hB : Implements B Req Frees Ok) (hany : ∀ l e, Frees l e)
    (hg : Guarded B Ok h l) :
    ∃ b, (dhDestroy h.tab).foldlM B.deallocate h.backend = some b ∧ Ok b [] := by
  have hperm := (hg.slots hB).map wrapped
  obtain ⟨b, hall, hend⟩ := hB.free_all hany hg.backend hperm
  refine ⟨b, ?_, hend⟩
  rw [List.map_map, List.map_map] at hall
  have hraws : dhDestroy h.tab
      = (listedEntries h.tab h.tab.cap).map (Extent.ptr ∘ wrapped ∘ DhEntry.extent) := by
    rw [dhDestroy, destroyLoop_eq]
    refine List.map_congr_left fun en hen => ?_
    obtain ⟨e, -, rfl⟩ := hg.entry_of_listed hen
    rfl
  rw [hraws]
  exact hall

end

/-- **The leak report is exact and nothing stays behind.**  In every state of every run of a client
that writes inside its blocks and frees each of them at most once, over a backend that keeps its
contract in any order of frees: the report counts exactly the blocks the client still holds and the
bytes it asked for, and `dh_destroy` gives each of them back, which leaves the backend as one nobody
uses. -/
theorem debug_heap_reclaims {β : Type*} {B : Allocator β} {Req : Nat → Nat → Prop}
    {Frees : List Extent → Extent → Prop} {Ok : β → List Extent → Prop} {cl : TableCalloc} {b : β}
    {h : DhHeap β} {evs : List Event} {s : Client (DhHeap β)} (hB : Implements B Req Frees Ok)
    (hany : ∀ l e, Frees l e) (hb : Ok b []) (hc : hfDebugHeapCreate cl b = some h)
    (hrun : Steps (ClientStep (decorated B cl) (Wraps Req) (Unwinds Frees)) ⟨h, []⟩ evs s) :
    (hfDebugHeapReport s.b).1.activeAllocs = s.held.length
      ∧ (hfDebugHeapReport s.b).2 = (s.held.length, (s.held.map Extent.size).sum)
      ∧ ∃ b', (dhDestroy s.b.tab).foldlM B.deallocate s.b.backend = some b' ∧ Ok b' [] := by
  have hok : Guarded B Ok s.b s.held := (decorates hB cl).of_run (Guarded.create hc hb) hrun
  obtain ⟨h1, h2⟩ := hok.report hB
  exact ⟨h1, h2, hok.destroy hB hany⟩

/-- a block of 40 bytes is leaked, and the free list gets it back -/
theorem debug_heap_reclaims_free_list : ∃ s,
    Steps
    (ClientStep (decorated FreeList.allocator grantAll) (Wraps FreeList.Plain) (Unwinds anyOrder))
      ⟨freeListHeap, []⟩ [.grant (2 ^ 20 + 28) 40] s
    ∧ (hfDebugHeapReport s.b).2 = (1, 40)
    ∧ ∃ a, (dhDestroy s.b.tab).foldlM FreeList.flDeallocate s.b.backend = some a
    ∧ a.stats.used = 0 := by
  have h1 : ((decorated FreeList.allocator grantAll).allocate freeListHeap 40 16).map Prod.fst
      = some (2 ^ 20 + 28) := by decide +kernel
  obtain ⟨⟨p, h⟩, hr, hp⟩ := Option.map_eq_some_iff.mp h1
  obtain rfl : p = 2 ^ 20 + 28 := hp
  have hreq : Wraps FreeList.Plain 40 16 := ⟨by omega, by omega, le_refl 16⟩
  have s1 := @ClientStep.grant _ (decorated FreeList.allocator grantAll) (Wraps FreeList.Plain)
    (Unwinds anyOrder) ⟨freeListHeap, []⟩ 40 16 (2 ^ 20 + 28) h hreq hr (by omega)
  have hrun := (Steps.nil _).snoc s1
  have hstart : FreeList.Serves FreeList.sampleHeap [] :=
    FreeList.Serves.create FreeList.sampleHeap_create
  obtain ⟨-, h2, a, h3, h4⟩ := debug_heap_reclaims (B := FreeList.allocator) FreeList.implements
    (fun _ _ => trivial) hstart
    (show hfDebugHeapCreate grantAll FreeList.sampleHeap = some freeListHeap from rfl) hrun
  exact ⟨_, hrun, h2, a, h3, h4.empty⟩

end HeapForge.DebugHeap
