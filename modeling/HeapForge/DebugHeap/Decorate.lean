import HeapForge.DebugHeap.Guards
import HeapForge.DebugHeap.Puts
import HeapForge.FreeList.Client
import HeapForge.Oversize

/-!
# The decorator over any allocator that keeps its contract

`hf_debug_heap_create` takes an allocator and is one.  If the backend keeps the contract of
`Lib/Objects`, the decorator keeps it too: a client that writes inside its blocks and frees each of
them once sees objects of its own, and the decorator has nothing to report.

* `wrapped`                   the range of the backend behind a range of the client;
* `Guarded`                   the table lists exactly the client's ranges, their canaries are
                              intact, and no error is counted;
* `decorates`                 the contract of the decorator from the contract of the backend;
* `debug_heap_transparent`    **every run.**
-/

set_option linter.unusedSectionVars false
set_option linter.unusedVariables false

namespace HeapForge.DebugHeap
open Lib Function

/-- the calls of `DH_VT` -/
def decorated {β : Type*} (B : Allocator β) (cl : TableCalloc) : Allocator (DhHeap β) where
  allocate := dhAllocate B cl
  deallocate h ptr := (dhDeallocate B h ptr).2
  heap h := B.heap h.backend
  setHeap h m := { h with backend := B.setHeap h.backend m }

/-- the client's bytes with the guards around them -/
def wrapped (e : Extent) : Extent := ⟨e.ptr - 12, e.size + 16⟩

/-- what may be asked of the decorator: that the backend may be asked for the guards too -/
def Wraps (Req : Nat → Nat → Prop) (size alignment : Nat) : Prop :=
  size + 16 < 2 ^ 64 ∧ Req (size + 16) alignment

/-- the order of frees, as the backend sees it -/
def Unwinds (Frees : List Extent → Extent → Prop) (l : List Extent) (e : Extent) : Prop :=
  Frees (l.map wrapped) (wrapped e)

structure Guarded {β : Type*} (B : Allocator β) (Ok : β → List Extent → Prop) (h : DhHeap β)
    (l : List Extent) : Prop where
  backend : Ok h.backend (l.map wrapped)
  tab : TabInv h.tab
  entry : ∀ e ∈ l, 12 < e.ptr ∧ h.tab.get e.ptr = some ⟨e.ptr, e.ptr - 12, e.size, false⟩
  /-- an entry with a block is one of the client's -/
  listed : ∀ p en, p ≠ 0 → h.tab.get p = some en → en.raw ≠ 0 → ∃ e ∈ l, e.ptr = p
  intact : ∀ e ∈ l, verifyBlock (B.heap h.backend) (e.ptr - 12) e.size = true
  quiet : h.rep.canaryViolations = 0 ∧ h.rep.doubleFrees = 0 ∧ h.rep.invalidFrees = 0
  active : h.rep.activeAllocs = l.length % 2 ^ 64

/-! ## guards and ranges -/

theorem count_down {n : Nat} (hn : 0 < n) : wsub (n % 2 ^ 64) 1 = (n - 1) % 2 ^ 64 := by
  obtain ⟨k, rfl⟩ : ∃ k, n = k + 1 := ⟨n - 1, by omega⟩
  rw [Nat.add_sub_cancel, ← wadd_count rfl, wsub, wadd]
  omega

section
variable {m m' : Mem} {l : List Extent} {e f : Extent} {raw size x : Nat}

theorem verifyBlock_congr (h : ∀ x, raw ≤ x → x < raw + 4 → m' x = m x)
    (h' : ∀ x, raw + 12 + size ≤ x → x < raw + 12 + size + 4 → m' x = m x) :
    verifyBlock m' raw size = verifyBlock m raw size := by
  have e1 : m'.load32 raw = m.load32 raw := Mem.load_congr h
  have e2 : m'.load32 (raw + DH_HEAD + size) = m.load32 (raw + DH_HEAD + size) := Mem.load_congr h'
  unfold verifyBlock
  rw [e1, e2]

/-- the client's bytes of a block with fresh guards -/
def fresh (m : Mem) (raw size : Nat) : Mem := (writeGuards m raw size).fill (raw + 12) size DH_FILL

theorem fresh_outside (h : x < raw ∨ raw + (size + 16) ≤ x) : fresh m raw size x = m x := by
  have h12 : DH_HEAD = 12 := rfl
  have e : fresh m raw size x = writeGuards m raw size x := if_neg (by omega)
  rw [e]
  unfold writeGuards
  rw [Mem.store32, Mem.store_of_notMem (by omega), Mem.store64, Mem.store_of_notMem (by omega),
    Mem.store32, Mem.store_of_notMem (by omega)]

theorem fresh_intact (m : Mem) (raw size : Nat) :
    verifyBlock (fresh m raw size) raw size = true := by
  have hfill : ∀ x, (x < raw + 12 ∨ raw + 12 + size ≤ x) →
      fresh m raw size x = writeGuards m raw size x :=
    fun x hx => if_neg (by omega)
  rw [verifyBlock_congr (fun x h1 h2 => hfill x (by omega)) fun x h1 h2 => hfill x (by omega)]
  unfold verifyBlock
  rw [writeGuards_head, writeGuards_tail]
  decide

theorem held_wrapped (hl : ∀ e ∈ l, 12 < e.ptr) (h : Held l x) : Held (l.map wrapped) x := by
  obtain ⟨e, he, h1, h2⟩ := h
  have h12 := hl e he
  exact ⟨_, List.mem_map_of_mem he,
    show e.ptr - 12 ≤ x by omega, show x < e.ptr - 12 + (e.size + 16) by omega⟩

/-- ranges whose wrapped ranges are apart are apart -/
theorem apart_of_wrapped (hl : ∀ e ∈ l, 12 < e.ptr) (h : (l.map wrapped).Pairwise Extent.Apart) :
    l.Pairwise Extent.Apart := by
  refine (List.pairwise_map.mp h).imp_of_mem fun {e f} he hf hap => ?_
  have h1 := hl e he
  have h2 := hl f hf
  have h3 : e.ptr - 12 ≠ f.ptr - 12 := hap.1
  have h4 : e.ptr - 12 + (e.size + 16) ≤ f.ptr - 12
    ∨ f.ptr - 12 + (f.size + 16) ≤ e.ptr - 12 := hap.2
  exact ⟨by omega, by omega⟩

/-- the guards of a range belong to no range -/
theorem guard_not_held (hl : ∀ e ∈ l, 12 < e.ptr) (h : (l.map wrapped).Pairwise Extent.Apart)
    (he : e ∈ l) (hx : e.ptr - 12 ≤ x ∧ x < e.ptr ∨ e.ptr + e.size ≤ x ∧ x < e.ptr + e.size + 4) :
    ¬ Held l x := by
  rintro ⟨f, hf, h1, h2⟩
  have h12 := hl e he
  have h12' := hl f hf
  by_cases hef : e = f
  · subst hef
    omega
  · have hwe : wrapped e ≠ wrapped f := by
      intro hw
      have e1 : e.ptr - 12 = f.ptr - 12 := congrArg Extent.ptr hw
      have e2 : e.size + 16 = f.size + 16 := congrArg Extent.size hw
      apply hef
      cases e
      cases f
      simp only [Extent.mk.injEq]
      simp only at e1 e2 h12 h12'
      omega
    have hap := (apart_of_mem h (List.mem_map_of_mem he) (List.mem_map_of_mem hf) hwe).2
    have hap' : e.ptr - 12 + (e.size + 16) ≤ f.ptr - 12
      ∨ f.ptr - 12 + (f.size + 16) ≤ e.ptr - 12 := hap
    omega

theorem wrapped_inj (hl : ∀ e ∈ l, 12 < e.ptr) (he : e ∈ l) :
    ∀ g ∈ l, wrapped g = wrapped e → g = e := by
  intro g hg hw
  have h1 := hl g hg
  have h2 := hl e he
  have e1 : g.ptr - 12 = e.ptr - 12 := congrArg Extent.ptr hw
  have e2 : g.size + 16 = e.size + 16 := congrArg Extent.size hw
  cases g
  cases e
  simp only [Extent.mk.injEq]
  simp only at e1 e2 h1 h2
  omega

end

/-! ## the calls -/

section
variable {β : Type*} {B : Allocator β} {cl : TableCalloc} {h h' : DhHeap β} {p size alignment : Nat}

/-- a request whose sum does not wrap -/
theorem dhAllocate_spec (hw : size + 16 < 2 ^ 64)
    (ha : dhAllocate B cl h size alignment = some (p, h')) :
    ∃ raw b, B.allocate h.backend (size + 16) alignment = some (raw, b)
      ∧ (raw = 0 ∧ p = 0 ∧ h' = { h with backend := b }
        ∨ raw ≠ 0 ∧ p = raw + 12 ∧ ∃ t, dhPut cl 64 h.tab p raw size = some t
          ∧ h' = ⟨B.setHeap b (fresh (B.heap b) raw size), t, { h.rep with
            totalAllocs := wadd h.rep.totalAllocs 1
            activeAllocs := wadd h.rep.activeAllocs 1 }⟩) := by
  have htotal : wadd (wadd DH_HEAD size) DH_TAIL = size + 16 := by
    rw [show wadd DH_HEAD size = 12 + size from wadd_of_lt (show 12 + size < 2 ^ 64 by omega),
      show wadd (12 + size) DH_TAIL
        = 12 + size + 4 from wadd_of_lt (show 12 + size + 4 < 2 ^ 64 by omega)]
    omega
  unfold dhAllocate at ha
  dsimp only at ha
  rw [htotal] at ha
  obtain ⟨⟨raw, b⟩, hb, ha⟩ := Option.bind_eq_some_iff.mp ha
  refine ⟨raw, b, hb, ?_⟩
  dsimp only at ha
  by_cases hr : raw = 0
  · rw [if_pos hr] at ha
    obtain ⟨rfl, rfl⟩ := Prod.mk.inj (Option.some.inj ha)
    exact Or.inl ⟨hr, rfl, rfl⟩
  · rw [if_neg hr] at ha
    split at ha
    · exact absurd ha (by simp)
    · obtain ⟨t, hput, ha⟩ := Option.map_eq_some_iff.mp ha
      obtain ⟨rfl, rfl⟩ := Prod.mk.inj ha
      exact Or.inr ⟨hr, rfl, t, hput, rfl⟩

/-- a free of a block with intact canaries -/
theorem dhDeallocate_intact (ht : TabInv h.tab) (h12 : 12 < p)
    (hg : h.tab.get p = some ⟨p, p - 12, size, false⟩)
    (hv : verifyBlock (B.heap h.backend) (p - 12) size = true) :
    ∃ tab rep, (dhDeallocate B h p).2
        = (B.deallocate (B.setHeap h.backend ((B.heap h.backend).fill p size DH_POISON))
          (p - 12)).map
          (fun b => ⟨b, tab, rep⟩)
      ∧ TabInv tab
      ∧ (∀ q, q ≠ 0 → tab.get q = if q = p then some ⟨p, 0, size, true⟩ else h.tab.get q)
      ∧ rep.activeAllocs = wsub h.rep.activeAllocs 1 ∧ rep.canaryViolations = h.rep.canaryViolations
      ∧ rep.doubleFrees = h.rep.doubleFrees ∧ rep.invalidFrees = h.rep.invalidFrees := by
  have hp : p ≠ 0 := by omega
  obtain ⟨i, hf, he, -⟩ := dhDeallocate_found ht hp hg
  obtain ⟨hinv, hget⟩ := setEntry_spec ht hp hf (rfl : (⟨p, 0, size, true⟩ : DhEntry).user = p)
  refine ⟨_, { h.rep with
    totalFrees := wadd h.rep.totalFrees 1
    activeAllocs := wsub h.rep.activeAllocs 1 }, ?_, hinv, hget, rfl, rfl, rfl, rfl⟩
  unfold dhDeallocate
  dsimp only
  rw [if_neg hp, hf]
  dsimp only
  rw [he, if_neg (by simp), if_neg (by simp), if_neg (show ¬ p - 12 = 0 by omega)]
  dsimp only
  rw [if_pos hv]

end

/-! ## the contract -/

section
variable {β : Type*} {B : Allocator β} {Req : Nat → Nat → Prop}
  {Frees : List Extent → Extent → Prop} {Ok : β → List Extent → Prop} {cl : TableCalloc}
  {h h' : DhHeap β} {l : List Extent} {e : Extent} {p size alignment : Nat} {m : Mem}

theorem Guarded.above (hg : Guarded B Ok h l) : ∀ e ∈ l, 12 < e.ptr := fun e he => (hg.entry e he).1

theorem Guarded.alloc (hB : Implements B Req Frees Ok) (hg : Guarded B Ok h l)
    (hreq : Wraps Req size alignment) (ha : dhAllocate B cl h size alignment = some (p, h')) :
    Mem.SameOn (Held l) (B.heap h.backend) (B.heap h'.backend)
      ∧ (p = 0 → Guarded B Ok h' l) ∧ (p ≠ 0 → Guarded B Ok h' (⟨p, size⟩ :: l)) := by
  obtain ⟨hw, hreq⟩ := hreq
  obtain ⟨raw, b, hb, ⟨rfl, rfl, rfl⟩ | ⟨hr, rfl, t, hput, rfl⟩⟩ := dhAllocate_spec hw ha
  · obtain ⟨hsame, hok, -⟩ := hB.alloc hg.backend hreq hb
    have hsame' : Mem.SameOn (Held (l.map wrapped)) (B.heap h.backend) (B.heap b) := hsame
    refine ⟨hsame'.mono fun x hx => held_wrapped hg.above hx,
      fun _ => ⟨hok rfl, hg.tab, hg.entry, hg.listed, fun e he => ?_, hg.quiet, hg.active⟩,
      fun h0 => absurd rfl h0⟩
    have h12 := hg.above e he
    have hin : ∀ x, e.ptr - 12 ≤ x → x < e.ptr + e.size + 4 → B.heap b x = B.heap h.backend x :=
      fun x h1 h2 => hsame' x ⟨_, List.mem_map_of_mem he, show e.ptr - 12 ≤ x by omega,
        show x < e.ptr - 12 + (e.size + 16) by omega⟩
    show verifyBlock (B.heap b) (e.ptr - 12) e.size = true
    rw [verifyBlock_congr (fun x h1 h2 => hin x (by omega) (by omega)) fun x h1 h2 =>
      hin x (by omega) (by omega)]
    exact hg.intact e he
  · obtain ⟨hsame, -, hok⟩ := hB.alloc hg.backend hreq hb
    have hsame' : Mem.SameOn (Held (l.map wrapped)) (B.heap h.backend) (B.heap b) := hsame
    have hok' : Ok b (⟨raw, size + 16⟩ :: l.map wrapped) := hok hr
    have hap := hB.apart hok'
    have hnew := (List.pairwise_cons.mp hap).1
    -- the guards and the fill stay inside the new range
    obtain ⟨hset, hheap⟩ := hB.write (m := fresh (B.heap b) raw size) hok' fun x hx =>
      fresh_outside (Decidable.byContradiction fun hc => hx ⟨_, List.mem_cons_self,
        show raw ≤ x by omega, show x < raw + (size + 16) by omega⟩)
    have hheap' : B.heap (B.setHeap b (fresh (B.heap b) raw size))
      = fresh (B.heap b) raw size := hheap
    have hkept : ∀ x, Held (l.map wrapped) x →
        B.heap (B.setHeap b (fresh (B.heap b) raw size)) x = B.heap h.backend x := by
      intro x hx
      obtain ⟨f, hf, h1, h2⟩ := hx
      have hfar := (hnew f hf).2
      rw [hheap', fresh_outside (by dsimp only at hfar; omega)]
      exact hsame' x ⟨f, hf, h1, h2⟩
    have hp : raw + 12 ≠ 0 := by omega
    obtain ⟨hinv, hget⟩ := dhPut_spec cl hg.tab hp hput
    have hother : ∀ e ∈ l, e.ptr ≠ raw + 12 := by
      intro e he hc
      have h1 : raw ≠ e.ptr - 12 := (hnew _ (List.mem_map_of_mem he)).1
      omega
    refine ⟨fun x hx => hkept x (held_wrapped hg.above hx), fun h0 => absurd h0 hp, fun _ =>
      ⟨?_, hinv, fun e he => ?_, fun q en hq hqe hraw => ?_, fun e he => ?_, hg.quiet, ?_⟩⟩
    · show Ok _ (wrapped ⟨raw + 12, size⟩ :: l.map wrapped)
      rw [show wrapped ⟨raw + 12, size⟩
        = ⟨raw, size + 16⟩ by unfold wrapped; rw [Nat.add_sub_cancel]]
      exact hset
    · rcases List.mem_cons.mp he with rfl | he
      · refine ⟨show 12 < raw + 12 by omega, ?_⟩
        show t.get (raw + 12) = some ⟨raw + 12, raw + 12 - 12, size, false⟩
        rw [hget _ hp, if_pos rfl, Nat.add_sub_cancel]
      · obtain ⟨h12, hent⟩ := hg.entry e he
        refine ⟨h12, ?_⟩
        show t.get e.ptr = _
        rw [hget e.ptr (by omega), if_neg (hother e he), hent]
        split <;> rfl
    · have hqe' : t.get q = some en := hqe
      by_cases hqp : q = raw + 12
      · exact ⟨_, List.mem_cons_self, hqp.symm⟩
      · rw [hget q hq, if_neg hqp] at hqe'
        -- a growth of the table clears flags, not blocks
        have hold : ∃ en', h.tab.get q = some en' ∧ en'.raw = en.raw := by
          split at hqe'
          · exact ⟨en, hqe', rfl⟩
          · obtain ⟨en', h1, rfl⟩ := Option.map_eq_some_iff.mp hqe'
            exact ⟨en', h1, rfl⟩
        obtain ⟨en', h1, h2⟩ := hold
        obtain ⟨e, he, hep⟩ := hg.listed q en' hq h1 (by rw [h2]; exact hraw)
        exact ⟨e, List.mem_cons_of_mem _ he, hep⟩
    · show verifyBlock (B.heap (B.setHeap b (fresh (B.heap b) raw size))) (e.ptr - 12) e.size = true
      rcases List.mem_cons.mp he with rfl | he
      · rw [hheap']
        show verifyBlock _ (raw + 12 - 12) size = true
        rw [Nat.add_sub_cancel]
        exact fresh_intact _ raw size
      · have h12 := hg.above e he
        have hin : ∀ x, e.ptr - 12 ≤ x → x < e.ptr + e.size + 4 →
            B.heap (B.setHeap b (fresh (B.heap b) raw size)) x = B.heap h.backend x :=
          fun x h1 h2 => hkept x ⟨_, List.mem_map_of_mem he, show e.ptr - 12 ≤ x by omega,
            show x < e.ptr - 12 + (e.size + 16) by omega⟩
        rw [verifyBlock_congr (fun x h1 h2 => hin x (by omega) (by omega)) fun x h1 h2 =>
          hin x (by omega) (by omega)]
        exact hg.intact e he
    · show wadd h.rep.activeAllocs 1 = (l.length + 1) % 2 ^ 64
      rw [hg.active]
      exact wadd_count rfl

theorem Guarded.free (hB : Implements B Req Frees Ok) (hg : Guarded B Ok h l) (he : e ∈ l)
    (hf : Unwinds Frees l e) :
    ∃ h', (dhDeallocate B h e.ptr).2 = some h' ∧ Guarded B Ok h' (l.erase e)
      ∧ Mem.SameOn (Held (l.erase e)) (B.heap h.backend) (B.heap h'.backend) := by
  obtain ⟨h12, hent⟩ := hg.entry e he
  have hap := hB.apart hg.backend
  have hapl := apart_of_wrapped hg.above hap
  have hnd : l.Nodup := hapl.imp fun hne hc => hne.1 (congrArg Extent.ptr hc)
  have hmem : ∀ f ∈ l.erase e, f ∈ l ∧ f ≠ e := fun f hf =>
    let ⟨h1, h2⟩ := hnd.mem_erase_iff.mp hf
    ⟨h2, h1⟩
  obtain ⟨tab, rep, hcall, hinv, hget, hact, hcan, hdbl, hbad⟩ :=
    dhDeallocate_intact (B := B) hg.tab h12 hent (hg.intact e he)
  -- the poison stays inside the range
  have hpoison : ∀ x, ¬ e.Has x →
      (B.heap h.backend).fill e.ptr e.size DH_POISON x = B.heap h.backend x :=
    fun x hx => if_neg hx
  have hewr : ∀ x, e.Has x → Held (l.map wrapped) x := fun x hx => held_wrapped hg.above ⟨e, he, hx⟩
  obtain ⟨hset, hheap⟩ := hB.write (m := (B.heap h.backend).fill e.ptr e.size DH_POISON) hg.backend
    fun x hx => hpoison x fun hc => hx (hewr x hc)
  obtain ⟨b', hd, hok, hsame⟩ := hB.free hset (List.mem_map_of_mem he) hf
  rw [← map_erase_of_inj (wrapped_inj hg.above he)] at hok hsame
  have hd' : B.deallocate (B.setHeap h.backend ((B.heap h.backend).fill e.ptr e.size DH_POISON))
    (e.ptr - 12)
      = some b' := hd
  have hheap' : B.heap (B.setHeap h.backend ((B.heap h.backend).fill e.ptr e.size DH_POISON))
      = (B.heap h.backend).fill e.ptr e.size DH_POISON := hheap
  have hkept : ∀ f ∈ l.erase e, ∀ x, (wrapped f).Has x → B.heap b' x = B.heap h.backend x := by
    intro f hf x hx
    have hs : B.heap b' x = B.heap
        (B.setHeap h.backend ((B.heap h.backend).fill e.ptr e.size DH_POISON)) x :=
      hsame x ⟨_, List.mem_map_of_mem hf, hx⟩
    rw [hs, hheap']
    refine hpoison x fun hc => ?_
    have hwe : wrapped f ≠ wrapped e :=
      fun hw => (hmem f hf).2 (wrapped_inj hg.above he f (hmem f hf).1 hw)
    have hfar :=
      (apart_of_mem hap (List.mem_map_of_mem (hmem f hf).1) (List.mem_map_of_mem he) hwe).2
    have h1 : f.ptr - 12 ≤ x := hx.1
    have h2 : x < f.ptr - 12 + (f.size + 16) := hx.2
    have h3 : e.ptr ≤ x := hc.1
    have h4 : x < e.ptr + e.size := hc.2
    have hfar' : f.ptr - 12 + (f.size + 16) ≤ e.ptr - 12
      ∨ e.ptr - 12 + (e.size + 16) ≤ f.ptr - 12 := hfar
    omega
  have hcall' : (dhDeallocate B h e.ptr).2 = some ⟨b', tab, rep⟩ := by
    rw [hcall, hd']
    rfl
  refine ⟨_, hcall', ⟨hok, hinv, fun f hf => ?_, fun q en hq hqe hraw => ?_,
    fun f hf => ?_, ⟨hcan.trans hg.quiet.1, hdbl.trans hg.quiet.2.1, hbad.trans hg.quiet.2.2⟩, ?_⟩,
    fun x hx => ?_⟩
  · obtain ⟨hfl, hfe⟩ := hmem f hf
    obtain ⟨h12', hent'⟩ := hg.entry f hfl
    refine ⟨h12', ?_⟩
    show tab.get f.ptr = _
    rw [hget f.ptr (by omega), if_neg fun hc => hfe (eq_of_ptr hapl hfl he hc)]
    exact hent'
  · have hqe' : tab.get q = some en := hqe
    rw [hget q hq] at hqe'
    split at hqe'
    · obtain rfl := Option.some.inj hqe'
      exact absurd rfl hraw
    · next hqp =>
      obtain ⟨f, hf, hfq⟩ := hg.listed q en hq hqe' hraw
      exact ⟨f, hnd.mem_erase_iff.mpr ⟨fun hc => hqp (by rw [← hfq, hc]), hf⟩, hfq⟩
  · have h12' := hg.above f (hmem f hf).1
    have hin : ∀ x, f.ptr - 12 ≤ x → x < f.ptr + f.size + 4 → B.heap b' x = B.heap h.backend x :=
      fun x h1 h2 => hkept f hf x
        ⟨show f.ptr - 12 ≤ x by omega, show x < f.ptr - 12 + (f.size + 16) by omega⟩
    show verifyBlock (B.heap b') (f.ptr - 12) f.size = true
    rw [verifyBlock_congr (fun x h1 h2 => hin x (by omega) (by omega)) fun x h1 h2 =>
      hin x (by omega) (by omega)]
    exact hg.intact f (hmem f hf).1
  · show rep.activeAllocs = (l.erase e).length % 2 ^ 64
    have hlen := List.length_erase_of_mem he
    have hpos := List.length_pos_of_mem he
    rw [hact, hg.active, hlen]
    exact count_down hpos
  · obtain ⟨f, hf, h1, h2⟩ := hx
    have h12' := hg.above f (hmem f hf).1
    exact hkept f hf x ⟨show f.ptr - 12 ≤ x by omega, show x < f.ptr - 12 + (f.size + 16) by omega⟩

theorem Guarded.write (hB : Implements B Req Frees Ok) (hg : Guarded B Ok h l)
    (hs : Mem.SameOn (fun x => ¬ Held l x) (B.heap h.backend) m) :
    Guarded B Ok { h with backend := B.setHeap h.backend m } l
    ∧ B.heap (B.setHeap h.backend m) = m := by
  have hap := hB.apart hg.backend
  obtain ⟨hset, hheap⟩ := hB.write (m := m) hg.backend
    (hs.mono fun x hx hc => hx (held_wrapped hg.above hc))
  have hheap' : B.heap (B.setHeap h.backend m) = m := hheap
  refine ⟨⟨hset, hg.tab, hg.entry, hg.listed, fun e he => ?_, hg.quiet, hg.active⟩, hheap'⟩
  have h12 := hg.above e he
  show verifyBlock (B.heap (B.setHeap h.backend m)) (e.ptr - 12) e.size = true
  rw [hheap', verifyBlock_congr
    (fun x h1 h2 => hs x (guard_not_held hg.above hap he (Or.inl ⟨h1, by omega⟩)))
    fun x h1 h2 => hs x (guard_not_held hg.above hap he (Or.inr ⟨by omega, by omega⟩))]
  exact hg.intact e he

/-- **The decorator keeps the contract if its backend does.** -/
theorem decorates (hB : Implements B Req Frees Ok) (cl : TableCalloc) :
    Implements (decorated B cl) (Wraps Req) (Unwinds Frees) (Guarded B Ok) where
  apart := fun hg => apart_of_wrapped hg.above (hB.apart hg.backend)
  inside := fun {b l e} hg he => by
    have h12 := hg.above e he
    have hin : e.ptr - 12 + (e.size + 16) < 2 ^ 64 := hB.inside hg.backend (List.mem_map_of_mem he)
    omega
  alloc := fun hg hreq ha => hg.alloc hB hreq ha
  free := fun hg he hf => hg.free hB he hf
  write := fun hg hs => hg.write hB hs

theorem Guarded.create {b : β} (hc : hfDebugHeapCreate cl b = some h) (hb : Ok b []) :
    Guarded B Ok h [] := by
  have hinv := (DhInv.start hc).tab
  have htr := (DhInv.start hc).tracks
  unfold hfDebugHeapCreate at hc
  split at hc
  · obtain rfl := Option.some.inj hc
    refine ⟨hb, hinv, fun e he => absurd he (by simp), fun p en hp hget => ?_,
      fun e he => absurd he (by simp), ⟨rfl, rfl, rfl⟩, rfl⟩
    have hnone : DhTable.get _ p = none := htr p hp
    exact absurd (hnone.symm.trans hget) (by simp)
  · exact absurd hc (by simp)

/-- the sweep finds nothing -/
theorem Guarded.check (hg : Guarded B Ok h l) : (hfDebugHeapCheck B h).1 = 0 := by
  show (checkLoop (B.heap h.backend) h.tab h.rep h.tab.cap).1 = 0
  rw [checkLoop_eq]
  have hnone : badSlots (B.heap h.backend) h.tab h.tab.cap = [] := by
    refine List.filter_eq_nil_iff.mpr fun i hi => ?_
    intro hbad
    rw [Bool.and_eq_true, Bool.not_eq_true', DhEntry.listed] at hbad
    obtain ⟨hl, hv⟩ := hbad
    obtain ⟨hu, hr⟩ : (h.tab.table i).user ≠ 0 ∧ (h.tab.table i).raw ≠ 0 := by
      simp only [Bool.and_eq_true, bne_iff_ne, ne_eq] at hl
      exact ⟨hl.1.1, hl.2⟩
    have hget : h.tab.get (h.tab.table i).user = some (h.tab.table i) :=
      (get_eq_some hg.tab hu).mpr ⟨i, List.mem_range.mp hi, rfl, rfl⟩
    obtain ⟨e, he, hep⟩ := hg.listed _ _ hu hget hr
    have hent := (hg.entry e he).2
    rw [hep] at hent
    rw [Option.some.inj (hget.symm.trans hent)] at hv
    have hint := hg.intact e he
    rw [hep] at hint
    exact absurd (hint.symm.trans hv) (by simp)
  rw [hnone]
  rfl

/-- a request comes back if the backend's does and the table may grow -/
theorem Guarded.returns (hB : Implements B Req Frees Ok) (hg : Guarded B Ok h l)
    (hreq : Wraps Req size alignment)
    (hret : (B.allocate h.backend (size + 16) alignment).isSome = true)
    (hgrow : h.tab.Full → cl.grants (2 * h.tab.cap) = true) :
    (dhAllocate B cl h size alignment).isSome = true := by
  obtain ⟨hw, hreq⟩ := hreq
  obtain ⟨⟨raw, b⟩, hb⟩ := Option.isSome_iff_exists.mp hret
  have htotal : wadd (wadd DH_HEAD size) DH_TAIL = size + 16 := by
    rw [show wadd DH_HEAD size = 12 + size from wadd_of_lt (show 12 + size < 2 ^ 64 by omega),
      show wadd (12 + size) DH_TAIL
        = 12 + size + 4 from wadd_of_lt (show 12 + size + 4 < 2 ^ 64 by omega)]
    omega
  unfold dhAllocate
  dsimp only
  rw [htotal, hb, Option.bind_some]
  dsimp only
  by_cases hr : raw = 0
  · rw [if_pos hr]
    rfl
  · have hin : raw + (size + 16) < 2 ^ 64 :=
      hB.inside ((hB.alloc hg.backend hreq hb).2.2 hr) List.mem_cons_self
    obtain ⟨t, ht⟩ := dhPut_returns hg.tab (p := raw + 12) (by omega) hgrow raw size
    have ht' : dhPut cl 64 h.tab (raw + DH_HEAD) raw size = some t := ht
    have h12 : DH_HEAD = 12 := rfl
    have h4 : DH_TAIL = 4 := rfl
    rw [if_neg hr, if_neg (by omega), ht']
    rfl

end

/-- **A debug heap is transparent.**  Over any backend that keeps its contract, in every state of
every run of a client that writes inside its blocks and frees each of them once: the trace is one of
independent objects, a byte read is the byte last written, every free comes back, so does every
request that the backend answers unless the table cannot grow, no error is counted and the sweep
finds none. -/
theorem debug_heap_transparent {β : Type*} {B : Allocator β} {Req : Nat → Nat → Prop}
    {Frees : List Extent → Extent → Prop} {Ok : β → List Extent → Prop} {cl : TableCalloc} {b : β}
    {h : DhHeap β} {evs : List Event} {s : Client (DhHeap β)} (hB : Implements B Req Frees Ok)
    (hb : Ok b []) (hc : hfDebugHeapCreate cl b = some h)
    (hrun : Steps (ClientStep (decorated B cl) (Wraps Req) (Unwinds Frees)) ⟨h, []⟩ evs s) :
    Steps ObjStep noObjects evs (objects (B.heap s.b.backend) s.held)
      ∧ (∀ evs' p i v w, evs = evs' ++ [.read p i v] → lastWritten p i evs' = some w → v = w)
      ∧ (∀ e ∈ s.held, Unwinds Frees s.held e → (dhDeallocate B s.b e.ptr).2.isSome = true)
      ∧ (∀ size alignment, Wraps Req size alignment →
          (B.allocate s.b.backend (size + 16) alignment).isSome = true →
          (s.b.tab.Full → cl.grants (2 * s.b.tab.cap) = true) →
          (dhAllocate B cl s.b size alignment).isSome = true)
      ∧ s.b.rep.canaryViolations = 0 ∧ s.b.rep.doubleFrees = 0 ∧ s.b.rep.invalidFrees = 0
      ∧ (hfDebugHeapCheck B s.b).1 = 0 := by
  have hstart : Guarded B Ok h [] := Guarded.create hc hb
  have hok : Guarded B Ok s.b s.held := (decorates hB cl).of_run hstart hrun
  have hobjs : Steps ObjStep noObjects evs (objects (B.heap s.b.backend) s.held) :=
    (decorates hB cl).refines hstart hrun
  refine ⟨hobjs, fun evs' p i v w hev hw => (hev ▸ hobjs).read_back hw, fun e he hf => ?_,
    fun size alignment hreq hret hgrow => hok.returns hB hreq hret hgrow, hok.quiet.1,
      hok.quiet.2.1,
    hok.quiet.2.2, hok.check⟩
  obtain ⟨h', hcall, -⟩ := hok.free hB he hf
  rw [hcall]
  rfl

/-! ## over the free list -/

def freeListHeap : DhHeap FreeList.FlAlloc :=
  ⟨FreeList.sampleHeap, ⟨fun _ => DhEntry.blank, 64, 0⟩, ⟨0, 0, 0, 0, 0, 0⟩⟩

/-- a block of 40 bytes is granted behind twelve bytes of guards, and its last byte is written -/
theorem debug_heap_transparent_free_list : ∃ s,
    Steps
    (ClientStep (decorated FreeList.allocator grantAll) (Wraps FreeList.Plain) (Unwinds anyOrder))
      ⟨freeListHeap, []⟩ [.grant (2 ^ 20 + 28) 40, .write (2 ^ 20 + 28) 39 0x21#8] s
    ∧ Steps ObjStep noObjects [.grant (2 ^ 20 + 28) 40, .write (2 ^ 20 + 28) 39 0x21#8]
      (objects s.b.backend.heap s.held)
    ∧ s.b.rep.canaryViolations = 0 ∧ (hfDebugHeapCheck FreeList.allocator s.b).1 = 0 := by
  have h1 : ((decorated FreeList.allocator grantAll).allocate freeListHeap 40 16).map Prod.fst
      = some (2 ^ 20 + 28) := by decide +kernel
  obtain ⟨⟨p, h⟩, hr, hp⟩ := Option.map_eq_some_iff.mp h1
  obtain rfl : p = 2 ^ 20 + 28 := hp
  have hreq : Wraps FreeList.Plain 40 16 := ⟨by omega, by omega, le_refl 16⟩
  have s1 := @ClientStep.grant _ (decorated FreeList.allocator grantAll) (Wraps FreeList.Plain)
    (Unwinds anyOrder) ⟨freeListHeap, []⟩ 40 16 (2 ^ 20 + 28) h hreq hr (by omega)
  have s2 := @ClientStep.write _ (decorated FreeList.allocator grantAll) (Wraps FreeList.Plain)
    (Unwinds anyOrder) ⟨h, [⟨2 ^ 20 + 28, 40⟩]⟩ ⟨2 ^ 20 + 28, 40⟩ 39 0x21#8 List.mem_cons_self
    (by show 39 < 40; omega)
  have hrun := ((Steps.nil _).snoc s1).snoc s2
  have hstart : FreeList.Serves FreeList.sampleHeap [] :=
    FreeList.Serves.create FreeList.sampleHeap_create
  have h := debug_heap_transparent (B := FreeList.allocator) FreeList.implements hstart
    (show hfDebugHeapCreate grantAll FreeList.sampleHeap = some freeListHeap from rfl) hrun
  exact ⟨_, hrun, h.1, h.2.2.2.2.1, h.2.2.2.2.2.2.2⟩

end HeapForge.DebugHeap
