import HeapForge.CppDebugHeap.Impl
import HeapForge.Lib.DecoratorRuns
import HeapForge.FreeList.Client

/-!
# The C++ debug heap among threads

`include/heapforge/debug_heap.h` calls the inner allocator, writes and checks the canaries and
poisons a block without holding its mutex.  It is a decorator in the sense of `Lib/Decorator`:

* `guards`, `table`       its canaries, its map and its set;
* `allocate_steps`, `deallocate_steps`   the calls of the header are runs of the decorator;
* `debug_heap_shields`    **whatever is freed, by whatever thread, the inner allocator sees only
                          correct calls, the callers have independent objects, and the report is
                          exact.**
-/

set_option linter.unusedSectionVars false
set_option linter.unusedVariables false

namespace HeapForge.CppDebugHeap
open Lib Function

/-! ## the canaries -/

/-- the bytes that `write_canary` leaves -/
def canaryByte (i : Nat) : BitVec 8 := BitVec.ofNat 8 (kCanary / 256 ^ (i % 4))

def canaryPuts (a : Nat) : List (Nat × BitVec 8) :=
  fieldPuts a (List.replicate kCanaryWords (4, kCanary))

section
variable {m m' : Mem} {a x i n : Nat} {v : BitVec 8}

theorem mem_canaryPuts (h : (x, v) ∈ canaryPuts a) : a ≤ x ∧ x < a + 16 := by
  obtain ⟨h1, h2, -⟩ := mem_fieldPuts Mem.zero h
  exact ⟨h1, h2⟩

theorem stores_canaryPuts (m : Mem) (a : Nat) : stores (canaryPuts a) m = writeCanary m a := by
  rw [stores_eq_write]
  exact write_fieldPuts m a _

theorem writeCanary_outside (h : x < a ∨ a + 16 ≤ x) : writeCanary m a x = m x := by
  rw [← stores_canaryPuts, stores_eq_write]
  refine write_of_notMem fun v hv => ?_
  have hin := mem_canaryPuts hv
  omega

theorem store_word (m : Mem) (a v x : Nat) (h : a ≤ x ∧ x < a + 4) :
    m.store32 a v x = BitVec.ofNat 8 (v / 256 ^ (x - a)) := if_pos h

theorem writeCanary_inside (hi : i < 16) : writeCanary m a (a + i) = canaryByte i := by
  show ((((m.store32 (a + 0 * 4) kCanary).store32 (a + 1 * 4) kCanary).store32
    (a + 2 * 4) kCanary).store32
    (a + 3 * 4) kCanary) (a + i) = canaryByte i
  have hbyte : ∀ k, 4 * k ≤ i → i < 4 * k + 4 →
      BitVec.ofNat 8 (kCanary / 256 ^ (a + i - (a + k * 4))) = canaryByte i := by
    intro k h1 h2
    unfold canaryByte
    rw [show a + i - (a + k * 4) = i % 4 by omega]
  have hskip : ∀ (m : Mem) b, a + i < b → m.store32 b kCanary (a + i) = m (a + i) :=
    fun m b hb => Mem.store_of_notMem (Or.inl hb)
  by_cases h3 : 12 ≤ i
  · rw [store_word _ _ _ _ (by omega)]
    exact hbyte 3 (by omega) (by omega)
  rw [hskip _ _ (by omega)]
  by_cases h2 : 8 ≤ i
  · rw [store_word _ _ _ _ (by omega)]
    exact hbyte 2 (by omega) (by omega)
  rw [hskip _ _ (by omega)]
  by_cases h1 : 4 ≤ i
  · rw [store_word _ _ _ _ (by omega)]
    exact hbyte 1 (by omega) (by omega)
  rw [hskip _ _ (by omega), store_word _ _ _ _ (by omega)]
  exact hbyte 0 (by omega) (by omega)

/-- the check looks at every byte -/
theorem checkCanary_iff : checkCanary m a = true ↔ ∀ i < 16, m (a + i) = canaryByte i := by
  have hword : ∀ k, (m.load32 (a + k * 4) == kCanary) = true
    ↔ ∀ j < 4, m (a + k * 4 + j) = canaryByte j := by
    intro k
    have hst : (m.store (a + k * 4) 4 kCanary).load (a + k * 4) 4 = kCanary :=
      Mem.load_store_same ..
    have hiff : (m.load32 (a + k * 4) == kCanary) = true
        ↔ m.load (a + k * 4) 4 = (m.store (a + k * 4) 4 kCanary).load (a + k * 4) 4 := by
      rw [beq_iff_eq, hst, Mem.load32]
    refine hiff.trans (Mem.load_eq_iff.trans ?_)
    have hbyte : ∀ j < 4, m.store (a + k * 4) 4 kCanary (a + k * 4 + j) = canaryByte j := by
      intro j hj
      refine (if_pos (by omega)).trans ?_
      unfold canaryByte
      rw [Nat.add_sub_cancel_left, Nat.mod_eq_of_lt hj]
    constructor
    · intro h j hj
      exact (h _ (by omega) (by omega)).trans (hbyte j hj)
    · intro h y h1 h2
      obtain ⟨j, rfl⟩ := Nat.exists_eq_add_of_le h1
      exact (h j (by omega)).trans (hbyte j (by omega)).symm
  unfold checkCanary
  rw [List.all_eq_true]
  constructor
  · intro h i hi
    have hk := (hword (i / 4)).mp (h (i / 4) (List.mem_range.mpr (by show i / 4 < 4; omega)))
      (i % 4) (by omega)
    rw [show a + i / 4 * 4 + i % 4 = a + i by omega] at hk
    rw [hk]
    unfold canaryByte
    rw [Nat.mod_mod]
  · intro h k hk
    have hk4 : k < 4 := List.mem_range.mp hk
    refine (hword k).mpr fun j hj => ?_
    rw [show a + k * 4 + j = a + (k * 4 + j) by omega, h (k * 4 + j) (by omega)]
    unfold canaryByte
    rw [show (k * 4 + j) % 4 = j % 4 by omega]

theorem checkCanary_congr (h : ∀ x, a ≤ x → x < a + 16 → m' x = m x) :
    checkCanary m' a = checkCanary m a := by
  rw [Bool.eq_iff_iff, checkCanary_iff, checkCanary_iff]
  refine forall₂_congr fun i hi => ?_
  rw [h (a + i) (by omega) (by omega)]

theorem checkCanary_writeCanary (m : Mem) (a : Nat) : checkCanary (writeCanary m a) a = true :=
  checkCanary_iff.mpr fun _ hi => writeCanary_inside hi

end

/-! ## the decorator -/

def guards : Guards where
  head := kGuardBytes
  tail := kGuardBytes
  align _ := kDefaultAlignment
  fresh raw size := canaryPuts raw ++ canaryPuts (raw + kGuardBytes + size)
  wipe raw size := fillPuts raw (kGuardBytes + size + kGuardBytes) kPoison
  intact m raw size := checkCanary m raw && checkCanary m (raw + kGuardBytes + size)
  fresh_inside := by
    intro raw size x v h
    have hg : kGuardBytes = 16 := rfl
    rcases List.mem_append.mp h with h | h
    · have h1 := mem_canaryPuts h
      omega
    · have h1 := mem_canaryPuts h
      omega
  wipe_inside := fun h => mem_fillPuts h
  intact_congr := by
    intro m m' raw size h
    have hg : kGuardBytes = 16 := rfl
    rw [checkCanary_congr fun x h1 h2 => h x (Or.inl ⟨h1, by omega⟩),
      checkCanary_congr fun x h1 h2 => h x (Or.inr ⟨h1, by omega⟩)]
  intact_fresh := by
    intro m raw size
    have hg : kGuardBytes = 16 := rfl
    rw [stores_append, stores_canaryPuts, stores_canaryPuts, checkCanary_writeCanary, Bool.and_true,
      checkCanary_congr fun x h1 h2 => writeCanary_outside (Or.inl (by omega))]
    exact checkCanary_writeCanary m raw

def table : Table DebugHeap guards.head where
  find h p := (h.live.lookup p).map fun n => (p - kGuardBytes, n)
  insert h _ user size := h.insert user size
  take := DebugHeap.take
  reject := DebugHeap.reject
  judge := DebugHeap.judge
  glance h _ := h
  find_insert := by
    intro h raw size p
    show ((h.live.insert (raw + kGuardBytes) size).lookup p).map _ = _
    by_cases hp : p = raw + kGuardBytes
    · subst hp
      rw [AList.lookup_insert, if_pos (show raw + kGuardBytes = raw + guards.head from rfl),
        Option.map_some, Nat.add_sub_cancel]
    · rw [AList.lookup_insert_ne hp, if_neg (show ¬ p = raw + guards.head from hp)]
  find_take := by
    intro h q p
    show ((h.live.erase q).lookup p).map _ = _
    by_cases hp : p = q
    · subst hp
      rw [AList.lookup_erase, if_pos rfl, Option.map_none]
    · rw [AList.lookup_erase_ne hp, if_neg hp]
  find_reject := by
    intro h q p
    unfold DebugHeap.reject
    split <;> rfl
  find_judge := by
    intro h ok p
    unfold DebugHeap.judge
    split <;> rfl
  find_glance _ _ _ := rfl

/-! ## the map, the set and the report -/

/-- what the log of a run says about the heap -/
structure Tells (l : Log) (h : DebugHeap) : Prop where
  live : ∀ p, p ∈ h.live ↔ l.known p = some true
  freed : ∀ p, p ∈ h.freed ↔ l.known p = some false
  doubleFrees : h.report.doubleFrees = l.again % 2 ^ 64
  invalidFrees : h.report.invalidFrees = l.never % 2 ^ 64
  canaryViolations : h.report.canaryViolations = l.found % 2 ^ 64
  leakedBytes : h.report.leakedBytes = 0

section
variable {τ β : Type*} [DecidableEq τ] {A : Allocator β} {Req : Nat → Nat → Prop}
  {Frees : List Extent → Extent → Prop} {Ok : β → List Extent → Prop} {b : β}
  {h : DebugHeap} {l : Log}
  {acts : List (DecoAct τ)} {s s' : Deco τ β DebugHeap} {t : τ} {p size alignment : Nat}
  {e : Extent}

theorem Tells.insert (ht : Tells l h) (t : τ) (raw p size : Nat) :
    Tells (l.next (.list t raw p size)) (h.insert p size) := by
  refine ⟨fun q => ?_, fun q => ?_, ht.doubleFrees, ht.invalidFrees, ht.canaryViolations,
    ht.leakedBytes⟩
  · show q ∈ h.live.insert p size ↔ update l.known p (some true) q = some true
    rw [AList.mem_insert, update_apply]
    by_cases hq : q = p
    · rw [if_pos hq]
      exact iff_of_true (Or.inl hq) rfl
    · rw [if_neg hq, or_iff_right hq]
      exact ht.live q
  · show q ∈ h.freed.erase p ↔ update l.known p (some true) q = some false
    rw [Finset.mem_erase, update_apply]
    by_cases hq : q = p
    · rw [if_pos hq]
      exact iff_of_false (fun hc => hc.1 hq) (by simp)
    · rw [if_neg hq, and_iff_right hq]
      exact ht.freed q

theorem Tells.take (ht : Tells l h) (t : τ) (p : Nat) (was : Bool) :
    Tells (l.next (.take t p was)) (h.take p) := by
  refine ⟨fun q => ?_, fun q => ?_, ht.doubleFrees, ht.invalidFrees, ht.canaryViolations,
    ht.leakedBytes⟩
  · show q ∈ h.live.erase p ↔ update l.known p (some false) q = some true
    rw [AList.mem_erase, update_apply]
    by_cases hq : q = p
    · rw [if_pos hq]
      exact iff_of_false (fun hc => hc.1 hq) (by simp)
    · rw [if_neg hq, and_iff_right hq]
      exact ht.live q
  · show q ∈ Insert.insert p h.freed ↔ update l.known p (some false) q = some false
    rw [Finset.mem_insert, update_apply]
    by_cases hq : q = p
    · rw [if_pos hq]
      exact iff_of_true (Or.inl hq) rfl
    · rw [if_neg hq, or_iff_right hq]
      exact ht.freed q

theorem Tells.reject (ht : Tells l h) (t : τ) (p : Nat) :
    Tells (l.next (.reject t p)) (h.reject p) := by
  obtain ⟨h1, h2, h3, h4, h5, h6⟩ := ht
  unfold DebugHeap.reject
  show Tells (if l.known p = some false then _ else _) _
  by_cases hp : p ∈ h.freed
  · rw [if_pos hp, if_pos ((h2 p).mp hp)]
    exact ⟨h1, h2, wadd_count h3, h4, h5, h6⟩
  · rw [if_neg hp, if_neg fun hc => hp ((h2 p).mpr hc)]
    exact ⟨h1, h2, h3, wadd_count h4, h5, h6⟩

theorem Tells.judge (ht : Tells l h) (t : τ) (ok : Bool) :
    Tells (l.next (.check t ok)) (h.judge ok) := by
  obtain ⟨h1, h2, h3, h4, h5, h6⟩ := ht
  cases ok with
  | true => exact ⟨h1, h2, h3, h4, h5, h6⟩
  | false => exact ⟨h1, h2, h3, h4, wadd_count h5, h6⟩

/-- `verify` counts nothing -/
theorem Tells.glance (ht : Tells l h) (t : τ) (p : Nat) (ok : Bool) :
    Tells (l.next (.look t p ok)) h := by
  obtain ⟨h1, h2, h3, h4, h5, h6⟩ := ht
  cases ok <;> exact ⟨h1, h2, h3, h4, h5, h6⟩

theorem Tells.of_run (hs : Tells Log.start s.table)
    (hrun : Steps (DecoStep guards table A Req) s acts s') :
    Tells (logOf acts) s'.table :=
  Deco.table_rule (I := Tells) hs (fun _ _ raw size t ht => ht.insert t raw _ size)
    (fun _ _ p _ _ t was ht _ => ht.take t p was) (fun _ _ p t ht _ => ht.reject t p)
    (fun _ _ ok t ht => ht.judge t ok) (fun _ _ p ok t ht => ht.glance t p ok) hrun

theorem tells_new : Tells Log.start DebugHeap.new :=
  ⟨fun p => iff_of_false (AList.notMem_empty p) (by simp [Log.start]),
    fun p => iff_of_false (Finset.notMem_empty p) (by simp [Log.start]), rfl, rfl, rfl, rfl⟩

theorem mem_blocks : (⟨p, size⟩ : Extent) ∈ h.blocks ↔ h.live.lookup p = some size := by
  rw [← Option.mem_def, AList.mem_lookup_iff]
  unfold DebugHeap.blocks
  rw [List.mem_map]
  constructor
  · rintro ⟨⟨q, n⟩, hm, he⟩
    rw [Extent.mk.injEq] at he
    obtain ⟨rfl, rfl⟩ := he
    exact hm
  · exact fun hm => ⟨_, hm, rfl⟩

theorem nodup_blocks (h : DebugHeap) : h.blocks.Nodup := by
  have hkeys : (h.blocks.map Extent.ptr).Nodup := by
    unfold DebugHeap.blocks
    rw [List.map_map]
    exact h.live.keys_nodup
  exact hkeys.of_map _

/-- the map lists the ranges of the callers -/
theorem blocks_perm (hi : DecoInv guards table A Ok s) : s.table.blocks.Perm s.live := by
  refine (List.perm_ext_iff_of_nodup (nodup_blocks _) hi.nodup).mpr ?_
  rintro ⟨p, n⟩
  rw [mem_blocks]
  constructor
  · intro hl
    have hf : table.find s.table p = some (p - kGuardBytes, n) := congrArg (Option.map _) hl
    exact ((hi.found _ _ _).mp hf).2
  · intro hm
    have hlt : kGuardBytes < p := hi.behind _ hm
    have hf := (hi.found p (p - kGuardBytes) n).mpr ⟨Nat.sub_add_cancel hlt.le, hm⟩
    obtain ⟨k, hk, he⟩ := Option.map_eq_some_iff.mp hf
    rw [Prod.mk.injEq] at he
    rw [hk, he.2]

/-! ## the calls -/

/-- a request that does not wrap, in one run of the thread -/
theorem allocate_steps (hlens : A.Lens) (hidle : s.spot t = .idle)
    (hsize : kGuardBytes + size + kGuardBytes < 2 ^ 64)
    (hreq : Req (kGuardBytes + size + kGuardBytes) kDefaultAlignment)
    (hcall : allocate A s.b s.table size alignment = some (p, b, h)) :
    ∃ acts s', Steps (DecoStep guards table A Req) s acts s' ∧ s'.b = b ∧ s'.table = h
    ∧ s'.spot = s.spot
      ∧ acts.filterMap DecoAct.event = (if p = 0 then [.refuse size] else [.grant p size])
      ∧ s'.live = (if p = 0 then s.live else ⟨p, size⟩ :: s.live) := by
  have htotal : wadd (wadd kGuardBytes size) kGuardBytes = kGuardBytes + size + kGuardBytes := by
    rw [wadd_of_lt (show kGuardBytes + size < 2 ^ 64 by omega), wadd_of_lt hsize]
  unfold allocate at hcall
  rw [htotal] at hcall
  obtain ⟨⟨raw, b₁⟩, ha, hret⟩ := Option.map_eq_some_iff.mp hcall
  dsimp only at hret
  by_cases hraw : raw = 0
  · rw [if_pos hraw] at hret
    simp only [Prod.mk.injEq] at hret
    obtain ⟨rfl, rfl, rfl⟩ := hret
    subst hraw
    have hstep : DecoStep guards table A Req s (.refuse t size) _ :=
      DecoStep.refuse alignment hidle hreq ha
    exact ⟨_, _, (Steps.nil s).snoc hstep, rfl, rfl, rfl, rfl, rfl⟩
  · rw [if_neg hraw] at hret
    simp only [Prod.mk.injEq] at hret
    obtain ⟨rfl, rfl, rfl⟩ := hret
    obtain ⟨acts, hev, hrun⟩ :=
      Deco.alloc_steps (G := guards) (K := table) hlens alignment hidle hreq ha hraw
    have hp : raw + kGuardBytes ≠ 0 := by omega
    rw [if_neg hp, if_neg hp]
    refine ⟨acts, _, hrun, ?_, rfl, rfl, hev, rfl⟩
    show A.setHeap b₁ (stores (canaryPuts raw ++ canaryPuts (raw + kGuardBytes + size)) (A.heap b₁))
      = _
    rw [stores_append, stores_canaryPuts, stores_canaryPuts]

/-- a free of any pointer returns, and is a run of the thread -/
theorem deallocate_steps (hA : Implements A Req Frees Ok) (hany : ∀ l e, Frees l e) (hlens : A.Lens)
    (hi : DecoInv guards table A Ok s) (hidle : s.spot t = .idle) :
    ∃ b h acts s', deallocate A s.b s.table p = some (b, h)
    ∧ Steps (DecoStep guards table A Req) s acts s'
      ∧ s'.b = b ∧ s'.table = h ∧ s'.spot = s.spot
      ∧ acts.filterMap DecoAct.event = (if p ∈ s.table.live then [.release p] else []) := by
  unfold deallocate
  by_cases hp : p = 0
  · subst hp
    have hno : 0 ∉ s.table.live := by
      intro hm
      obtain ⟨n, hn⟩ := Option.isSome_iff_exists.mp (AList.lookup_isSome.mpr hm)
      have hlive := (blocks_perm hi).mem_iff.mp (mem_blocks.mpr hn)
      exact absurd (hi.behind _ hlive) (Nat.not_lt_zero _)
    rw [if_pos rfl, if_neg hno]
    exact ⟨_, _, [], s, rfl, Steps.nil s, rfl, rfl, rfl, rfl⟩
  rw [if_neg hp]
  cases hl : s.table.live.lookup p with
  | none =>
    have hno : p ∉ s.table.live := AList.lookup_eq_none.mp hl
    have hf : table.find s.table p = none := congrArg (Option.map _) hl
    have hstep : DecoStep guards table A Req s (.reject t p) _ := DecoStep.reject hidle hp hf
    rw [if_neg hno]
    exact ⟨_, _, _, _, rfl, (Steps.nil s).snoc hstep, rfl, rfl, rfl, rfl⟩
  | some n =>
    have hyes : p ∈ s.table.live := AList.lookup_isSome.mp (by rw [hl]; rfl)
    have hf : table.find s.table p = some (p - kGuardBytes, n) := congrArg (Option.map _) hl
    have hlt : kGuardBytes < p := hi.behind _ ((hi.found _ _ _).mp hf).2
    obtain ⟨b, hb⟩ := hi.free_returns hA hany hf
    obtain ⟨acts, hev, hrun⟩ := Deco.free_steps Req hlens hidle hf hb
    rw [if_pos hyes]
    have hpoison : stores (guards.wipe (p - kGuardBytes) n) (A.heap s.b)
        = (A.heap s.b).fill (p - kGuardBytes) (kGuardBytes + n + kGuardBytes) kPoison :=
        stores_fillPuts ..
    have hintact : guards.intact (A.heap s.b) (p - kGuardBytes) n
        = !(!checkCanary (A.heap s.b) (p - kGuardBytes) || !checkCanary (A.heap s.b) (p + n)) := by
      show (checkCanary _ _ && checkCanary _ (p - kGuardBytes + kGuardBytes + n)) = _
      rw [Nat.sub_add_cancel hlt.le, Bool.not_or, Bool.not_not, Bool.not_not]
    rw [hpoison] at hb
    rw [hintact] at hrun
    refine ⟨b, _, acts, _, ?_, hrun, rfl, rfl, rfl, hev⟩
    dsimp only
    rw [hb]
    rfl

/-- the live blocks go back in any order -/
theorem destroy_returns (hA : Implements A Req Frees Ok) (hany : ∀ l e, Frees l e)
    (hi : DecoInv guards table A Ok s) (hidle : ∀ t, s.spot t = .idle) {order : List Extent}
    (hord : order.Perm s.table.blocks) :
    ∃ b', destroy A s.b order = some b' ∧ Ok b' [] := by
  have hperm : (order.map guards.wrap).Perm s.out :=
    ((hord.trans (blocks_perm hi)).map _).trans (hi.out_perm hA hidle)
  obtain ⟨b', hall, hok⟩ := hA.wipe_all hany (f := fun e m => m.fill e.ptr e.size kPoison)
    (fun e m x hx => if_neg hx) hi.ok hperm
  rw [List.foldlM_map] at hall
  exact ⟨b', hall, hok⟩

/-- the sum that `report` makes does not wrap -/
theorem foldl_sizes (l : List Extent) (n : Nat) (h : n + (l.map Extent.size).sum < 2 ^ 64) :
    l.foldl (fun n e => wadd n e.size) n = n + (l.map Extent.size).sum := by
  induction l generalizing n with
  | nil => rfl
  | cons e l ih =>
    rw [List.map_cons, List.sum_cons] at h ⊢
    rw [List.foldl_cons, wadd_of_lt (by omega), ih _ (by omega), Nat.add_assoc]

theorem report_exact (hA : Implements A Req Frees Ok) (hi : DecoInv guards table A Ok s)
    (ht : Tells l s.table) :
    (report s.table).liveAllocations = s.live.length
      ∧ (report s.table).leakedBytes = (s.live.map Extent.size).sum := by
  have hperm := blocks_perm hi
  have hsum : (s.table.blocks.map Extent.size).sum = (s.live.map Extent.size).sum :=
    (hperm.map _).sum_eq
  have hle : (s.live.map Extent.size).sum ≤ 2 ^ 64 - 1 := by
    refine sum_size_le (hi.live_apart hA) fun e he => ?_
    have hlt := hA.inside hi.ok (hi.wrap_mem he)
    have h16 : kGuardBytes < e.ptr := hi.behind e he
    have hlt' : e.ptr - kGuardBytes + (kGuardBytes + e.size + kGuardBytes) < 2 ^ 64 := hlt
    omega
  constructor
  · show s.table.live.entries.length = _
    rw [← hperm.length_eq, DebugHeap.blocks, List.length_map]
  · show s.table.blocks.foldl _ s.table.report.leakedBytes = _
    rw [ht.leakedBytes, foldl_sizes _ _ (by rw [hsum]; omega), hsum, Nat.zero_add]

/-- `verify` looks at all 32 bytes around a block -/
theorem verify_iff (hi : DecoInv guards table A Ok s) (he : e ∈ s.live) :
    verify A s.b s.table e.ptr = true
      ↔ ∀ i < 16, A.heap s.b (e.ptr - 16 + i) = canaryByte i
      ∧ A.heap s.b (e.ptr + e.size + i) = canaryByte i := by
  have hl : s.table.live.lookup e.ptr = some e.size :=
    mem_blocks.mp ((blocks_perm hi).mem_iff.mpr he)
  unfold verify
  rw [hl]
  show (checkCanary _ _ && checkCanary _ _) = true ↔ _
  rw [Bool.and_eq_true, checkCanary_iff, checkCanary_iff]
  exact forall₂_and.symm

end

/-- **The C++ debug heap shields its allocator.**  Over any allocator that keeps its contract and
takes frees in any order, in every interleaving of threads that free any pointers and overrun their
blocks by up to 16 bytes: the callers have independent objects, and a byte read is the byte last
written; each block goes back to the allocator, which takes it; a free is refused exactly if its
pointer is not live, and counted as a double free exactly if it has come back since it was last
handed out; `verify` sees every damaged byte. Between calls, the damaged blocks that were freed are
those counted, the report names the live blocks and their bytes, and the destructor gives all of
them back. -/
theorem debug_heap_shields {τ β : Type*} [DecidableEq τ] {A : Allocator β} {Req : Nat → Nat → Prop}
    {Frees : List Extent → Extent → Prop} {Ok : β → List Extent → Prop} {b : β}
    {acts : List (DecoAct τ)} {s : Deco τ β DebugHeap} (hA : Implements A Req Frees Ok)
    (hany : ∀ l e, Frees l e) (hb : Ok b [])
    (hrun : Steps (DecoStep guards table A Req) ⟨b, DebugHeap.new, fun _ => .idle, [], []⟩ acts s) :
    Steps ObjStep noObjects (acts.filterMap DecoAct.event) (s.objects A)
      ∧ (∀ acts' p i v w, acts = acts' ++ [.read p i v] →
          lastWritten p i (acts'.filterMap DecoAct.event) = some w → v = w)
      ∧ (∀ t raw size, s.spot t = .wiping raw size [] → (A.deallocate s.b raw).isSome = true)
      ∧ (∀ p, p ∈ s.table.live ↔ (logOf acts).known p = some true)
      ∧ (report s.table).doubleFrees = (logOf acts).again % 2 ^ 64
      ∧ (report s.table).invalidFrees = (logOf acts).never % 2 ^ 64
      ∧ (∀ e ∈ s.live, verify A s.b s.table e.ptr = true ↔ ∀ i < 16,
          A.heap s.b (e.ptr - 16 + i) = canaryByte i
          ∧ A.heap s.b (e.ptr + e.size + i) = canaryByte i)
      ∧ ((∀ t, s.spot t = .idle) →
          (report s.table).canaryViolations = (acts.filterMap DecoAct.badTake).length % 2 ^ 64
          ∧ (report s.table).liveAllocations = s.live.length
          ∧ (report s.table).leakedBytes = (s.live.map Extent.size).sum
          ∧ ∀ order, order.Perm s.table.blocks →
          ∃ b', destroy A s.b order = some b' ∧ Ok b' []) := by
  have hstart : DecoInv guards table A Ok
      (⟨b, DebugHeap.new, fun _ => .idle, [], []⟩ : Deco τ β DebugHeap) :=
    DecoInv.start hb fun p => rfl
  have hi : DecoInv guards table A Ok s := hstart.of_run hA hany hrun
  have ht : Tells (logOf acts) s.table := Tells.of_run tells_new hrun
  have hobjs : Steps ObjStep noObjects (acts.filterMap DecoAct.event) (s.objects A) :=
    Deco.refines hstart hA hany hrun
  refine ⟨hobjs, ?_, ?_, ht.live, ht.doubleFrees, ht.invalidFrees, fun e he => verify_iff hi he,
    fun hidle => ?_⟩
  · rintro acts' p i v w rfl hw
    rw [filterMap_snoc] at hobjs
    exact hobjs.read_back hw
  · intro t raw size hspot
    obtain ⟨b', hcall, -⟩ := hi.giveBack hA hany hspot
    rw [hcall]
    rfl
  · obtain ⟨h1, h2⟩ := report_exact hA hi ht
    refine ⟨?_, h1, h2, fun order hord => destroy_returns hA hany hi hidle hord⟩
    rw [Deco.damage hstart hA hany (fun _ => rfl) hrun hidle, ← logOf_found]
    exact ht.canaryViolations

/-! ## over the free list -/

theorem doubleFrees_again (h : DebugHeap) (p : Nat) (ok : Bool) :
    (((h.take p).judge ok).reject p).report.doubleFrees = wadd h.report.doubleFrees 1 := by
  have hmem : p ∈ ((h.take p).judge ok).freed := by
    cases ok <;> exact Finset.mem_insert_self p h.freed
  unfold DebugHeap.reject
  rw [if_pos hmem]
  cases ok <;> rfl

/-- a live block is freed by one thread and then by another -/
theorem freed_twice {τ β : Type*} [DecidableEq τ] {A : Allocator β} {Req : Nat → Nat → Prop}
    {Frees : List Extent → Extent → Prop} {Ok : β → List Extent → Prop} {s : Deco τ β DebugHeap}
    {p raw size : Nat} (hA : Implements A Req Frees Ok) (hany : ∀ l e, Frees l e) (hlens : A.Lens)
    (hi : DecoInv guards table A Ok s) (hidle : ∀ t, s.spot t = .idle)
    (hfind : table.find s.table p = some (raw, size)) (t t' : τ) :
    ∃ acts s', Steps (DecoStep guards table A Req) s acts s'
    ∧ acts.filterMap DecoAct.event = [.release p]
      ∧ s'.table.report.doubleFrees = wadd s.table.report.doubleFrees 1 := by
  obtain ⟨b, hb⟩ := hi.free_returns hA hany hfind
  obtain ⟨acts, hev, hrun⟩ := Deco.free_steps Req hlens (hidle t) hfind hb
  have hp : p ≠ 0 := Nat.ne_of_gt (Nat.zero_lt_of_lt (hi.behind _ ((hi.found _ _ _).mp hfind).2))
  have hnone : table.find (table.judge (table.take s.table p) (guards.intact (A.heap s.b) raw size))
      p = none := by
    rw [table.find_judge, table.find_take, if_pos rfl]
  refine ⟨_, _, hrun.snoc (DecoStep.reject (hidle t') hp hnone), ?_, doubleFrees_again _ _ _⟩
  rw [filterMap_snoc, hev]
  rfl

theorem freeList_lens : FreeList.allocator.Lens := ⟨fun _ _ => rfl, fun _ _ _ => rfl, fun _ => rfl⟩

/-- one thread allocates 40 bytes, another frees them, and the first frees them again -/
theorem debug_heap_shields_two_frees : ∃ (p : Nat) (acts : List (DecoAct Bool))
    (s : Deco Bool FreeList.FlAlloc DebugHeap),
    Steps (DecoStep guards table FreeList.allocator FreeList.Plain)
      ⟨FreeList.sampleHeap, DebugHeap.new, fun _ => .idle, [], []⟩ acts s
    ∧ acts.filterMap DecoAct.event = [.grant p 40, .release p]
    ∧ (logOf acts).again % 2 ^ 64 = 1 := by
  have h1 : (FreeList.allocator.allocate FreeList.sampleHeap 72 16).map Prod.fst
      = some (2 ^ 20 + 16) := by
    decide +kernel
  obtain ⟨⟨raw, b⟩, hcall, hraw⟩ := Option.map_eq_some_iff.mp h1
  have hne : raw ≠ 0 := by
    have hraw' : raw = 2 ^ 20 + 16 := hraw
    omega
  have hok : FreeList.Serves FreeList.sampleHeap [] :=
    FreeList.Serves.create FreeList.sampleHeap_create
  have hstart : DecoInv guards table FreeList.allocator FreeList.Serves
      (⟨FreeList.sampleHeap, DebugHeap.new, fun _ => .idle, [], []⟩ :
        Deco Bool FreeList.FlAlloc DebugHeap) :=
    DecoInv.start hok fun p => rfl
  have hreq : FreeList.Plain (guards.head + 40 + guards.tail) (guards.align 16) :=
    show FreeList.Plain 72 16 from ⟨by omega, le_refl 16⟩
  obtain ⟨acts₁, hev₁, hrun₁⟩ := Deco.alloc_steps (K := table) freeList_lens 16
    (s := ⟨FreeList.sampleHeap, DebugHeap.new, fun _ => .idle, [], []⟩)
      (t := true) rfl hreq hcall hne
  obtain ⟨acts₂, s, hrun₂, hev₂, hcount⟩ :=
    freed_twice FreeList.implements (fun _ _ => trivial) freeList_lens
    (hstart.of_run FreeList.implements (fun _ _ => trivial) hrun₁) (fun _ => rfl)
    ((table.find_insert ..).trans (if_pos rfl)) false true
  have hrun := hrun₁.trans hrun₂
  refine ⟨raw + guards.head, _, s, hrun, ?_, ?_⟩
  · rw [List.filterMap_append, hev₁, hev₂]
    rfl
  · rw [← (debug_heap_shields FreeList.implements (fun _ _ => trivial) hok hrun).2.2.2.2.1]
    exact hcount

end HeapForge.CppDebugHeap
