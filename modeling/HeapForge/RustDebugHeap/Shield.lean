import HeapForge.RustDebugHeap.Impl
import HeapForge.Lib.DecoratorRuns
import HeapForge.DebugHeap.Decorate

/-!
# The Rust debug heap among threads

`rust/src/debug_heap.rs` calls its backend and fills a new block without holding its mutex, and
checks and poisons a block before it lets the mutex go.  Nobody can look at the map meanwhile, so
the block may as well have left it before: the calls are runs of the decorator of `Lib/Decorator`.

* `guards`, `table`       its canaries and its map;
* `allocate_steps`, `deallocate_steps`   the calls are runs of the decorator;
* `debug_heap_exact`      **whatever is freed, by whatever thread, the backend sees only correct
                          calls, the callers have independent objects, and every counter is exact.**
-/

set_option linter.unusedSectionVars false
set_option linter.unusedVariables false

namespace HeapForge.RustDebugHeap
open Lib Function

/-! ## the canaries -/

/-- the stores of `write_guards` and of the fill -/
def freshPuts (raw size : Nat) : List (Nat × BitVec 8) :=
  fieldPuts raw [(4, CANARY), (8, size)] ++ fieldPuts (raw + HEAD + size) [(4, CANARY)]
    ++ fillPuts (raw + HEAD) size FILL

def intact (m : Mem) (raw size : Nat) : Bool := headOk m raw && tailOk m raw size

section
variable {m m' : Mem} {raw size x : Nat} {v : BitVec 8}

/-- the layout is the one of the C library -/
theorem intact_eq (m : Mem) (raw size : Nat) :
    intact m raw size = DebugHeap.verifyBlock m raw size := rfl

theorem stores_freshPuts (m : Mem) (raw size : Nat) :
    stores (freshPuts raw size) m = (writeGuards m raw size).fill (raw + HEAD) size FILL := by
  have hfields : ∀ (m : Mem) a fs, stores (fieldPuts a fs) m = m.storeFields a fs := fun m a fs =>
    (stores_eq_write _ _).trans (write_fieldPuts m a fs)
  rw [freshPuts, stores_append, stores_append, stores_fillPuts, hfields, hfields]
  rfl

theorem mem_freshPuts (h : (x, v) ∈ freshPuts raw size) :
    raw ≤ x ∧ x < raw + (HEAD + size + TAIL) := by
  have hh : HEAD = 12 := rfl
  have ht : TAIL = 4 := rfl
  rcases List.mem_append.mp h with h | h
  · rcases List.mem_append.mp h with h | h
    · obtain ⟨h1, h2, -⟩ := mem_fieldPuts Mem.zero h
      have h3 : x < raw + 12 := h2
      omega
    · obtain ⟨h1, h2, -⟩ := mem_fieldPuts Mem.zero h
      have h3 : x < raw + HEAD + size + 4 := h2
      omega
  · have h1 := mem_fillPuts h
    omega

end

/-! ## the decorator -/

def guards : Guards where
  head := HEAD
  tail := TAIL
  align := id
  fresh := freshPuts
  wipe raw size := fillPuts (raw + HEAD) size POISON
  intact := intact
  fresh_inside := mem_freshPuts
  wipe_inside := by
    intro raw size x v h
    have h1 := mem_fillPuts h
    omega
  intact_congr := by
    intro m m' raw size h
    have hh : HEAD = 12 := rfl
    have ht : TAIL = 4 := rfl
    rw [intact_eq, intact_eq]
    exact DebugHeap.verifyBlock_congr (fun x h1 h2 => h x (Or.inl ⟨h1, by omega⟩))
      fun x h1 h2 => h x (Or.inr ⟨by omega, by omega⟩)
  intact_fresh := by
    intro m raw size
    rw [stores_freshPuts, intact_eq]
    exact DebugHeap.fresh_intact m raw size

/-- the locked part of a free of a live block, without the check -/
def Inner.take (g : Inner) (user : Nat) : Inner :=
  match g.table.lookup user with
  | none => g
  | some e => g.retire user e

/-- the live block of a pointer -/
def Inner.find (g : Inner) (user : Nat) : Option (Nat × Nat) :=
  (g.table.lookup user).bind fun e => if e.freed then none else some (e.raw, e.size)

theorem lookup_insert {t : AList fun _ : Nat => Entry} {p q : Nat} {e : Entry} :
    (t.insert q e).lookup p = if p = q then some e else t.lookup p := by
  by_cases hp : p = q
  · subst hp
    rw [if_pos rfl, AList.lookup_insert]
  · rw [if_neg hp, AList.lookup_insert_ne hp]

theorem find_judge (g : Inner) (ok : Bool) (p : Nat) : (g.judge ok).find p = g.find p := by
  unfold Inner.judge
  split <;> rfl

def table : Table Inner guards.head where
  find := Inner.find
  insert := Inner.insert
  take := Inner.take
  reject := Inner.reject
  judge := Inner.judge
  glance := Inner.judge
  find_insert := by
    intro g raw size p
    unfold Inner.find Inner.insert
    dsimp only
    rw [lookup_insert]
    split <;> rfl
  find_take := by
    intro g q p
    unfold Inner.find Inner.take
    cases hq : g.table.lookup q with
    | none =>
      dsimp only
      by_cases hp : p = q
      · rw [if_pos hp, hp, hq]
        rfl
      · rw [if_neg hp]
    | some e =>
      unfold Inner.retire
      dsimp only
      rw [lookup_insert]
      split <;> rfl
  find_reject := by
    intro g q p
    unfold Inner.reject
    split <;> rfl
  find_judge := find_judge
  find_glance := find_judge

/-! ## the map and the counters -/

structure Counts (l : Log) (rep : DebugReport) : Prop where
  totalAllocs : rep.totalAllocs = l.grants % 2 ^ 64
  totalFrees : rep.totalFrees = l.frees % 2 ^ 64
  activeAllocs : rep.activeAllocs < 2 ^ 64
    ∧ (rep.activeAllocs + l.frees) % 2 ^ 64 = l.grants % 2 ^ 64
  doubleFrees : rep.doubleFrees = l.again % 2 ^ 64
  invalidFrees : rep.invalidFrees = l.never % 2 ^ 64
  canaryViolations : rep.canaryViolations = (l.found + l.seen) % 2 ^ 64
  leaked : rep.leakedBlocks = 0 ∧ rep.leakedBytes = 0

/-- what the log of a run says about the heap -/
structure Tells (l : Log) (g : Inner) : Prop where
  known : ∀ p, (g.table.lookup p).map (fun e => !e.freed) = l.known p
  counts : Counts l g.rep

section
variable {τ β : Type*} [DecidableEq τ] {A : Allocator β} {Req : Nat → Nat → Prop}
  {Frees : List Extent → Extent → Prop} {Ok : β → List Extent → Prop} {b : β} {g : Inner} {l : Log}
  {acts : List (DecoAct τ)} {s s' : Deco τ β Inner} {t : τ} {p size align : Nat} {e : Extent}

theorem Tells.insert (ht : Tells l g) (t : τ) (raw p size : Nat) :
    Tells (l.next (.list t raw p size)) (g.insert raw p size) := by
  obtain ⟨h1, h2, h3, ⟨h4, h5⟩, h6, h7, h8, h9⟩ := ht
  refine ⟨fun q => ?_, wadd_count h2, h3, ⟨wadd_lt _ _, ?_⟩, h6, h7, h8, h9⟩
  · show ((g.table.insert p ⟨raw, size, false⟩).lookup q).map _ = update l.known p (some true) q
    rw [lookup_insert, update_apply]
    split
    · rfl
    · exact h1 q
  · show (wadd g.rep.activeAllocs 1 + l.frees) % 2 ^ 64 = (l.grants + 1) % 2 ^ 64
    unfold wadd
    omega

theorem Tells.take (ht : Tells l g) (t : τ) {p : Nat} (was : Bool) {raw size : Nat}
    (hf : g.find p = some (raw, size)) :
    Tells (l.next (.take t p was)) (g.take p) := by
  obtain ⟨h1, h2, h3, ⟨h4, h5⟩, h6, h7, h8, h9⟩ := ht
  obtain ⟨e, he, -⟩ := Option.bind_eq_some_iff.mp hf
  unfold Inner.take
  rw [he]
  constructor
  · intro q
    show ((g.table.insert p { e with freed := true }).lookup q).map _
      = update l.known p (some false) q
    rw [lookup_insert, update_apply]
    split
    · rfl
    · exact h1 q
  · show Counts { l with known := update l.known p (some false), frees := l.frees + 1 } { g.rep with
      totalFrees := wadd g.rep.totalFrees 1
      activeAllocs := wsub g.rep.activeAllocs 1 }
    refine ⟨h2, wadd_count h3, ⟨wsub_lt _ _, ?_⟩, h6, h7, h8, h9⟩
    show (wsub g.rep.activeAllocs 1 + (l.frees + 1)) % 2 ^ 64 = l.grants % 2 ^ 64
    unfold wsub
    omega

theorem Tells.reject (ht : Tells l g) (t : τ) {p : Nat} (hf : g.find p = none) :
    Tells (l.next (.reject t p)) (g.reject p) := by
  obtain ⟨h1, h2, h3, h4, h6, h7, h8, h9⟩ := ht
  have hp := h1 p
  unfold Inner.reject
  show Tells (if l.known p = some false then _ else _) _
  cases hl : g.table.lookup p with
  | none =>
    rw [hl] at hp
    rw [if_neg (by rw [← hp]; simp)]
    exact ⟨h1, h2, h3, h4, h6, wadd_count h7, h8, h9⟩
  | some e =>
    -- it is not live, so it is freed
    have hfreed : e.freed = true := by
      unfold Inner.find at hf
      rw [hl] at hf
      by_contra hne
      rw [Option.bind_some, if_neg hne] at hf
      exact absurd hf (by simp)
    have hknown : l.known p = some false := by
      rw [← hp, hl, Option.map_some, hfreed]
      rfl
    rw [if_pos hknown]
    exact ⟨h1, h2, h3, h4, wadd_count h6, h7, h8, h9⟩

theorem Tells.judge (ht : Tells l g) (t : τ) (ok : Bool) :
    Tells (l.next (.check t ok)) (g.judge ok) := by
  obtain ⟨h1, h2, h3, h4, h6, h7, h8, h9⟩ := ht
  cases ok with
  | true => exact ⟨h1, h2, h3, h4, h6, h7, h8, h9⟩
  | false =>
    exact ⟨h1, h2, h3, h4, h6, h7, (wadd_count h8).trans (by rw [Nat.add_right_comm]; rfl), h9⟩

/-- a sweep counts like a free -/
theorem Tells.glance (ht : Tells l g) (t : τ) (p : Nat) (ok : Bool) :
    Tells (l.next (.look t p ok)) (g.judge ok) := by
  obtain ⟨h1, h2, h3, h4, h6, h7, h8, h9⟩ := ht
  cases ok with
  | true => exact ⟨h1, h2, h3, h4, h6, h7, h8, h9⟩
  | false => exact ⟨h1, h2, h3, h4, h6, h7, wadd_count h8, h9⟩

theorem Tells.of_run (hs : Tells Log.start s.table)
    (hrun : Steps (DecoStep guards table A Req) s acts s') :
    Tells (logOf acts) s'.table :=
  Deco.table_rule (I := Tells) hs (fun _ _ raw size t ht => ht.insert t raw _ size)
    (fun _ _ p _ _ t was ht hf => ht.take t was hf) (fun _ _ p t ht hf => ht.reject t hf)
    (fun _ _ ok t ht => ht.judge t ok) (fun _ _ p ok t ht => ht.glance t p ok) hrun

theorem tells_new : Tells Log.start new :=
  ⟨fun _ => rfl, rfl, rfl, ⟨by decide, rfl⟩, rfl, rfl, rfl, rfl, rfl⟩

/-! ## the live blocks -/

/-- the live blocks of the map -/
def Inner.blocks (g : Inner) : List Extent :=
  (g.entries.filter fun e => !e.freed).map fun e => ⟨e.raw + HEAD, e.size⟩

/-- every live entry stands under its own user pointer -/
theorem entry_key (hi : DecoInv guards table A Ok s) {e : Entry}
    (he : s.table.table.lookup p = some e) (hlive : e.freed = false) :
    e.raw + HEAD = p ∧ (⟨p, e.size⟩ : Extent) ∈ s.live := by
  refine (hi.found p e.raw e.size).mp ?_
  show s.table.find p = _
  unfold Inner.find
  rw [he, Option.bind_some, if_neg (by rw [hlive]; simp)]

theorem mem_blocks (hi : DecoInv guards table A Ok s) : e ∈ s.table.blocks ↔ e ∈ s.live := by
  unfold Inner.blocks Inner.entries
  rw [List.mem_map]
  constructor
  · rintro ⟨en, hen, rfl⟩
    obtain ⟨hm, hfreed⟩ := List.mem_filter.mp hen
    obtain ⟨⟨q, en'⟩, hq, rfl⟩ := List.mem_map.mp hm
    obtain ⟨h1, h2⟩ := entry_key hi (AList.mem_lookup_iff.mpr hq) (by simpa using hfreed)
    dsimp only at h1 h2 ⊢
    rw [h1]
    exact h2
  · intro he
    have h12 : HEAD < e.ptr := hi.behind e he
    have hf : s.table.find e.ptr = some (e.ptr - HEAD, e.size) :=
      (hi.found e.ptr (e.ptr - HEAD) e.size).mpr ⟨Nat.sub_add_cancel h12.le, he⟩
    obtain ⟨en, hl, hen⟩ := Option.bind_eq_some_iff.mp hf
    split at hen
    · exact absurd hen (by simp)
    · rename_i hfreed
      rw [Option.some.injEq, Prod.mk.injEq] at hen
      refine ⟨en, List.mem_filter.mpr
        ⟨List.mem_map.mpr ⟨_, AList.mem_lookup_iff.mp hl, rfl⟩, by simpa using hfreed⟩, ?_⟩
      rw [hen.1, hen.2, Nat.sub_add_cancel h12.le]

theorem nodup_blocks (hi : DecoInv guards table A Ok s) : s.table.blocks.Nodup := by
  have hkeys : (s.table.blocks.map Extent.ptr).Sublist s.table.table.keys := by
    unfold Inner.blocks Inner.entries
    rw [List.filter_map, List.map_map, List.map_map, AList.keys, List.keys]
    have hmap : ((s.table.table.entries.filter ((fun e : Entry => !e.freed) ∘ fun e => e.2)).map
        ((Extent.ptr ∘ fun e : Entry => (⟨e.raw + HEAD, e.size⟩ : Extent)) ∘ fun e => e.2))
        = (s.table.table.entries.filter ((fun e : Entry => !e.freed) ∘ fun e => e.2)).map
          Sigma.fst := by
      refine List.map_congr_left fun en hen => ?_
      obtain ⟨hm, hfreed⟩ := List.mem_filter.mp hen
      exact (entry_key hi (AList.mem_lookup_iff.mpr hm) (by simpa using hfreed)).1
    rw [hmap]
    exact List.filter_sublist.map _
  exact (hkeys.nodup s.table.table.keys_nodup).of_map _

/-- the map lists the ranges of the callers -/
theorem blocks_perm (hi : DecoInv guards table A Ok s) : s.table.blocks.Perm s.live :=
  (List.perm_ext_iff_of_nodup (nodup_blocks hi) hi.nodup).mpr fun _ => mem_blocks hi

/-! ## the walks over the map -/

def Entry.live (e : Entry) : Bool := !e.freed

/-- what a walk does with a live entry -/
def countLeak (rep : DebugReport) (e : Entry) : DebugReport :=
  { rep with leakedBlocks := wadd rep.leakedBlocks 1, leakedBytes := wadd rep.leakedBytes e.size }

def checkLive (m : Mem) (acc : Nat × Inner) (e : Entry) : Nat × Inner :=
  if intact m e.raw e.size then acc else (wadd acc.1 1, acc.2.judge false)

theorem foldl_reportEntry (es : List Entry) (rep : DebugReport) :
    es.foldl reportEntry rep = (es.filter Entry.live).foldl countLeak rep := by
  have hstep : reportEntry = fun rep e => if e.live then countLeak rep e else rep := by
    funext rep e
    unfold reportEntry Entry.live
    cases e.freed <;> rfl
  rw [hstep, List.foldl_filter]

theorem foldl_checkEntry (m : Mem) (es : List Entry) (acc : Nat × Inner) :
    es.foldl (checkEntry m) acc = (es.filter Entry.live).foldl (checkLive m) acc := by
  have hstep : checkEntry m = fun acc e => if e.live then checkLive m acc e else acc := by
    funext acc e
    unfold checkEntry Entry.live
    cases e.freed <;> rfl
  rw [hstep, List.foldl_filter]

theorem drop_eq (A : Allocator β) (es : List Entry) (b : β) :
    drop A b es = ((es.filter Entry.live).map Entry.raw).foldlM A.deallocate b := by
  have hstep : (fun (b : β) (e : Entry) => if e.freed then some b else A.deallocate b e.raw)
      = fun b e => if e.live then A.deallocate b e.raw else pure b := by
    funext b e
    unfold Entry.live
    cases e.freed <;> rfl
  unfold drop
  rw [hstep, ← List.foldlM_filter, List.foldlM_map]

theorem foldl_countLeak (es : List Entry) (rep : DebugReport)
    (hn : rep.leakedBlocks + es.length < 2 ^ 64)
    (hb : rep.leakedBytes + (es.map Entry.size).sum < 2 ^ 64) :
    es.foldl countLeak rep = { rep with
      leakedBlocks := rep.leakedBlocks + es.length
      leakedBytes := rep.leakedBytes + (es.map Entry.size).sum } := by
  induction es generalizing rep with
  | nil => rfl
  | cons e es ih =>
    rw [List.length_cons] at hn
    rw [List.map_cons, List.sum_cons] at hb
    have hfirst : countLeak rep e = { rep with
        leakedBlocks := rep.leakedBlocks + 1
        leakedBytes := rep.leakedBytes + e.size } := by
      unfold countLeak
      rw [wadd_of_lt (by omega), wadd_of_lt (by omega)]
    rw [List.foldl_cons, hfirst, ih]
    · simp only [List.length_cons, List.map_cons, List.sum_cons, DebugReport.mk.injEq, true_and]
      omega
    · show rep.leakedBlocks + 1 + _ < _
      omega
    · show rep.leakedBytes + e.size + _ < _
      omega

theorem foldl_checkLive (m : Mem) (es : List Entry) (c : Nat) (g : Inner) :
    (es.foldl (checkLive m) (c % 2 ^ 64, g)).1
      = (c + es.countP fun e => !intact m e.raw e.size) % 2 ^ 64 := by
  induction es generalizing c g with
  | nil => rfl
  | cons e es ih =>
    rw [List.foldl_cons]
    cases hok : intact m e.raw e.size with
    | true =>
      have hfirst : checkLive m (c % 2 ^ 64, g) e = (c % 2 ^ 64, g) := if_pos hok
      rw [hfirst, List.countP_cons_of_neg (by rw [hok]; simp)]
      exact ih c g
    | false =>
      have hfirst : checkLive m (c % 2 ^ 64, g) e = ((c + 1) % 2 ^ 64, g.judge false) := by
        rw [← wadd_count rfl]
        exact if_neg (by rw [hok]; simp)
      rw [hfirst, List.countP_cons_of_pos (by rw [hok]; rfl), ih, Nat.add_assoc, Nat.add_comm 1]

theorem report_exact (hA : Implements A Req Frees Ok) (hi : DecoInv guards table A Ok s)
    (ht : Tells l s.table) (hcount : l.grants = l.frees + s.live.length) :
    report s.table = { s.table.rep with
        leakedBlocks := s.live.length
        leakedBytes := (s.live.map Extent.size).sum }
      ∧ s.table.rep.activeAllocs = s.live.length := by
  have hperm := blocks_perm hi
  have hlen : (s.table.entries.filter Entry.live).length = s.live.length := by
    rw [← hperm.length_eq, Inner.blocks, List.length_map]
    rfl
  have hsum : ((s.table.entries.filter Entry.live).map Entry.size).sum
      = (s.live.map Extent.size).sum := by
    rw [← (hperm.map Extent.size).sum_eq, Inner.blocks, List.map_map]
    rfl
  -- a block has at least the bytes of its guards
  have hbytes : (s.live.map Extent.size).sum + s.live.length
      ≤ ((s.live.map guards.wrap).map Extent.size).sum := by
    rw [List.map_map]
    induction s.live with
    | nil => exact le_refl 0
    | cons e l ih =>
      have hw : (Extent.size ∘ guards.wrap) e = 12 + e.size + 4 := rfl
      rw [List.map_cons, List.map_cons, List.sum_cons, List.sum_cons, List.length_cons, hw]
      omega
  have hle : ((s.live.map guards.wrap).map Extent.size).sum ≤ 2 ^ 64 - 1 := by
    refine sum_size_le (hi.wrap_apart hA) fun e he => ?_
    · obtain ⟨f, hf, rfl⟩ := List.mem_map.mp he
      have hlt := hA.inside hi.ok (hi.wrap_mem hf)
      omega
  obtain ⟨h0, h0'⟩ := ht.counts.leaked
  obtain ⟨h1, h2⟩ := ht.counts.activeAllocs
  constructor
  · unfold report
    rw [foldl_reportEntry, foldl_countLeak _ _ (by rw [hlen, h0]; omega) (by rw [hsum, h0']; omega),
      hlen, hsum, h0, h0', Nat.zero_add, Nat.zero_add]
  · omega

/-- the damaged entries are the damaged blocks -/
theorem countP_blocks (hi : DecoInv guards table A Ok s) (m : Mem) :
    (s.table.entries.filter Entry.live).countP (fun e => !intact m e.raw e.size)
      = s.live.countP fun e => !intact m (e.ptr - HEAD) e.size := by
  rw [← (blocks_perm hi).countP_eq, Inner.blocks, List.countP_map]
  refine List.countP_congr fun e he => ?_
  rw [Function.comp_apply, Nat.add_sub_cancel]

/-- the sweep counts the live blocks whose canaries are damaged -/
theorem check_exact (hi : DecoInv guards table A Ok s) (hlen : s.live.length < 2 ^ 64) :
    (check A s.b s.table).1 = s.live.countP fun e => !intact (A.heap s.b)
    (e.ptr - HEAD) e.size := by
  have hle := List.countP_le_length
    (p := fun e : Extent => !intact (A.heap s.b) (e.ptr - HEAD) e.size) (l := s.live)
  unfold check
  rw [foldl_checkEntry, show ((0 : Nat), s.table) = (0 % 2 ^ 64, s.table) from rfl, foldl_checkLive,
    countP_blocks hi, Nat.zero_add, Nat.mod_eq_of_lt (by omega)]

theorem checkLive_eq (m : Mem) (c : Nat) (g : Inner) (e : Entry) :
    checkLive m (c, g) e = ((checkLive m (c, g) e).1, g.judge (intact m e.raw e.size)) := by
  unfold checkLive
  cases intact m e.raw e.size <;> rfl

variable (A Req) in
/-- a sweep over some of the live blocks, in one run of the thread -/
theorem sweep_steps (hidle : s.spot t = .idle) {es : List Entry}
    (hes : ∀ e ∈ es, s.table.find (e.raw + HEAD) = some (e.raw, e.size)) (c : Nat) :
    ∃ acts, Steps (DecoStep guards table A Req) s acts
        { s with table := (es.foldl (checkLive (A.heap s.b)) (c, s.table)).2 }
      ∧ acts.filterMap DecoAct.event = []
      ∧ (acts.filterMap DecoAct.badLook).length
        = es.countP fun e => !intact (A.heap s.b) e.raw e.size := by
  induction es generalizing s c with
  | nil => exact ⟨[], Steps.nil s, rfl, rfl⟩
  | cons e es ih =>
    have hstep : DecoStep guards table A Req s
      (.look t (e.raw + HEAD) (intact (A.heap s.b) e.raw e.size))
        { s with table := s.table.judge (intact (A.heap s.b) e.raw e.size) } :=
      DecoStep.look hidle (hes e List.mem_cons_self)
    rw [List.foldl_cons, checkLive_eq]
    generalize hok : intact (A.heap s.b) e.raw e.size = ok at hstep
    have hrest : ∀ f ∈ es, (s.table.judge ok).find (f.raw + HEAD) = some (f.raw, f.size) := by
      intro f hf
      rw [find_judge]
      exact hes f (List.mem_cons_of_mem e hf)
    obtain ⟨acts, hrun, hev, hbad⟩ := ih (s := { s with table := s.table.judge ok }) hidle hrest
      (checkLive (A.heap s.b) (c, s.table) e).1
    refine ⟨[.look t (e.raw + HEAD) ok] ++ acts, ((Steps.nil s).snoc hstep).trans hrun, hev, ?_⟩
    cases ok with
    | true =>
      rw [List.countP_cons_of_neg (by rw [hok]; simp)]
      exact hbad
    | false =>
      rw [List.countP_cons_of_pos (by rw [hok]; rfl)]
      exact congrArg (· + 1) hbad

/-- `check` is a run of the thread -/
theorem check_steps (hi : DecoInv guards table A Ok s) (hidle : s.spot t = .idle) :
    ∃ acts, Steps (DecoStep guards table A Req) s acts { s with table := (check A s.b s.table).2 }
      ∧ acts.filterMap DecoAct.event = []
      ∧ (acts.filterMap DecoAct.badLook).length
        = s.live.countP fun e => !intact (A.heap s.b) (e.ptr - HEAD) e.size := by
  have hfind : ∀ e ∈ s.table.entries.filter Entry.live, s.table.find (e.raw + HEAD)
      = some (e.raw, e.size) := by
    intro e he
    have hm : (⟨e.raw + HEAD, e.size⟩ : Extent) ∈ s.table.blocks := List.mem_map.mpr ⟨e, he, rfl⟩
    exact (hi.found _ _ _).mpr ⟨rfl, (mem_blocks hi).mp hm⟩
  obtain ⟨acts, hrun, hev, hbad⟩ := sweep_steps A Req hidle hfind 0
  refine ⟨acts, ?_, hev, hbad.trans (countP_blocks hi _)⟩
  unfold check
  rw [foldl_checkEntry]
  exact hrun

/-- the live blocks go back in any order -/
theorem drop_returns (hA : Implements A Req Frees Ok) (hany : ∀ l e, Frees l e)
    (hi : DecoInv guards table A Ok s) (hidle : ∀ t, s.spot t = .idle) {order : List Entry}
    (hord : order.Perm s.table.entries) :
    ∃ b', drop A s.b order = some b' ∧ Ok b' [] := by
  have hperm : (((order.filter Entry.live).map fun e => (⟨e.raw + HEAD, e.size⟩ : Extent)).map
      guards.wrap).Perm s.out :=
    ((((hord.filter _).map _).trans (blocks_perm hi)).map _).trans (hi.out_perm hA hidle)
  obtain ⟨b', hall, hok⟩ := hA.free_all hany hi.ok hperm
  refine ⟨b', ?_, hok⟩
  rw [drop_eq, ← hall, List.map_map, List.map_map]
  refine congrArg (List.foldlM A.deallocate s.b) (List.map_congr_left fun e he => ?_)
  exact (Nat.add_sub_cancel e.raw HEAD).symm

/-! ## the calls -/

/-- a request that does not wrap, in one run of the thread -/
theorem allocate_steps (hlens : A.Lens) (hidle : s.spot t = .idle)
    (hsize : HEAD + size + TAIL < 2 ^ 64) (hreq : Req (HEAD + size + TAIL) align) {r : Option Nat}
    (hcall : allocate A s.b s.table size align = some (r, b, g)) :
    ∃ acts s', Steps (DecoStep guards table A Req) s acts s' ∧ s'.b = b ∧ s'.table = g
    ∧ s'.spot = s.spot
      ∧ (r = none → acts.filterMap DecoAct.event = [.refuse size] ∧ s'.live = s.live)
      ∧ ∀ p, r = some p → acts.filterMap DecoAct.event = [.grant p size]
      ∧ s'.live = ⟨p, size⟩ :: s.live := by
  have htotal : wadd (wadd HEAD size) TAIL = HEAD + size + TAIL := by
    rw [wadd_of_lt (show HEAD + size < 2 ^ 64 by omega), wadd_of_lt hsize]
  unfold allocate at hcall
  rw [htotal] at hcall
  obtain ⟨⟨raw, b₁⟩, ha, hret⟩ := Option.map_eq_some_iff.mp hcall
  dsimp only at hret
  by_cases hraw : raw = 0
  · rw [if_pos hraw] at hret
    simp only [Prod.mk.injEq] at hret
    obtain ⟨rfl, rfl, rfl⟩ := hret
    subst hraw
    have hstep : DecoStep guards table A Req s (.refuse t size) _ :=
      DecoStep.refuse align hidle hreq ha
    exact ⟨_, _, (Steps.nil s).snoc hstep, rfl, rfl, rfl, fun _ => ⟨rfl, rfl⟩,
      fun p hp => absurd hp (by simp)⟩
  · rw [if_neg hraw] at hret
    simp only [Prod.mk.injEq] at hret
    obtain ⟨rfl, rfl, rfl⟩ := hret
    obtain ⟨acts, hev, hrun⟩ :=
      Deco.alloc_steps (G := guards) (K := table) hlens align hidle hreq ha hraw
    refine ⟨acts, _, hrun, ?_, rfl, rfl, fun hn => absurd hn (by simp), ?_⟩
    · show A.setHeap b₁ (stores (freshPuts raw size) (A.heap b₁)) = _
      rw [stores_freshPuts]
    · intro p hp
      obtain rfl := Option.some.inj hp
      exact ⟨hev, rfl⟩

/-- checking before the entry is retired is the same as checking afterwards -/
theorem judge_retire (g : Inner) (user : Nat) (e : Entry) (ok : Bool) :
    (g.judge ok).retire user e = (g.retire user e).judge ok := by
  obtain ⟨tab, active, allocs, frees, smashed, double, invalid, blocks, bytes⟩ := g
  cases ok with
  | true => rfl
  | false => rfl

/-- a free of any pointer returns, and is a run of the thread -/
theorem deallocate_steps (hA : Implements A Req Frees Ok) (hany : ∀ l e, Frees l e) (hlens : A.Lens)
    (hi : DecoInv guards table A Ok s) (hidle : s.spot t = .idle) (hp : p ≠ 0) :
    ∃ b g acts s', deallocate A s.b s.table p = some (b, g)
    ∧ Steps (DecoStep guards table A Req) s acts s'
      ∧ s'.b = b ∧ s'.table = g ∧ s'.spot = s.spot
      ∧ acts.filterMap DecoAct.event = (if (s.table.find p).isSome then [.release p] else []) := by
  have hreject : s.table.find p = none → ∃ b g acts s', some (s.b, s.table.reject p) = some (b, g)
      ∧ Steps (DecoStep guards table A Req) s acts s' ∧ s'.b = b ∧ s'.table = g ∧ s'.spot = s.spot
      ∧ acts.filterMap DecoAct.event = (if (s.table.find p).isSome then [.release p] else []) := by
    intro hf
    have hstep : DecoStep guards table A Req s (.reject t p) _ := DecoStep.reject hidle hp hf
    rw [hf]
    exact ⟨_, _, _, _, rfl, (Steps.nil s).snoc hstep, rfl, rfl, rfl, rfl⟩
  unfold deallocate
  cases hl : s.table.table.lookup p with
  | none => exact hreject (by unfold Inner.find; rw [hl]; rfl)
  | some e =>
    dsimp only
    cases hfreed : e.freed with
    | true =>
      rw [if_pos rfl]
      exact hreject (by unfold Inner.find; rw [hl, Option.bind_some, hfreed]; rfl)
    | false =>
      have hf : s.table.find p = some (e.raw, e.size) := by
        unfold Inner.find
        rw [hl, Option.bind_some, hfreed]
        rfl
      obtain ⟨hkey, -⟩ := entry_key hi hl hfreed
      obtain ⟨b, hb⟩ := hi.free_returns hA hany hf
      obtain ⟨acts, hev, hrun⟩ := Deco.free_steps (K := table) Req hlens hidle hf hb
      have hpoison : stores (guards.wipe e.raw e.size) (A.heap s.b)
          = (A.heap s.b).fill p e.size POISON := by
        rw [← hkey]
        exact stores_fillPuts ..
      have htake : table.take s.table p = s.table.retire p e := by
        show s.table.take p = _
        unfold Inner.take
        rw [hl]
      have hintact : guards.intact (A.heap s.b) e.raw e.size
          = !(!headOk (A.heap s.b) e.raw || !tailOk (A.heap s.b) e.raw e.size) := by
        rw [Bool.not_or, Bool.not_not, Bool.not_not]
        rfl
      rw [hpoison] at hb
      rw [htake, hintact] at hrun
      rw [if_neg (by simp), hf, judge_retire]
      refine ⟨b, _, acts, _, ?_, hrun, rfl, rfl, rfl, hev⟩
      rw [hb]
      rfl

end

/-- **The Rust debug heap is exact.**  Over any backend that keeps its contract and takes frees in
any order, in every interleaving of threads that free any pointers, overrun their blocks into the
guards and sweep: the callers have independent objects, and a byte read is the byte last written;
each block goes back to the backend, which takes it; the map knows of every pointer whether it is
live, was freed or was never handed out, refused frees are counted accordingly, `active_allocs` and
the leaks of the report are the live blocks, and a sweep finds those whose canaries are damaged.
Between calls, the violations counted are the damaged blocks that were freed and those that sweeps
have seen, and dropping the heap gives every live block back. -/
theorem debug_heap_exact {τ β : Type*} [DecidableEq τ] {A : Allocator β} {Req : Nat → Nat → Prop}
    {Frees : List Extent → Extent → Prop} {Ok : β → List Extent → Prop} {b : β}
    {acts : List (DecoAct τ)} {s : Deco τ β Inner} (hA : Implements A Req Frees Ok)
    (hany : ∀ l e, Frees l e) (hb : Ok b [])
    (hrun : Steps (DecoStep guards table A Req) ⟨b, new, fun _ => .idle, [], []⟩ acts s) :
    Steps ObjStep noObjects (acts.filterMap DecoAct.event) (s.objects A)
      ∧ (∀ acts' p i v w, acts = acts' ++ [.read p i v] →
          lastWritten p i (acts'.filterMap DecoAct.event) = some w → v = w)
      ∧ (∀ t raw size, s.spot t = .wiping raw size [] → (A.deallocate s.b raw).isSome = true)
      ∧ (∀ p, (s.table.table.lookup p).map (fun e => !e.freed) = (logOf acts).known p)
      ∧ (report s.table).doubleFrees = (logOf acts).again % 2 ^ 64
      ∧ (report s.table).invalidFrees = (logOf acts).never % 2 ^ 64
      ∧ (report s.table).activeAllocs = s.live.length
      ∧ (report s.table).leakedBlocks = s.live.length
      ∧ (report s.table).leakedBytes = (s.live.map Extent.size).sum
      ∧ (check A s.b s.table).1
        = s.live.countP (fun e => !intact (A.heap s.b) (e.ptr - HEAD) e.size)
      ∧ (∀ t, s.spot t = .idle → ∃ sweep,
          Steps (DecoStep guards table A Req) s sweep { s with table := (check A s.b s.table).2 }
          ∧ sweep.filterMap DecoAct.event = []
          ∧ (sweep.filterMap DecoAct.badLook).length = (check A s.b s.table).1)
      ∧ ((∀ t, s.spot t = .idle) →
          (report s.table).canaryViolations
            = ((acts.filterMap DecoAct.badTake).length
              + (acts.filterMap DecoAct.badLook).length) % 2 ^ 64
          ∧ ∀ order, order.Perm s.table.entries → ∃ b', drop A s.b order = some b' ∧ Ok b' []) := by
  have hstart : DecoInv guards table A Ok (⟨b, new, fun _ => .idle, [], []⟩ : Deco τ β Inner) :=
    DecoInv.start hb fun p => rfl
  have hi : DecoInv guards table A Ok s := hstart.of_run hA hany hrun
  have ht : Tells (logOf acts) s.table := Tells.of_run tells_new hrun
  have hobjs : Steps ObjStep noObjects (acts.filterMap DecoAct.event) (s.objects A) :=
    Deco.refines hstart hA hany hrun
  obtain ⟨hrep, hactive⟩ := report_exact hA hi ht (Deco.counted hstart hA hany rfl hrun)
  have hlen : s.live.length < 2 ^ 64 := hactive ▸ ht.counts.activeAllocs.1
  rw [hrep]
  have hcheck := check_exact hi hlen
  refine ⟨hobjs, ?_, ?_, ht.known, ht.counts.doubleFrees, ht.counts.invalidFrees, hactive, rfl,
    rfl, hcheck, fun t hidle => ?_,
    fun hidle => ⟨?_, fun order hord => drop_returns hA hany hi hidle hord⟩⟩
  · rintro acts' p i v w rfl hw
    rw [filterMap_snoc] at hobjs
    exact hobjs.read_back hw
  · intro t raw size hspot
    obtain ⟨b', hcall, -⟩ := hi.giveBack hA hany hspot
    rw [hcall]
    rfl
  · rw [hcheck]
    exact check_steps hi hidle
  · rw [Deco.damage hstart hA hany (fun _ => rfl) hrun hidle, ← logOf_found, ← logOf_seen]
    exact ht.counts.canaryViolations

/-! ## over the free list -/

/-- a block whose tail begins with a zero byte -/
theorem not_intact_of_tail {m : Mem} {raw size : Nat} (h : m (raw + HEAD + size) = 0#8) :
    intact m raw size = false := by
  have htail : tailOk m raw size = false := by
    unfold tailOk Mem.load32 Mem.load
    rw [h, beq_eq_false_iff_ne]
    show ¬ 0 + 256 * _ = 0xDEADBEEF
    omega
  unfold intact
  rw [htail, Bool.and_false]

/-- a live block is overrun, a pointer that is not live is freed, and the block is seen in a
sweep -/
theorem overrun_swept {τ β : Type*} [DecidableEq τ] {A : Allocator β} {Req : Nat → Nat → Prop}
    {Ok : β → List Extent → Prop} {s : Deco τ β Inner} {p q raw size : Nat} (hlens : A.Lens)
    (hi : DecoInv guards table A Ok s) (hidle : ∀ t, s.spot t = .idle)
    (hfind : table.find s.table p = some (raw, size)) (hq : q ≠ 0)
    (hnone : table.find s.table q = none) (t : τ) :
    ∃ acts s', Steps (DecoStep guards table A Req) s acts s' ∧ acts.filterMap DecoAct.event = []
      ∧ 0 < (acts.filterMap DecoAct.badLook).length ∧ s'.spot = s.spot := by
  obtain ⟨rfl, hlive⟩ := (hi.found p raw size).mp hfind
  have haround : guards.Around (guards.user raw size) (raw + HEAD + size) := by
    have h1 : raw ≤ raw + HEAD + size := by omega
    have h2 : raw + HEAD + size < raw + (HEAD + size + TAIL) := by
      have htail : TAIL = 4 := rfl
      omega
    refine ⟨?_, fun hc => absurd hc.2 (Nat.lt_irrefl _)⟩
    rw [guards.wrap_user]
    exact ⟨h1, h2⟩
  have hsmashed : guards.intact (A.heap (A.poke s.b (raw + HEAD + size) 0#8)) raw size = false := by
    refine not_intact_of_tail ?_
    unfold Allocator.poke
    rw [hlens.heap_set]
    exact if_pos rfl
  have h1 : DecoStep guards table A Req s (.stray (raw + HEAD + size) 0#8) _ :=
    DecoStep.stray hlive haround
  have h2 : DecoStep guards table A Req { s with b := A.poke s.b (raw + HEAD + size) 0#8 }
      (.reject t q) _ :=
    DecoStep.reject (hidle t) hq hnone
  have h3 : DecoStep guards table A Req
      { s with b := A.poke s.b (raw + HEAD + size) 0#8, table := table.reject s.table q }
      (.look t (raw + guards.head)
        (guards.intact (A.heap (A.poke s.b (raw + HEAD + size) 0#8)) raw size)) _ :=
    DecoStep.look (hidle t) ((table.find_reject ..).trans hfind)
  rw [hsmashed] at h3
  exact ⟨_, _, (((Steps.nil s).snoc h1).snoc h2).snoc h3, rfl, Nat.one_pos, rfl⟩

/-- one thread allocates 40 bytes, which are overrun, and another frees a pointer that nobody was
given and sweeps -/
theorem debug_heap_exact_swept :
    ∃ (p : Nat) (acts : List (DecoAct Bool)) (s : Deco Bool FreeList.FlAlloc Inner),
      Steps (DecoStep guards table FreeList.allocator FreeList.Plain)
      ⟨FreeList.sampleHeap, new, fun _ => .idle, [], []⟩ acts s
    ∧ acts.filterMap DecoAct.event = [.grant p 40] ∧ 0 < (acts.filterMap DecoAct.badLook).length
    ∧ (report s.table).activeAllocs = s.live.length
    ∧ (report s.table).canaryViolations
      = ((acts.filterMap DecoAct.badTake).length
        + (acts.filterMap DecoAct.badLook).length) % 2 ^ 64 := by
  have h1 : (FreeList.allocator.allocate FreeList.sampleHeap 56 16).map Prod.fst
      = some (2 ^ 20 + 16) := by
    decide +kernel
  obtain ⟨⟨raw, b⟩, hcall, hraw⟩ := Option.map_eq_some_iff.mp h1
  have hne : raw ≠ 0 := by
    have hraw' : raw = 2 ^ 20 + 16 := hraw
    omega
  have hok : FreeList.Serves FreeList.sampleHeap [] :=
    FreeList.Serves.create FreeList.sampleHeap_create
  have hstart : DecoInv guards table FreeList.allocator FreeList.Serves
      (⟨FreeList.sampleHeap, new, fun _ => .idle, [], []⟩ : Deco Bool FreeList.FlAlloc Inner) :=
    DecoInv.start hok fun p => rfl
  have hreq : FreeList.Plain (guards.head + 40 + guards.tail) (guards.align 16) :=
    show FreeList.Plain 56 16 from ⟨by omega, le_refl 16⟩
  have hlens : FreeList.allocator.Lens := ⟨fun _ _ => rfl, fun _ _ _ => rfl, fun _ => rfl⟩
  obtain ⟨acts₁, hev₁, hrun₁⟩ := Deco.alloc_steps (K := table) hlens 16
    (s := ⟨FreeList.sampleHeap, new, fun _ => .idle, [], []⟩) (t := true) rfl hreq hcall hne
  have hnone : table.find (table.insert new raw (raw + guards.head) 40) raw = none := by
    have hptr : ¬ raw = raw + guards.head := by
      show ¬ raw = raw + 12
      omega
    rw [table.find_insert, if_neg hptr]
    rfl
  obtain ⟨acts₂, s, hrun₂, hev₂, hseen, hspot⟩ := overrun_swept hlens
    (hstart.of_run FreeList.implements (fun _ _ => trivial) hrun₁) (fun _ => rfl)
    ((table.find_insert ..).trans (if_pos rfl)) hne hnone false
  have hrun := hrun₁.trans hrun₂
  have hexact := debug_heap_exact FreeList.implements (fun _ _ => trivial) hok hrun
  refine ⟨raw + guards.head, _, s, hrun, ?_, ?_, hexact.2.2.2.2.2.2.1, ?_⟩
  · rw [List.filterMap_append, hev₁, hev₂]
    rfl
  · rw [List.filterMap_append, List.length_append]
    exact Nat.lt_add_left _ hseen
  · exact (hexact.2.2.2.2.2.2.2.2.2.2.2 fun t => by rw [hspot]).1

end HeapForge.RustDebugHeap
