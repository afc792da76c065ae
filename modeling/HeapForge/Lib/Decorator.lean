import HeapForge.Lib.Objects
import HeapForge.Lib.Owned
import HeapForge.Lib.Writeback

/-!
# A decorator that many threads share

A decorator puts guards around the blocks of an allocator and lists them in a table.  The calls to
the allocator, the stores into a block and the check of its guards are made outside the lock of the
table, so other threads run between them.  The callers may free any pointer at any time, and may
damage the guards.

* `Guards`, `Table`       what a decorator stores around a block, and what it keeps about it;
* `DecoStep`              the atomic steps of any number of threads;
* `DecoInv`               a block of the allocator is listed or in the hands of one thread;
* `DecoInv.step`, `.of_run`   **what a step keeps, a run keeps.**
-/

set_option linter.unusedSectionVars false
set_option linter.unusedVariables false

namespace HeapForge.Lib
open Function

/-- stores of single bytes, one after the other -/
def stores (l : List (Nat × BitVec 8)) (m : Mem) : Mem := l.foldl (fun m w => m.setByte w.1 w.2) m

theorem stores_eq_write (l : List (Nat × BitVec 8)) (m : Mem) : stores l m = write l m := by
  induction l generalizing m with
  | nil => rfl
  | cons w l ih =>
    have hput : m.setByte w.1 w.2 = update m w.1 w.2 := by
      funext y
      exact (Function.update_apply (show Nat → BitVec 8 from m) w.1 w.2 y).symm
    show stores l (m.setByte w.1 w.2) = write l (update m w.1 w.2)
    rw [ih, hput]

theorem stores_congr (l : List (Nat × BitVec 8)) {m m' : Mem} {x : Nat} (h : m' x = m x) :
    stores l m' x = stores l m x := by
  rw [stores_eq_write, stores_eq_write]
  exact write_congr l h

theorem stores_append (l l' : List (Nat × BitVec 8)) (m : Mem) :
    stores (l ++ l') m = stores l' (stores l m) :=
  List.foldl_append

theorem stores_of_notMem {l : List (Nat × BitVec 8)} {m : Mem} {x : Nat} (h : ∀ v, (x, v) ∉ l) :
    stores l m x = m x := by
  rw [stores_eq_write]
  exact write_of_notMem h

/-- the same byte over a range -/
def fillPuts (a n : Nat) (c : BitVec 8) : List (Nat × BitVec 8) :=
  (List.range n).map fun i => (a + i, c)

theorem mem_fillPuts {a n x : Nat} {c v : BitVec 8} (h : (x, v) ∈ fillPuts a n c) :
    a ≤ x ∧ x < a + n := by
  obtain ⟨i, hi, he⟩ := List.mem_map.mp h
  have hlt := List.mem_range.mp hi
  have hx : a + i = x := congrArg Prod.fst he
  omega

theorem stores_fillPuts (m : Mem) (a n : Nat) (c : BitVec 8) :
    stores (fillPuts a n c) m = m.fill a n c := by
  induction n with
  | zero =>
    funext x
    exact (if_neg (by omega)).symm
  | succ n ih =>
    rw [fillPuts, List.range_succ, List.map_append, stores_append]
    show (stores (fillPuts a n c) m).setByte (a + n) c = _
    rw [ih]
    funext x
    unfold Mem.setByte Mem.fill
    by_cases hx : x = a + n
    · rw [if_pos hx, if_pos (by omega)]
    · rw [if_neg hx]
      exact if_congr (by omega) rfl rfl

/-! ## guards and tables -/

/-- the layout of a guarded block: `head` bytes before the bytes of the user and `tail` bytes
behind -/
structure Guards where
  head : Nat
  tail : Nat
  /-- the alignment that is asked of the allocator -/
  align : Nat → Nat
  /-- the stores into a new block, and into one that goes back -/
  fresh : Nat → Nat → List (Nat × BitVec 8)
  wipe : Nat → Nat → List (Nat × BitVec 8)
  /-- what the check says of the block at `raw` -/
  intact : Mem → Nat → Nat → Bool
  fresh_inside : ∀ {raw size x : Nat} {v : BitVec 8}, (x, v) ∈ fresh raw size →
    raw ≤ x ∧ x < raw + (head + size + tail)
  wipe_inside : ∀ {raw size x : Nat} {v : BitVec 8}, (x, v) ∈ wipe raw size →
    raw ≤ x ∧ x < raw + (head + size + tail)
  /-- it reads the guards only -/
  intact_congr : ∀ {m m' : Mem} {raw size : Nat},
    (∀ x, raw ≤ x ∧ x < raw + head ∨ raw + head + size ≤ x ∧ x < raw + (head + size + tail) →
      m' x = m x) →
    intact m' raw size = intact m raw size
  intact_fresh : ∀ (m : Mem) (raw size : Nat), intact (stores (fresh raw size) m) raw size = true

/-- the whole block, and the bytes of the user in it -/
def Guards.block (G : Guards) (raw size : Nat) : Extent := ⟨raw, G.head + size + G.tail⟩

def Guards.user (G : Guards) (raw size : Nat) : Extent := ⟨raw + G.head, size⟩

def Guards.wrap (G : Guards) (e : Extent) : Extent := G.block (e.ptr - G.head) e.size

/-- the bytes around those of the user -/
def Guards.Around (G : Guards) (e : Extent) (x : Nat) : Prop := (G.wrap e).Has x ∧ ¬ e.Has x

/-- what a decorator keeps under its lock: the listed blocks with their sizes, and its counters -/
structure Table (T : Type*) (head : Nat) where
  find : T → Nat → Option (Nat × Nat)
  insert : T → Nat → Nat → Nat → T
  take : T → Nat → T
  /-- a free of a pointer that is not listed -/
  reject : T → Nat → T
  /-- a checked block -/
  judge : T → Bool → T
  /-- a listed block that was looked at -/
  glance : T → Bool → T
  find_insert : ∀ (t : T) (raw size p : Nat), find (insert t raw (raw + head) size) p
    = if p = raw + head then some (raw, size) else find t p
  find_take : ∀ (t : T) (q p : Nat), find (take t q) p = if p = q then none else find t p
  find_reject : ∀ (t : T) (q p : Nat), find (reject t q) p = find t p
  find_judge : ∀ (t : T) (ok : Bool) (p : Nat), find (judge t ok) p = find t p
  find_glance : ∀ (t : T) (ok : Bool) (p : Nat), find (glance t ok) p = find t p

/-- where a thread stands in its call -/
inductive Spot
  | idle
  /-- it has a new block, and these stores are left -/
  | filling (raw size : Nat) (todo : List (Nat × BitVec 8))
  /-- it has taken a block out of the table; `was` is what a check would have said then -/
  | checking (raw size : Nat) (was : Bool)
  | wiping (raw size : Nat) (todo : List (Nat × BitVec 8))

/-- the block that the thread alone knows of -/
def Spot.block (G : Guards) : Spot → Option Extent
  | .idle => none
  | .filling raw size _ => some (G.block raw size)
  | .checking raw size _ => some (G.block raw size)
  | .wiping raw size _ => some (G.block raw size)

structure Deco (τ β T : Type*) where
  b : β
  table : T
  spot : τ → Spot
  /-- the user's ranges, the newest first -/
  live : List Extent
  /-- what the allocator has handed out -/
  out : List Extent

inductive DecoAct (τ : Type*)
  | request (t : τ)
  | refuse (t : τ) (size : Nat)
  | fill (t : τ)
  | list (t : τ) (raw p size : Nat)
  | take (t : τ) (p : Nat) (was : Bool)
  | reject (t : τ) (p : Nat)
  | check (t : τ) (ok : Bool)
  | wipe (t : τ)
  | giveBack (t : τ)
  | look (t : τ) (p : Nat) (ok : Bool)
  | write (p i : Nat) (v : BitVec 8)
  | read (p i : Nat) (v : BitVec 8)
  | stray (x : Nat) (v : BitVec 8)

/-- what the callers see of it -/
def DecoAct.event {τ : Type*} : DecoAct τ → Option Event
  | .refuse _ size => some (.refuse size)
  | .list _ _ p size => some (.grant p size)
  | .take _ p _ => some (.release p)
  | .write p i v => some (.write p i v)
  | .read p i v => some (.read p i v)
  | _ => none

section
variable {τ β T : Type*} [DecidableEq τ]

/-- a store into the memory of the allocator -/
def Allocator.poke (A : Allocator β) (b : β) (x : Nat) (v : BitVec 8) : β :=
  A.setHeap b ((A.heap b).setByte x v)

variable (G : Guards) (K : Table T G.head) (A : Allocator β) (Req : Nat → Nat → Prop)

inductive DecoStep (s : Deco τ β T) : DecoAct τ → Deco τ β T → Prop
  | request {t : τ} {size raw : Nat} {b : β} (alignment : Nat) :
      s.spot t = .idle → Req (G.head + size + G.tail) (G.align alignment) →
      A.allocate s.b (G.head + size + G.tail) (G.align alignment) = some (raw, b) → raw ≠ 0 →
      DecoStep s (.request t)
        { s with
          b := b
          spot := update s.spot t (.filling raw size (G.fresh raw size))
          out := G.block raw size :: s.out }
  | refuse {t : τ} {size : Nat} {b : β} (alignment : Nat) :
      s.spot t = .idle → Req (G.head + size + G.tail) (G.align alignment) →
      A.allocate s.b (G.head + size + G.tail) (G.align alignment) = some (0, b) →
      DecoStep s (.refuse t size) { s with b := b }
  | fill {t : τ} {raw size x : Nat} {v : BitVec 8} {todo : List (Nat × BitVec 8)} :
      s.spot t = .filling raw size ((x, v) :: todo) →
      DecoStep s (.fill t)
        { s with b := A.poke s.b x v, spot := update s.spot t (.filling raw size todo) }
  | list {t : τ} {raw size : Nat} :
      s.spot t = .filling raw size [] →
      DecoStep s (.list t raw (raw + G.head) size)
        { s with
          table := K.insert s.table raw (raw + G.head) size
          spot := update s.spot t .idle
          live := G.user raw size :: s.live }
  -- any pointer may be freed, by any thread
  | take {t : τ} {p raw size : Nat} :
      s.spot t = .idle → K.find s.table p = some (raw, size) →
      DecoStep s (.take t p (G.intact (A.heap s.b) raw size))
        { s with
          table := K.take s.table p
          spot := update s.spot t (.checking raw size (G.intact (A.heap s.b) raw size))
          live := s.live.erase ⟨p, size⟩ }
  | reject {t : τ} {p : Nat} :
      s.spot t = .idle → p ≠ 0 → K.find s.table p = none →
      DecoStep s (.reject t p) { s with table := K.reject s.table p }
  | check {t : τ} {raw size : Nat} {was : Bool} :
      s.spot t = .checking raw size was →
      DecoStep s (.check t (G.intact (A.heap s.b) raw size))
        { s with
          table := K.judge s.table (G.intact (A.heap s.b) raw size)
          spot := update s.spot t (.wiping raw size (G.wipe raw size)) }
  | wipe {t : τ} {raw size x : Nat} {v : BitVec 8} {todo : List (Nat × BitVec 8)} :
      s.spot t = .wiping raw size ((x, v) :: todo) →
      DecoStep s (.wipe t)
        { s with b := A.poke s.b x v, spot := update s.spot t (.wiping raw size todo) }
  | giveBack {t : τ} {raw size : Nat} {b : β} :
      s.spot t = .wiping raw size [] → A.deallocate s.b raw = some b →
      DecoStep s (.giveBack t)
        { s with b := b, spot := update s.spot t .idle, out := s.out.erase (G.block raw size) }
  /-- one block of a sweep; the callers may store between one block and the next -/
  | look {t : τ} {p raw size : Nat} :
      s.spot t = .idle → K.find s.table p = some (raw, size) →
      DecoStep s (.look t p (G.intact (A.heap s.b) raw size))
        { s with table := K.glance s.table (G.intact (A.heap s.b) raw size) }
  | write {e : Extent} {i : Nat} {v : BitVec 8} :
      e ∈ s.live → i < e.size →
      DecoStep s (.write e.ptr i v) { s with b := A.poke s.b (e.ptr + i) v }
  | read {e : Extent} {i : Nat} :
      e ∈ s.live → i < e.size → DecoStep s (.read e.ptr i (A.heap s.b (e.ptr + i))) s
  /-- a store that misses the user's bytes and hits the guards -/
  | stray {e : Extent} {x : Nat} {v : BitVec 8} :
      e ∈ s.live → G.Around e x → DecoStep s (.stray x v) { s with b := A.poke s.b x v }

/-- what holds for a thread and its block -/
def SpotOk (m : Mem) : Spot → Prop
  | .idle => True
  | .filling raw size todo => raw ≠ 0 ∧ (∀ x v, (x, v) ∈ todo → (G.block raw size).Has x)
      ∧ G.intact (stores todo m) raw size = true
  | .checking raw size was => G.intact m raw size = was
  | .wiping raw size todo => ∀ x v, (x, v) ∈ todo → (G.block raw size).Has x

/-- who has a block of the allocator: the table, or a thread -/
def Deco.Has (s : Deco τ β T) (e : Extent) : Option τ → Prop
  | none => ∃ f ∈ s.live, G.wrap f = e
  | some t => (s.spot t).block G = some e

structure DecoInv (Ok : β → List Extent → Prop) (s : Deco τ β T) : Prop where
  ok : Ok s.b s.out
  owned : Owned (· ∈ s.out) (s.Has G)
  found : ∀ p raw size, K.find s.table p = some (raw, size) ↔ raw + G.head = p ∧ ⟨p, size⟩ ∈ s.live
  nodup : s.live.Nodup
  behind : ∀ e ∈ s.live, G.head < e.ptr
  spots : ∀ t, SpotOk G (A.heap s.b) (s.spot t)

end

/-! ## blocks and bytes -/

section
variable {G : Guards} {m m' : Mem} {sp : Spot} {raw size x : Nat} {v : BitVec 8} {e f : Extent}

theorem Guards.wrap_user (G : Guards) (raw size : Nat) :
    G.wrap (G.user raw size) = G.block raw size := by
  unfold Guards.wrap Guards.user
  rw [Nat.add_sub_cancel]

theorem Guards.wrap_inj (he : G.head ≤ e.ptr) (hf : G.head ≤ f.ptr) (h : G.wrap e = G.wrap f) :
    e = f := by
  have h1 : e.ptr - G.head = f.ptr - G.head := congrArg Extent.ptr h
  have h2 : G.head + e.size + G.tail = G.head + f.size + G.tail := congrArg Extent.size h
  cases e
  cases f
  rw [Extent.mk.injEq]
  simp only at h1 h2 he hf
  omega

theorem Guards.wrap_has (he : G.head ≤ e.ptr) (hx : e.Has x) : (G.wrap e).Has x := by
  obtain ⟨h1, h2⟩ := hx
  exact ⟨show e.ptr - G.head
    ≤ x by omega, show x < e.ptr - G.head + (G.head + e.size + G.tail) by omega⟩

/-- the check of a block depends on the bytes of the block -/
theorem Guards.intact_of_same (h : ∀ x, (G.block raw size).Has x → m' x = m x) :
    G.intact m' raw size = G.intact m raw size := by
  apply G.intact_congr
  intro x hx
  apply h
  constructor
  · show raw ≤ x
    omega
  · show x < raw + (G.head + size + G.tail)
    omega

theorem SpotOk.congr (h : SpotOk G m sp)
    (hm : ∀ e, sp.block G = some e → ∀ x, e.Has x → m' x = m x) :
    SpotOk G m' sp := by
  cases sp with
  | idle => trivial
  | filling raw size todo =>
    obtain ⟨h1, h2, h3⟩ := h
    refine ⟨h1, h2, ?_⟩
    rw [← h3]
    exact G.intact_of_same fun x hx => stores_congr todo (hm _ rfl x hx)
  | checking raw size was => exact (G.intact_of_same (hm _ rfl)).trans h
  | wiping raw size todo => exact h

end

/-! ## what a step keeps -/

section
variable {τ β T : Type*} [DecidableEq τ] {G : Guards} {K : Table T G.head} {A : Allocator β}
  {Req : Nat → Nat → Prop} {Frees : List Extent → Extent → Prop} {Ok : β → List Extent → Prop}
  {s s' : Deco τ β T} {a : DecoAct τ} {acts : List (DecoAct τ)} {t : τ} {k j : Option τ}
  {e f : Extent}
  {raw size p x : Nat} {v : BitVec 8} {b : β} {sp : Spot}

theorem DecoInv.out_apart (h : DecoInv G K A Ok s) (hA : Implements A Req Frees Ok) :
    s.out.Pairwise Extent.Apart := hA.apart h.ok

theorem DecoInv.out_nodup (h : DecoInv G K A Ok s) (hA : Implements A Req Frees Ok) : s.out.Nodup :=
  (h.out_apart hA).imp fun hap heq => hap.1 (congrArg Extent.ptr heq)

theorem DecoInv.wrap_mem (h : DecoInv G K A Ok s) (he : e ∈ s.live) : G.wrap e ∈ s.out :=
  h.owned.of_has (k := none) ⟨e, he, rfl⟩

/-- two holders, two blocks -/
theorem DecoInv.has_apart (h : DecoInv G K A Ok s) (hA : Implements A Req Frees Ok)
    (he : s.Has G e k) (hf : s.Has G f j) (hk : k ≠ j) : e.Apart f := by
  refine apart_of_mem (h.out_apart hA) (h.owned.of_has he) (h.owned.of_has hf) ?_
  rintro rfl
  exact hk (h.owned.unique e k j he hf)

theorem not_has_of_apart (h : e.Apart f) (hx : e.Has x) : ¬ f.Has x := by
  rintro ⟨h1, h2⟩
  obtain ⟨h3, h4⟩ := hx
  rcases h.2 with h5 | h5
  · omega
  · omega

/-- a listed block is known by its pointer -/
theorem DecoInv.live_eq (h : DecoInv G K A Ok s) (hA : Implements A Req Frees Ok) (he : e ∈ s.live)
    (hf : f ∈ s.live) (hp : e.ptr = f.ptr) : e = f := by
  refine G.wrap_inj (h.behind e he).le (h.behind f hf).le ?_
  refine eq_of_ptr (h.out_apart hA) (h.wrap_mem he) (h.wrap_mem hf) ?_
  show e.ptr - G.head = f.ptr - G.head
  rw [hp]

theorem DecoInv.wrap_apart (h : DecoInv G K A Ok s) (hA : Implements A Req Frees Ok) :
    (s.live.map G.wrap).Pairwise Extent.Apart := by
  refine List.pairwise_map.mpr (h.nodup.imp_of_mem fun {e f} he hf hne => ?_)
  refine apart_of_mem (h.out_apart hA) (h.wrap_mem he) (h.wrap_mem hf) fun hw => hne ?_
  exact G.wrap_inj (h.behind e he).le (h.behind f hf).le hw

theorem DecoInv.live_apart (h : DecoInv G K A Ok s) (hA : Implements A Req Frees Ok) :
    s.live.Pairwise Extent.Apart := by
  refine (List.pairwise_map.mp (h.wrap_apart hA)).imp_of_mem fun {e f} he hf hap => ?_
  have h1 := h.behind e he
  have h2 := h.behind f hf
  have h3 : e.ptr - G.head ≠ f.ptr - G.head := hap.1
  have h4 : e.ptr - G.head + (G.head + e.size + G.tail) ≤ f.ptr - G.head
    ∨ f.ptr - G.head + (G.head + f.size + G.tail) ≤ e.ptr - G.head := hap.2
  exact ⟨by omega, by omega⟩

/-- the bytes of the users are bytes of blocks -/
theorem DecoInv.held_out (h : DecoInv G K A Ok s) (hx : Held s.live x) : Held s.out x := by
  obtain ⟨e, he, hx⟩ := hx
  exact ⟨_, h.wrap_mem he, G.wrap_has (h.behind e he).le hx⟩

/-- a thread's block holds no byte of a user -/
theorem DecoInv.not_held (h : DecoInv G K A Ok s) (hA : Implements A Req Frees Ok)
    (he : s.Has G e (some t)) (hx : e.Has x) : ¬ Held s.live x := by
  rintro ⟨f, hf, hfx⟩
  have hap := h.has_apart hA he (j := none) ⟨f, hf, rfl⟩ (by simp)
  exact not_has_of_apart hap hx (G.wrap_has (h.behind f hf).le hfx)

theorem DecoInv.poke (h : DecoInv G K A Ok s) (hA : Implements A Req Frees Ok) (he : e ∈ s.out)
    (hx : e.Has x) :
    Ok (A.poke s.b x v) s.out ∧ A.heap (A.poke s.b x v) = (A.heap s.b).setByte x v := by
  refine hA.write h.ok (Mem.sameOn_setByte ?_)
  rintro y hy rfl
  exact hy ⟨e, he, hx⟩

/-- the threads whose blocks keep their bytes -/
theorem DecoInv.spots_of_same (h : DecoInv G K A Ok s) {m : Mem}
    (hm : Mem.SameOn (Held s.out) (A.heap s.b) m) (t : τ) :
    SpotOk G m (s.spot t) :=
  (h.spots t).congr fun e he x hx => hm x ⟨e, h.owned.of_has (k := some t) he, hx⟩

theorem spots_update {m : Mem} (hsp : SpotOk G m sp)
    (hother : ∀ t', t' ≠ t → SpotOk G m (s.spot t')) (t' : τ) :
    SpotOk G m (update s.spot t sp t') := by
  by_cases ht : t' = t
  · subst ht
    rw [update_self]
    exact hsp
  · rw [update_of_ne ht]
    exact hother t' ht

/-- a store into the block of one holder -/
theorem DecoInv.spots_poke (h : DecoInv G K A Ok s) (hA : Implements A Req Frees Ok)
    (he : s.Has G e k) (hx : e.Has x) (ht : some t ≠ k) :
    SpotOk G ((A.heap s.b).setByte x v) (s.spot t) := by
  refine (h.spots t).congr fun f hf y hy => if_neg ?_
  rintro rfl
  exact not_has_of_apart (h.has_apart hA he (j := some t) hf (Ne.symm ht)) hx hy

/-- who has the other blocks, when one thread goes on -/
theorem has_update (hnew : sp.block G = none ∨ sp.block G = some e)
    (hold : (s.spot t).block G = none ∨ (s.spot t).block G = some e) {e' : Extent} (he : e' ≠ e)
    (t' : τ) :
    (update s.spot t sp t').block G = some e' ↔ (s.spot t').block G = some e' := by
  have hno : ∀ o : Option Extent, o = none ∨ o = some e → o ≠ some e' := by
    rintro o (rfl | rfl) hc
    · exact absurd hc (by simp)
    · exact he (Option.some.inj hc).symm
  by_cases ht : t' = t
  · subst ht
    rw [update_self]
    exact iff_of_false (hno _ hnew) (hno _ hold)
  · rw [update_of_ne ht]

/-- the thread has the block and nobody else does -/
theorem has_only (hnew : sp.block G = some e) (hother : ∀ t', t' ≠ t → (s.spot t').block G ≠ some e)
    (t' : τ) :
    (update s.spot t sp t').block G = some e ↔ some t' = some t := by
  rw [Option.some.injEq]
  by_cases ht : t' = t
  · subst ht
    rw [update_self]
    exact iff_of_true hnew rfl
  · rw [update_of_ne ht]
    exact iff_of_false (hother t' ht) ht

/-- no thread has the block any more -/
theorem has_no_more (hnew : sp.block G = none)
    (hother : ∀ t', t' ≠ t → (s.spot t').block G ≠ some e) (t' : τ) :
    (update s.spot t sp t').block G ≠ some e := by
  by_cases ht : t' = t
  · subst ht
    rw [update_self, hnew]
    simp
  · rw [update_of_ne ht]
    exact hother t' ht

theorem DecoInv.only (h : DecoInv G K A Ok s) (he : s.Has G e k) (t' : τ) (ht : some t' ≠ k) :
    (s.spot t').block G ≠ some e := fun hc => ht (h.owned.unique e (some t') k hc he)

theorem DecoInv.request (h : DecoInv G K A Ok s) (hA : Implements A Req Frees Ok) {alignment : Nat}
    (hidle : s.spot t = .idle) (hreq : Req (G.head + size + G.tail) alignment)
    (hcall : A.allocate s.b (G.head + size + G.tail) alignment = some (raw, b)) (hraw : raw ≠ 0) :
    DecoInv G K A Ok { s with
      b := b
      spot := update s.spot t (.filling raw size (G.fresh raw size))
      out := G.block raw size :: s.out } := by
  obtain ⟨hsame, -, hok⟩ := hA.alloc h.ok hreq hcall
  have hout : G.block raw size ∉ s.out := fun hm =>
    ((List.pairwise_cons.mp (hA.apart (hok hraw))).1 _ hm).1 rfl
  have hspots : ∀ t', SpotOk G (A.heap b)
      (update s.spot t (.filling raw size (G.fresh raw size)) t') :=
    spots_update ⟨hraw, fun x v hx => G.fresh_inside hx, G.intact_fresh _ _ _⟩ fun t' _ =>
      h.spots_of_same hsame t'
  refine ⟨hok hraw, h.owned.change (r := G.block raw size) (fun e' he => ⟨?_, ?_⟩)
    (Or.inl ⟨List.mem_cons_self, some t, ?_⟩), h.found, h.nodup, h.behind, hspots⟩
  · rw [List.mem_cons]
    exact or_iff_right he
  · rintro (_ | t')
    · exact Iff.rfl
    · exact has_update (Or.inr rfl) (Or.inl (by rw [hidle]; rfl)) he t'
  · rintro (_ | t')
    · exact iff_of_false (fun hh => hout (h.owned.of_has (k := none) hh)) (by simp)
    · exact has_only rfl (fun t' _ hh => hout (h.owned.of_has (k := some t') hh)) t'

theorem DecoInv.refuse (h : DecoInv G K A Ok s) (hA : Implements A Req Frees Ok) {alignment : Nat}
    (hreq : Req (G.head + size + G.tail) alignment)
    (hcall : A.allocate s.b (G.head + size + G.tail) alignment = some (0, b)) :
    DecoInv G K A Ok { s with b := b } := by
  obtain ⟨hsame, hok, -⟩ := hA.alloc h.ok hreq hcall
  exact ⟨hok rfl, h.owned, h.found, h.nodup, h.behind, h.spots_of_same hsame⟩

/-- the holders stay the same when a thread goes on with its block -/
theorem owned_of_same_block (h : Owned (· ∈ s.out) (s.Has G))
    (hsp : sp.block G = (s.spot t).block G) {b : β} {tab : T} :
    Owned (· ∈ s.out) (Deco.Has G (⟨b, tab, update s.spot t sp, s.live, s.out⟩ : Deco τ β T)) := by
  have heq : Deco.Has G (⟨b, tab, update s.spot t sp, s.live, s.out⟩ : Deco τ β T) = s.Has G := by
    funext e k
    cases k with
    | none => rfl
    | some t' =>
      show ((update s.spot t sp t').block G = some e) = ((s.spot t').block G = some e)
      by_cases ht : t' = t
      · subst ht
        rw [update_self, hsp]
      · rw [update_of_ne ht]
  rw [heq]
  exact h

/-- a store of a thread into its own block -/
theorem DecoInv.store (h : DecoInv G K A Ok s) (hA : Implements A Req Frees Ok)
    (he : (s.spot t).block G = some e) (hx : e.Has x) (hsp : sp.block G = some e)
    (hok : SpotOk G ((A.heap s.b).setByte x v) sp) :
    DecoInv G K A Ok { s with b := A.poke s.b x v, spot := update s.spot t sp } := by
  obtain ⟨h1, h2⟩ := h.poke hA (h.owned.of_has (k := some t) he) hx (v := v)
  refine ⟨h1, owned_of_same_block h.owned (hsp.trans he.symm), h.found, h.nodup, h.behind, ?_⟩
  rw [h2]
  exact spots_update hok fun t' ht => h.spots_poke hA (k := some t) he hx (by simpa using ht)

theorem DecoInv.fill (h : DecoInv G K A Ok s) (hA : Implements A Req Frees Ok)
    {todo : List (Nat × BitVec 8)} (hspot : s.spot t = .filling raw size ((x, v) :: todo)) :
    DecoInv G K A Ok
    { s with b := A.poke s.b x v, spot := update s.spot t (.filling raw size todo) } := by
  have hok := h.spots t
  rw [hspot] at hok
  obtain ⟨h1, h2, h3⟩ := hok
  refine h.store hA (by rw [hspot]; rfl) (h2 x v List.mem_cons_self) rfl
    ⟨h1, fun y w hy => h2 y w (List.mem_cons_of_mem _ hy), h3⟩

theorem DecoInv.wipe (h : DecoInv G K A Ok s) (hA : Implements A Req Frees Ok)
    {todo : List (Nat × BitVec 8)} (hspot : s.spot t = .wiping raw size ((x, v) :: todo)) :
    DecoInv G K A Ok
    { s with b := A.poke s.b x v, spot := update s.spot t (.wiping raw size todo) } := by
  have hok := h.spots t
  rw [hspot] at hok
  exact h.store hA (by rw [hspot]; rfl) (hok x v List.mem_cons_self) rfl
    fun y w hy => hok y w (List.mem_cons_of_mem _ hy)

theorem DecoInv.check (h : DecoInv G K A Ok s) {was : Bool}
    (hspot : s.spot t = .checking raw size was) (ok : Bool) :
    DecoInv G K A Ok { s with
      table := K.judge s.table ok
      spot := update s.spot t (.wiping raw size (G.wipe raw size)) } := by
  refine ⟨h.ok, owned_of_same_block h.owned (by rw [hspot]; rfl), fun p raw size => ?_,
    h.nodup, h.behind, spots_update (fun x v hx => G.wipe_inside hx) fun t' _ => h.spots t'⟩
  rw [K.find_judge]
  exact h.found p raw size

/-- a new block has a pointer of its own -/
theorem DecoInv.not_live (h : DecoInv G K A Ok s) (hA : Implements A Req Frees Ok)
    (he : (s.spot t).block G = some (G.block raw size)) {n : Nat} :
    (⟨raw + G.head, n⟩ : Extent) ∉ s.live := by
  intro hm
  have hap := h.has_apart hA (k := some t) he (j := none) ⟨_, hm, rfl⟩ (by simp)
  apply hap.1
  show raw = raw + G.head - G.head
  omega

theorem DecoInv.list (h : DecoInv G K A Ok s) (hA : Implements A Req Frees Ok)
    (hspot : s.spot t = .filling raw size []) :
    DecoInv G K A Ok { s with
      table := K.insert s.table raw (raw + G.head) size
      spot := update s.spot t .idle
      live := G.user raw size :: s.live } := by
  have hblock : (s.spot t).block G = some (G.block raw size) := by
    rw [hspot]
    rfl
  have hok := h.spots t
  rw [hspot] at hok
  have hnew : ∀ n, (⟨raw + G.head, n⟩ : Extent) ∉ s.live := fun n => h.not_live hA hblock
  refine ⟨h.ok, h.owned.change (r := G.block raw size) (fun e' he => ⟨Iff.rfl, ?_⟩)
    (Or.inl ⟨h.owned.of_has (k := some t) hblock, none, ?_⟩), fun p r n => ?_,
    List.nodup_cons.mpr ⟨hnew size, h.nodup⟩, ?_, spots_update trivial fun t' _ => h.spots t'⟩
  · rintro (_ | t')
    · constructor
      · rintro ⟨f, hf, rfl⟩
        rcases List.mem_cons.mp hf with rfl | hf
        · exact absurd (G.wrap_user raw size) he
        · exact ⟨f, hf, rfl⟩
      · rintro ⟨f, hf, rfl⟩
        exact ⟨f, List.mem_cons_of_mem _ hf, rfl⟩
    · exact has_update (Or.inl rfl) (Or.inr hblock) he t'
  · rintro (_ | t')
    · exact iff_of_true ⟨_, List.mem_cons_self, G.wrap_user raw size⟩ rfl
    · refine iff_of_false (has_no_more rfl (fun t' ht => ?_) t') (by simp)
      exact h.only (k := some t) hblock t' (by simpa using ht)
  · rw [K.find_insert]
    by_cases hp : p = raw + G.head
    · subst hp
      rw [if_pos rfl, Option.some.injEq, Prod.mk.injEq, List.mem_cons]
      constructor
      · rintro ⟨rfl, rfl⟩
        exact ⟨rfl, Or.inl rfl⟩
      · rintro ⟨hr, hm⟩
        have hu : (⟨raw + G.head, n⟩ : Extent) = G.user raw size := hm.resolve_right (hnew n)
        have hn : n = size := congrArg Extent.size hu
        exact ⟨by omega, hn.symm⟩
    · rw [if_neg hp, h.found, List.mem_cons]
      have hne : (⟨p, n⟩ : Extent) ≠ G.user raw size := fun hu => hp (congrArg Extent.ptr hu)
      rw [or_iff_right hne]
  · intro f hf
    rcases List.mem_cons.mp hf with rfl | hf
    · show G.head < raw + G.head
      have h0 := hok.1
      omega
    · exact h.behind f hf

theorem DecoInv.take (h : DecoInv G K A Ok s) (hA : Implements A Req Frees Ok)
    (hidle : s.spot t = .idle) (hfind : K.find s.table p = some (raw, size)) :
    DecoInv G K A Ok { s with
      table := K.take s.table p
      spot := update s.spot t (.checking raw size (G.intact (A.heap s.b) raw size))
      live := s.live.erase ⟨p, size⟩ } := by
  obtain ⟨rfl, hm⟩ := (h.found p raw size).mp hfind
  have hwrap : G.wrap ⟨raw + G.head, size⟩ = G.block raw size := G.wrap_user raw size
  have hhas : s.Has G (G.block raw size) none := ⟨_, hm, hwrap⟩
  refine ⟨h.ok, h.owned.change (r := G.block raw size) (fun e' he => ⟨Iff.rfl, ?_⟩)
    (Or.inl ⟨h.owned.of_has hhas, some t, ?_⟩), fun q r n => ?_, h.nodup.erase _,
    fun f hf => h.behind f (List.mem_of_mem_erase hf), spots_update rfl fun t' _ => h.spots t'⟩
  · rintro (_ | t')
    · constructor
      · rintro ⟨f, hf, rfl⟩
        exact ⟨f, List.mem_of_mem_erase hf, rfl⟩
      · rintro ⟨f, hf, rfl⟩
        refine ⟨f, (List.mem_erase_of_ne ?_).mpr hf, rfl⟩
        rintro rfl
        exact he hwrap
    · exact has_update (Or.inr rfl) (Or.inl (by rw [hidle]; rfl)) he t'
  · rintro (_ | t')
    · refine iff_of_false ?_ (by simp)
      rintro ⟨f, hf, hw⟩
      have hfl := List.mem_of_mem_erase hf
      obtain rfl := G.wrap_inj (h.behind f hfl).le (h.behind _ hm).le (hw.trans hwrap.symm)
      exact h.nodup.not_mem_erase hf
    · exact has_only rfl (fun t' _ => h.only hhas t' (by simp)) t'
  · rw [K.find_take]
    by_cases hq : q = raw + G.head
    · subst hq
      rw [if_pos rfl]
      refine iff_of_false (by simp) ?_
      rintro ⟨-, hn⟩
      have heq := h.live_eq hA (List.mem_of_mem_erase hn) hm rfl
      rw [heq] at hn
      exact h.nodup.not_mem_erase hn
    · rw [if_neg hq, h.found, List.mem_erase_of_ne]
      exact fun hu => hq (congrArg Extent.ptr hu)

theorem DecoInv.giveBack (h : DecoInv G K A Ok s) (hA : Implements A Req Frees Ok)
    (hany : ∀ l e, Frees l e) (hspot : s.spot t = .wiping raw size []) :
    ∃ b, A.deallocate s.b raw = some b ∧ Mem.SameOn (Held s.live) (A.heap s.b) (A.heap b)
      ∧ DecoInv G K A Ok
      { s with b := b, spot := update s.spot t .idle, out := s.out.erase (G.block raw size) } := by
  have hblock : (s.spot t).block G = some (G.block raw size) := by
    rw [hspot]
    rfl
  have hhas : s.Has G (G.block raw size) (some t) := hblock
  have hnodup := h.out_nodup hA
  obtain ⟨b, hcall, hok, hsame⟩ := hA.free h.ok (h.owned.of_has hhas) (hany _ _)
  have hheld : ∀ x, Held s.live x → Held (s.out.erase (G.block raw size)) x := by
    rintro x ⟨f, hf, hx⟩
    refine ⟨G.wrap f, (List.mem_erase_of_ne ?_).mpr (h.wrap_mem hf),
      G.wrap_has (h.behind f hf).le hx⟩
    intro hw
    exact absurd (h.owned.unique _ none (some t) ⟨f, hf, hw⟩ hhas) (by simp)
  refine ⟨b, hcall, hsame.mono hheld, hok,
    h.owned.change (r := G.block raw size) (fun e' he => ⟨?_, ?_⟩)
    (Or.inr ⟨hnodup.not_mem_erase, ?_⟩), h.found, h.nodup, h.behind,
    spots_update trivial fun t' ht => ?_⟩
  · exact List.mem_erase_of_ne he
  · rintro (_ | t')
    · exact Iff.rfl
    · exact has_update (Or.inl rfl) (Or.inr hblock) he t'
  · rintro (_ | t')
    · intro hh
      exact absurd (h.owned.unique _ none (some t) hh hhas) (by simp)
    · exact has_no_more rfl (fun t' ht => h.only hhas t' (by simpa using ht)) t'
  · refine (h.spots t').congr fun f hf x hx =>
      hsame x ⟨f, (List.mem_erase_of_ne ?_).mpr (h.owned.of_has (k := some t') hf), hx⟩
    rintro rfl
    exact h.only hhas t' (by simpa using ht) hf

/-- a store of a caller into a listed block or its guards -/
theorem DecoInv.callerStore (h : DecoInv G K A Ok s) (hA : Implements A Req Frees Ok)
    (he : e ∈ s.live) (hx : (G.wrap e).Has x) :
    DecoInv G K A Ok { s with b := A.poke s.b x v } := by
  obtain ⟨h1, h2⟩ := h.poke hA (h.wrap_mem he) hx (v := v)
  refine ⟨h1, h.owned, h.found, h.nodup, h.behind, fun t => ?_⟩
  rw [h2]
  exact h.spots_poke hA (k := none) ⟨e, he, rfl⟩ hx (by simp)

theorem DecoInv.step (h : DecoInv G K A Ok s) (hA : Implements A Req Frees Ok)
    (hany : ∀ l e, Frees l e) (hs : DecoStep G K A Req s a s') : DecoInv G K A Ok s' := by
  cases hs with
  | request alignment hidle hreq hcall hraw => exact h.request hA hidle hreq hcall hraw
  | refuse alignment hidle hreq hcall => exact h.refuse hA hreq hcall
  | fill hspot => exact h.fill hA hspot
  | list hspot => exact h.list hA hspot
  | take hidle hfind => exact h.take hA hidle hfind
  | reject hidle hp hfind =>
    refine ⟨h.ok, h.owned, fun p raw size => ?_, h.nodup, h.behind, h.spots⟩
    rw [K.find_reject]
    exact h.found p raw size
  | check hspot => exact h.check hspot _
  | wipe hspot => exact h.wipe hA hspot
  | giveBack hspot hcall =>
    obtain ⟨b, hb, -, hinv⟩ := h.giveBack hA hany hspot
    rw [hcall] at hb
    obtain rfl := Option.some.inj hb
    exact hinv
  | look hidle hfind =>
    refine ⟨h.ok, h.owned, fun p raw size => ?_, h.nodup, h.behind, h.spots⟩
    rw [K.find_glance]
    exact h.found p raw size
  | @write e i v he hi =>
    exact h.callerStore hA he
      (G.wrap_has (h.behind e he).le ⟨Nat.le_add_right .., Nat.add_lt_add_left hi _⟩)
  | read he hi => exact h
  | stray he hx => exact h.callerStore hA he hx.1

theorem DecoInv.start (hok : Ok b []) {tab : T} (htab : ∀ p, K.find tab p = none) :
    DecoInv G K A Ok (⟨b, tab, fun _ => .idle, [], []⟩ : Deco τ β T) := by
  refine ⟨hok, ⟨fun e => iff_of_false List.not_mem_nil ?_, ?_⟩, fun p raw size => ?_,
    List.nodup_nil, fun e he => absurd he List.not_mem_nil, fun _ => trivial⟩
  · rintro ⟨_ | t, hh⟩
    · obtain ⟨f, hf, -⟩ := hh
      exact absurd hf List.not_mem_nil
    · exact absurd (show (none : Option Extent) = some e from hh) (by simp)
  · rintro e (_ | t) k hh -
    · obtain ⟨f, hf, -⟩ := hh
      exact absurd hf List.not_mem_nil
    · exact absurd (show (none : Option Extent) = some e from hh) (by simp)
  · rw [htab]
    exact iff_of_false (by simp) fun hc => List.not_mem_nil hc.2

theorem DecoInv.of_run (h : DecoInv G K A Ok s) (hA : Implements A Req Frees Ok)
    (hany : ∀ l e, Frees l e) (hrun : Steps (DecoStep G K A Req) s acts s') : DecoInv G K A Ok s' :=
  hrun.invariant h fun _ _ _ hi hs => hi.step hA hany hs

end

end HeapForge.Lib
