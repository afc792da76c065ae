import Mathlib.Data.List.Pairwise
import Mathlib.Order.Interval.Finset.Nat
import Mathlib.Logic.Function.Basic
import HeapForge.Lib.Mem
import HeapForge.Lib.Run
import HeapForge.Lib.Tiling

/-!
# Allocators as memories of independent objects

What a client wants of an allocator: every pointer it holds names an object of its own, with the
bytes it asked for, and nobody else changes them.

* `Objects`, `ObjStep`      that memory, in which objects have names but no addresses;
* `lastWritten`             what a trace last put into a byte, `Steps.read_back` that a read finds
                            it;
* `Allocator`, `ClientStep` an allocator over a byte-addressed memory and a client that frees and
                            writes only what it holds;
* `Implements`              what an allocator has to keep, call by call;
* `Implements.refines`      **then every trace of the client is a trace of the objects.**
-/

set_option linter.unusedSectionVars false

namespace HeapForge.Lib
open Function

/-! ## the objects -/

/-- what a client asks for and is told -/
inductive Event
  | grant (p size : Nat)
  | refuse (size : Nat)
  | release (p : Nat)
  | write (p i : Nat) (v : BitVec 8)
  | read (p i : Nat) (v : BitVec 8)
  deriving DecidableEq

/-- the bytes of every object, by its name -/
abbrev Objects : Type := Nat → Option (List (BitVec 8))

def noObjects : Objects := fun _ => none

inductive ObjStep : Objects → Event → Objects → Prop
  /-- a new object holds anything -/
  | grant {o : Objects} {p size : Nat} {bs : List (BitVec 8)} :
      o p = none → bs.length = size → ObjStep o (.grant p size) (update o p (some bs))
  | refuse {o : Objects} (size : Nat) : ObjStep o (.refuse size) o
  | release {o : Objects} {p : Nat} {bs : List (BitVec 8)} :
      o p = some bs → ObjStep o (.release p) (update o p none)
  | write {o : Objects} {p i : Nat} {v : BitVec 8} {bs : List (BitVec 8)} :
      o p = some bs → i < bs.length → ObjStep o (.write p i v) (update o p (some (bs.set i v)))
  | read {o : Objects} {p i : Nat} {v : BitVec 8} {bs : List (BitVec 8)} :
      o p = some bs → bs[i]? = some v → ObjStep o (.read p i v) o

/-- what is known about byte `i` of `p` after one more event -/
def remember (p i : Nat) (known : Option (BitVec 8)) : Event → Option (BitVec 8)
  | .grant q _ => if q = p then none else known
  | .release q => if q = p then none else known
  | .write q j v => if q = p ∧ j = i then some v else known
  | _ => known

/-- what the trace last put into byte `i` of the object that is now called `p` -/
def lastWritten (p i : Nat) (evs : List Event) : Option (BitVec 8) := evs.foldl (remember p i) none

/-- the objects hold what is known about them -/
def Knows (evs : List Event) (o : Objects) : Prop :=
  ∀ p i v, lastWritten p i evs = some v → ∃ bs, o p = some bs ∧ bs[i]? = some v

section
variable {o o' : Objects} {ev : Event} {evs : List Event} {p i : Nat} {v w : BitVec 8}

theorem lastWritten_snoc (p i : Nat) (evs : List Event) (ev : Event) :
    lastWritten p i (evs ++ [ev]) = remember p i (lastWritten p i evs) ev := by
  rw [lastWritten, List.foldl_append]
  rfl

theorem Knows.step (h : Knows evs o) (hs : ObjStep o ev o') : Knows (evs ++ [ev]) o' := by
  intro p i v hv
  rw [lastWritten_snoc] at hv
  cases hs with
  | @grant q size bs hq hlen =>
    unfold remember at hv
    dsimp only at hv
    by_cases hqp : q = p
    · rw [if_pos hqp] at hv
      exact absurd hv (by simp)
    · rw [if_neg hqp] at hv
      rw [update_of_ne (Ne.symm hqp)]
      exact h p i v hv
  | refuse size => exact h p i v hv
  | @release q bs hq =>
    unfold remember at hv
    dsimp only at hv
    by_cases hqp : q = p
    · rw [if_pos hqp] at hv
      exact absurd hv (by simp)
    · rw [if_neg hqp] at hv
      rw [update_of_ne (Ne.symm hqp)]
      exact h p i v hv
  | @write q j u bs hq hj =>
    unfold remember at hv
    dsimp only at hv
    by_cases hqp : q = p
    · subst hqp
      refine ⟨bs.set j u, update_self .., ?_⟩
      by_cases hji : j = i
      · subst hji
        rw [if_pos ⟨rfl, rfl⟩] at hv
        rw [List.getElem?_set_self hj]
        exact hv
      · rw [if_neg fun hc => hji hc.2] at hv
        obtain ⟨cs, hcs, hcv⟩ := h q i v hv
        rw [hq] at hcs
        obtain rfl := Option.some.inj hcs
        rw [List.getElem?_set_ne hji]
        exact hcv
    · rw [if_neg fun hc => hqp hc.1] at hv
      rw [update_of_ne (Ne.symm hqp)]
      exact h p i v hv
  | read _ _ => exact h p i v hv

/-- **A byte holds what was last written to it**, whatever happened to the other objects. -/
theorem Steps.holds (h : Steps ObjStep noObjects evs o) : Knows evs o :=
  h.invariant_trace (I := Knows) (fun _ _ _ hv => absurd hv (by simp [lastWritten]))
    fun _ _ _ _ hk hs => hk.step hs

/-- so a read finds it -/
theorem Steps.read_back (h : Steps ObjStep noObjects (evs ++ [.read p i v]) o)
    (hw : lastWritten p i evs = some w) : v = w := by
  obtain ⟨o₁, h1, hs⟩ := h.last
  obtain ⟨bs, hbs, hbw⟩ := h1.holds p i w hw
  cases hs with
  | read hq hv =>
    rw [hbs] at hq
    obtain rfl := Option.some.inj hq
    exact Option.some.inj (hv.symm.trans hbw)

end

/-! ## ranges of a byte-addressed memory -/

structure Extent where
  ptr : Nat
  size : Nat
  deriving DecidableEq

def Extent.Has (e : Extent) (x : Nat) : Prop := e.ptr ≤ x ∧ x < e.ptr + e.size

/-- a byte of one of the ranges -/
def Held (l : List Extent) (x : Nat) : Prop := ∃ e ∈ l, e.Has x

/-- two names and no common byte -/
def Extent.Apart (e f : Extent) : Prop :=
  e.ptr ≠ f.ptr ∧ (e.ptr + e.size ≤ f.ptr ∨ f.ptr + f.size ≤ e.ptr)

def contents (m : Mem) (e : Extent) : List (BitVec 8) :=
  (List.range e.size).map fun i => m (e.ptr + i)

/-- what the ranges hold, by their first address -/
def objects (m : Mem) (l : List Extent) : Objects :=
  fun p => (l.find? fun e => e.ptr == p).map (contents m)

section
variable {m m' : Mem} {l l' : List Extent} {e f : Extent} {p i x : Nat} {v : BitVec 8}

theorem Extent.Apart.symm (h : e.Apart f) : f.Apart e := ⟨Ne.symm h.1, h.2.symm⟩

instance : Std.Symm Extent.Apart := ⟨fun _ _ => Extent.Apart.symm⟩

theorem apart_of_mem (hl : l.Pairwise Extent.Apart) (he : e ∈ l) (hf : f ∈ l) (hne : e ≠ f) :
    e.Apart f :=
  hl.forall he hf hne

theorem eq_of_ptr (hl : l.Pairwise Extent.Apart) (he : e ∈ l) (hf : f ∈ l) (h : e.ptr = f.ptr) :
    e = f := by
  by_contra hne
  exact (apart_of_mem hl he hf hne).1 h

theorem pairwise_apart (hn : (l.map Extent.ptr).Nodup)
    (h : ∀ e ∈ l, ∀ f ∈ l, e.ptr ≠ f.ptr → e.ptr + e.size ≤ f.ptr ∨ f.ptr + f.size ≤ e.ptr) :
    l.Pairwise Extent.Apart := by
  have hp : l.Pairwise fun e f => e.ptr ≠ f.ptr := List.pairwise_map.mp hn
  exact hp.imp_of_mem fun he hf hne => ⟨hne, h _ he _ hf hne⟩

theorem nodup_ptr_erase (hn : (l.map Extent.ptr).Nodup) (e : Extent) :
    ((l.erase e).map Extent.ptr).Nodup :=
  hn.sublist (List.erase_sublist.map _)

/-- disjoint ranges together are no longer than the space they lie in -/
theorem sum_size_le (hl : l.Pairwise Extent.Apart) {n : Nat} (hn : ∀ e ∈ l, e.ptr + e.size ≤ n) :
    (l.map Extent.size).sum ≤ n := by
  -- the bytes of the ranges, as a set
  have hset : ∃ s : Finset Nat, s.card = (l.map Extent.size).sum ∧ ∀ x ∈ s, ∃ e ∈ l, e.Has x := by
    induction l with
    | nil => exact ⟨∅, rfl, fun x hx => absurd hx (Finset.notMem_empty x)⟩
    | cons e l ih =>
      obtain ⟨hap, hl'⟩ := List.pairwise_cons.mp hl
      obtain ⟨s, hcard, hs⟩ := ih hl' fun f hf => hn f (List.mem_cons_of_mem _ hf)
      refine ⟨Finset.Ico e.ptr (e.ptr + e.size) ∪ s, ?_, fun x hx => ?_⟩
      · rw [Finset.card_union_of_disjoint, Nat.card_Ico, hcard, List.map_cons, List.sum_cons,
          Nat.add_sub_cancel_left]
        rw [Finset.disjoint_left]
        intro x hx hxs
        obtain ⟨f, hf, h1, h2⟩ := hs x hxs
        obtain ⟨h3, h4⟩ := Finset.mem_Ico.mp hx
        have := (hap f hf).2
        omega
      · rcases Finset.mem_union.mp hx with hx | hx
        · exact ⟨e, List.mem_cons_self, Finset.mem_Ico.mp hx⟩
        · obtain ⟨f, hf, hfx⟩ := hs x hx
          exact ⟨f, List.mem_cons_of_mem _ hf, hfx⟩
  obtain ⟨s, hcard, hs⟩ := hset
  have hsub : s ⊆ Finset.range n := fun x hx => by
    obtain ⟨e, he, -, h2⟩ := hs x hx
    exact Finset.mem_range.mpr (h2.trans_le (hn e he))
  have hle := Finset.card_le_card hsub
  rwa [Finset.card_range, hcard] at hle

theorem map_erase_of_inj {α β : Type*} [BEq α] [LawfulBEq α] [BEq β] [LawfulBEq β] {l : List α}
    {e : α} {f : α → β} (h : ∀ g ∈ l, f g = f e → g = e) :
    (l.erase e).map f = (l.map f).erase (f e) := by
  induction l with
  | nil => rfl
  | cons g l ih =>
    by_cases hge : g = e
    · subst hge
      rw [List.erase_cons_head, List.map_cons, List.erase_cons_head]
    · have hfge : ¬ f g = f e := fun hf => hge (h g List.mem_cons_self hf)
      rw [List.erase_cons_tail (by simpa using hge), List.map_cons, List.map_cons,
        List.erase_cons_tail (by simpa using hfge), ih fun k hk => h k (List.mem_cons_of_mem _ hk)]

theorem Held.mono (h : Held l x) (hl : ∀ e ∈ l, e ∈ l') : Held l' x := by
  obtain ⟨e, he, hx⟩ := h
  exact ⟨e, hl e he, hx⟩

theorem contents_length (m : Mem) (e : Extent) : (contents m e).length = e.size := by
  rw [contents, List.length_map, List.length_range]

theorem contents_getElem? (h : i < e.size) : (contents m e)[i]? = some (m (e.ptr + i)) := by
  rw [contents, List.getElem?_map, List.getElem?_range h, Option.map_some]

theorem contents_congr (h : ∀ x, e.Has x → m' x = m x) : contents m' e = contents m e :=
  List.map_congr_left fun i hi =>
    h (e.ptr + i) ⟨Nat.le_add_right .., Nat.add_lt_add_left (List.mem_range.mp hi) _⟩

theorem contents_setByte (h : i < e.size) :
    contents (m.setByte (e.ptr + i) v) e = (contents m e).set i v := by
  refine List.ext_getElem? fun j => ?_
  by_cases hj : j < e.size
  · rw [contents_getElem? hj]
    by_cases hji : j = i
    · subst hji
      rw [List.getElem?_set_self (by rw [contents_length]; exact hj)]
      exact congrArg some (if_pos rfl)
    · rw [List.getElem?_set_ne (Ne.symm hji), contents_getElem? hj]
      exact congrArg some (if_neg (by omega))
  · rw [List.getElem?_eq_none (by rw [contents_length]; omega),
      List.getElem?_eq_none (by rw [List.length_set, contents_length]; omega)]

theorem objects_cons (m : Mem) (e : Extent) (l : List Extent) :
    objects m (e :: l) = update (objects m l) e.ptr (some (contents m e)) := by
  funext p
  by_cases hp : p = e.ptr
  · subst hp
    rw [update_self, objects, List.find?_cons_of_pos (by simp)]
    rfl
  · rw [update_of_ne hp, objects, List.find?_cons_of_neg (by simpa using Ne.symm hp)]
    rfl

theorem objects_of_mem (hl : l.Pairwise Extent.Apart) (he : e ∈ l) :
    objects m l e.ptr = some (contents m e) := by
  induction l with
  | nil => exact absurd he (by simp)
  | cons f l ih =>
    rw [objects_cons]
    rcases List.mem_cons.mp he with rfl | he'
    · exact update_self ..
    · rw [update_of_ne ((List.pairwise_cons.mp hl).1 e he').1.symm]
      exact ih (List.pairwise_cons.mp hl).2 he'

theorem objects_of_notMem (h : ∀ e ∈ l, e.ptr ≠ p) : objects m l p = none := by
  rw [objects, List.find?_eq_none.mpr (by simpa using h)]
  rfl

theorem objects_congr (h : Mem.SameOn (Held l) m m') : objects m' l = objects m l := by
  induction l with
  | nil => rfl
  | cons e l ih =>
    rw [objects_cons, objects_cons,
      ih (h.mono fun x hx => hx.mono fun f hf => List.mem_cons_of_mem _ hf),
      contents_congr fun x hx => h x ⟨e, List.mem_cons_self, hx⟩]

theorem objects_erase (hl : l.Pairwise Extent.Apart) (he : e ∈ l) :
    objects m (l.erase e) = update (objects m l) e.ptr none := by
  have hsub : (l.erase e).Sublist l := List.erase_sublist
  have hnd : l.Nodup := hl.imp fun h hc => h.1 (congrArg Extent.ptr hc)
  funext p
  by_cases hp : p = e.ptr
  · subst hp
    rw [update_self]
    refine objects_of_notMem fun f hf hfe => ?_
    rw [eq_of_ptr hl (hsub.subset hf) he hfe] at hf
    exact hnd.not_mem_erase hf
  · rw [update_of_ne hp]
    by_cases hex : ∃ f ∈ l, f.ptr = p
    · obtain ⟨f, hf, rfl⟩ := hex
      have hfe : f ≠ e := fun h => hp (congrArg Extent.ptr h)
      rw [objects_of_mem hl hf,
        objects_of_mem (hl.sublist hsub) ((List.mem_erase_of_ne hfe).mpr hf)]
    · rw [objects_of_notMem fun f hf h => hex ⟨f, hf, h⟩,
        objects_of_notMem fun f hf h => hex ⟨f, hsub.subset hf, h⟩]

/-- several ranges are given back, one after the other -/
theorem releases (hl : l.Pairwise Extent.Apart) {r : List Extent} (hr : r.Nodup)
    (hsub : ∀ e ∈ r, e ∈ l) :
    Steps ObjStep (objects m l) (r.map fun e => .release e.ptr) (objects m (l.filter (· ∉ r))) := by
  -- from the front of `r`, so the run is put together from its first step
  induction r generalizing l with
  | nil =>
    rw [List.filter_eq_self.mpr fun e _ => decide_eq_true (List.not_mem_nil)]
    exact Steps.nil _
  | cons e r ih =>
    obtain ⟨her, hr'⟩ := List.nodup_cons.mp hr
    have he : e ∈ l := hsub e List.mem_cons_self
    have hstep : ObjStep (objects m l) (.release e.ptr) (objects m (l.erase e)) := by
      rw [objects_erase hl he]
      exact ObjStep.release (objects_of_mem hl he)
    have hnd : l.Nodup := hl.imp fun h hc => h.1 (congrArg Extent.ptr hc)
    have hrest : l.filter (· ∉ e :: r) = (l.erase e).filter (· ∉ r) := by
      rw [hnd.erase_eq_filter, List.filter_filter]
      refine List.filter_congr fun f _ => ?_
      by_cases hfe : f = e <;> simp [hfe]
    rw [hrest, List.map_cons]
    refine ((Steps.nil _).snoc hstep).trans (ih (hl.sublist List.erase_sublist) hr' fun f hf => ?_)
    have hfe : f ≠ e := fun h => her (h ▸ hf)
    exact (List.mem_erase_of_ne hfe).mpr (hsub f (List.mem_cons_of_mem _ hf))

theorem objects_setByte (hl : l.Pairwise Extent.Apart) (he : e ∈ l) (hi : i < e.size) :
    objects (m.setByte (e.ptr + i) v) l
      = update (objects m l) e.ptr (some ((contents m e).set i v)) := by
  funext p
  by_cases hp : p = e.ptr
  · subst hp
    rw [update_self, objects_of_mem hl he, contents_setByte hi]
  · rw [update_of_ne hp]
    by_cases hex : ∃ f ∈ l, f.ptr = p
    · obtain ⟨f, hf, rfl⟩ := hex
      have hap := apart_of_mem hl hf he fun h => hp (congrArg Extent.ptr h)
      rw [objects_of_mem hl hf, objects_of_mem hl hf]
      refine congrArg some (contents_congr fun x hx => if_neg ?_)
      have h1 := hap.2
      have h2 := hx.1
      have h3 := hx.2
      omega
    · rw [objects_of_notMem fun f hf h => hex ⟨f, hf, h⟩,
        objects_of_notMem fun f hf h => hex ⟨f, hf, h⟩]

end

/-! ## allocators and their clients -/

/-- the calls of an allocator; `none` is a call that does not come back -/
structure Allocator (β : Type*) where
  allocate : β → Nat → Nat → Option (Nat × β)
  deallocate : β → Nat → Option β
  heap : β → Mem
  setHeap : β → Mem → β

/-- frees may come in any order -/
def anyOrder : List Extent → Extent → Prop := fun _ _ => True

/-- the newest range is freed first -/
def lastFirst : List Extent → Extent → Prop := fun l e => l.head? = some e

/-- an allocator and what its client holds, the newest first -/
structure Client (β : Type*) where
  b : β
  held : List Extent

section
variable {β : Type*} (A : Allocator β) (Req : Nat → Nat → Prop)
  (Frees : List Extent → Extent → Prop)

/-- the client asks only what `Req` allows, frees what it holds in an order that `Frees` allows, and
reads and writes inside what it holds -/
inductive ClientStep : Client β → Event → Client β → Prop
  | grant {s : Client β} {size alignment p : Nat} {b : β} :
      Req size alignment → A.allocate s.b size alignment = some (p, b) → p ≠ 0 →
      ClientStep s (.grant p size) ⟨b, ⟨p, size⟩ :: s.held⟩
  | refuse {s : Client β} {size alignment : Nat} {b : β} :
      Req size alignment → A.allocate s.b size alignment = some (0, b) →
      ClientStep s (.refuse size) ⟨b, s.held⟩
  | release {s : Client β} {e : Extent} {b : β} :
      e ∈ s.held → Frees s.held e → A.deallocate s.b e.ptr = some b →
      ClientStep s (.release e.ptr) ⟨b, s.held.erase e⟩
  | write {s : Client β} {e : Extent} {i : Nat} {v : BitVec 8} :
      e ∈ s.held → i < e.size →
      ClientStep s (.write e.ptr i v) ⟨A.setHeap s.b ((A.heap s.b).setByte (e.ptr + i) v), s.held⟩
  | read {s : Client β} {e : Extent} {i : Nat} :
      e ∈ s.held → i < e.size → ClientStep s (.read e.ptr i (A.heap s.b (e.ptr + i))) s

/-- **The contract of an allocator**, for states `Ok` together with what the client holds. -/
structure Implements (Ok : β → List Extent → Prop) : Prop where
  apart : ∀ {b : β} {l : List Extent}, Ok b l → l.Pairwise Extent.Apart
  inside : ∀ {b : β} {l : List Extent} {e : Extent}, Ok b l → e ∈ l → e.ptr + e.size < 2 ^ 64
  /-- a request changes nothing that is held, and grants a range of its own -/
  alloc : ∀ {b b' : β} {l : List Extent} {size alignment p : Nat}, Ok b l → Req size alignment →
    A.allocate b size alignment = some (p, b') →
    Mem.SameOn (Held l) (A.heap b) (A.heap b') ∧ (p = 0 → Ok b' l)
    ∧ (p ≠ 0 → Ok b' (⟨p, size⟩ :: l))
  /-- a free comes back and changes nothing else that is held -/
  free : ∀ {b : β} {l : List Extent} {e : Extent}, Ok b l → e ∈ l → Frees l e →
    ∃ b', A.deallocate b e.ptr = some b' ∧ Ok b' (l.erase e)
      ∧ Mem.SameOn (Held (l.erase e)) (A.heap b) (A.heap b')
  /-- what the client writes into its ranges does not matter -/
  write : ∀ {b : β} {l : List Extent} {m : Mem}, Ok b l →
    Mem.SameOn (fun x => ¬ Held l x) (A.heap b) m →
    Ok (A.setHeap b m) l ∧ A.heap (A.setHeap b m) = m

end

section
variable {β : Type*} {A : Allocator β} {Req : Nat → Nat → Prop}
  {Frees : List Extent → Extent → Prop} {Ok : β → List Extent → Prop} {s s' : Client β} {ev : Event}
  {evs : List Event} {e : Extent} {i : Nat} {v : BitVec 8}

theorem Implements.setByte (h : Implements A Req Frees Ok) (hs : Ok s.b s.held) (he : e ∈ s.held)
    (hi : i < e.size) : Ok (A.setHeap s.b ((A.heap s.b).setByte (e.ptr + i) v)) s.held
      ∧ A.heap (A.setHeap s.b ((A.heap s.b).setByte (e.ptr + i) v))
        = (A.heap s.b).setByte (e.ptr + i) v :=
  h.write hs <| Mem.sameOn_setByte fun _ hx hxe =>
    hx ⟨e, he, by rw [hxe]; exact Nat.le_add_right .., by rw [hxe]; exact Nat.add_lt_add_left hi _⟩

theorem Implements.free_isSome (h : Implements A Req Frees Ok) (hs : Ok s.b s.held)
    (he : e ∈ s.held) (hf : Frees s.held e) : (A.deallocate s.b e.ptr).isSome = true := by
  obtain ⟨b, hb, -⟩ := h.free hs he hf
  rw [hb]
  rfl

theorem Implements.step (h : Implements A Req Frees Ok) (hs : Ok s.b s.held)
    (hstep : ClientStep A Req Frees s ev s') : Ok s'.b s'.held := by
  cases hstep with
  | grant hreq ha hp => exact (h.alloc hs hreq ha).2.2 hp
  | refuse hreq ha => exact (h.alloc hs hreq ha).2.1 rfl
  | release he hf hd =>
    obtain ⟨b, hb, hok, -⟩ := h.free hs he hf
    rw [hd] at hb
    obtain rfl := Option.some.inj hb
    exact hok
  | write he hi => exact (h.setByte hs he hi).1
  | read _ _ => exact hs

/-- one step of the client is one step of the objects -/
theorem Implements.objStep (h : Implements A Req Frees Ok) (hs : Ok s.b s.held)
    (hstep : ClientStep A Req Frees s ev s') :
    ObjStep (objects (A.heap s.b) s.held) ev (objects (A.heap s'.b) s'.held) := by
  have hap := h.apart hs
  cases hstep with
  | @grant size alignment p b hreq ha hp =>
    obtain ⟨hsame, -, hok⟩ := h.alloc hs hreq ha
    have hnew := (List.pairwise_cons.mp (h.apart (hok hp))).1
    rw [objects_cons, objects_congr hsame]
    exact ObjStep.grant (objects_of_notMem fun f hf => (hnew f hf).1.symm) (contents_length _ _)
  | @refuse size alignment b hreq ha =>
    rw [objects_congr (h.alloc hs hreq ha).1]
    exact ObjStep.refuse size
  | @release e b he hf hd =>
    obtain ⟨b', hb, -, hsame⟩ := h.free hs he hf
    rw [hd] at hb
    obtain rfl := Option.some.inj hb
    rw [objects_congr hsame, objects_erase hap he]
    exact ObjStep.release (objects_of_mem hap he)
  | @write e i v he hi =>
    rw [(h.setByte hs he hi).2, objects_setByte hap he hi]
    exact ObjStep.write (objects_of_mem hap he) (by rw [contents_length]; exact hi)
  | @read e i he hi => exact ObjStep.read (objects_of_mem hap he) (contents_getElem? hi)

/-- what is held can be given back in any order that is allowed -/
theorem Implements.free_all (h : Implements A Req Frees Ok) (hany : ∀ l e, Frees l e) {b : β}
    {l q : List Extent} (hs : Ok b l) (hq : q.Perm l) :
    ∃ b', (q.map Extent.ptr).foldlM A.deallocate b = some b' ∧ Ok b' [] := by
  induction q generalizing b l with
  | nil =>
    obtain rfl := List.Perm.nil_eq hq
    exact ⟨b, rfl, hs⟩
  | cons e q ih =>
    obtain ⟨he, hrest⟩ := List.cons_perm_iff_perm_erase.mp hq
    obtain ⟨b₁, hcall, hok, -⟩ := h.free hs he (hany l e)
    obtain ⟨b', hall, hend⟩ := ih hok hrest
    refine ⟨b', ?_, hend⟩
    rw [List.map_cons, List.foldlM_cons, hcall]
    exact hall

theorem Implements.of_run (h : Implements A Req Frees Ok) (hs : Ok s.b s.held)
    (hrun : Steps (ClientStep A Req Frees) s evs s') : Ok s'.b s'.held :=
  hrun.invariant (I := fun s => Ok s.b s.held) hs fun _ _ _ hs hstep => h.step hs hstep

/-- **An allocator that keeps its contract is a memory of objects**: what its client is told, byte
for byte, the objects could have told it. -/
theorem Implements.refines (h : Implements A Req Frees Ok) (hs : Ok s.b s.held)
    (hrun : Steps (ClientStep A Req Frees) s evs s') :
    Steps ObjStep (objects (A.heap s.b) s.held) evs (objects (A.heap s'.b) s'.held) := by
  induction hrun with
  | nil => exact Steps.nil _
  | snoc hrun hstep ih => exact ih.snoc (h.objStep (h.of_run hs hrun) hstep)

end

end HeapForge.Lib
