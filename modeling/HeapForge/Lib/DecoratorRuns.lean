import HeapForge.Lib.Decorator

/-!
# Runs of threads over one decorator

* `Deco.refines`     **the calls are calls on independent objects, in the order of their locked
                     parts**;
* `Deco.damage`      **a check finds the damage that was there when the block was taken**;
* `Deco.table_rule`  what the table says, from the log of the run;
* `DecoInv.out_perm`, `Implements.wipe_all`   between calls the allocator has handed out what is
                     listed, and all of it can be given back;
* `Deco.alloc_steps`, `Deco.free_steps`   a call that no other thread interrupts.
-/

set_option linter.unusedSectionVars false
set_option linter.unusedVariables false

namespace HeapForge.Lib
open Function

section
variable {τ β T : Type*} [DecidableEq τ] {G : Guards} {K : Table T G.head} {A : Allocator β}
  {Req : Nat → Nat → Prop} {Frees : List Extent → Extent → Prop} {Ok : β → List Extent → Prop}
  {s s' : Deco τ β T} {a : DecoAct τ} {acts : List (DecoAct τ)} {t : τ} {k j : Option τ}
  {e f : Extent}
  {raw size p x : Nat} {v : BitVec 8} {b : β} {sp : Spot}

/-! ## the calls as calls on objects -/

/-- what the callers have -/
def Deco.objects (A : Allocator β) (s : Deco τ β T) : Objects := Lib.objects (A.heap s.b) s.live

/-- a thread that works on its own block changes no object -/
theorem DecoInv.objects_store (h : DecoInv G K A Ok s) (hA : Implements A Req Frees Ok)
    (he : (s.spot t).block G = some e) (hx : e.Has x) :
    Lib.objects (A.heap (A.poke s.b x v)) s.live = s.objects A := by
  rw [(h.poke hA (h.owned.of_has (k := some t) he) hx).2]
  refine objects_congr (Mem.sameOn_setByte ?_)
  rintro y hy rfl
  exact h.not_held hA (t := t) he hx hy

/-- a write to the guards of a block changes no object -/
theorem DecoInv.objects_stray (h : DecoInv G K A Ok s) (hA : Implements A Req Frees Ok)
    (he : e ∈ s.live) (hx : G.Around e x) :
    Lib.objects (A.heap (A.poke s.b x v)) s.live = s.objects A := by
  rw [(h.poke hA (h.wrap_mem he) hx.1).2]
  refine objects_congr (Mem.sameOn_setByte ?_)
  rintro y ⟨f, hf, hfy⟩ rfl
  -- the byte belongs to the guards of `e`, so to no other block
  by_cases hef : e = f
  · exact hx.2 (hef ▸ hfy)
  · have hw : G.wrap e ≠ G.wrap f :=
      fun hw => hef (G.wrap_inj (h.behind e he).le (h.behind f hf).le hw)
    have hapart := apart_of_mem (h.out_apart hA) (h.wrap_mem he) (h.wrap_mem hf) hw
    exact not_has_of_apart hapart hx.1 (G.wrap_has (h.behind f hf).le hfy)

/-- what a step does to the objects -/
theorem DecoInv.objStep (h : DecoInv G K A Ok s) (hA : Implements A Req Frees Ok)
    (hany : ∀ l e, Frees l e) (hs : DecoStep G K A Req s a s') :
    (∃ ev, a.event = some ev ∧ ObjStep (s.objects A) ev (s'.objects A))
      ∨ a.event = none ∧ s'.objects A = s.objects A := by
  have hap := h.live_apart hA
  cases hs with
  | request alignment hidle hreq hcall hraw =>
    refine Or.inr ⟨rfl, objects_congr ?_⟩
    exact (hA.alloc h.ok hreq hcall).1.mono fun x hx => h.held_out hx
  | refuse alignment hidle hreq hcall =>
    refine Or.inl ⟨_, rfl, ?_⟩
    have hsame := (hA.alloc h.ok hreq hcall).1.mono fun x (hx : Held s.live x) => h.held_out hx
    unfold Deco.objects
    rw [objects_congr hsame]
    exact ObjStep.refuse _
  | @fill t raw size x v todo hspot =>
    have hok := h.spots t
    rw [hspot] at hok
    exact Or.inr
      ⟨rfl, h.objects_store hA (t := t) (by rw [hspot]; rfl) (hok.2.1 x v List.mem_cons_self)⟩
  | @list t raw size hspot =>
    refine Or.inl ⟨_, rfl, ?_⟩
    have hblock : (s.spot t).block G = some (G.block raw size) := by
      rw [hspot]
      rfl
    have hnew : ∀ f ∈ s.live, f.ptr ≠ raw + G.head := by
      rintro ⟨q, n⟩ hf rfl
      exact h.not_live hA hblock hf
    show ObjStep _ _ (Lib.objects (A.heap s.b) (G.user raw size :: s.live))
    rw [objects_cons]
    exact ObjStep.grant (objects_of_notMem hnew) (contents_length _ _)
  | @take t p raw size hidle hfind =>
    obtain ⟨-, hm⟩ := (h.found p raw size).mp hfind
    refine Or.inl ⟨_, rfl, ?_⟩
    show ObjStep _ _ (Lib.objects (A.heap s.b) (s.live.erase ⟨p, size⟩))
    rw [objects_erase hap hm]
    exact ObjStep.release (objects_of_mem hap hm)
  | reject hidle hp hfind => exact Or.inr ⟨rfl, rfl⟩
  | check hspot => exact Or.inr ⟨rfl, rfl⟩
  | @wipe t raw size x v todo hspot =>
    have hok := h.spots t
    rw [hspot] at hok
    exact Or.inr
      ⟨rfl, h.objects_store hA (t := t) (by rw [hspot]; rfl) (hok x v List.mem_cons_self)⟩
  | giveBack hspot hcall =>
    obtain ⟨b, hb, hsame, -⟩ := h.giveBack hA hany hspot
    rw [hcall] at hb
    obtain rfl := Option.some.inj hb
    exact Or.inr ⟨rfl, objects_congr hsame⟩
  | look hidle hfind => exact Or.inr ⟨rfl, rfl⟩
  | @write e i v he hi =>
    refine Or.inl ⟨_, rfl, ?_⟩
    have hx : (G.wrap e).Has (e.ptr + i) :=
      G.wrap_has (h.behind e he).le ⟨Nat.le_add_right .., Nat.add_lt_add_left hi _⟩
    show ObjStep _ _ (Lib.objects (A.heap (A.poke s.b (e.ptr + i) v)) s.live)
    rw [(h.poke hA (h.wrap_mem he) hx).2, objects_setByte hap he hi]
    exact ObjStep.write (objects_of_mem hap he) (by rw [contents_length]; exact hi)
  | @read e i he hi =>
    exact Or.inl ⟨_, rfl, ObjStep.read (objects_of_mem hap he) (contents_getElem? hi)⟩
  | stray he hx => exact Or.inr ⟨rfl, h.objects_stray hA he hx⟩

/-- **Threads that share a decorator share independent objects.** -/
theorem Deco.refines (h : DecoInv G K A Ok s) (hA : Implements A Req Frees Ok)
    (hany : ∀ l e, Frees l e) (hrun : Steps (DecoStep G K A Req) s acts s') :
    Steps ObjStep (s.objects A) (acts.filterMap DecoAct.event) (s'.objects A) := by
  induction hrun with
  | nil => exact Steps.nil _
  | @snoc s₁ s₂ as a hrun hstep ih =>
    rw [List.filterMap_append]
    rcases (h.of_run hA hany hrun).objStep hA hany hstep with ⟨ev, hev, hobj⟩ | ⟨hev, hobj⟩
    · rw [List.filterMap_cons_some hev]
      exact ih.snoc hobj
    · rw [List.filterMap_cons_none hev, List.filterMap_nil, List.append_nil, hobj]
      exact ih

/-! ## damage -/

/-- the thread that took a damaged block, and the one that found it -/
def DecoAct.badTake {τ : Type*} : DecoAct τ → Option τ
  | .take t _ false => some t
  | _ => none

def DecoAct.badCheck {τ : Type*} : DecoAct τ → Option τ
  | .check t false => some t
  | _ => none

/-- the thread that saw a damaged block in a sweep -/
def DecoAct.badLook {τ : Type*} : DecoAct τ → Option τ
  | .look t _ false => some t
  | _ => none

/-- a damaged block that waits for its check -/
def Spot.due : Spot → Nat
  | .checking _ _ false => 1
  | _ => 0

/-- the damage that a thread has taken is the damage that it has found or is about to -/
def Accounted (acts : List (DecoAct τ)) (s : Deco τ β T) : Prop :=
  ∀ t, (acts.filterMap DecoAct.badTake).count t
    = (acts.filterMap DecoAct.badCheck).count t + (s.spot t).due

theorem filterMap_snoc {α γ : Type*} (f : α → Option γ) (l : List α) (a : α) :
    (l ++ [a]).filterMap f = l.filterMap f ++ (f a).toList := by
  rw [List.filterMap_append]
  cases h : f a with
  | none => rw [List.filterMap_cons_none h]; rfl
  | some c => rw [List.filterMap_cons_some h]; rfl

/-- a step that takes and finds nothing -/
theorem Accounted.quiet (h : Accounted acts s) (h1 : a.badTake = none) (h2 : a.badCheck = none)
    (hdue : ∀ t, (s'.spot t).due = (s.spot t).due) : Accounted (acts ++ [a]) s' := by
  intro t
  rw [filterMap_snoc, filterMap_snoc, h1, h2, hdue, Option.toList_none, List.append_nil,
    List.append_nil]
  exact h t

theorem due_update (hdue : sp.due = (s.spot t).due) (t' : τ) :
    (update s.spot t sp t').due = (s.spot t').due := by
  by_cases ht : t' = t
  · subst ht
    rw [update_self, hdue]
  · rw [update_of_ne ht]

theorem Accounted.step (hacc : Accounted acts s) (h : DecoInv G K A Ok s)
    (hs : DecoStep G K A Req s a s') :
    Accounted (acts ++ [a]) s' := by
  cases hs with
  | request alignment hidle hreq hcall hraw =>
    exact hacc.quiet rfl rfl (due_update (by rw [hidle]; rfl))
  | refuse alignment hidle hreq hcall => exact hacc.quiet rfl rfl fun _ => rfl
  | fill hspot => exact hacc.quiet rfl rfl (due_update (by rw [hspot]; rfl))
  | list hspot => exact hacc.quiet rfl rfl (due_update (by rw [hspot]; rfl))
  | @take t p raw size hidle hfind =>
    cases hint : G.intact (A.heap s.b) raw size with
    | true => exact hacc.quiet rfl rfl (due_update (by rw [hidle]; rfl))
    | false =>
      intro t'
      have h0 := hacc t'
      rw [filterMap_snoc, filterMap_snoc]
      show (List.filterMap _ acts ++ [t]).count t' = (List.filterMap _ acts ++ []).count t'
        + (update s.spot t (.checking raw size false) t').due
      rw [List.count_append, List.append_nil, h0]
      by_cases ht : t' = t
      · subst ht
        rw [update_self, hidle, List.count_singleton_self]
        rfl
      · rw [update_of_ne ht, List.count_singleton, if_neg (by simpa using Ne.symm ht)]
        rfl
  | reject hidle hp hfind => exact hacc.quiet rfl rfl fun _ => rfl
  | @check t raw size was hspot =>
    have hok := h.spots t
    rw [hspot] at hok
    rw [show G.intact (A.heap s.b) raw size = was from hok]
    cases was with
    | true => exact hacc.quiet rfl rfl (due_update (by rw [hspot]; rfl))
    | false =>
      intro t'
      have h0 := hacc t'
      rw [filterMap_snoc, filterMap_snoc]
      show (List.filterMap _ acts ++ []).count t' = (List.filterMap _ acts ++ [t]).count t'
        + (update s.spot t (.wiping raw size (G.wipe raw size)) t').due
      rw [List.append_nil, List.count_append, h0]
      by_cases ht : t' = t
      · subst ht
        rw [update_self, hspot, List.count_singleton_self]
        rfl
      · rw [update_of_ne ht, List.count_singleton, if_neg (by simpa using Ne.symm ht)]
        rfl
  | wipe hspot => exact hacc.quiet rfl rfl (due_update (by rw [hspot]; rfl))
  | giveBack hspot hcall => exact hacc.quiet rfl rfl (due_update (by rw [hspot]; rfl))
  | look hidle hfind => exact hacc.quiet rfl rfl fun _ => rfl
  | write he hi => exact hacc.quiet rfl rfl fun _ => rfl
  | read he hi => exact hacc.quiet rfl rfl fun _ => rfl
  | stray he hx => exact hacc.quiet rfl rfl fun _ => rfl

/-- **Between calls, every block that was damaged when it was freed has been found, and no
other.** -/
theorem Deco.damage (h : DecoInv G K A Ok s) (hA : Implements A Req Frees Ok)
    (hany : ∀ l e, Frees l e) (hstart : ∀ t, s.spot t = .idle)
    (hrun : Steps (DecoStep G K A Req) s acts s') (hidle : ∀ t, s'.spot t = .idle) :
    (acts.filterMap DecoAct.badTake).length = (acts.filterMap DecoAct.badCheck).length := by
  have hboth : DecoInv G K A Ok s' ∧ Accounted acts s' := by
    refine hrun.invariant_trace
      (I := fun (acts : List (DecoAct τ)) (s : Deco τ β T) => DecoInv G K A Ok s ∧ Accounted acts s)
      ⟨h, fun t => ?_⟩ fun as s₁ a s₂ hi hs => ⟨hi.1.step hA hany hs, hi.2.step hi.1 hs⟩
    rw [hstart]
    rfl
  refine (List.perm_iff_count.mpr fun t => ?_).length_eq
  rw [hboth.2 t, hidle]
  rfl

/-! ## the log of a run -/

/-- what a trace says: of each pointer whether it is out (`true`) or has come back, and how often
what happened -/
structure Log where
  known : Nat → Option Bool
  grants : Nat
  frees : Nat
  /-- refused frees of pointers that have come back, and of others -/
  again : Nat
  never : Nat
  /-- blocks found damaged when they were freed, and in sweeps -/
  found : Nat
  seen : Nat

def Log.start : Log := ⟨fun _ => none, 0, 0, 0, 0, 0, 0⟩

def Log.next (l : Log) : DecoAct τ → Log
  | .list _ _ p _ => { l with known := update l.known p (some true), grants := l.grants + 1 }
  | .take _ p _ => { l with known := update l.known p (some false), frees := l.frees + 1 }
  | .reject _ p =>
    if l.known p = some false then { l with again := l.again + 1 }
      else { l with never := l.never + 1 }
  | .check _ ok => if ok then l else { l with found := l.found + 1 }
  | .look _ _ ok => if ok then l else { l with seen := l.seen + 1 }
  | _ => l

def logOf (acts : List (DecoAct τ)) : Log := acts.foldl Log.next Log.start

/-- **What every change of the table keeps, a run keeps**, in step with the log of the run. -/
theorem Deco.table_rule {I : Log → T → Prop} (h0 : I Log.start s.table)
    (hlist : ∀ l tab raw size (t : τ), I l tab →
      I (l.next (.list t raw (raw + G.head) size)) (K.insert tab raw (raw + G.head) size))
    (htake : ∀ l tab p raw size (t : τ) was, I l tab → K.find tab p = some (raw, size) →
      I (l.next (.take t p was)) (K.take tab p))
    (hreject : ∀ l tab p (t : τ), I l tab → K.find tab p = none →
      I (l.next (.reject t p)) (K.reject tab p))
    (hjudge : ∀ l tab ok (t : τ), I l tab → I (l.next (.check t ok)) (K.judge tab ok))
    (hglance : ∀ l tab p ok (t : τ), I l tab → I (l.next (.look t p ok)) (K.glance tab ok))
    (hrun : Steps (DecoStep G K A Req) s acts s') : I (logOf acts) s'.table := by
  refine hrun.invariant_trace
    (I := fun (acts : List (DecoAct τ)) (s : Deco τ β T) => I (logOf acts) s.table) h0
    fun as s₁ a s₂ hi hs => ?_
  show I (logOf (as ++ [a])) s₂.table
  rw [logOf, List.foldl_append]
  cases hs with
  | @list t raw size hspot => exact hlist _ _ raw size t hi
  | @take t p raw size hidle hfind =>
    exact htake _ _ p raw size t (G.intact (A.heap s₁.b) raw size) hi hfind
  | @reject t p hidle hp hfind => exact hreject _ _ p t hi hfind
  | @check t raw size was hspot => exact hjudge _ _ (G.intact (A.heap s₁.b) raw size) t hi
  | @look t p raw size hidle hfind => exact hglance _ _ p (G.intact (A.heap s₁.b) raw size) t hi
  | request => exact hi
  | refuse => exact hi
  | fill => exact hi
  | wipe => exact hi
  | giveBack => exact hi
  | write => exact hi
  | read => exact hi
  | stray => exact hi

/-- what was granted and has not come back is there -/
theorem Deco.counted (h : DecoInv G K A Ok s) (hA : Implements A Req Frees Ok)
    (hany : ∀ l e, Frees l e) (hlive : s.live = []) (hrun : Steps (DecoStep G K A Req) s acts s') :
    (logOf acts).grants = (logOf acts).frees + s'.live.length := by
  have hboth : DecoInv G K A Ok s' ∧ (logOf acts).grants = (logOf acts).frees + s'.live.length := by
    refine hrun.invariant_trace (I := fun (acts : List (DecoAct τ)) (s : Deco τ β T) =>
      DecoInv G K A Ok s ∧ (logOf acts).grants = (logOf acts).frees + s.live.length)
      ⟨h, by rw [hlive]; rfl⟩ fun as s₁ a s₂ hi hs => ⟨hi.1.step hA hany hs, ?_⟩
    obtain ⟨hinv, hcount⟩ := hi
    rw [logOf, List.foldl_append]
    show ((logOf as).next a).grants = ((logOf as).next a).frees + s₂.live.length
    cases hs with
    | list hspot =>
      show (logOf as).grants + 1 = (logOf as).frees + (s₁.live.length + 1)
      omega
    | @take t p raw size hidle hfind =>
      obtain ⟨-, hm⟩ := (hinv.found p raw size).mp hfind
      have hlen := List.length_erase_of_mem hm
      have hpos := List.length_pos_of_mem hm
      show (logOf as).grants = (logOf as).frees + 1 + (s₁.live.erase ⟨p, size⟩).length
      omega
    | @reject t p hidle hp hfind =>
      show (if _ then _ else _ : Log).grants = (if _ then _ else _ : Log).frees + _
      split <;> exact hcount
    | @check t raw size was hspot =>
      show (if _ then _ else _ : Log).grants = (if _ then _ else _ : Log).frees + _
      split <;> exact hcount
    | @look t p raw size hidle hfind =>
      show (if _ then _ else _ : Log).grants = (if _ then _ else _ : Log).frees + _
      split <;> exact hcount
    | request => exact hcount
    | refuse => exact hcount
    | fill => exact hcount
    | wipe => exact hcount
    | giveBack => exact hcount
    | write => exact hcount
    | read => exact hcount
    | stray => exact hcount
  exact hboth.2

theorem logOf_found (acts : List (DecoAct τ)) :
    (logOf acts).found = (acts.filterMap DecoAct.badCheck).length := by
  induction acts using List.reverseRecOn with
  | nil => rfl
  | append_singleton as a ih =>
    rw [logOf, List.foldl_append, filterMap_snoc, List.length_append, ← ih]
    show (Log.next (logOf as) a).found = _
    cases a with
    | check t ok => cases ok <;> rfl
    | look t p ok => cases ok <;> rfl
    | reject t p =>
      show (if _ then _ else _ : Log).found = _
      split <;> rfl
    | _ => rfl

theorem logOf_seen (acts : List (DecoAct τ)) :
    (logOf acts).seen = (acts.filterMap DecoAct.badLook).length := by
  induction acts using List.reverseRecOn with
  | nil => rfl
  | append_singleton as a ih =>
    rw [logOf, List.foldl_append, filterMap_snoc, List.length_append, ← ih]
    show (Log.next (logOf as) a).seen = _
    cases a with
    | check t ok => cases ok <;> rfl
    | look t p ok => cases ok <;> rfl
    | reject t p =>
      show (if _ then _ else _ : Log).seen = _
      split <;> rfl
    | _ => rfl

/-! ## the end -/

/-- between calls, the allocator has handed out what is listed -/
theorem DecoInv.out_perm (h : DecoInv G K A Ok s) (hA : Implements A Req Frees Ok)
    (hidle : ∀ t, s.spot t = .idle) :
    (s.live.map G.wrap).Perm s.out := by
  have hnd : (s.live.map G.wrap).Nodup := by
    refine (List.nodup_map_iff_inj_on h.nodup).mpr fun e he f hf hw => ?_
    exact G.wrap_inj (h.behind e he).le (h.behind f hf).le hw
  refine (List.perm_ext_iff_of_nodup hnd (h.out_nodup hA)).mpr fun e => ?_
  rw [h.owned.holder e, List.mem_map]
  constructor
  · rintro ⟨f, hf, hw⟩
    exact ⟨none, f, hf, hw⟩
  · rintro ⟨_ | t, hh⟩
    · exact hh
    · have hn : (s.spot t).block G = some e := hh
      rw [hidle] at hn
      exact absurd (show (none : Option Extent) = some e from hn) (by simp)

/-- blocks that are written to and given back, one after the other -/
theorem Implements.wipe_all (hA : Implements A Req Frees Ok) (hany : ∀ l e, Frees l e)
    {f : Extent → Mem → Mem} (hf : ∀ e m, Mem.SameOn (fun x => ¬ e.Has x) m (f e m))
    {l q : List Extent} (hs : Ok b l) (hq : q.Perm l) :
    ∃ b', q.foldlM (fun b e => A.deallocate (A.setHeap b (f e (A.heap b))) e.ptr) b = some b'
    ∧ Ok b' [] := by
  induction q generalizing b l with
  | nil =>
    obtain rfl := List.Perm.nil_eq hq
    exact ⟨b, rfl, hs⟩
  | cons e q ih =>
    obtain ⟨he, hrest⟩ := List.cons_perm_iff_perm_erase.mp hq
    obtain ⟨hok, -⟩ := hA.write hs (m := f e (A.heap b)) fun x hx => hf e _ x fun hxe =>
      hx ⟨e, he, hxe⟩
    obtain ⟨b₁, hcall, hok₁, -⟩ := hA.free hok he (hany l e)
    obtain ⟨b', hall, hend⟩ := ih hok₁ hrest
    refine ⟨b', ?_, hend⟩
    rw [List.foldlM_cons, hcall]
    exact hall

/-! ## one thread alone -/

/-- the memory is a part of the state of the allocator -/
structure Allocator.Lens (A : Allocator β) : Prop where
  heap_set : ∀ b m, A.heap (A.setHeap b m) = m
  set_set : ∀ b m m', A.setHeap (A.setHeap b m) m' = A.setHeap b m'
  set_heap : ∀ b, A.setHeap b (A.heap b) = b

theorem Allocator.Lens.poke_stores (h : A.Lens) (b : β) (x : Nat) (v : BitVec 8)
    (l : List (Nat × BitVec 8)) :
    A.setHeap (A.poke b x v) (stores l (A.heap (A.poke b x v)))
      = A.setHeap b (stores ((x, v) :: l) (A.heap b)) := by
  unfold Allocator.poke
  rw [h.heap_set, h.set_set]
  rfl

variable (K Req) in
/-- a thread makes all its stores -/
theorem Deco.fill_steps (h : A.Lens) {todo : List (Nat × BitVec 8)}
    (hspot : s.spot t = .filling raw size todo) :
    ∃ acts, acts.filterMap DecoAct.event = [] ∧ Steps (DecoStep G K A Req) s acts
      { s with
        b := A.setHeap s.b (stores todo (A.heap s.b))
        spot := update s.spot t (.filling raw size []) } := by
  induction todo generalizing s with
  | nil =>
    refine ⟨[], rfl, ?_⟩
    have hb : A.setHeap s.b (stores [] (A.heap s.b)) = s.b := h.set_heap s.b
    rw [hb, ← hspot, update_eq_self]
    exact Steps.nil s
  | cons w todo ih =>
    obtain ⟨x, v⟩ := w
    have hstep : DecoStep G K A Req s (.fill t) _ := DecoStep.fill hspot
    obtain ⟨acts, hev, hrun⟩ :=
      ih (s := { s with b := A.poke s.b x v, spot := update s.spot t (.filling raw size todo) })
      (update_self ..)
    refine ⟨[.fill t] ++ acts, hev, ((Steps.nil s).snoc hstep).trans ?_⟩
    rw [h.poke_stores, update_idem] at hrun
    exact hrun

variable (K Req) in
theorem Deco.wipe_steps (h : A.Lens) {todo : List (Nat × BitVec 8)}
    (hspot : s.spot t = .wiping raw size todo) :
    ∃ acts, acts.filterMap DecoAct.event = [] ∧ Steps (DecoStep G K A Req) s acts
      { s with
        b := A.setHeap s.b (stores todo (A.heap s.b))
        spot := update s.spot t (.wiping raw size []) } := by
  induction todo generalizing s with
  | nil =>
    refine ⟨[], rfl, ?_⟩
    have hb : A.setHeap s.b (stores [] (A.heap s.b)) = s.b := h.set_heap s.b
    rw [hb, ← hspot, update_eq_self]
    exact Steps.nil s
  | cons w todo ih =>
    obtain ⟨x, v⟩ := w
    have hstep : DecoStep G K A Req s (.wipe t) _ := DecoStep.wipe hspot
    obtain ⟨acts, hev, hrun⟩ :=
      ih (s := { s with b := A.poke s.b x v, spot := update s.spot t (.wiping raw size todo) })
      (update_self ..)
    refine ⟨[.wipe t] ++ acts, hev, ((Steps.nil s).snoc hstep).trans ?_⟩
    rw [h.poke_stores, update_idem] at hrun
    exact hrun

/-- a request that is granted, without interruption -/
theorem Deco.alloc_steps (h : A.Lens) (alignment : Nat) (hidle : s.spot t = .idle)
    (hreq : Req (G.head + size + G.tail) (G.align alignment))
    (hcall : A.allocate s.b (G.head + size + G.tail) (G.align alignment) = some (raw, b))
    (hraw : raw ≠ 0) :
    ∃ acts, acts.filterMap DecoAct.event = [.grant (raw + G.head) size]
    ∧ Steps (DecoStep G K A Req) s acts
      { s with
        b := A.setHeap b (stores (G.fresh raw size) (A.heap b))
        table := K.insert s.table raw (raw + G.head) size
        live := G.user raw size :: s.live
        out := G.block raw size :: s.out } := by
  let filled : Deco τ β T := { s with
    b := A.setHeap b (stores (G.fresh raw size) (A.heap b))
    spot := update s.spot t (.filling raw size [])
    out := G.block raw size :: s.out }
  have h1 : DecoStep G K A Req s (.request t) _ := DecoStep.request alignment hidle hreq hcall hraw
  obtain ⟨acts, hev, h2⟩ : ∃ acts, acts.filterMap DecoAct.event = [] ∧ Steps (DecoStep G K A Req)
      { s with
        b := b
        spot := update s.spot t (.filling raw size (G.fresh raw size))
        out := G.block raw size :: s.out } acts filled := by
    have hfill := Deco.fill_steps K Req h (t := t)
      (s := { s with
        b := b
        spot := update s.spot t (.filling raw size (G.fresh raw size))
        out := G.block raw size :: s.out }) (update_self ..)
    rw [update_idem] at hfill
    exact hfill
  have h3 : DecoStep G K A Req filled (.list t raw (raw + G.head) size) _ :=
    DecoStep.list (update_self ..)
  rw [show update filled.spot t .idle = s.spot by rw [update_idem, ← hidle, update_eq_self]] at h3
  refine ⟨_, ?_, (((Steps.nil s).snoc h1).trans h2).snoc h3⟩
  rw [filterMap_snoc, List.filterMap_append, hev]
  rfl

/-- a wiped block can be given back -/
theorem DecoInv.free_returns (h : DecoInv G K A Ok s) (hA : Implements A Req Frees Ok)
    (hany : ∀ l e, Frees l e) (hfind : K.find s.table p = some (raw, size)) :
    ∃ b, A.deallocate (A.setHeap s.b (stores (G.wipe raw size) (A.heap s.b))) raw = some b := by
  obtain ⟨rfl, hm⟩ := (h.found p raw size).mp hfind
  have hout : G.block raw size ∈ s.out := G.wrap_user raw size ▸ h.wrap_mem hm
  obtain ⟨hok, -⟩ := hA.write h.ok (m := stores (G.wipe raw size) (A.heap s.b)) fun x hx =>
    stores_of_notMem fun v hv => hx ⟨_, hout, G.wipe_inside hv⟩
  obtain ⟨b, hcall, -⟩ := hA.free hok hout (hany _ _)
  exact ⟨b, hcall⟩

variable (Req) in
/-- a free of a listed block, without interruption -/
theorem Deco.free_steps (h : A.Lens) (hidle : s.spot t = .idle)
    (hfind : K.find s.table p = some (raw, size))
    (hcall : A.deallocate (A.setHeap s.b (stores (G.wipe raw size) (A.heap s.b))) raw = some b) :
    ∃ acts, acts.filterMap DecoAct.event = [.release p] ∧ Steps (DecoStep G K A Req) s acts
      { s with
        b := b
        table := K.judge (K.take s.table p) (G.intact (A.heap s.b) raw size)
        live := s.live.erase ⟨p, size⟩
        out := s.out.erase (G.block raw size) } := by
  let judged : Deco τ β T := { s with
    table := K.judge (K.take s.table p) (G.intact (A.heap s.b) raw size)
    spot := update s.spot t (.wiping raw size (G.wipe raw size))
    live := s.live.erase ⟨p, size⟩ }
  let wiped : Deco τ β T := { judged with
    b := A.setHeap s.b (stores (G.wipe raw size) (A.heap s.b))
    spot := update s.spot t (.wiping raw size []) }
  have h1 : DecoStep G K A Req s (.take t p _) _ := DecoStep.take hidle hfind
  have h2 : DecoStep G K A Req
      { s with
        table := K.take s.table p
        spot := update s.spot t (.checking raw size (G.intact (A.heap s.b) raw size))
        live := s.live.erase ⟨p, size⟩ }
      (.check t (G.intact (A.heap s.b) raw size)) judged := by
    have hspot : update s.spot t (.wiping raw size (G.wipe raw size))
        = update (update s.spot t (.checking raw size (G.intact (A.heap s.b) raw size))) t
          (.wiping raw size (G.wipe raw size)) := (update_idem ..).symm
    unfold judged
    rw [hspot]
    exact DecoStep.check (update_self ..)
  obtain ⟨acts, hev, h3⟩ : ∃ acts, acts.filterMap DecoAct.event = []
      ∧ Steps (DecoStep G K A Req) judged acts wiped := by
    have hwipe := Deco.wipe_steps K Req h (t := t) (s := judged) (update_self ..)
    rw [update_idem] at hwipe
    exact hwipe
  have h4 : DecoStep G K A Req wiped (.giveBack t) _ := DecoStep.giveBack (update_self ..) hcall
  rw [show update wiped.spot t .idle = s.spot by rw [update_idem, ← hidle, update_eq_self]] at h4
  refine ⟨_, ?_, ((((Steps.nil s).snoc h1).snoc h2).trans h3).snoc h4⟩
  rw [filterMap_snoc, List.filterMap_append, hev]
  rfl

end

end HeapForge.Lib
