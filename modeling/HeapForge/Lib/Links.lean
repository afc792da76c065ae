import Mathlib.Data.List.Nodup
import Mathlib.Data.List.Perm.Basic
import Mathlib.Logic.Function.Basic

/-!
# Doubly linked lists over two pointer functions

`nx` and `pv` are the two pointer fields, read as functions of the node.  `Links nx pv l` says
that each node of `l` points to the next one and back.

* `Ring`    the circular list, which starts at any of its nodes (`Ring.rotate`);
* `Chain`   the list that ends in the null node on both sides.

Both are kept by the usual pointer updates for insertion and removal.
-/

set_option linter.unusedSectionVars false

namespace HeapForge.Lib
open Function

section
variable {α : Type*} {nx pv nx' pv' : α → α} {a b c n z : α} {l l₁ l₂ r : List α}

def Links (nx pv : α → α) : List α → Prop
  | a :: b :: l => nx a = b ∧ pv b = a ∧ Links nx pv (b :: l)
  | _ => True

theorem links_append_cons (l : List α) (a : α) (r : List α) :
    Links nx pv (l ++ a :: r) ↔ Links nx pv (l ++ [a]) ∧ Links nx pv (a :: r) := by
  induction l with
  | nil => simp [Links]
  | cons x l ih =>
    cases l with
    | nil => simp [Links]; tauto
    | cons y l =>
      simp only [List.cons_append, Links] at ih ⊢
      rw [ih]
      tauto

/-- only the forward pointers of all but the last node and the backward pointers of all but the
first one matter -/
theorem Links.congr (h : Links nx pv l) (hn : ∀ x ∈ l.dropLast, nx' x = nx x)
    (hp : ∀ x ∈ l.tail, pv' x = pv x) : Links nx' pv' l := by
  induction l with
  | nil => trivial
  | cons a l ih =>
    cases l with
    | nil => trivial
    | cons b l =>
      obtain ⟨h1, h2, h3⟩ := h
      refine ⟨(hn a (by simp)).trans h1, (hp b (by simp)).trans h2, ih h3 ?_ ?_⟩
      · intro x hx
        exact hn x (by simp [hx])
      · intro x hx
        exact hp x (List.mem_cons_of_mem _ hx)

/-! ## rings -/

/-- the circular list `l`, read from its first node -/
def Ring (nx pv : α → α) (l : List α) : Prop := Links nx pv (l ++ l.head?.toList)

theorem ring_nil : Ring nx pv [] := trivial

theorem ring_cons : Ring nx pv (a :: l) ↔ Links nx pv (a :: (l ++ [a])) := Iff.rfl

theorem ring_singleton : Ring nx pv [a] ↔ nx a = a ∧ pv a = a := by
  rw [ring_cons]
  simp [Links]

theorem Ring.congr (h : Ring nx pv l) (hn : ∀ x ∈ l, nx' x = nx x) (hp : ∀ x ∈ l, pv' x = pv x) :
    Ring nx' pv' l := by
  cases l with
  | nil => exact ring_nil
  | cons a l =>
    refine Links.congr (ring_cons.mp h) ?_ ?_
    · intro x hx
      have hx' : x ∈ ((a :: l) ++ [a]).dropLast := hx
      rw [List.dropLast_concat] at hx'
      exact hn x hx'
    · intro x hx
      have hx' : x ∈ l ++ [a] := hx
      exact hp x (by simpa [or_comm] using hx')

theorem Ring.rotate (h : Ring nx pv (l₁ ++ l₂)) : Ring nx pv (l₂ ++ l₁) := by
  cases l₁ with
  | nil => simpa using h
  | cons a l₁ =>
    cases l₂ with
    | nil => simpa using h
    | cons b l₂ =>
      have h' : Links nx pv ((a :: l₁) ++ b :: (l₂ ++ [a])) := by
        have := ring_cons.mp h
        simpa using this
      obtain ⟨h1, h2⟩ := (links_append_cons _ _ _).mp h'
      have h3 : Links nx pv ((b :: l₂) ++ a :: (l₁ ++ [b])) :=
        (links_append_cons _ _ _).mpr ⟨by simpa using h2, by simpa using h1⟩
      show Links nx pv (b :: (l₂ ++ a :: l₁) ++ [b])
      simpa using h3

/-- the two ends of a ring point at each other -/
theorem Ring.ends (h : Ring nx pv (n :: (r ++ [z]))) : nx z = n ∧ pv n = z := by
  have h1 : Links nx pv ((n :: r) ++ z :: [n]) := by
    have := ring_cons.mp h
    simpa using this
  obtain ⟨h2, h3, -⟩ := ((links_append_cons _ _ _).mp h1).2
  exact ⟨h2, h3⟩

theorem Ring.next (h : Ring nx pv (l₁ ++ a :: b :: l₂)) : nx a = b ∧ pv b = a := by
  have h1 : Ring nx pv (a :: b :: l₂ ++ l₁) := h.rotate
  obtain ⟨h2, h3, -⟩ := ring_cons.mp h1
  exact ⟨h2, h3⟩

theorem Ring.next_mem (h : Ring nx pv l) (ha : a ∈ l) : nx a ∈ l := by
  obtain ⟨l₁, l₂, rfl⟩ := List.append_of_mem ha
  have h1 : Ring nx pv ((a :: l₂) ++ l₁) := h.rotate
  cases hr : l₂ ++ l₁ with
  | nil =>
    obtain ⟨rfl, rfl⟩ := List.append_eq_nil_iff.mp hr
    rw [(ring_singleton.mp h1).1]
    exact List.mem_singleton_self a
  | cons b r =>
    have h2 : Ring nx pv (a :: b :: r) := by rw [← hr]; exact h1
    rw [(ring_cons.mp h2).1]
    have hb : b ∈ l₂ ++ l₁ := by rw [hr]; exact List.mem_cons_self
    rcases List.mem_append.mp hb with hb | hb
    · exact List.mem_append_right _ (List.mem_cons_of_mem _ hb)
    · exact List.mem_append_left _ hb

theorem Ring.prev_mem (h : Ring nx pv l) (ha : a ∈ l) : pv a ∈ l := by
  obtain ⟨l₁, l₂, rfl⟩ := List.append_of_mem ha
  have h1 : Ring nx pv (a :: (l₂ ++ l₁)) := h.rotate
  rcases List.eq_nil_or_concat' (l₂ ++ l₁) with hr | ⟨r, z, hr⟩
  · obtain ⟨rfl, rfl⟩ := List.append_eq_nil_iff.mp hr
    rw [(ring_singleton.mp h1).2]
    exact List.mem_singleton_self a
  · rw [hr] at h1
    rw [h1.ends.2]
    have hz : z ∈ l₂ ++ l₁ := by rw [hr]; simp
    rcases List.mem_append.mp hz with hz | hz
    · exact List.mem_append_right _ (List.mem_cons_of_mem _ hz)
    · exact List.mem_append_left _ hz

theorem Ring.inverse (h : Ring nx pv l) (ha : a ∈ l) : pv (nx a) = a ∧ nx (pv a) = a := by
  obtain ⟨l₁, l₂, rfl⟩ := List.append_of_mem ha
  have h1 : Ring nx pv (a :: (l₂ ++ l₁)) := h.rotate
  constructor
  · cases hr : l₂ ++ l₁ with
    | nil =>
      rw [hr] at h1
      obtain ⟨e1, e2⟩ := ring_singleton.mp h1
      rw [e1, e2]
    | cons b r =>
      rw [hr] at h1
      obtain ⟨e1, e2, -⟩ := ring_cons.mp h1
      rw [e1, e2]
  · rcases List.eq_nil_or_concat' (l₂ ++ l₁) with hr | ⟨r, z, hr⟩
    · rw [hr] at h1
      obtain ⟨e1, e2⟩ := ring_singleton.mp h1
      rw [e2, e1]
    · rw [hr] at h1
      rw [h1.ends.2, h1.ends.1]

/-- going round: behind the last node comes the one the list was read from, before that every
step leads to a node that is not the start -/
theorem Ring.walk {start : α} (h : Ring nx pv (l₁ ++ n :: l₂)) (hd : (l₁ ++ n :: l₂).Nodup)
    (hs : (l₁ ++ n :: l₂).head? = some start) :
    (l₂ = [] → nx n = start) ∧ ∀ b r, l₂ = b :: r → nx n = b ∧ b ≠ start := by
  constructor
  · rintro rfl
    have h1 : Ring nx pv ([n] ++ l₁) := h.rotate
    cases l₁ with
    | nil =>
      obtain rfl : n = start := by simpa using hs
      exact (ring_singleton.mp h1).1
    | cons c l₁ =>
      obtain rfl : c = start := by simpa using hs
      exact (ring_cons.mp h1).1
  · rintro b r rfl
    refine ⟨h.next.1, ?_⟩
    rintro rfl
    cases l₁ with
    | nil =>
      obtain rfl : n = b := by simpa using hs
      simp at hd
    | cons c l₁ =>
      obtain rfl : c = b := by simpa using hs
      simp at hd

/-- a node that points to itself is alone -/
theorem Ring.eq_singleton (h : Ring nx pv l) (hd : l.Nodup) (ha : a ∈ l) (he : nx a = a) :
    l = [a] := by
  obtain ⟨l₁, l₂, rfl⟩ := List.append_of_mem ha
  have h1 : Ring nx pv (a :: (l₂ ++ l₁)) := h.rotate
  have hna : a ∉ l₂ ++ l₁ := by
    have := (List.nodup_middle.mp hd)
    rw [List.nodup_cons, List.mem_append] at this
    rw [List.mem_append]
    tauto
  cases hr : l₂ ++ l₁ with
  | nil =>
    obtain ⟨rfl, rfl⟩ := List.append_eq_nil_iff.mp hr
    rfl
  | cons b r =>
    rw [hr] at h1 hna
    have hb : nx a = b := (ring_cons.mp h1).1
    exact absurd (by rw [← hb, he]; exact List.mem_cons_self) hna

section
variable [DecidableEq α]

/-- a node is put behind the first one -/
theorem Ring.insert (h : Ring nx pv (a :: l)) (hd : (a :: l).Nodup) (hn : n ∉ a :: l) :
    Ring (update (update nx n (nx a)) a n) (update (update pv n a) (nx a) n) (a :: n :: l) := by
  have hna : n ≠ a := fun e => hn (by simp [e])
  cases l with
  | nil =>
    obtain ⟨h1, h2⟩ := ring_singleton.mp h
    rw [ring_cons]
    simp [Links, h1, hna]
  | cons b l =>
    obtain ⟨h1, h2, h3⟩ := ring_cons.mp h
    have hnb : n ≠ b := fun e => hn (by simp [e])
    have hab : a ≠ b := fun e => (List.nodup_cons.mp hd).1 (by simp [e])
    rw [ring_cons]
    refine ⟨by simp, ?_, ?_, ?_, ?_⟩
    · rw [h1, update_of_ne hnb, update_self]
    · rw [update_of_ne hna, update_self, h1]
    · rw [h1, update_self]
    · refine Links.congr h3 ?_ ?_
      · intro x hx'
        have hx : x ∈ ((b :: l) ++ [a]).dropLast := hx'
        rw [List.dropLast_concat] at hx
        have hxa : x ≠ a := fun e => (List.nodup_cons.mp hd).1 (e ▸ hx)
        have hxn : x ≠ n := fun e => hn (List.mem_cons_of_mem _ (e ▸ hx))
        rw [update_of_ne hxa, update_of_ne hxn]
      · intro x hx
        have hx' : x ∈ l ++ [a] := hx
        have hxb : x ≠ b := by
          rintro rfl
          rcases List.mem_append.mp hx' with hx' | hx'
          · exact (List.nodup_cons.mp (List.nodup_cons.mp hd).2).1 hx'
          · exact hab (List.mem_singleton.mp hx').symm
        have hxn : x ≠ n := by
          rintro rfl
          rcases List.mem_append.mp hx' with hx' | hx'
          · exact hn (by simp [hx'])
          · exact hna (List.mem_singleton.mp hx')
        rw [h1, update_of_ne hxb, update_of_ne hxn]

theorem Ring.unlink_head (h : Ring nx pv (n :: r)) (hd : (n :: r).Nodup) (hr : r ≠ []) :
    Ring (update nx (pv n) (nx n)) (update pv (nx n) (pv n)) r := by
  rcases List.eq_nil_or_concat' r with hr' | ⟨u, z, rfl⟩
  · exact absurd hr' hr
  obtain ⟨-, hz⟩ := h.ends
  cases hx : u ++ [z] with
  | nil => simp at hx
  | cons x t =>
    rw [hx] at h hd
    obtain ⟨h1, -, h3⟩ := ring_cons.mp h
    have hd' := (List.nodup_cons.mp hd).2
    -- the old list from `x` to `z` is untouched, only the step from `z` back to `x` is new
    have h4 : Links nx pv (u ++ [z]) := by
      have : Links nx pv ((u ++ [z]) ++ [n]) := by rw [hx]; exact h3
      rw [List.append_assoc] at this
      exact ((links_append_cons _ _ _).mp this).1
    rw [← hx] at hd'
    have hzu : z ∉ u := by
      have := List.nodup_append.mp hd'
      intro hzu
      exact this.2.2 z hzu z (by simp) rfl
    have hxt : x ∉ t := by
      rw [hx] at hd'
      exact (List.nodup_cons.mp hd').1
    rw [h1, hz, ring_cons, ← List.cons_append, ← hx, List.append_assoc]
    refine (links_append_cons _ _ _).mpr ⟨Links.congr h4 ?_ ?_, by simp [Links]⟩
    · intro y hy
      rw [List.dropLast_concat] at hy
      have hyz : y ≠ z := fun e => hzu (e ▸ hy)
      exact update_of_ne hyz _ _
    · intro y hy
      rw [hx] at hy
      have hyx : y ≠ x := fun e => hxt (e ▸ hy)
      exact update_of_ne hyx _ _

/-- a node is taken out, wherever it stands -/
theorem Ring.unlink (h : Ring nx pv (l₁ ++ n :: l₂)) (hd : (l₁ ++ n :: l₂).Nodup)
    (hr : l₁ ++ l₂ ≠ []) :
    Ring (update nx (pv n) (nx n)) (update pv (nx n) (pv n)) (l₁ ++ l₂) := by
  have h1 : Ring nx pv (n :: (l₂ ++ l₁)) := h.rotate
  have hd1 : (n :: (l₂ ++ l₁)).Nodup := by
    have : (n :: l₂ ++ l₁).Nodup := List.nodup_append_comm.mp hd
    exact this
  have hr1 : l₂ ++ l₁ ≠ [] := by
    intro e
    apply hr
    obtain ⟨rfl, rfl⟩ := List.append_eq_nil_iff.mp e
    rfl
  exact (h1.unlink_head hd1 hr1).rotate

end

/-! ## chains -/

/-- the list `l` of nodes behind `p`, which ends in `null` -/
def Chain (null : α) (nx pv : α → α) : α → List α → Prop
  | _, [] => True
  | p, a :: l => pv a = p ∧ nx a = l.headD null ∧ Chain null nx pv a l

section
variable {null p : α}

theorem Chain.congr (h : Chain null nx pv p l) (hn : ∀ x ∈ l, nx' x = nx x)
    (hp : ∀ x ∈ l, pv' x = pv x) : Chain null nx' pv' p l := by
  induction l generalizing p with
  | nil => trivial
  | cons a l ih =>
    obtain ⟨h1, h2, h3⟩ := h
    exact ⟨(hp a List.mem_cons_self).trans h1, (hn a List.mem_cons_self).trans h2,
      ih h3 (fun x hx => hn x (List.mem_cons_of_mem _ hx))
        (fun x hx => hp x (List.mem_cons_of_mem _ hx))⟩

/-- only the first node knows what is in front of the chain -/
theorem Chain.reprev {p' : α} (h : Chain null nx pv p l) (hn : ∀ x ∈ l, nx' x = nx x)
    (hp : ∀ x ∈ l.tail, pv' x = pv x) (hd : ∀ x, l.head? = some x → pv' x = p') :
    Chain null nx' pv' p' l := by
  cases l with
  | nil => trivial
  | cons a l =>
    obtain ⟨-, h2, h3⟩ := h
    exact ⟨hd a rfl, (hn a List.mem_cons_self).trans h2,
      h3.congr (fun x hx => hn x (List.mem_cons_of_mem _ hx)) hp⟩

theorem chain_append : Chain null nx pv p (l₁ ++ a :: l₂) ↔
    Chain a nx pv p l₁ ∧ pv a = l₁.getLastD p ∧ nx a = l₂.headD null
      ∧ Chain null nx pv a l₂ := by
  induction l₁ generalizing p with
  | nil => simp [Chain]
  | cons b l₁ ih =>
    have e : (l₁ ++ a :: l₂).headD null = l₁.headD a := by cases l₁ <;> rfl
    have e2 : (b :: l₁).getLastD p = l₁.getLastD b := by cases l₁ <;> rfl
    simp only [List.cons_append, Chain, ih, e, e2]
    tauto

/-- the last node of a chain gets a new successor -/
theorem Chain.renext {null' z : α} (h : Chain null nx pv p (l ++ [z]))
    (hn : ∀ x ∈ l, nx' x = nx x) (hz : nx' z = null') (hp : ∀ x ∈ l ++ [z], pv' x = pv x) :
    Chain null' nx' pv' p (l ++ [z]) := by
  obtain ⟨h1, h2, -, -⟩ := chain_append.mp h
  exact chain_append.mpr ⟨h1.congr hn fun x hx => hp x (List.mem_append_left _ hx),
    (hp z (by simp)).trans h2, hz, trivial⟩

/-- a node leaves the chain: its neighbours are linked to each other -/
theorem Chain.remove (h : Chain null nx pv p (l₁ ++ a :: l₂))
    (hlast : ∀ z, l₁.getLast? = some z → nx' z = l₂.headD null)
    (hhead : ∀ z, l₂.head? = some z → pv' z = l₁.getLastD p)
    (hn : ∀ x ∈ l₁ ++ l₂, l₁.getLast? ≠ some x → nx' x = nx x)
    (hp : ∀ x ∈ l₁ ++ l₂, l₂.head? ≠ some x → pv' x = pv x)
    (hd : (l₁ ++ l₂).Nodup) : Chain null nx' pv' p (l₁ ++ l₂) := by
  obtain ⟨h1, -, -, h2⟩ := chain_append.mp h
  have hdis := List.disjoint_of_nodup_append hd
  -- the part in front ends where the part behind begins
  have hfront : ∀ e, (∀ z, l₁.getLast? = some z → nx' z = e) → Chain e nx' pv' p l₁ := by
    intro e he
    have hpv : ∀ x ∈ l₁, pv' x = pv x := fun x hx => hp x (List.mem_append_left _ hx) fun hh =>
      hdis hx (List.mem_of_mem_head? hh)
    rcases List.eq_nil_or_concat' l₁ with rfl | ⟨l, z, rfl⟩
    · trivial
    · refine h1.renext (fun x hx => hn x (by simp [hx]) fun hh => ?_) (he z (by simp)) hpv
      have hxz : z = x := by simpa using hh
      exact (List.nodup_append.mp (List.nodup_append.mp hd).1).2.2 x hx z (by simp) hxz.symm
  cases l₂ with
  | nil =>
    rw [List.append_nil]
    exact hfront null hlast
  | cons c r =>
    obtain ⟨-, h4, h5⟩ := h2
    have hnx : ∀ x ∈ c :: r, nx' x = nx x := fun x hx => hn x (List.mem_append_right _ hx) fun hh =>
      hdis (List.mem_of_getLast? hh) hx
    refine chain_append.mpr ⟨hfront c hlast, hhead c rfl, (hnx c List.mem_cons_self).trans h4,
      h5.congr (fun x hx => hnx x (List.mem_cons_of_mem _ hx)) fun x hx =>
        hp x (List.mem_append_right _ (List.mem_cons_of_mem _ hx)) fun hh => ?_⟩
    have hxc : c = x := by simpa using hh
    exact (List.nodup_cons.mp (List.nodup_append.mp hd).2.1).1 (hxc ▸ hx)

end

end

end HeapForge.Lib
