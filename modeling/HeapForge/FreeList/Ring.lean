import Mathlib.Data.List.Induction
import HeapForge.Lib.Links
import HeapForge.FreeList.Impl

/-!
# The circular list of free blocks

`FreeRing a ring`: the nodes of `ring` form the circular list at `free_head`, and the cursor
points into it.  `fl_unlink` and `fl_insert` keep this and write into nodes of the list only;
`find_fit` visits every node once, starting at the head or at the cursor.
-/

set_option linter.unusedSectionVars false
set_option linter.unusedVariables false

namespace HeapForge.FreeList
open Lib Function

/-! ## insertion and removal -/

structure FreeRing (a : FlAlloc) (ring : List Nat) : Prop where
  nodup : ring.Nodup
  node : ∀ n ∈ ring, n % 16 = 0 ∧ 0 < n ∧ n < 2 ^ 64
  links : Ring (nodeNext a.heap) (nodePrev a.heap) ring
  head : a.freeHead = ring.headD 0
  cursor_nil : ring = [] → a.cursor = 0
  cursor_mem : ring ≠ [] → a.cursor ∈ ring

/-- where `fl_insert` puts a node -/
def ringInsert (n : Nat) : List Nat → List Nat
  | [] => [n]
  | a :: l => a :: n :: l

section
variable {a a' : FlAlloc} {ring l₁ l₂ : List Nat} {n x : Nat}

theorem mem_ringInsert : x ∈ ringInsert n ring ↔ x = n ∨ x ∈ ring := by
  cases ring with
  | nil => simp [ringInsert]
  | cons b l => simp [ringInsert]; tauto

theorem nodup_ringInsert (hd : ring.Nodup) (hn : n ∉ ring) : (ringInsert n ring).Nodup := by
  cases ring with
  | nil => simp [ringInsert]
  | cons b l =>
    simp only [ringInsert, List.nodup_cons, List.mem_cons, not_or] at hd hn ⊢
    exact ⟨⟨fun e => hn.1 e.symm, hd.1⟩, hn.2, hd.2⟩

/-- the ring depends on the list fields and the nodes' words alone -/
theorem FreeRing.congr (h : FreeRing a ring) (hh : a'.freeHead = a.freeHead)
    (hc : a'.cursor = a.cursor)
    (hw : ∀ n ∈ ring, nodeNext a'.heap n = nodeNext a.heap n
      ∧ nodePrev a'.heap n = nodePrev a.heap n) : FreeRing a' ring where
  nodup := h.nodup
  node := h.node
  links := h.links.congr (fun n hn => (hw n hn).1) (fun n hn => (hw n hn).2)
  head := hh.trans h.head
  cursor_nil hr := hc.trans (h.cursor_nil hr)
  cursor_mem hr := hc ▸ h.cursor_mem hr

theorem FreeRing.freeHead_eq_zero (h : FreeRing a ring) : a.freeHead = 0 ↔ ring = [] := by
  rw [h.head]
  cases ring with
  | nil => simp
  | cons b l =>
    have := (h.node b List.mem_cons_self).2.1
    simp only [List.headD_cons, reduceCtorEq, iff_false]
    omega

@[simp] theorem flInsert_stats : (flInsert a n).stats = a.stats := rfl
@[simp] theorem flUnlink_mem : (flUnlink a n).mem = a.mem := by unfold flUnlink; split <;> rfl
@[simp] theorem flUnlink_capacity : (flUnlink a n).capacity = a.capacity := by
  unfold flUnlink; split <;> rfl

@[simp] theorem flUnlink_stats : (flUnlink a n).stats = a.stats := by
  unfold flUnlink; split <;> rfl

/-- the first node's successor is read twice, with the same result -/
theorem insertHeap_eq {m : Mem} {b : Nat} (hn : n % 16 = 0) (hb : b % 16 = 0) (hbn : b ≠ n)
    (hx : nodeNext m b < 2 ^ 64) :
    insertHeap m b n
      = setNext (setPrev (setPrev (setNext m n (nodeNext m b)) n b) (nodeNext m b) n) b n := by
  have hread : nodeNext (setPrev (setNext m n (nodeNext m b)) n b) b = nodeNext m b := by
    rw [nodeNext_setPrev hn hb, nodeNext_setNext hn hb hx, update_of_ne hbn]
  show setNext (setPrev _ (nodeNext (setPrev (setNext m n (nodeNext m b)) n b) b) n) b n = _
  rw [hread]

theorem flInsert_nil (h : FreeRing a []) :
    flInsert a n
      = { a with freeHead := n, cursor := n, heap := setNext (setPrev a.heap n n) n n } := by
  have hh : a.freeHead = 0 := h.freeHead_eq_zero.mpr rfl
  have hc : a.cursor = 0 := h.cursor_nil rfl
  unfold flInsert
  rw [if_pos hh, if_pos hh, if_pos hc]

theorem flInsert_cons {b : Nat} {l : List Nat} (h : FreeRing a (b :: l)) :
    flInsert a n = { a with heap := insertHeap a.heap b n } := by
  have hh : a.freeHead = b := h.head
  have hb := (h.node b List.mem_cons_self).2.1
  have hc := (h.node a.cursor (h.cursor_mem (List.cons_ne_nil b l))).2.1
  have hb0 : a.freeHead ≠ 0 := by omega
  have hc0 : a.cursor ≠ 0 := by omega
  unfold flInsert
  rw [if_neg hb0, if_neg hb0, if_neg hc0, hh, ← hh]

theorem flInsert_spec (h : FreeRing a ring) (hn : n ∉ ring) (h16 : n % 16 = 0) (hpos : 0 < n)
    (hlt : n < 2 ^ 64) :
    FreeRing (flInsert a n) (ringInsert n ring)
      ∧ Mem.SameOn (Outside (n :: ring)) a.heap (flInsert a n).heap := by
  cases ring with
  | nil =>
    rw [flInsert_nil h]
    refine ⟨⟨by simp [ringInsert], ?_, ?_, rfl, by simp [ringInsert], by simp [ringInsert]⟩, ?_⟩
    · intro x hx
      obtain rfl : x = n := by simpa [ringInsert] using hx
      exact ⟨h16, hpos, hlt⟩
    · refine ring_singleton.mpr ⟨?_, ?_⟩
      · show nodeNext (setNext (setPrev a.heap n n) n n) n = n
        rw [nodeNext_setNext h16 h16 hlt, update_self]
      · show nodePrev (setNext (setPrev a.heap n n) n n) n = n
        rw [nodePrev_setNext h16 h16, nodePrev_setPrev h16 h16 hlt, update_self]
    · exact (sameOn_setPrev List.mem_cons_self).trans (sameOn_setNext List.mem_cons_self)
  | cons b l =>
    obtain ⟨hb16, hb0, hblt⟩ := h.node b List.mem_cons_self
    have hnb : b ≠ n := fun e => hn (e ▸ List.mem_cons_self)
    have hxm : nodeNext a.heap b ∈ b :: l := h.links.next_mem List.mem_cons_self
    obtain ⟨hx16, hx0, hxlt⟩ := h.node _ hxm
    have hnode : ∀ x ∈ ringInsert n (b :: l), x % 16 = 0 ∧ 0 < x ∧ x < 2 ^ 64 := by
      intro x hx
      rcases mem_ringInsert.mp hx with rfl | hx
      · exact ⟨h16, hpos, hlt⟩
      · exact h.node x hx
    rw [flInsert_cons h, insertHeap_eq h16 hb16 hnb hxlt]
    refine ⟨⟨nodup_ringInsert h.nodup hn, hnode, ?_, h.head, by simp [ringInsert], fun _ =>
      mem_ringInsert.mpr (Or.inr (h.cursor_mem (List.cons_ne_nil b l)))⟩, ?_⟩
    · refine (h.links.insert h.nodup hn).congr (fun x hx => ?_) (fun x hx => ?_)
      · have hal := (hnode x hx).1
        rw [nodeNext_setNext hb16 hal hlt]
        apply update_congr_at
        rw [nodeNext_setPrev hx16 hal, nodeNext_setPrev h16 hal, nodeNext_setNext h16 hal hxlt]
      · have hal := (hnode x hx).1
        rw [nodePrev_setNext hb16 hal, nodePrev_setPrev hx16 hal hlt]
        apply update_congr_at
        rw [nodePrev_setPrev h16 hal hblt]
        apply update_congr_at
        rw [nodePrev_setNext h16 hal]
    · have hb : b ∈ n :: b :: l := by simp
      have hx : nodeNext a.heap b ∈ n :: b :: l := List.mem_cons_of_mem _ hxm
      exact (((sameOn_setNext List.mem_cons_self).trans (sameOn_setPrev List.mem_cons_self)).trans
        (sameOn_setPrev hx)).trans (sameOn_setNext hb)

/-- the first write does not touch the node that is taken out -/
theorem unlinkHeap_eq {m : Mem} (hn : n % 16 = 0) (hp : nodePrev m n % 16 = 0)
    (hne : nodePrev m n ≠ n) (hx : nodeNext m n < 2 ^ 64) :
    unlinkHeap m n
      = setPrev (setNext m (nodePrev m n) (nodeNext m n)) (nodeNext m n) (nodePrev m n) := by
  have h1 : nodeNext (setNext m (nodePrev m n) (nodeNext m n)) n = nodeNext m n := by
    rw [nodeNext_setNext hp hn hx, update_of_ne (Ne.symm hne)]
  have h2 : nodePrev (setNext m (nodePrev m n) (nodeNext m n)) n = nodePrev m n :=
    nodePrev_setNext hp hn
  show setPrev _ (nodeNext (setNext m (nodePrev m n) (nodeNext m n)) n)
    (nodePrev (setNext m (nodePrev m n) (nodeNext m n)) n) = _
  rw [h1, h2]

theorem flUnlink_single (h : FreeRing a [n]) :
    flUnlink a n = { a with freeHead := 0, cursor := 0 } :=
  if_pos (ring_singleton.mp h.links).1

theorem FreeRing.split_nodup (h : FreeRing a (l₁ ++ n :: l₂)) :
    (l₁ ++ l₂).Nodup ∧ n ∉ l₁ ++ l₂ := by
  have := List.nodup_middle.mp h.nodup
  rw [List.nodup_cons] at this
  exact ⟨this.2, this.1⟩

/-- a node with neighbours has others on both sides -/
theorem FreeRing.neighbours_ne (h : FreeRing a (l₁ ++ n :: l₂)) (hr : l₁ ++ l₂ ≠ []) :
    nodeNext a.heap n ≠ n ∧ nodePrev a.heap n ≠ n := by
  have hrot : Ring (nodeNext a.heap) (nodePrev a.heap) (n :: (l₂ ++ l₁)) := h.links.rotate
  have hn : n ∉ l₂ ++ l₁ :=
    fun hm => h.split_nodup.2 (List.mem_append.mpr (List.mem_append.mp hm).symm)
  constructor
  · intro e
    have hs := h.links.eq_singleton h.nodup (by simp) e
    have hl := congrArg List.length hs
    simp only [List.length_append, List.length_cons, List.length_nil] at hl
    exact hr (List.length_eq_zero_iff.mp (by rw [List.length_append]; omega))
  · intro e
    rcases List.eq_nil_or_concat' (l₂ ++ l₁) with hr' | ⟨r, z, hr'⟩
    · obtain ⟨rfl, rfl⟩ := List.append_eq_nil_iff.mp hr'
      exact hr rfl
    · rw [hr'] at hrot hn
      have hz : z = n := hrot.ends.2.symm.trans e
      exact hn (by rw [hz]; simp)

theorem flUnlink_cons (h : FreeRing a (l₁ ++ n :: l₂)) (hr : l₁ ++ l₂ ≠ []) :
    flUnlink a n =
      { a with
        heap := setPrev (setNext a.heap (nodePrev a.heap n) (nodeNext a.heap n))
          (nodeNext a.heap n) (nodePrev a.heap n)
        freeHead := if a.freeHead = n then nodeNext a.heap n else a.freeHead
        cursor := if a.cursor = n then nodeNext a.heap n else a.cursor } := by
  have hn : n ∈ l₁ ++ n :: l₂ := by simp
  obtain ⟨h16, -, -⟩ := h.node n hn
  obtain ⟨hx16, -, hxlt⟩ := h.node _ (h.links.next_mem hn)
  obtain ⟨hp16, -, -⟩ := h.node _ (h.links.prev_mem hn)
  obtain ⟨hs, hpn⟩ := h.neighbours_ne hr
  have hnext : nodeNext (setPrev (setNext a.heap (nodePrev a.heap n) (nodeNext a.heap n))
      (nodeNext a.heap n) (nodePrev a.heap n)) n = nodeNext a.heap n := by
    rw [nodeNext_setPrev hx16 h16, nodeNext_setNext hp16 h16 hxlt, update_of_ne (Ne.symm hpn)]
  unfold flUnlink
  rw [if_neg hs, unlinkHeap_eq h16 hp16 hpn hxlt]
  dsimp only
  rw [hnext]

theorem flUnlink_spec (h : FreeRing a (l₁ ++ n :: l₂)) :
    FreeRing (flUnlink a n) (l₁ ++ l₂)
      ∧ Mem.SameOn (Outside (l₁ ++ n :: l₂)) a.heap (flUnlink a n).heap := by
  by_cases hr : l₁ ++ l₂ = []
  · obtain ⟨rfl, rfl⟩ := List.append_eq_nil_iff.mp hr
    rw [flUnlink_single h]
    exact ⟨⟨List.nodup_nil, by simp, ring_nil, rfl, fun _ => rfl, by simp⟩, Mem.SameOn.refl⟩
  · have hn : n ∈ l₁ ++ n :: l₂ := by simp
    obtain ⟨hx16, -, hxlt⟩ := h.node _ (h.links.next_mem hn)
    obtain ⟨hp16, -, hplt⟩ := h.node _ (h.links.prev_mem hn)
    obtain ⟨hd, hout⟩ := h.split_nodup
    have hsub : ∀ x ∈ l₁ ++ n :: l₂, x ≠ n → x ∈ l₁ ++ l₂ := by
      intro x hx hne
      rcases List.mem_append.mp hx with hx | hx
      · exact List.mem_append_left _ hx
      · exact List.mem_append_right _ (List.mem_of_ne_of_mem hne hx)
    have hsup : ∀ x ∈ l₁ ++ l₂, x ∈ l₁ ++ n :: l₂ := fun x hx =>
      List.mem_append.mpr ((List.mem_append.mp hx).imp_right (List.mem_cons_of_mem n))
    rw [flUnlink_cons h hr]
    refine ⟨⟨hd, fun x hx => h.node x (hsup x hx), ?_, ?_, fun e => absurd e hr, fun _ => ?_⟩, ?_⟩
    · refine (h.links.unlink h.nodup hr).congr (fun x hx => ?_) (fun x hx => ?_)
      · have hal := (h.node x (hsup x hx)).1
        rw [nodeNext_setPrev hx16 hal, nodeNext_setNext hp16 hal hxlt]
      · have hal := (h.node x (hsup x hx)).1
        rw [nodePrev_setPrev hx16 hal hplt]
        apply update_congr_at
        exact nodePrev_setNext hp16 hal
    · show (if a.freeHead = n then nodeNext a.heap n else a.freeHead) = _
      rw [h.head]
      cases l₁ with
      | nil =>
        cases l₂ with
        | nil => exact absurd rfl hr
        | cons y l₂ =>
          have hy : nodeNext a.heap n = y := (ring_cons.mp h.links).1
          simpa using hy
      | cons y l₁ =>
        have hy : y ≠ n := fun e => hout (by simp [e])
        simp [hy]
    · show (if a.cursor = n then nodeNext a.heap n else a.cursor) ∈ l₁ ++ l₂
      split
      · exact hsub _ (h.links.next_mem hn) (h.neighbours_ne hr).1
      · next hc => exact hsub _ (h.cursor_mem (List.ne_nil_of_mem hn)) hc
    · exact (sameOn_setNext (h.links.prev_mem hn)).trans (sameOn_setPrev (h.links.next_mem hn))

end

/-! ## finding a block -/

section
variable {a : FlAlloc} {m : Mem} {ring l₁ l₂ : List Nat} {n need start : Nat}

theorem hdrSize_eq (m : Mem) (h : Nat) : hdrSize m h = m.load64 h / 2 * 2 :=
  land_wnot_one (Mem.load64_lt m h)

/-- the size of the block a node belongs to -/
def nodeSize (m : Mem) (n : Nat) : Nat := hdrSize m (headerOf n)

theorem nodeSize_lt (m : Mem) (n : Nat) : nodeSize m n < 2 ^ 64 - 1 := by
  have h := Mem.load64_lt m (headerOf n)
  have e : nodeSize m n = m.load64 (headerOf n) / 2 * 2 := hdrSize_eq m (headerOf n)
  omega

/-- from any node on, the search returns the first node of the rest that fits -/
theorem searchLoop_eq (h : Ring (nodeNext m) (nodePrev m) (l₁ ++ n :: l₂))
    (hd : (l₁ ++ n :: l₂).Nodup) (hs : (l₁ ++ n :: l₂).head? = some start) {fuel : Nat}
    (hf : l₂.length < fuel) :
    searchLoop m need start fuel n
      = some (((n :: l₂).find? fun x => decide (need ≤ nodeSize m x)).getD 0) := by
  induction l₂ generalizing l₁ n fuel with
  | nil =>
    obtain ⟨fuel, rfl⟩ : ∃ k, fuel = k + 1 := ⟨fuel - 1, by simp at hf; omega⟩
    have hlast := (h.walk hd hs).1 rfl
    unfold searchLoop
    by_cases hfit : need ≤ hdrSize m (headerOf n)
    · have hfit' : need ≤ nodeSize m n := hfit
      simp [hfit, hfit']
    · have hfit' : ¬ need ≤ nodeSize m n := hfit
      simp [hfit, hfit', hlast]
  | cons b l₂ ih =>
    obtain ⟨fuel, rfl⟩ : ∃ k, fuel = k + 1 := ⟨fuel - 1, by simp at hf; omega⟩
    obtain ⟨hnext, hb⟩ := (h.walk hd hs).2 b l₂ rfl
    unfold searchLoop
    by_cases hfit : need ≤ hdrSize m (headerOf n)
    · have hfit' : need ≤ nodeSize m n := hfit
      simp [hfit, hfit']
    · have hfit' : ¬ need ≤ nodeSize m n := hfit
      have e : l₁ ++ n :: b :: l₂ = (l₁ ++ [n]) ++ b :: l₂ := by simp
      rw [e] at h hd hs
      rw [if_neg hfit, hnext, if_neg hb, ih h hd hs (by simp at hf; omega),
        List.find?_cons_of_neg (a := n) (by simpa using hfit')]

/-- one round of Best-Fit -/
def bestStep (m : Mem) (need : Nat) (r : Nat × Nat) (n : Nat) : Nat × Nat :=
  if need ≤ nodeSize m n ∧ nodeSize m n < r.2 then (n, nodeSize m n) else r

theorem bestLoop_succ (m : Mem) (need start fuel n : Nat) (r : Nat × Nat) :
    bestLoop m need start (fuel + 1) n r.1 r.2 =
      if nodeNext m n = start then some (bestStep m need r n).1
      else bestLoop m need start fuel (nodeNext m n) (bestStep m need r n).1
        (bestStep m need r n).2 := by
  rw [bestLoop]
  unfold bestStep nodeSize
  by_cases hfit : need ≤ hdrSize m (headerOf n) ∧ hdrSize m (headerOf n) < r.2
  · simp only [if_pos hfit]
  · simp only [if_neg hfit]

theorem bestLoop_eq (h : Ring (nodeNext m) (nodePrev m) (l₁ ++ n :: l₂))
    (hd : (l₁ ++ n :: l₂).Nodup) (hs : (l₁ ++ n :: l₂).head? = some start) (need fuel : Nat)
    (hf : l₂.length < fuel) (r : Nat × Nat) :
    bestLoop m need start fuel n r.1 r.2 = some ((n :: l₂).foldl (bestStep m need) r).1 := by
  induction l₂ generalizing l₁ n fuel r with
  | nil =>
    obtain ⟨fuel, rfl⟩ : ∃ k, fuel = k + 1 := ⟨fuel - 1, by simp at hf; omega⟩
    have hlast := (h.walk hd hs).1 rfl
    rw [bestLoop_succ, if_pos hlast, List.foldl_cons, List.foldl_nil]
  | cons b l₂ ih =>
    obtain ⟨fuel, rfl⟩ : ∃ k, fuel = k + 1 := ⟨fuel - 1, by simp at hf; omega⟩
    obtain ⟨hnext, hb⟩ := (h.walk hd hs).2 b l₂ rfl
    have e : l₁ ++ n :: b :: l₂ = (l₁ ++ [n]) ++ b :: l₂ := by simp
    rw [e] at h hd hs
    have h1 := ih h hd hs fuel (by simp at hf; omega) (bestStep m need r n)
    rw [List.foldl_cons, ← h1, bestLoop_succ, hnext, if_neg hb]

/-- what Best-Fit ends with: nothing if nothing fits, otherwise a node of the least size -/
theorem foldl_bestStep (m : Mem) (need : Nat) (l : List Nat) :
    (l.foldl (bestStep m need) (0, 2 ^ 64 - 1) = (0, 2 ^ 64 - 1)
      ∧ ∀ n ∈ l, nodeSize m n < need)
    ∨ ∃ b ∈ l, l.foldl (bestStep m need) (0, 2 ^ 64 - 1) = (b, nodeSize m b)
      ∧ need ≤ nodeSize m b ∧ ∀ n ∈ l, need ≤ nodeSize m n → nodeSize m b ≤ nodeSize m n := by
  induction l using List.reverseRecOn with
  | nil => exact Or.inl ⟨rfl, by simp⟩
  | append_singleton l x ih =>
    rw [List.foldl_append, List.foldl_cons, List.foldl_nil]
    have hx := nodeSize_lt m x
    rcases ih with ⟨h1, h2⟩ | ⟨b, hb, h1, h2, h3⟩
    · rw [h1]
      by_cases hfit : need ≤ nodeSize m x
      · refine Or.inr ⟨x, by simp, if_pos ⟨hfit, hx⟩, hfit, ?_⟩
        intro n hn hle
        rcases List.mem_append.mp hn with hn | hn
        · have := h2 n hn
          omega
        · rw [List.mem_singleton.mp hn]
      · refine Or.inl ⟨if_neg (fun h => hfit h.1), ?_⟩
        intro n hn
        rcases List.mem_append.mp hn with hn | hn
        · exact h2 n hn
        · rw [List.mem_singleton.mp hn]
          omega
    · rw [h1]
      by_cases hfit : need ≤ nodeSize m x ∧ nodeSize m x < nodeSize m b
      · refine Or.inr ⟨x, by simp, if_pos hfit, hfit.1, ?_⟩
        intro n hn hle
        rcases List.mem_append.mp hn with hn | hn
        · have := h3 n hn hle
          omega
        · rw [List.mem_singleton.mp hn]
      · refine Or.inr ⟨b, by simp [hb], if_neg hfit, h2, ?_⟩
        intro n hn hle
        rcases List.mem_append.mp hn with hn | hn
        · exact h3 n hn hle
        · rw [List.mem_singleton.mp hn] at hle ⊢
          omega

/-- a search that starts anywhere in the ring sees all of it -/
theorem searchLoop_spec (need : Nat) (h : FreeRing a ring) (hs : start ∈ ring)
    (hf : ring.length ≤ a.capacity) :
    ∃ n, searchLoop a.heap need start a.capacity start = some n ∧
      ((n = 0 ∧ ∀ x ∈ ring, nodeSize a.heap x < need) ∨ (n ∈ ring ∧ need ≤ nodeSize a.heap n)) := by
  obtain ⟨l₁, l₂, rfl⟩ := List.append_of_mem hs
  have hrot : Ring (nodeNext a.heap) (nodePrev a.heap) ([] ++ start :: (l₂ ++ l₁)) :=
    h.links.rotate
  have hd : ((start :: l₂) ++ l₁).Nodup := List.nodup_append_comm.mp h.nodup
  have hmem : ∀ x, x ∈ start :: (l₂ ++ l₁) ↔ x ∈ l₁ ++ start :: l₂ := by
    intro x
    simp only [List.mem_cons, List.mem_append]
    tauto
  have hlen : (l₂ ++ l₁).length < a.capacity := by
    simp only [List.length_append, List.length_cons] at hf ⊢
    omega
  refine ⟨_, searchLoop_eq hrot hd rfl hlen, ?_⟩
  cases hfind : (start :: (l₂ ++ l₁)).find? fun x => decide (need ≤ nodeSize a.heap x) with
  | none =>
    refine Or.inl ⟨rfl, fun x hx => ?_⟩
    have := List.find?_eq_none.mp hfind x ((hmem x).mpr hx)
    simpa using this
  | some b =>
    have h1 := List.find?_some hfind
    exact Or.inr ⟨(hmem b).mp (List.mem_of_find?_eq_some hfind), by simpa using h1⟩

/-- **`find_fit` ends; it finds a block that fits if and only if there is one.**  Only the cursor
may move, and it stays in the ring. -/
theorem findFit_spec (h : FreeRing a ring) (hf : ring.length ≤ a.capacity) (need : Nat) :
    ∃ n a', findFit a need = some (n, a') ∧
      ((n = 0 ∧ a' = a ∧ ∀ x ∈ ring, nodeSize a.heap x < need) ∨
        (n ∈ ring ∧ need ≤ nodeSize a.heap n ∧ ∃ c ∈ ring, a' = a.withCursor c)) := by
  unfold findFit
  by_cases hne : ring = []
  · subst hne
    rw [if_pos (h.freeHead_eq_zero.mpr rfl)]
    exact ⟨0, a, rfl, Or.inl ⟨rfl, rfl, by simp⟩⟩
  · rw [if_neg (fun e => hne (h.freeHead_eq_zero.mp e))]
    have hcur := h.cursor_mem hne
    have hkeep : a = a.withCursor a.cursor := rfl
    have hhead : a.freeHead ∈ ring := by
      rw [h.head]
      cases ring with
      | nil => exact absurd rfl hne
      | cons b l => exact List.mem_cons_self
    cases hp : a.policy with
    | first =>
      obtain ⟨n, he, h1⟩ := searchLoop_spec need h hhead hf
      refine ⟨n, a, by simp only [he, Option.map_some], ?_⟩
      rcases h1 with ⟨h0, h1⟩ | ⟨h1, h2⟩
      · exact Or.inl ⟨h0, rfl, h1⟩
      · exact Or.inr ⟨h1, h2, a.cursor, hcur, hkeep⟩
    | best =>
      cases ring with
      | nil => exact absurd rfl hne
      | cons b l =>
        have hb : a.freeHead = b := h.head
        have hlinks : Ring (nodeNext a.heap) (nodePrev a.heap) ([] ++ b :: l) := h.links
        have he := bestLoop_eq hlinks h.nodup rfl need a.capacity hf (0, 2 ^ 64 - 1)
        rw [← hb] at he
        dsimp only
        rw [he, Option.map_some]
        refine ⟨_, a, rfl, ?_⟩
        rw [hb]
        rcases foldl_bestStep a.heap need (b :: l) with ⟨h1, h2⟩ | ⟨x, hx, h1, h2, -⟩
        · exact Or.inl ⟨by rw [h1], rfl, h2⟩
        · exact Or.inr ⟨by rw [h1]; exact hx, by rw [h1]; exact h2, a.cursor, hcur, hkeep⟩
    | next =>
      have hc0 : a.cursor ≠ 0 := Nat.pos_iff_ne_zero.mp (h.node _ hcur).2.1
      obtain ⟨n, he, h1⟩ := searchLoop_spec need h hcur hf
      simp only [hc0, ne_eq, not_false_eq_true, if_true, he, Option.map_some]
      rcases h1 with ⟨h0, h1⟩ | ⟨h1, h2⟩
      · rw [if_pos h0]
        exact ⟨0, a, rfl, Or.inl ⟨rfl, rfl, h1⟩⟩
      · rw [if_neg (Nat.pos_iff_ne_zero.mp (h.node _ h1).2.1)]
        exact ⟨n, _, rfl, Or.inr ⟨h1, h2, _, h.links.next_mem h1, rfl⟩⟩

end

end HeapForge.FreeList
