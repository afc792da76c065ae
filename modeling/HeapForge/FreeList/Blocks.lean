import HeapForge.Lib.Tiling
import HeapForge.FreeList.Ring

/-!
# The blocks in memory order

`Seg m p x bs e`: from `x` to `e` the memory holds the headers of the blocks `bs`, one behind the
other, and the physical predecessor of the first is `p`.  `Heap a bs` says this of the whole
heap.

* `flSplit`    cuts a block in two or marks it used as it is;
* `flAbsorb`   joins two neighbours.

Both write into headers only, so they and the operations on the list leave each other alone.
-/

set_option linter.unusedSectionVars false
set_option linter.unusedVariables false

namespace HeapForge.FreeList
open Lib

/-! ## headers -/

section
variable {m m' : Mem} {h s v x y : Nat} {u : Bool} {l : List Nat}

theorem hdrSize_of_word (hw : m.load64 h = s + u.toNat) (hs : s % 2 = 0) : hdrSize m h = s := by
  rw [hdrSize_eq, hw]
  have := Bool.toNat_le u
  omega

theorem hdrUsed_of_word (hw : m.load64 h = s + u.toNat) (hs : s % 2 = 0) : hdrUsed m h = u := by
  unfold hdrUsed
  rw [hw, land_one_eq]
  cases u with
  | false => simp [hs]
  | true =>
    have : (s + 1) % 2 = 1 := by omega
    simp [this]

theorem hdrSet_eq (hs : s % 2 = 0) : hdrSet m h s u = m.store64 h (s + u.toNat) := by
  unfold hdrSet
  cases u with
  | false => simp
  | true => simp [lor_one_of_even hs]

theorem sameOn_hdrSet (hh : h ∈ l) : Mem.SameOn (Outside l) m (hdrSet m h s u) :=
  sameOn_setNext hh

theorem sameOn_setPrevPhys (hh : h ∈ l) : Mem.SameOn (Outside l) m (setPrevPhys m h v) :=
  sameOn_setPrev hh

theorem sameOn_relinkPrev (hh : h ≠ 0 → h ∈ l) : Mem.SameOn (Outside l) m (relinkPrev m h v) := by
  unfold relinkPrev
  split
  · next h0 => exact sameOn_setPrevPhys (hh h0)
  · exact Mem.SameOn.refl

theorem FreeRing.of_sameOn {a a' : FlAlloc} {ring : List Nat} (hr : FreeRing a ring)
    (hs : Mem.SameOn (Outside l) a.heap a'.heap) (hl : ∀ n ∈ l, n % 16 = 0)
    (hn : ∀ n ∈ ring, n ∉ l) (hh : a'.freeHead = a.freeHead) (hc : a'.cursor = a.cursor) :
    FreeRing a' ring :=
  hr.congr hh hc fun n hm => words_of_sameOn hs hl (hr.node n hm).1 (hn n hm)

end

/-! ## a run of blocks -/

structure Blk where
  addr : Nat
  size : Nat
  used : Bool
  size_ge : 32 ≤ size
  size_mod : size % 16 = 0

def Seg (m : Mem) : Nat → Nat → List Blk → Nat → Prop
  | _, x, [], e => x = e
  | p, x, b :: bs, e => b.addr = x ∧ m.load64 x = b.size + b.used.toNat ∧ m.load64 (x + 8) = p
      ∧ Seg m x (x + b.size) bs e

/-- the address of the last block, `p` if there is none -/
def lastAddr : Nat → List Blk → Nat
  | p, [] => p
  | _, b :: l => lastAddr b.addr l

section
variable {m m' : Mem} {p p' x e v : Nat} {b c : Blk} {bs l l₁ l₂ : List Blk}

theorem seg_append : Seg m p x (l₁ ++ l₂) e ↔
    ∃ mid, Seg m p x l₁ mid ∧ Seg m (lastAddr p l₁) mid l₂ e := by
  induction l₁ generalizing p x with
  | nil => simp [Seg, lastAddr]
  | cons b l₁ ih =>
    simp only [List.cons_append, Seg, ih, lastAddr]
    constructor
    · rintro ⟨rfl, h2, h3, mid, h4, h5⟩
      exact ⟨mid, ⟨rfl, h2, h3, h4⟩, h5⟩
    · rintro ⟨mid, ⟨rfl, h2, h3, h4⟩, h5⟩
      exact ⟨rfl, h2, h3, mid, h4, h5⟩

theorem seg_middle : Seg m p x (l₁ ++ b :: l₂) e ↔
    Seg m p x l₁ b.addr ∧ m.load64 b.addr = b.size + b.used.toNat
      ∧ m.load64 (b.addr + 8) = lastAddr p l₁ ∧ Seg m b.addr (b.addr + b.size) l₂ e := by
  rw [seg_append]
  constructor
  · rintro ⟨mid, h1, rfl, h2, h3, h4⟩
    exact ⟨h1, h2, h3, h4⟩
  · rintro ⟨h1, h2, h3, h4⟩
    exact ⟨b.addr, h1, rfl, h2, h3, h4⟩

theorem lastAddr_append (p : Nat) (l : List Blk) (b : Blk) : lastAddr p (l ++ [b]) = b.addr := by
  induction l generalizing p with
  | nil => rfl
  | cons c l ih => exact ih c.addr

theorem Seg.tiles (h : Seg m p x bs e) : Tiles Blk.addr Blk.size x bs e := by
  induction bs generalizing p x with
  | nil => exact h
  | cons b bs ih =>
    obtain ⟨h1, -, -, h4⟩ := h
    have := b.size_ge
    exact ⟨h1, by omega, ih h4⟩

theorem Seg.aligned (h : Seg m p x bs e) (hx : x % 16 = 0) : ∀ b ∈ bs, b.addr % 16 = 0 := by
  induction bs generalizing p x with
  | nil => simp
  | cons b bs ih =>
    obtain ⟨h1, -, -, h4⟩ := h
    have hm := b.size_mod
    intro c hc
    rcases List.mem_cons.mp hc with rfl | hc
    · omega
    · exact ih h4 (by omega) c hc

theorem Seg.congr (h : Seg m p x bs e)
    (hw : ∀ b ∈ bs, m'.load64 b.addr = m.load64 b.addr
      ∧ m'.load64 (b.addr + 8) = m.load64 (b.addr + 8)) : Seg m' p x bs e := by
  induction bs generalizing p x with
  | nil => exact h
  | cons b bs ih =>
    obtain ⟨rfl, h2, h3, h4⟩ := h
    obtain ⟨hw1, hw2⟩ := hw b List.mem_cons_self
    exact ⟨rfl, hw1.trans h2, hw2.trans h3, ih h4 fun c hc => hw c (List.mem_cons_of_mem _ hc)⟩

theorem Seg.word (h : Seg m p x bs e) (hb : b ∈ bs) :
    m.load64 b.addr = b.size + b.used.toNat := by
  obtain ⟨l₁, l₂, rfl⟩ := List.append_of_mem hb
  exact (seg_middle.mp h).2.1

/-- the first block gets a new predecessor, if there is a block at all -/
theorem Seg.reprev (h : Seg m p x bs e) (hw : ∀ b ∈ bs, m'.load64 b.addr = m.load64 b.addr)
    (hp : ∀ b ∈ bs, b.addr ≠ x → m'.load64 (b.addr + 8) = m.load64 (b.addr + 8))
    (hx : x < e → m'.load64 (x + 8) = v) : Seg m' v x bs e := by
  cases bs with
  | nil => exact h
  | cons b bs =>
    have hlt := h.tiles.bounds (b := b) List.mem_cons_self
    obtain ⟨rfl, h2, h3, h4⟩ := h
    refine ⟨rfl, (hw b List.mem_cons_self).trans h2, hx (by omega), h4.congr fun c hc => ?_⟩
    have hc' := h4.tiles.bounds hc
    have := b.size_ge
    exact ⟨hw c (List.mem_cons_of_mem _ hc), hp c (List.mem_cons_of_mem _ hc) (by omega)⟩

theorem relinkPrev_zero : relinkPrev m 0 v = m := rfl

theorem relinkPrev_of_ne {after : Nat} (h : after ≠ 0) :
    relinkPrev m after v = m.store64 (after + 8) v := if_pos h

end

/-! ## the whole heap -/

structure Heap (a : FlAlloc) (bs : List Blk) : Prop where
  mem_pos : 0 < a.mem
  mem_mod : a.mem % 16 = 0
  bound : a.mem + a.capacity < 2 ^ 64
  seg : Seg a.heap 0 a.mem bs (a.mem + a.capacity)

section
variable {a a' : FlAlloc} {b c : Blk} {bs l₁ l₂ : List Blk} {l ring : List Nat} {n need : Nat}

theorem Heap.tiles (h : Heap a bs) : Tiles Blk.addr Blk.size a.mem bs (a.mem + a.capacity) :=
  h.seg.tiles

/-- place of a block: aligned, inside the heap, so that no address of it wraps -/
theorem Heap.place (h : Heap a bs) (hb : b ∈ bs) :
    b.addr % 16 = 0 ∧ 0 < b.addr ∧ a.mem ≤ b.addr ∧ b.addr + b.size ≤ a.mem + a.capacity
      ∧ b.addr + b.size < 2 ^ 64 := by
  have h1 := h.tiles.bounds hb
  have h2 := h.seg.aligned h.mem_mod b hb
  have h3 := h.bound
  have h4 := h.mem_pos
  exact ⟨h2, by omega, h1.1, h1.2.1, by omega⟩

theorem Heap.hdrSize (h : Heap a bs) (hb : b ∈ bs) : hdrSize a.heap b.addr = b.size :=
  hdrSize_of_word (h.seg.word hb) (by have := b.size_mod; omega)

theorem Heap.hdrUsed (h : Heap a bs) (hb : b ∈ bs) : hdrUsed a.heap b.addr = b.used :=
  hdrUsed_of_word (h.seg.word hb) (by have := b.size_mod; omega)

theorem Heap.payloadNode (h : Heap a bs) (hb : b ∈ bs) : payloadNode b.addr = b.addr + 16 := by
  have h1 := (h.place hb).2.2.2.2
  have h2 := b.size_ge
  exact wadd_of_lt (show b.addr + 16 < 2 ^ 64 by omega)

theorem headerOf_add (hn : n + 16 < 2 ^ 64) : headerOf (n + 16) = n := by
  have h1 := wsub_of_le (show 16 ≤ n + 16 by omega) hn
  rw [Nat.add_sub_cancel] at h1
  exact h1

theorem Heap.headerOf (h : Heap a bs) (hb : b ∈ bs) : headerOf (b.addr + 16) = b.addr := by
  have h1 := (h.place hb).2.2.2.2
  have h2 := b.size_ge
  exact headerOf_add (by omega)

theorem Heap.nodeSize (h : Heap a bs) (hb : b ∈ bs) : nodeSize a.heap (b.addr + 16) = b.size := by
  have h1 := h.hdrSize hb
  rw [← h.headerOf hb] at h1
  exact h1

theorem nextPhys_of_size {m : Mem} {s h : Nat} (hs : FreeList.hdrSize m h = s)
    (hlt : h + s < 2 ^ 64) :
    nextPhys { a with heap := m } h = if h + s < a.mem + a.capacity then h + s else 0 := by
  unfold nextPhys
  dsimp only
  rw [hs, wadd_of_lt hlt]

/-- the successor is the next block of the list, or there is none -/
theorem Heap.nextPhys (h : Heap a (l₁ ++ b :: l₂)) :
    nextPhys a b.addr = (l₂.head?.map Blk.addr).getD 0 := by
  have hb : b ∈ l₁ ++ b :: l₂ := by simp
  have hp := h.place hb
  have e := nextPhys_of_size (a := a) (h.hdrSize hb) hp.2.2.2.2
  refine e.trans ?_
  obtain ⟨-, -, -, h4⟩ := seg_middle.mp h.seg
  cases l₂ with
  | nil =>
    have h5 : b.addr + b.size = a.mem + a.capacity := h4
    rw [if_neg (by omega)]
    rfl
  | cons c l₂ =>
    have h5 := h4.tiles.bounds (b := c) List.mem_cons_self
    have h6 : c.addr = b.addr + b.size := h4.1
    rw [if_pos (by omega), ← h6]
    rfl

theorem Heap.prevPhys (h : Heap a (l₁ ++ b :: l₂)) : prevPhys a.heap b.addr = lastAddr 0 l₁ :=
  (seg_middle.mp h.seg).2.2.1

/-- writes outside the headers -/
theorem Heap.of_sameOn (h : Heap a bs) (hs : Mem.SameOn (Outside l) a.heap a'.heap)
    (hl : ∀ n ∈ l, n % 16 = 0) (hn : ∀ b ∈ bs, b.addr ∉ l) (hm : a'.mem = a.mem)
    (hc : a'.capacity = a.capacity) : Heap a' bs := by
  obtain ⟨h1, h2, h3, h4⟩ := h
  refine ⟨hm ▸ h1, hm ▸ h2, hm ▸ hc ▸ h3, ?_⟩
  rw [hm, hc]
  exact h4.congr fun b hb => words_of_sameOn hs hl (h4.aligned h2 b hb) (hn b hb)

/-- the used bit of a block is set or cleared -/
theorem Heap.mark (h : Heap a (l₁ ++ b :: l₂)) (u : Bool) :
    Heap { a with heap := hdrSet a.heap b.addr b.size u } (l₁ ++ { b with used := u } :: l₂) := by
  have hb : b ∈ l₁ ++ b :: l₂ := by simp
  obtain ⟨h16, hpos, hlo, hhi, hlt⟩ := h.place hb
  have hmod := b.size_mod
  have hge := b.size_ge
  obtain ⟨hl, hr⟩ := h.tiles.around
  obtain ⟨s1, s2, s3, s4⟩ := seg_middle.mp h.seg
  have hmark : hdrSet a.heap b.addr b.size u = a.heap.store64 b.addr (b.size + u.toNat) :=
    hdrSet_eq (by omega)
  have hu := Bool.toNat_le u
  refine ⟨h.mem_pos, h.mem_mod, h.bound, seg_middle.mpr ⟨?_, ?_, ?_, ?_⟩⟩
  · refine s1.congr fun c hc => ?_
    have := hl c hc
    have := c.size_ge
    have := (h.place (b := c) (by simp [hc])).1
    rw [hmark]
    exact ⟨Mem.load64_store64_of_disjoint (by omega), Mem.load64_store64_of_disjoint (by omega)⟩
  · rw [hmark]
    exact Mem.load64_store64_same (by omega)
  · rw [hmark, ← s3]
    exact Mem.load64_store64_of_disjoint (by simp)
  · refine s4.congr fun c hc => ?_
    have := hr c hc
    rw [hmark]
    exact ⟨Mem.load64_store64_of_disjoint (by omega), Mem.load64_store64_of_disjoint (by omega)⟩

/-! ### cutting -/

def Blk.front (b : Blk) (need : Nat) (h1 : 32 ≤ need) (h2 : need % 16 = 0) : Blk :=
  ⟨b.addr, need, true, h1, h2⟩

def Blk.rest (b : Blk) (need : Nat) (h2 : need % 16 = 0) (h3 : need + 32 ≤ b.size) : Blk :=
  ⟨b.addr + need, b.size - need, false, by omega, by have := b.size_mod; omega⟩

/-- the memory after the header writes of a cut; the block behind, if any, is at `after` -/
def cutHeap (m : Mem) (h need size after : Nat) : Mem :=
  hdrSet (relinkPrev (setPrevPhys (hdrSet m (h + need) (size - need) false) (h + need) h)
    after (h + need)) h need true

/-- where the block behind `b` starts, 0 if `b` is the last -/
def behind (a : FlAlloc) (b : Blk) : Nat :=
  if b.addr + b.size < a.mem + a.capacity then b.addr + b.size else 0

theorem behind_cases (a : FlAlloc) (b : Blk) :
    (behind a b = 0 ∧ a.mem + a.capacity ≤ b.addr + b.size)
      ∨ (behind a b = b.addr + b.size ∧ b.addr + b.size < a.mem + a.capacity) := by
  unfold behind
  split
  · next h => exact Or.inr ⟨rfl, h⟩
  · next h => exact Or.inl ⟨rfl, by omega⟩

theorem Heap.behind_eq (h : Heap a (l₁ ++ b :: l₂)) :
    behind a b = (l₂.head?.map Blk.addr).getD 0 := by
  have hb : b ∈ l₁ ++ b :: l₂ := by simp
  have e := nextPhys_of_size (a := a) (h.hdrSize hb) (h.place hb).2.2.2.2
  exact e.symm.trans h.nextPhys

theorem Heap.behind_mem (h : Heap a (l₁ ++ b :: l₂)) (h0 : behind a b ≠ 0) :
    behind a b ∈ l₂.map Blk.addr := by
  rw [h.behind_eq] at h0 ⊢
  cases l₂ with
  | nil => exact absurd rfl h0
  | cons c l₂ => exact List.mem_cons_self

theorem flSplit_cut (h : Heap a (l₁ ++ b :: l₂)) (h2 : need % 16 = 0) (h3 : need + 32 ≤ b.size) :
    flSplit a b.addr need
      = flInsert { a with heap := cutHeap a.heap b.addr need b.size (behind a b) }
        (b.addr + need + 16) := by
  have hb : b ∈ l₁ ++ b :: l₂ := by simp
  obtain ⟨h16, hpos, hlo, hhi, hlt⟩ := h.place hb
  have hmod := b.size_mod
  have hremain : wsub (FreeList.hdrSize a.heap b.addr) need = b.size - need := by
    rw [h.hdrSize hb]
    exact wsub_of_le (by omega) (by omega)
  have hsplit : wadd b.addr need = b.addr + need := wadd_of_lt (by omega)
  have hnode : FreeList.payloadNode (b.addr + need) = b.addr + need + 16 :=
    wadd_of_lt (show b.addr + need + 16 < 2 ^ 64 by omega)
  have hsz : FreeList.hdrSize (setPrevPhys (hdrSet a.heap (b.addr + need) (b.size - need) false)
      (b.addr + need) b.addr) (b.addr + need) = b.size - need := by
    apply hdrSize_of_word (u := false)
    · rw [hdrSet_eq (by omega)]
      unfold setPrevPhys
      rw [Mem.load64_store64_of_disjoint (by omega), Mem.load64_store64_same (by simp; omega)]
    · omega
  have hnext := nextPhys_of_size (a := a) hsz (by omega)
  rw [show b.addr + need + (b.size - need) = b.addr + b.size by omega] at hnext
  unfold flSplit
  rw [hremain, if_pos (show FL_MIN ≤ b.size - need by unfold FL_MIN; omega), hsplit]
  dsimp only
  rw [hnext, hnode]
  rfl

theorem cutHeap_words {h size : Nat} (m : Mem) (after : Nat) (h16 : h % 16 = 0) (h1 : 32 ≤ need)
    (h2 : need % 16 = 0) (h3 : need + 32 ≤ size) (h4 : size % 16 = 0) (h5 : h + size < 2 ^ 64)
    (h6 : after = 0 ∨ after = h + size) :
    (cutHeap m h need size after).load64 h = need + 1
    ∧ (cutHeap m h need size after).load64 (h + need) = size - need
    ∧ (cutHeap m h need size after).load64 (h + need + 8) = h
    ∧ (after ≠ 0 → (cutHeap m h need size after).load64 (after + 8) = h + need)
    ∧ ∀ y, y % 8 = 0 → y ≠ h → y ≠ h + need → y ≠ h + need + 8 → (after ≠ 0 → y ≠ after + 8) →
      (cutHeap m h need size after).load64 y = m.load64 y := by
  have e1 : ∀ m : Mem, hdrSet m (h + need) (size - need) false
      = m.store64 (h + need) (size - need) := fun m => hdrSet_eq (by omega)
  have e2 : ∀ m : Mem, hdrSet m h need true = m.store64 h (need + 1) :=
    fun m => hdrSet_eq (by omega)
  unfold cutHeap setPrevPhys
  rw [e1, e2]
  rcases h6 with rfl | rfl
  · rw [relinkPrev_zero]
    refine ⟨?_, ?_, ?_, fun h0 => absurd rfl h0, fun y _ _ _ _ _ => ?_⟩
    · exact Mem.load64_store64_same (by omega)
    · simp (disch := omega) only [Mem.load64_store64_of_disjoint, Mem.load64_store64_same]
    · simp (disch := omega) only [Mem.load64_store64_of_disjoint, Mem.load64_store64_same]
    · simp (disch := omega) only [Mem.load64_store64_of_disjoint]
  · rw [relinkPrev_of_ne (by omega)]
    refine ⟨?_, ?_, ?_, fun h0 => ?_, fun y _ _ _ _ h0 => ?_⟩
    · exact Mem.load64_store64_same (by omega)
    · simp (disch := omega) only [Mem.load64_store64_of_disjoint, Mem.load64_store64_same]
    · simp (disch := omega) only [Mem.load64_store64_of_disjoint, Mem.load64_store64_same]
    · simp (disch := omega) only [Mem.load64_store64_of_disjoint, Mem.load64_store64_same]
    · have h0' := h0 (by omega)
      simp (disch := omega) only [Mem.load64_store64_of_disjoint]

theorem Heap.cut (h : Heap a (l₁ ++ b :: l₂)) (h1 : 32 ≤ need) (h2 : need % 16 = 0)
    (h3 : need + 32 ≤ b.size) :
    Heap { a with heap := cutHeap a.heap b.addr need b.size (behind a b) }
      (l₁ ++ b.front need h1 h2 :: b.rest need h2 h3 :: l₂) := by
  have hb : b ∈ l₁ ++ b :: l₂ := by simp
  obtain ⟨h16, hpos, hlo, hhi, hlt⟩ := h.place hb
  obtain ⟨hl, hr⟩ := h.tiles.around
  obtain ⟨s1, s2, s3, s4⟩ := seg_middle.mp h.seg
  have hcase := behind_cases a b
  have hbm := b.size_mod
  have hal : ∀ c ∈ l₁ ++ b :: l₂, c.addr % 16 = 0 := fun c hc => (h.place hc).1
  obtain ⟨w1, w2, w3, w4, w5⟩ := cutHeap_words a.heap (behind a b) h16 h1 h2 h3
    b.size_mod hlt (by omega)
  refine ⟨h.mem_pos, h.mem_mod, h.bound, seg_middle.mpr ⟨?_, w1, ?_, rfl, ?_, w3, ?_⟩⟩
  · refine s1.congr fun c hc => ?_
    have := hl c hc
    have := c.size_ge
    have := hal c (by simp [hc])
    exact ⟨w5 _ (by omega) (by omega) (by omega) (by omega) (by omega),
      w5 _ (by omega) (by omega) (by omega) (by omega) (by omega)⟩
  · rw [← s3]
    exact w5 (b.addr + 8) (by omega) (by omega) (by omega) (by omega) (by omega)
  · exact w2
  · have e : b.addr + (b.front need h1 h2).size + (b.rest need h2 h3).size = b.addr + b.size := by
      show b.addr + need + (b.size - need) = _
      omega
    show Seg _ (b.addr + need) (b.addr + (b.front need h1 h2).size + (b.rest need h2 h3).size) l₂ _
    rw [e]
    refine s4.reprev (fun c hc => ?_) (fun c hc hne => ?_) (fun hx => ?_)
    · have := hr c hc
      have := hal c (by simp [hc])
      exact w5 _ (by omega) (by omega) (by omega) (by omega) (by omega)
    · have := hr c hc
      have := hal c (by simp [hc])
      exact w5 _ (by omega) (by omega) (by omega) (by omega) (by omega)
    · have e2 : behind a b = b.addr + b.size := by omega
      rw [← e2]
      exact w4 (by omega)

/-- the cut writes into headers only -/
theorem Heap.cut_sameOn (h : Heap a (l₁ ++ b :: l₂)) (need : Nat) :
    Mem.SameOn (Outside (b.addr :: (b.addr + need) :: l₂.map Blk.addr)) a.heap
      (cutHeap a.heap b.addr need b.size (behind a b)) := by
  have hm : behind a b ≠ 0 → behind a b ∈ b.addr :: (b.addr + need) :: l₂.map Blk.addr :=
    fun h0 => List.mem_cons_of_mem _ (List.mem_cons_of_mem _ (h.behind_mem h0))
  exact (((sameOn_hdrSet (by simp)).trans (sameOn_setPrevPhys (by simp))).trans
    (sameOn_relinkPrev hm)).trans (sameOn_hdrSet (by simp))

theorem flSplit_whole (h : Heap a (l₁ ++ b :: l₂)) (h1 : need ≤ b.size) (h3 : b.size < need + 32) :
    flSplit a b.addr need = { a with heap := hdrSet a.heap b.addr b.size true } := by
  have hb : b ∈ l₁ ++ b :: l₂ := by simp
  have hlt := (h.place hb).2.2.2.2
  unfold flSplit
  rw [h.hdrSize hb, wsub_of_le h1 (by omega)]
  exact if_neg (show ¬ FL_MIN ≤ b.size - need by unfold FL_MIN; omega)

/-! ### joining -/

def Blk.join (b c : Blk) : Blk :=
  ⟨b.addr, b.size + c.size, false, by have := b.size_ge; omega,
    by have := b.size_mod; have := c.size_mod; omega⟩

def joinHeap (m : Mem) (h size after : Nat) : Mem := relinkPrev (hdrSet m h size false) after h

theorem flAbsorb_eq (h : Heap a (l₁ ++ b :: c :: l₂)) :
    flAbsorb a b.addr c.addr
      = { a with heap := joinHeap a.heap b.addr (b.size + c.size) (behind a c) } := by
  have hb : b ∈ l₁ ++ b :: c :: l₂ := by simp
  have hc : c ∈ l₁ ++ b :: c :: l₂ := by simp
  have hlt := (h.place hc).2.2.2.2
  have hadj : c.addr = b.addr + b.size := (seg_middle.mp h.seg).2.2.2.1
  have hbm := b.size_mod
  have hcm := c.size_mod
  have hsum : wadd (FreeList.hdrSize a.heap b.addr) (FreeList.hdrSize a.heap c.addr)
      = b.size + c.size := by
    rw [h.hdrSize hb, h.hdrSize hc]
    exact wadd_of_lt (by omega)
  have hsz : FreeList.hdrSize (hdrSet a.heap b.addr (b.size + c.size) false) b.addr
      = b.size + c.size := by
    apply hdrSize_of_word (u := false)
    · rw [hdrSet_eq (by omega)]
      exact Mem.load64_store64_same (by simp; omega)
    · omega
  have hnext := nextPhys_of_size (a := a) hsz (by omega)
  rw [← Nat.add_assoc, ← hadj] at hnext
  unfold flAbsorb
  rw [hsum]
  dsimp only
  rw [hnext]
  rfl

/-- the header at `h` and the back pointer behind the block are new, every other word is old -/
theorem joinHeap_words {h size : Nat} (m : Mem) (after : Nat) (h16 : h % 16 = 0) (h1 : 32 ≤ size)
    (h2 : size % 16 = 0) (h3 : h + size < 2 ^ 64) (h4 : after = 0 ∨ after = h + size) :
    (joinHeap m h size after).load64 h = size
    ∧ (after ≠ 0 → (joinHeap m h size after).load64 (after + 8) = h)
    ∧ ∀ y, y % 8 = 0 → y ≠ h → (after ≠ 0 → y ≠ after + 8) →
      (joinHeap m h size after).load64 y = m.load64 y := by
  have e : hdrSet m h size false = m.store64 h size := hdrSet_eq (by omega)
  unfold joinHeap
  rw [e]
  rcases h4 with rfl | rfl
  · rw [relinkPrev_zero]
    refine ⟨?_, fun h0 => absurd rfl h0, fun y _ _ _ => ?_⟩
    · exact Mem.load64_store64_same (by omega)
    · exact Mem.load64_store64_of_disjoint (by omega)
  · rw [relinkPrev_of_ne (by omega)]
    refine ⟨?_, fun _ => ?_, fun y _ _ h0 => ?_⟩
    · rw [Mem.load64_store64_of_disjoint (by omega)]
      exact Mem.load64_store64_same (by omega)
    · exact Mem.load64_store64_same (by omega)
    · have h0' := h0 (by omega)
      rw [Mem.load64_store64_of_disjoint (by omega)]
      exact Mem.load64_store64_of_disjoint (by omega)

theorem Heap.join (h : Heap a (l₁ ++ b :: c :: l₂)) :
    Heap { a with heap := joinHeap a.heap b.addr (b.size + c.size) (behind a c) }
      (l₁ ++ b.join c :: l₂) := by
  have hb : b ∈ l₁ ++ b :: c :: l₂ := by simp
  have hc : c ∈ l₁ ++ b :: c :: l₂ := by simp
  have h16 := (h.place hb).1
  have hlt := (h.place hc).2.2.2.2
  obtain ⟨hl, -⟩ := h.tiles.around
  obtain ⟨s1, s2, s3, hadj, s4, s5, s6⟩ := seg_middle.mp h.seg
  have hal : ∀ d ∈ l₁ ++ b :: c :: l₂, d.addr % 16 = 0 := fun d hd => (h.place hd).1
  have hcase : behind a c = 0 ∨ behind a c = b.addr + (b.size + c.size) := by
    rcases behind_cases a c with ⟨e, -⟩ | ⟨e, -⟩
    · exact Or.inl e
    · exact Or.inr (by omega)
  obtain ⟨w1, w2, w3⟩ := joinHeap_words a.heap (behind a c) h16 (b.join c).size_ge
    (b.join c).size_mod
    (show b.addr + (b.size + c.size) < 2 ^ 64 by omega) hcase
  refine ⟨h.mem_pos, h.mem_mod, h.bound, seg_middle.mpr ⟨?_, w1, ?_, ?_⟩⟩
  · refine s1.congr fun d hd => ?_
    have := hl d hd
    have := d.size_ge
    have := hal d (by simp [hd])
    exact ⟨w3 _ (by omega) (by omega) (by omega), w3 _ (by omega) (by omega) (by omega)⟩
  · rw [← s3]
    exact w3 (b.addr + 8) (by omega) (by omega) (by have := b.size_ge; omega)
  · show Seg _ b.addr (b.addr + (b.size + c.size)) l₂ _
    rw [← Nat.add_assoc]
    have hr : ∀ d ∈ l₂, b.addr + (b.size + c.size) ≤ d.addr := fun d hd => by
      have := s6.tiles.bounds hd
      omega
    have hbg := b.size_ge
    have hbm := b.size_mod
    have hcm := c.size_mod
    refine s6.reprev (fun d hd => ?_) (fun d hd hne => ?_) (fun hx => ?_)
    · have := hr d hd
      have := hal d (by simp [hd])
      exact w3 _ (by omega) (by omega) (by omega)
    · have := hr d hd
      have := hal d (by simp [hd])
      exact w3 _ (by omega) (by omega) (by omega)
    · have hlast := behind_cases a c
      have e : behind a c = b.addr + b.size + c.size := by omega
      rw [← e]
      exact w2 (by omega)

theorem Heap.join_sameOn (h : Heap a (l₁ ++ b :: c :: l₂)) :
    Mem.SameOn (Outside (b.addr :: l₂.map Blk.addr)) a.heap
      (joinHeap a.heap b.addr (b.size + c.size) (behind a c)) := by
  have h' : Heap a ((l₁ ++ [b]) ++ c :: l₂) := by simpa using h
  exact (sameOn_hdrSet (by simp)).trans
    (sameOn_relinkPrev fun h0 => List.mem_cons_of_mem _ (h'.behind_mem h0))

end

end HeapForge.FreeList
