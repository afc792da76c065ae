import HeapForge.Lib.Links
import HeapForge.Buddy.Impl
import HeapForge.Buddy.System

/-!
# The C allocator keeps a buddy system

`CInv a bs act lists` ties the fields of the allocator to the abstract system: the entry of the
first slot of each active block is that block's byte, the words in free blocks link the lists,
a used block starts with its order.  Nothing is said about the slots inside a block: an entry
left there by an earlier block may say anything.

* `CInv.push`, `CInv.unlink`, `CInv.mark`   one lemma for each change of the source;
* `bdIsFreeAt_iff`     next to the block in hand the map is asked about a block, so the answer
                       is right;
* `bdCarve_spec`, `mergeLoop_spec`, `bdDeallocate_spec`   the loops do what the system does;
* `UsedBytes`          the bytes of used blocks, which no operation writes.
-/

set_option linter.unusedSectionVars false
set_option linter.unusedVariables false

namespace HeapForge.Buddy
open Lib Function

/-! ## bytes of the map -/

def Block.enc (b : Block) : Nat := if b.used then encUsed b.order else encFree b.order

theorem encFree_decode : ∀ k < 64, encFree k &&& 0x3F = k ∧ encFree k &&& 0x40 ≠ 0
    ∧ encFree k &&& 0x80 = 0 := by decide

theorem encUsed_decode : ∀ k < 64, encUsed k &&& 0x3F = k ∧ encUsed k &&& 0x40 ≠ 0
    ∧ encUsed k &&& 0x80 ≠ 0 := by decide

theorem Block.enc_decode (b : Block) (h : b.order < 64) : b.enc &&& 0x3F = b.order
    ∧ b.enc &&& 0x40 ≠ 0 ∧ (b.enc &&& 0x80 = 0 ↔ b.used = false) := by
  unfold Block.enc
  cases hu : b.used with
  | false =>
    obtain ⟨h1, h2, h3⟩ := encFree_decode _ h
    exact ⟨h1, h2, by simpa using h3⟩
  | true =>
    obtain ⟨h1, h2, h3⟩ := encUsed_decode _ h
    exact ⟨h1, h2, by simpa using h3⟩

theorem Block.enc_free (b : Block) (h : b.order < 64) : (b.enc &&& 0x80 == 0) = !b.used := by
  obtain ⟨-, -, h3⟩ := b.enc_decode h
  cases hu : b.used with
  | false => simpa using h3.mpr hu
  | true =>
    have : b.enc &&& 0x80 ≠ 0 := fun e => absurd (h3.mp e) (by rw [hu]; simp)
    simpa using this

/-! ## nodes -/

section
variable {m : Mem} {n x : Nat} {l l₁ l₂ : List Nat}

/-- an address a node can have -/
def NodeAddr (n : Nat) : Prop := n % 16 = 0 ∧ 0 < n ∧ n < 2 ^ 64

theorem pushHeap_spec (hl : ∀ x ∈ l, NodeAddr x) (hn : NodeAddr n) (hnl : n ∉ l) (hd : l.Nodup)
    (hc : Chain 0 (nodeNext m) (nodePrev m) 0 l) :
    Chain 0 (nodeNext (pushHeap m n (l.headD 0))) (nodePrev (pushHeap m n (l.headD 0))) 0 (n :: l)
      ∧ Mem.SameOn (Outside (n :: l)) m (pushHeap m n (l.headD 0)) := by
  have hself : n ∈ n :: l := List.mem_cons_self
  have hlt : l.headD 0 < 2 ^ 64 := by
    cases l with
    | nil => norm_num
    | cons c r => exact (hl c List.mem_cons_self).2.2
  have hnx : ∀ y, y % 16 = 0 → nodeNext (setNext (setPrev m n 0) n (l.headD 0)) y
      = update (nodeNext m) n (l.headD 0) y := fun y hy => by
    rw [nodeNext_setNext hn.1 hy hlt]
    exact update_congr_at (nodeNext_setPrev hn.1 hy)
  have hpv : ∀ y, y % 16 = 0 → nodePrev (setNext (setPrev m n 0) n (l.headD 0)) y
      = update (nodePrev m) n 0 y := fun y hy => by
    rw [nodePrev_setNext hn.1 hy, nodePrev_setPrev hn.1 hy (by norm_num)]
  have hs : Mem.SameOn (Outside (n :: l)) m (setNext (setPrev m n 0) n (l.headD 0)) :=
    (sameOn_setPrev hself).trans (sameOn_setNext hself)
  have hne : ∀ y ∈ l, y ≠ n := fun y hy e => hnl (e ▸ hy)
  unfold pushHeap
  dsimp only
  rw [hnx n hn.1, update_self]
  generalize setNext (setPrev m n 0) n (l.headD 0) = m' at hnx hpv hs
  cases l with
  | nil =>
    rw [if_neg (by simp)]
    refine ⟨⟨?_, ?_, trivial⟩, hs⟩
    · rw [hpv n hn.1, update_self]
    · rw [hnx n hn.1, update_self]
  | cons c r =>
    have hca := hl c List.mem_cons_self
    have h0 : List.headD (c :: r) 0 ≠ 0 := by
      show c ≠ 0
      have := hca.2.1
      omega
    rw [if_pos h0]
    show Chain 0 (nodeNext (setPrev m' c n)) (nodePrev (setPrev m' c n)) 0 (n :: c :: r) ∧ _
    refine ⟨⟨?_, ?_, hc.reprev ?_ ?_ ?_⟩, hs.trans (sameOn_setPrev (by simp))⟩
    · rw [nodePrev_setPrev hca.1 hn.1 hn.2.2, update_of_ne (hne c List.mem_cons_self).symm,
        hpv n hn.1, update_self]
    · rw [nodeNext_setPrev hca.1 hn.1, hnx n hn.1, update_self]
    · intro y hy
      have hya := (hl y hy).1
      rw [nodeNext_setPrev hca.1 hya, hnx y hya, update_of_ne (hne y hy)]
    · intro y hy
      have hyc : y ∈ c :: r := List.mem_of_mem_tail hy
      have hya := (hl y hyc).1
      have hyne : y ≠ c := fun e => (List.nodup_cons.mp hd).1 (e ▸ hy)
      rw [nodePrev_setPrev hca.1 hya hn.2.2, update_of_ne hyne, hpv y hya,
        update_of_ne (hne y hyc)]
    · intro y hy
      obtain rfl : c = y := by simpa using hy
      rw [nodePrev_setPrev hca.1 hca.1 hn.2.2, update_self]

/-- the neighbours of a removed node linked to each other -/
def relink (m : Mem) (l₁ l₂ : List Nat) : Mem :=
  let m := match l₁.getLast? with
    | none => m
    | some z => setNext m z (l₂.headD 0)
  match l₂.head? with
  | none => m
  | some z => setPrev m z (l₁.getLastD 0)

theorem relink_spec (hl : ∀ x ∈ l₁ ++ l₂, NodeAddr x) (hd : (l₁ ++ l₂).Nodup)
    (hc : Chain 0 (nodeNext m) (nodePrev m) 0 (l₁ ++ n :: l₂)) :
    Chain 0 (nodeNext (relink m l₁ l₂)) (nodePrev (relink m l₁ l₂)) 0 (l₁ ++ l₂)
      ∧ Mem.SameOn (Outside (l₁ ++ l₂)) m (relink m l₁ l₂) := by
  have hlast : l₁.getLastD 0 < 2 ^ 64 := by
    rcases List.eq_nil_or_concat' l₁ with rfl | ⟨r, z, rfl⟩
    · norm_num
    · rw [List.getLastD_concat]
      exact (hl z (by simp)).2.2
  have hhead : l₂.headD 0 < 2 ^ 64 := by
    cases l₂ with
    | nil => norm_num
    | cons c r => exact (hl c (by simp)).2.2
  -- first the link to the right
  have h1 : ∃ m', (match l₁.getLast? with
      | none => m
      | some z => setNext m z (l₂.headD 0)) = m'
      ∧ (∀ z, l₁.getLast? = some z → nodeNext m' z = l₂.headD 0)
      ∧ (∀ x ∈ l₁ ++ l₂, l₁.getLast? ≠ some x → nodeNext m' x = nodeNext m x)
      ∧ (∀ x ∈ l₁ ++ l₂, nodePrev m' x = nodePrev m x)
      ∧ Mem.SameOn (Outside (l₁ ++ l₂)) m m' := by
    cases hz : l₁.getLast? with
    | none => exact ⟨m, rfl, by simp, fun _ _ _ => rfl, fun _ _ => rfl, Mem.SameOn.refl⟩
    | some z =>
      have hzm : z ∈ l₁ ++ l₂ := List.mem_append_left _ (List.mem_of_getLast? hz)
      have hza := (hl z hzm).1
      refine ⟨setNext m z (l₂.headD 0), rfl, ?_, ?_, ?_, sameOn_setNext hzm⟩
      · intro y hy
        obtain rfl : z = y := by simpa using hy
        rw [nodeNext_setNext hza hza hhead, update_self]
      · intro y hy hne
        rw [nodeNext_setNext hza (hl y hy).1 hhead, update_of_ne fun e => hne (by rw [e])]
      · intro y hy
        exact nodePrev_setNext hza (hl y hy).1
  obtain ⟨m', e1, hn1, hn2, hp1, hs1⟩ := h1
  unfold relink
  dsimp only
  rw [e1]
  -- then the link to the left
  cases hz : l₂.head? with
  | none => exact ⟨hc.remove hn1 (by simp [hz]) hn2 (fun x hx _ => hp1 x hx) hd, hs1⟩
  | some z =>
    have hzm : z ∈ l₁ ++ l₂ := List.mem_append_right _ (List.mem_of_mem_head? hz)
    have hza := (hl z hzm).1
    refine ⟨hc.remove ?_ ?_ ?_ ?_ hd, hs1.trans (sameOn_setPrev hzm)⟩
    · intro y hy
      have hym : y ∈ l₁ ++ l₂ := List.mem_append_left _ (List.mem_of_getLast? hy)
      rw [nodeNext_setPrev hza (hl y hym).1]
      exact hn1 y hy
    · intro y hy
      obtain rfl : z = y := by simpa [hz] using hy
      rw [nodePrev_setPrev hza hza hlast, update_self]
    · intro y hy hne
      rw [nodeNext_setPrev hza (hl y hy).1]
      exact hn2 y hy hne
    · intro y hy hne
      rw [nodePrev_setPrev hza (hl y hy).1 hlast, update_of_ne fun e => hne (by rw [hz, e])]
      exact hp1 y hy

end

/-! ## the invariant -/

structure Geo (a : BdAlloc) : Prop where
  mem_pos : 0 < a.mem
  mem_mod : a.mem % 16 = 0
  bound : a.mem + 2 ^ a.maxOrder < 2 ^ 64
  cap : a.capacity = 2 ^ a.maxOrder
  max_lt : a.maxOrder < 64

/-- the nodes of a list of offsets -/
def nodesOf (mem : Nat) (l : List Nat) : List Nat := l.map (mem + ·)

structure CInv (a : BdAlloc) (bs act : List Block) (lists : Nat → List Nat) : Prop where
  geo : Geo a
  sys : BInv (floorOrder a.minOrder) a.maxOrder bs act lists
  entry : ∀ b ∈ act, a.orderMap (b.off >>> a.minOrder) = b.enc
  head : ∀ k, a.freeLists k = (nodesOf a.mem (lists k)).headD 0
  chain : ∀ k, Chain 0 (nodeNext a.heap) (nodePrev a.heap) 0 (nodesOf a.mem (lists k))
  tags : ∀ b ∈ act, b.used = true → a.heap.load64 (a.mem + b.off) = b.order

theorem CInv.of {a a' : BdAlloc} {bs act : List Block} {lists : Nat → List Nat}
    (hmem : a'.mem = a.mem) (hcap : a'.capacity = a.capacity) (hmin : a'.minOrder = a.minOrder)
    (hmax : a'.maxOrder = a.maxOrder) (hg : Geo a)
    (hn : BInv (floorOrder a.minOrder) a.maxOrder bs act lists)
    (entry : ∀ b ∈ act, a'.orderMap (b.off >>> a.minOrder) = b.enc)
    (head : ∀ k, a'.freeLists k = (nodesOf a.mem (lists k)).headD 0)
    (chain : ∀ k, Chain 0 (nodeNext a'.heap) (nodePrev a'.heap) 0 (nodesOf a.mem (lists k)))
    (tags : ∀ b ∈ act, b.used = true → a'.heap.load64 (a.mem + b.off) = b.order) :
    CInv a' bs act lists := by
  obtain ⟨h1, h2, h3, h4, h5⟩ := hg
  rw [← hmem] at h1 h2 h3 head chain tags
  rw [← hmin] at entry hn
  rw [← hmax] at h3 h4 h5 hn
  rw [← hcap] at h4
  exact ⟨⟨h1, h2, h3, h4, h5⟩, hn, entry, head, chain, tags⟩

/-- the byte `x` belongs to a used block -/
def UsedBytes (mem : Nat) (act : List Block) (x : Nat) : Prop :=
  ∃ u ∈ act, u.used = true ∧ mem + u.off ≤ x ∧ x < mem + u.off + u.size

section
variable {a : BdAlloc} {bs bs' act act' l₁ l₂ : List Block} {lists : Nat → List Nat} {b c : Block}
  {m : Mem} {x k d j : Nat}

theorem BInv.node_addr (h : BInv (floorOrder a.minOrder) a.maxOrder bs act lists) (hg : Geo a)
    (hb : b ∈ bs) :
    NodeAddr (a.mem + b.off) := by
  have h1 := h.place (floorOrder_ge _).2 hb
  have h2 := hg.mem_mod
  have h3 := hg.bound
  have h4 := hg.mem_pos
  refine ⟨?_, ?_, ?_⟩ <;> omega

theorem slotOf_eq (h : a.mem + x < 2 ^ 64) : slotOf a (a.mem + x) = x >>> a.minOrder := by
  unfold slotOf
  rw [wsub_of_le (by omega) h, Nat.add_sub_cancel_left]

theorem BInv.slotOf_block (h : BInv (floorOrder a.minOrder) a.maxOrder bs act lists) (hg : Geo a)
    (hb : b ∈ bs) :
    slotOf a (a.mem + b.off) = b.off >>> a.minOrder :=
  slotOf_eq (h.node_addr hg hb).2.2

theorem BInv.nodes_addr (h : BInv (floorOrder a.minOrder) a.maxOrder bs act lists) (hg : Geo a)
    (hx : x ∈ nodesOf a.mem (lists k)) : NodeAddr x := by
  obtain ⟨y, hy, rfl⟩ := List.mem_map.mp hx
  obtain ⟨b, hb, -, -, rfl⟩ := (h.mem k y).mp hy
  exact h.node_addr hg (h.sub b hb)

theorem nodesOf_nodup {l : List Nat} (h : l.Nodup) : (nodesOf a.mem l).Nodup :=
  h.map fun _ _ e => Nat.add_left_cancel e

theorem mem_nodesOf {l : List Nat} : a.mem + x ∈ nodesOf a.mem l ↔ x ∈ l :=
  List.mem_map_of_injective fun _ _ e => Nat.add_left_cancel e

/-- writes to nodes of blocks that are not used leave the used blocks as they are -/
theorem BInv.frame (h : BInv (floorOrder a.minOrder) a.maxOrder bs act lists) (hg : Geo a)
    {ns : List Nat} (hs : Mem.SameOn (Outside ns) a.heap m)
    (hns : ∀ n ∈ ns, ∃ c ∈ bs, n = a.mem + c.off ∧ (c ∈ act → c.used = false)) :
    Mem.SameOn (UsedBytes a.mem act) a.heap m := by
  refine hs.mono ?_
  rintro x ⟨u, hu, huu, h1, h2⟩ n hn
  obtain ⟨c, hc, rfl, hf⟩ := hns n hn
  have hcs := h.place (floorOrder_ge _).2 hc
  have hne : u ≠ c := by
    rintro rfl
    rw [hf hu] at huu
    exact absurd huu (by simp)
  have := h.apart (h.sub u hu) hc hne
  omega

/-- the tags stay with the bytes -/
theorem CInv.tags_same (h : CInv a bs act lists)
    (hs : Mem.SameOn (UsedBytes a.mem act) a.heap m) (hb : b ∈ act) (hu : b.used = true) :
    m.load64 (a.mem + b.off) = b.order := by
  rw [← h.tags b hb hu]
  have hp := h.sys.place (floorOrder_ge _).2 (h.sys.sub b hb)
  exact hs.load64 fun y h1 h2 => ⟨b, hb, hu, h1, by omega⟩

/-- lists that do not meet the nodes written stay linked -/
theorem CInv.chain_same (h : CInv a bs act lists) {ns : List Nat}
    (hs : Mem.SameOn (Outside ns) a.heap m) (hns : ∀ n ∈ ns, n % 16 = 0)
    (hk : ∀ n ∈ nodesOf a.mem (lists k), n ∉ ns) :
    Chain 0 (nodeNext m) (nodePrev m) 0 (nodesOf a.mem (lists k)) :=
  (h.chain k).congr
    (fun n hn => (words_of_sameOn hs hns (h.sys.nodes_addr h.geo hn).1 (hk n hn)).1)
    (fun n hn => (words_of_sameOn hs hns (h.sys.nodes_addr h.geo hn).1 (hk n hn)).2)

/-- lists of different orders share no node -/
theorem BInv.lists_disjoint (h : BInv mn mx bs act lists) (hne : j ≠ k) (hx : x ∈ lists j) :
    x ∉ lists k := by
  intro hx'
  obtain ⟨b, hb, -, hbo, hbx⟩ := (h.mem j x).mp hx
  obtain ⟨c, hc, -, hco, hcx⟩ := (h.mem k x).mp hx'
  have : b = c := h.off_inj (h.sub b hb) (h.sub c hc) (by omega)
  exact hne (by rw [← hbo, ← hco, this])

/-- other blocks around the same active ones -/
theorem CInv.resys (h : CInv a bs act lists)
    (hn : BInv (floorOrder a.minOrder) a.maxOrder bs' act lists) :
    CInv a bs' act lists :=
  ⟨h.geo, hn, h.entry, h.head, h.chain, h.tags⟩

theorem CInv.restat (h : CInv a bs act lists) (st : Stats) :
    CInv { a with stats := st } bs act lists :=
  CInv.of (a := a) rfl rfl rfl rfl h.geo h.sys h.entry h.head h.chain h.tags

/-! ## push -/

theorem bdPush_heap (n : Nat) : (bdPush a n k).heap = pushHeap a.heap n (a.freeLists k) := by
  simp only [bdPush]

/-- **A block is pushed.**  The system `hn` says that it may be. -/
theorem CInv.push (h : CInv a bs act lists)
    (hn : BInv (floorOrder a.minOrder) a.maxOrder bs' act'
      (update lists b.order (b.off :: lists b.order)))
    (hf : b.used = false) (hact : ∀ c, c ∈ act' ↔ c = b ∨ c ∈ act) (hout : b ∉ act) :
    CInv (bdPush a (a.mem + b.off) b.order) bs' act' (update lists b.order (b.off :: lists b.order))
      ∧ Mem.SameOn (UsedBytes a.mem act) a.heap (bdPush a (a.mem + b.off) b.order).heap := by
  have hg := h.geo
  have hba : b ∈ act' := (hact b).mpr (Or.inl rfl)
  have hbm := hn.sub b hba
  have hsub : ∀ c ∈ act, c ∈ act' := fun c hc => (hact c).mpr (Or.inr hc)
  have hbl : ∀ k, b.off ∉ lists k := by
    intro k hm
    obtain ⟨c, hc, -, -, hco⟩ := (h.sys.mem k b.off).mp hm
    have hcb : c = b := hn.off_inj (hn.sub c (hsub c hc)) hbm hco
    exact hout (hcb ▸ hc)
  obtain ⟨hchain, hsame⟩ := pushHeap_spec (n := a.mem + b.off)
    (fun x hx => h.sys.nodes_addr hg hx) (hn.node_addr hg hbm)
    (fun hm => hbl _ (mem_nodesOf.mp hm)) (nodesOf_nodup (h.sys.nodup b.order)) (h.chain b.order)
  rw [← h.head b.order] at hchain hsame
  have haddr : ∀ n ∈ (a.mem + b.off) :: nodesOf a.mem (lists b.order), n % 16 = 0 := by
    intro n hm
    rcases List.mem_cons.mp hm with rfl | hm
    · exact (hn.node_addr hg hbm).1
    · exact (h.sys.nodes_addr hg hm).1
  have hused : Mem.SameOn (UsedBytes a.mem act) a.heap (pushHeap a.heap (a.mem + b.off)
      (a.freeLists b.order)) := by
    refine (hn.frame hg hsame ?_).mono ?_
    · intro n hm
      rcases List.mem_cons.mp hm with rfl | hm
      · exact ⟨b, hbm, rfl, fun _ => hf⟩
      · obtain ⟨y, hy, rfl⟩ := List.mem_map.mp hm
        obtain ⟨c, hc, hcf, -, rfl⟩ := (h.sys.mem _ y).mp hy
        exact ⟨c, hn.sub c (hsub c hc), rfl, fun _ => hcf⟩
    · rintro x ⟨u, hu, hx⟩
      exact ⟨u, hsub u hu, hx⟩
  rw [← bdPush_heap] at hchain hsame hused
  refine ⟨CInv.of (a := a) rfl rfl rfl rfl hg hn ?_ ?_ ?_ ?_, hused⟩
  · intro c hc
    show update a.orderMap (slotOf a (a.mem + b.off)) (encFree b.order)
      (c.off >>> a.minOrder) = c.enc
    rw [hn.slotOf_block hg hbm]
    by_cases e : c = b
    · rw [e, update_self]
      unfold Block.enc
      rw [hf]
      rfl
    · rw [update_of_ne fun he => e (hn.slot_inj (floorOrder_ge _).1 (hn.sub c hc) hbm he)]
      exact h.entry c (((hact c).mp hc).resolve_left e)
  · intro k
    show update a.freeLists b.order (a.mem + b.off) k = _
    by_cases e : k = b.order
    · rw [e, update_self, update_self]
      rfl
    · rw [update_of_ne e, update_of_ne e]
      exact h.head k
  · intro k
    by_cases e : k = b.order
    · rw [e, update_self]
      exact hchain
    · rw [update_of_ne e]
      refine h.chain_same hsame haddr fun n hm hm' => ?_
      obtain ⟨y, hy, rfl⟩ := List.mem_map.mp hm
      rcases List.mem_cons.mp hm' with e' | hm'
      · exact hbl k (Nat.add_left_cancel e' ▸ hy)
      · exact h.sys.lists_disjoint e hy (mem_nodesOf.mp hm')
  · intro c hc hu
    have hcb : c ≠ b := by
      rintro rfl
      rw [hf] at hu
      exact absurd hu (by simp)
    exact h.tags_same hused (((hact c).mp hc).resolve_left hcb) hu

/-! ## unlink and pop -/

/-- what `bd_unlink` writes, by the neighbours of the node -/
theorem bdUnlink_eq {n : Nat} (r₁ r₂ : List Nat) (hl : ∀ x ∈ r₁ ++ n :: r₂, NodeAddr x)
    (hd : (r₁ ++ n :: r₂).Nodup)
    (hc : Chain 0 (nodeNext a.heap) (nodePrev a.heap) 0 (r₁ ++ n :: r₂)) :
    bdUnlink a n k = { a with
      heap := relink a.heap r₁ r₂
      freeLists := if r₁ = [] then update a.freeLists k (r₂.headD 0) else a.freeLists } := by
  obtain ⟨-, hpv, hnx, -⟩ := chain_append.mp hc
  have hna := hl n (by simp)
  unfold bdUnlink relink
  dsimp only
  rw [hpv, hnx]
  rcases List.eq_nil_or_concat' r₁ with rfl | ⟨r, z, rfl⟩
  · rw [if_neg (show ¬ [].getLastD 0 ≠ 0 from fun hc => hc rfl), if_pos rfl]
    dsimp only
    rw [hnx]
    cases r₂ with
    | nil => rfl
    | cons c r =>
      have := (hl c (by simp)).2.1
      rw [if_pos (show List.headD (c :: r) 0 ≠ 0 by show c ≠ 0; omega), hpv]
      rfl
  · have hza := hl z (by simp)
    have hzn : n ≠ z := by
      rintro rfl
      have h1 := List.nodup_middle.mp hd
      exact (List.nodup_cons.mp h1).1 (by simp)
    have hlt : r₂.headD 0 < 2 ^ 64 := hnx ▸ Mem.load64_lt _ _
    have hz0 := hza.2.1
    have hne : (r ++ [z]) ≠ [] := by simp
    rw [List.getLastD_concat, if_pos (by omega : z ≠ 0), if_neg hne]
    dsimp only
    rw [nodeNext_setNext hza.1 hna.1 hlt, update_of_ne hzn, hnx, nodePrev_setNext hza.1 hna.1, hpv,
      List.getLastD_concat, List.getLast?_concat]
    cases r₂ with
    | nil => rfl
    | cons c r =>
      have := (hl c (by simp)).2.1
      rw [if_pos (show List.headD (c :: r) 0 ≠ 0 by show c ≠ 0; omega)]
      rfl

/-- popping is unlinking the head -/
theorem bdPop_eq {n : Nat} {r : List Nat} (hl : ∀ x ∈ n :: r, NodeAddr x) (hd : (n :: r).Nodup)
    (hc : Chain 0 (nodeNext a.heap) (nodePrev a.heap) 0 (n :: r)) (hh : a.freeLists k = n) :
    bdPop a k = (n, bdUnlink a n k) := by
  rw [bdUnlink_eq [] r hl hd hc]
  obtain ⟨-, hnx, -⟩ := hc
  unfold bdPop relink
  dsimp only
  rw [hh, hnx]
  cases r with
  | nil => rfl
  | cons c r =>
    have := (hl c (by simp)).2.1
    rw [if_pos (show List.headD (c :: r) 0 ≠ 0 by show c ≠ 0; omega)]
    rfl

/-- **A free block is unlinked.** -/
theorem CInv.unlink (h : CInv a bs (l₁ ++ c :: l₂) lists) (hf : c.used = false)
    (hout : c ∉ l₁ ++ l₂) :
    CInv (bdUnlink a (a.mem + c.off) c.order) bs (l₁ ++ l₂)
        (update lists c.order ((lists c.order).erase c.off))
      ∧ Mem.SameOn (UsedBytes a.mem (l₁ ++ c :: l₂)) a.heap
          (bdUnlink a (a.mem + c.off) c.order).heap := by
  have hg := h.geo
  have hca : c ∈ l₁ ++ c :: l₂ := by simp
  have hcl : c.off ∈ lists c.order := (h.sys.mem _ _).mpr ⟨c, hca, hf, rfl, rfl⟩
  obtain ⟨r₁, r₂, hr⟩ := List.append_of_mem hcl
  have hnd := h.sys.nodup c.order
  have her : (lists c.order).erase c.off = r₁ ++ r₂ := by
    rw [hr] at hnd ⊢
    have h1 := List.nodup_cons.mp (List.nodup_middle.mp hnd)
    have h2 : c.off ∉ r₁ := fun hm => h1.1 (List.mem_append_left _ hm)
    rw [List.erase_append_right _ h2, List.erase_cons_head]
  have hN : nodesOf a.mem (lists c.order) = nodesOf a.mem r₁
      ++ (a.mem + c.off) :: nodesOf a.mem r₂ := by
    rw [hr]
    unfold nodesOf
    rw [List.map_append, List.map_cons]
  have hchain := h.chain c.order
  have haddr : ∀ x ∈ nodesOf a.mem r₁ ++ (a.mem + c.off) :: nodesOf a.mem r₂, NodeAddr x := by
    intro x hx
    rw [← hN] at hx
    exact h.sys.nodes_addr hg hx
  have hND : (nodesOf a.mem r₁ ++ (a.mem + c.off) :: nodesOf a.mem r₂).Nodup :=
    hN ▸ nodesOf_nodup hnd
  rw [hN] at hchain
  have hsub : ∀ x ∈ nodesOf a.mem r₁ ++ nodesOf a.mem r₂,
      x ∈ nodesOf a.mem r₁ ++ (a.mem + c.off) :: nodesOf a.mem r₂ := fun x hx =>
    List.mem_append.mpr ((List.mem_append.mp hx).imp_right (List.mem_cons_of_mem _))
  have hdel := List.nodup_cons.mp (List.nodup_middle.mp hND)
  obtain ⟨hch, hsame⟩ := relink_spec (fun x hx => haddr x (hsub x hx)) hdel.2 hchain
  have hused : Mem.SameOn (UsedBytes a.mem (l₁ ++ c :: l₂)) a.heap
      (relink a.heap (nodesOf a.mem r₁) (nodesOf a.mem r₂)) := by
    refine h.sys.frame hg hsame fun n hm => ?_
    have hm' := hsub n hm
    rw [← hN] at hm'
    obtain ⟨y, hy, rfl⟩ := List.mem_map.mp hm'
    obtain ⟨e, he, hef, -, rfl⟩ := (h.sys.mem _ y).mp hy
    exact ⟨e, h.sys.sub e he, rfl, fun _ => hef⟩
  rw [bdUnlink_eq _ _ haddr hND hchain]
  refine ⟨CInv.of (a := a) rfl rfl rfl rfl hg (h.sys.unlink hf hout)
    (fun e he => h.entry e (mem_middle_of_mem he)) ?_ ?_ fun e he hu => ?_, hused⟩
  · intro k
    show (if nodesOf a.mem r₁ = [] then update a.freeLists c.order ((nodesOf a.mem r₂).headD 0)
      else a.freeLists) k = (nodesOf a.mem (update lists c.order _ k)).headD 0
    rw [her]
    by_cases e : k = c.order
    · rw [e, update_self]
      cases r₁ with
      | nil =>
        rw [if_pos (show nodesOf a.mem [] = [] from rfl), update_self]
        rfl
      | cons z r =>
        rw [if_neg (by simp [nodesOf]), h.head c.order, hr]
        rfl
    · rw [update_of_ne e]
      have : (if nodesOf a.mem r₁ = [] then update a.freeLists c.order ((nodesOf a.mem r₂).headD 0)
          else a.freeLists) k = a.freeLists k := by
        split
        · rw [update_of_ne e]
        · rfl
      rw [this]
      exact h.head k
  · intro k
    by_cases e : k = c.order
    · rw [e, update_self, her]
      show Chain 0 _ _ 0 (nodesOf a.mem (r₁ ++ r₂))
      unfold nodesOf
      rw [List.map_append]
      exact hch
    · rw [update_of_ne e]
      refine h.chain_same hsame (fun n hm => (haddr n (hsub n hm)).1) fun n hm hm' => ?_
      obtain ⟨y, hy, rfl⟩ := List.mem_map.mp hm
      have h1 := hsub _ hm'
      rw [← hN] at h1
      exact h.sys.lists_disjoint e hy (mem_nodesOf.mp h1)
  · exact h.tags_same hused (mem_middle_of_mem he) hu

/-! ## taking a block -/

/-- `a'` has the geometry and the counters of `a` -/
structure Kept (a a' : BdAlloc) : Prop where
  mem : a'.mem = a.mem
  capacity : a'.capacity = a.capacity
  minOrder : a'.minOrder = a.minOrder
  maxOrder : a'.maxOrder = a.maxOrder
  stats : a'.stats = a.stats

theorem Kept.trans {a' a'' : BdAlloc} (h : Kept a a') (h' : Kept a' a'') : Kept a a'' :=
  ⟨h'.mem.trans h.mem, h'.capacity.trans h.capacity, h'.minOrder.trans h.minOrder,
    h'.maxOrder.trans h.maxOrder, h'.stats.trans h.stats⟩

theorem bdPush_kept (n : Nat) : Kept a (bdPush a n k) := ⟨rfl, rfl, rfl, rfl, rfl⟩

theorem bdUnlink_kept (n : Nat) : Kept a (bdUnlink a n k) := by
  unfold bdUnlink
  dsimp only
  split <;> split <;> exact ⟨rfl, rfl, rfl, rfl, rfl⟩

theorem UsedBytes.mono {mem : Nat} (h : ∀ c ∈ act, c ∈ act') (hx : UsedBytes mem act x) :
    UsedBytes mem act' x := by
  obtain ⟨u, hu, hrest⟩ := hx
  exact ⟨u, h u hu, hrest⟩

/-- **The loop of splits** leaves the block in hand at the order wanted and one upper half in each
list on the way. -/
theorem CInv.splitLoop {u : Bool} {hx : 2 ^ (k + d) ∣ x}
    (h : CInv a (l₁ ++ ⟨x, k + d, u, hx⟩ :: l₂) (l₁ ++ l₂) lists) (hk : floorOrder a.minOrder ≤ k) :
    CInv (splitLoop (a.mem + x) k d a)
        (l₁ ++ ⟨x, k, u, (pow_dvd_pow 2 (Nat.le_add_right k d)).trans hx⟩ :: splitBlocks x
          k d hx l₂)
        (l₁ ++ splitBlocks x k d hx l₂) (splitLists x k d lists)
      ∧ Mem.SameOn (UsedBytes a.mem (l₁ ++ l₂)) a.heap (splitLoop (a.mem + x) k d a).heap
      ∧ Kept a (splitLoop (a.mem + x) k d a) := by
  induction d generalizing a l₂ lists with
  | zero => exact ⟨h, Mem.SameOn.refl, ⟨rfl, rfl, rfl, rfl, rfl⟩⟩
  | succ d ih =>
    have hbm : (⟨x, k + (d + 1), u, hx⟩ : Block) ∈ l₁ ++ ⟨x, k + (d + 1), u, hx⟩ :: l₂ := by simp
    have hplace := h.sys.place (floorOrder_ge _).2 hbm
    have hsize : x + 2 ^ (k + d) ≤ 2 ^ a.maxOrder := by
      have h1 : x + 2 ^ (k + (d + 1)) ≤ 2 ^ a.maxOrder := hplace.2.2
      have h2 : 2 ^ (k + (d + 1)) = 2 ^ (k + d) + 2 ^ (k + d) := by
        rw [← Nat.add_assoc, pow_succ]; omega
      omega
    have hbound := h.geo.bound
    have haddr : wadd (a.mem + x) (2 ^ (k + d)) = a.mem + (upperBlock x (k + d) hx).off := by
      rw [wadd_of_lt (by omega), Nat.add_assoc]
      rfl
    have hs : BInv (floorOrder a.minOrder) a.maxOrder
        (l₁ ++ ⟨x, k + d, u, dvd_of_dvd_succ hx⟩ :: upperBlock x (k + d) hx :: l₂)
        (l₁ ++ upperBlock x (k + d) hx :: l₂)
        (update lists (k + d) ((x + 2 ^ (k + d)) :: lists (k + d))) :=
      BInv.split h.sys h.geo.max_lt (by omega)
    obtain ⟨hp, hf⟩ := h.push (b := upperBlock x (k + d) hx) hs rfl
      (fun c => mem_middle_iff) (upperBlock_notMem h.sys)
    obtain ⟨i1, i2, i3⟩ := ih hp hk
    have hkept := bdPush_kept (a := a) (k := k + d) (a.mem + (upperBlock x (k + d) hx).off)
    rw [show HeapForge.Buddy.splitLoop (a.mem + x) k (d + 1) a
      = HeapForge.Buddy.splitLoop (a.mem + x) k d
          (bdPush a (wadd (a.mem + x) (2 ^ (k + d))) (k + d)) from rfl, haddr]
    refine ⟨i1, ?_, hkept.trans i3⟩
    exact hf.trans (i2.mono fun y hy => hy.mono fun c hc => mem_middle_of_mem hc)

/-- **The block in hand is marked used and gets its tag.** -/
theorem CInv.mark (a' : BdAlloc) (h : CInv a (l₁ ++ b :: l₂) (l₁ ++ l₂) lists) (hu : b.used = true)
    (hmem : a'.mem = a.mem) (hcap : a'.capacity = a.capacity) (hmin : a'.minOrder = a.minOrder)
    (hmax : a'.maxOrder = a.maxOrder) (hlists : a'.freeLists = a.freeLists)
    (hmap : a'.orderMap = update a.orderMap (slotOf a (a.mem + b.off)) (encUsed b.order))
    (hheap : a'.heap = a.heap.store64 (a.mem + b.off) b.order) :
    CInv a' (l₁ ++ b :: l₂) (l₁ ++ b :: l₂) lists
      ∧ Mem.SameOn (UsedBytes a.mem (l₁ ++ l₂)) a.heap a'.heap := by
  have hbm : b ∈ l₁ ++ b :: l₂ := by simp
  have hg := h.geo
  have hna := h.sys.node_addr hg hbm
  have hsame : Mem.SameOn (Outside [a.mem + b.off]) a.heap a'.heap := by
    rw [hheap]
    exact sameOn_setNext (by simp)
  have hused : Mem.SameOn (UsedBytes a.mem (l₁ ++ l₂)) a.heap a'.heap := by
    refine h.sys.frame hg hsame fun n hn => ⟨b, hbm, List.mem_singleton.mp hn, fun hb => ?_⟩
    exact absurd rfl (h.sys.ne_middle hb)
  refine ⟨CInv.of hmem hcap hmin hmax hg (h.sys.put_used hu) ?_ ?_ ?_ ?_, hused⟩
  · intro c hc
    rw [hmap, h.sys.slotOf_block hg hbm]
    rcases mem_middle_iff.mp hc with rfl | hc'
    · rw [update_self]
      unfold Block.enc
      rw [hu]
      rfl
    · rw [update_of_ne fun he => h.sys.ne_middle hc' (h.sys.slot_inj (floorOrder_ge _).1 hc hbm he)]
      exact h.entry c hc'
  · intro k
    rw [hlists]
    exact h.head k
  · intro k
    refine h.chain_same hsame (fun n hn => List.mem_singleton.mp hn ▸ hna.1) fun n hn hn' => ?_
    rw [List.mem_singleton.mp hn'] at hn
    obtain ⟨c, hc, -, -, hco⟩ := (h.sys.mem k b.off).mp (mem_nodesOf.mp hn)
    exact h.sys.ne_middle hc (h.sys.off_inj (mem_middle_of_mem hc) hbm hco)
  · intro c hc hcu
    rcases mem_middle_iff.mp hc with rfl | hc'
    · rw [hheap]
      have h1 := (h.sys.orders c hbm).2
      have h2 := hg.max_lt
      exact Mem.load64_store64_same (by omega)
    · exact h.tags_same hused hc' hcu

/-- **Carving a block** out of the first block of the list of order `k + d`. -/
theorem bdCarve_spec {hx : 2 ^ (k + d) ∣ x} {t : List Nat}
    (h : CInv a (l₁ ++ ⟨x, k + d, false, hx⟩ :: l₂) (l₁ ++ ⟨x, k + d, false, hx⟩ :: l₂) lists)
    (hl : lists (k + d) = x :: t) (hk : floorOrder a.minOrder ≤ k) :
    ∃ a', bdCarve a k (k + d) = (a.mem + x + 16, a')
      ∧ CInv a'
        (l₁ ++ ⟨x, k, true, (pow_dvd_pow 2 (Nat.le_add_right k d)).trans hx⟩ :: splitBlocks x
          k d hx l₂)
        (l₁ ++ ⟨x, k, true, (pow_dvd_pow 2 (Nat.le_add_right k d)).trans hx⟩ :: splitBlocks x
          k d hx l₂)
        (splitLists x k d (update lists (k + d) t))
      ∧ Mem.SameOn (UsedBytes a.mem (l₁ ++ ⟨x, k + d, false, hx⟩ :: l₂)) a.heap a'.heap
      ∧ Kept { a with stats := (chargeUsed a (2 ^ k)).stats } a' := by
  have hbm : (⟨x, k + d, false, hx⟩ : Block) ∈ l₁ ++ ⟨x, k + d, false, hx⟩ :: l₂ := by simp
  have hg := h.geo
  -- the head of the list is the block that was asked for
  have hpop : bdPop a (k + d) = (a.mem + x, bdUnlink a (a.mem + x) (k + d)) := by
    have hN : nodesOf a.mem (lists (k + d)) = (a.mem + x) :: nodesOf a.mem t := by rw [hl]; rfl
    refine bdPop_eq (r := nodesOf a.mem t) ?_ ?_ ?_ ?_
    · intro y hy
      rw [← hN] at hy
      exact h.sys.nodes_addr hg hy
    · rw [← hN]
      exact nodesOf_nodup (h.sys.nodup _)
    · rw [← hN]
      exact h.chain _
    · rw [h.head, hN]
      rfl
  have hout : (⟨x, k + d, false, hx⟩ : Block) ∉ l₁ ++ l₂ := fun hm => h.sys.ne_middle hm rfl
  obtain ⟨hu, hsu⟩ := h.unlink rfl hout
  have her : update lists (k + d) ((lists (k + d)).erase x) = update lists (k + d) t := by
    rw [hl, List.erase_cons_head]
  have hu' : CInv (bdUnlink a (a.mem + x) (k + d)) (l₁ ++ ⟨x, k + d, false, hx⟩ :: l₂) (l₁ ++ l₂)
      (update lists (k + d) t) := her ▸ hu
  have hsu' : Mem.SameOn (UsedBytes a.mem (l₁ ++ ⟨x, k + d, false, hx⟩ :: l₂)) a.heap
    (bdUnlink a (a.mem + x) (k + d)).heap := hsu
  have hkept := bdUnlink_kept (a := a) (k := k + d) (a.mem + x)
  unfold bdCarve
  rw [hpop, Nat.add_sub_cancel_left]
  dsimp only
  generalize bdUnlink a (a.mem + x) (k + d) = a₁ at hu' hsu' hkept
  obtain ⟨hs, hss, hsk⟩ := hu'.splitLoop (by rw [hkept.minOrder]; exact hk)
  rw [hkept.mem] at hs hss hsk
  generalize splitLoop (a.mem + x) k d a₁ = a₂ at hs hss hsk
  have hk2 := hkept.trans hsk
  -- from here on the block in hand counts as used
  have hr :=
    hs.resys (hs.sys.rehand (c := ⟨x, k, true, (pow_dvd_pow 2 (Nat.le_add_right k d)).trans hx⟩)
    rfl rfl)
  have haddr : a₂.mem + x = a.mem + x := by rw [hk2.mem]
  have hoff : (⟨x, k, true, (pow_dvd_pow 2 (Nat.le_add_right k d)).trans hx⟩ : Block).off = x := rfl
  have hbound := hg.bound
  have hp := h.sys.place (floorOrder_ge _).2 hbm
  have hp2 : x + (⟨x, k + d, false, hx⟩ : Block).size ≤ 2 ^ a.maxOrder := hp.2.2
  obtain ⟨hm, hsm⟩ := hr.mark { chargeUsed (bdMarkUsed a₂ (a.mem + x) k) (2 ^ k) with
    heap := (chargeUsed (bdMarkUsed a₂ (a.mem + x) k) (2 ^ k)).heap.store64 (a.mem + x) k }
    rfl rfl rfl rfl rfl rfl
    (by rw [hoff, haddr]; rfl) (by rw [hoff, haddr]; rfl)
  refine ⟨_, ?_, hm, ?_, ?_⟩
  · rw [wadd_of_lt (show a.mem + x + BD_HDR < 2 ^ 64 by unfold BD_HDR; omega)]
    rfl
  · have hfil : ∀ c : Block, c.used = true → c ∈ l₁ ++ ⟨x, k + d, false, hx⟩ :: l₂ →
        c ∈ l₁ ++ l₂ := by
      intro c hc hm
      refine mem_of_mem_middle hm ?_
      rintro rfl
      exact absurd hc (by simp)
    have h1 : Mem.SameOn (UsedBytes a.mem (l₁ ++ ⟨x, k + d, false, hx⟩ :: l₂)) a₁.heap a₂.heap :=
      hss.mono fun y hy => by
        obtain ⟨u, hu, huu, hyy⟩ := hy
        exact ⟨u, hfil u huu hu, huu, hyy⟩
    refine (hsu'.trans h1).trans (hsm.mono fun y hy => ?_)
    obtain ⟨u, hu, huu, hyy⟩ := hy
    rw [hk2.mem]
    refine ⟨u, ?_, huu, hyy⟩
    have h2 : u ∈ (l₁ ++ splitBlocks x k d hx l₂).filter Block.used := by
      rw [splitBlocks_middle_used]
      exact List.mem_filter.mpr ⟨hfil u huu hu, huu⟩
    exact (List.mem_filter.mp h2).1
  · refine ⟨hk2.mem, hk2.capacity, hk2.minOrder, hk2.maxOrder, ?_⟩
    show (chargeUsed (bdMarkUsed a₂ (a.mem + x) k) (2 ^ k)).stats = (chargeUsed a (2 ^ k)).stats
    unfold chargeUsed bdMarkUsed
    dsimp only
    rw [hk2.stats]

/-! ## giving a block back -/

/-- **The map is asked about a block.**  Below the top order the buddy's slot is the first slot
of a block other than the one in hand, so its entry is current. -/
theorem CInv.buddy_entry {s : Mid} (h : CInv a s.blocks s.rest s.lists)
    (hlt : s.hand.order < a.maxOrder) :
    ∃ c ∈ s.rest, c.off = buddy s.hand.off s.hand.order
      ∧ wadd a.mem (buddy s.hand.off s.hand.order) = a.mem + c.off
      ∧ a.orderMap (slotOf a (a.mem + c.off)) = c.enc := by
  have hbm : s.hand ∈ s.blocks := by unfold Mid.blocks; simp
  obtain ⟨c, hc, hoff, hord, hne⟩ := buddy_is_block h.sys h.geo.max_lt hbm hlt
  have hca : c ∈ s.rest := mem_of_mem_middle hc hne
  have hna := h.sys.node_addr h.geo hc
  refine ⟨c, hca, hoff, ?_, ?_⟩
  · rw [← hoff, wadd_of_lt hna.2.2]
  · rw [h.sys.slotOf_block h.geo hc]
    exact h.entry c hca

theorem bdIsFreeAt_enc {p : Nat} (hc : a.orderMap (slotOf a p) = c.enc) (ho : c.order < 64) :
    bdIsFreeAt a p k = true ↔ c.used = false ∧ c.order = k := by
  obtain ⟨h1, h2, h3⟩ := c.enc_decode ho
  unfold bdIsFreeAt
  dsimp only
  rw [hc, h1]
  simp [h2, h3]

theorem bdIsFreeAt_iff {s : Mid} (h : CInv a s.blocks s.rest s.lists)
    (hlt : s.hand.order < a.maxOrder) :
    bdIsFreeAt a (wadd a.mem (buddy s.hand.off s.hand.order)) s.hand.order = true
      ↔ s.buddyFree a.maxOrder := by
  obtain ⟨c, hc, hoff, haddr, hent⟩ := h.buddy_entry hlt
  have hcb := h.sys.sub c hc
  have ho := (h.sys.orders c hcb).2
  have hmx := h.geo.max_lt
  rw [haddr, bdIsFreeAt_enc hent (by omega)]
  constructor
  · rintro ⟨hf, hco⟩
    exact ⟨hlt, (h.sys.mem _ _).mpr ⟨c, hc, hf, hco, hoff⟩⟩
  · rintro ⟨-, hm⟩
    obtain ⟨e, he, hef, heo, heoff⟩ := (h.sys.mem _ _).mp hm
    have hec : e = c := h.sys.off_inj (h.sys.sub e he) hcb (by omega)
    exact ⟨hec ▸ hef, hec ▸ heo⟩

/-- one round of the loop -/
theorem CInv.mergeStep {s : Mid} (h : CInv a s.blocks s.rest s.lists)
    (hb : s.buddyFree a.maxOrder) :
    CInv (bdUnlink a (wadd a.mem (buddy s.hand.off s.hand.order)) s.hand.order)
        s.mergeStep.blocks s.mergeStep.rest s.mergeStep.lists
      ∧ Mem.SameOn (UsedBytes a.mem s.rest) a.heap
        (bdUnlink a (wadd a.mem (buddy s.hand.off s.hand.order)) s.hand.order).heap
      ∧ s.mergeStep.hand.off = parent s.hand.off s.hand.order
      ∧ s.mergeStep.rest.filter Block.used = s.rest.filter Block.used := by
  have hmx := h.geo.max_lt
  have hbm : s.hand ∈ s.blocks := by unfold Mid.blocks; simp
  have hlt := hb.1
  obtain ⟨hbinv, hfil⟩ := h.sys.mergeStep hmx hb
  obtain ⟨c, r₁, r₂, hcf, hco, hcoff, hrest, hrest', hout⟩ := h.sys.mergeStep_rest hmx hb
  have hcb : c ∈ s.blocks := h.sys.sub c (by rw [hrest]; simp)
  have haddr : wadd a.mem (buddy s.hand.off s.hand.order) = a.mem + c.off := by
    rw [← hcoff, wadd_of_lt (h.sys.node_addr h.geo hcb).2.2]
  have h1 := h
  rw [hrest] at h1
  obtain ⟨hu, hs⟩ := h1.unlink hcf hout
  rw [hco, ← haddr] at hu hs
  rw [hcoff, ← hrest'] at hu
  rw [← hrest] at hs
  have hkept := bdUnlink_kept (a := a) (k := s.hand.order)
    (wadd a.mem (buddy s.hand.off s.hand.order))
  refine ⟨hu.resys ?_, hs, s.hand.joined_parent (by omega) (h.sys.off_lt hmx hbm), hfil⟩
  rw [hkept.minOrder, hkept.maxOrder]
  exact hbinv

/-- **The loop of merges** follows the system. -/
theorem mergeLoop_spec {s : Mid} (h : CInv a s.blocks s.rest s.lists) (fuel : Nat) :
    ∃ a', mergeLoop fuel a s.hand.off s.hand.order
        = (a', (s.mergeUp a.maxOrder fuel).hand.off, (s.mergeUp a.maxOrder fuel).hand.order)
      ∧ CInv a' (s.mergeUp a.maxOrder fuel).blocks (s.mergeUp a.maxOrder fuel).rest
        (s.mergeUp a.maxOrder fuel).lists
      ∧ Mem.SameOn (UsedBytes a.mem s.rest) a.heap a'.heap ∧ Kept a a'
      ∧ (s.mergeUp a.maxOrder fuel).rest.filter Block.used = s.rest.filter Block.used := by
  induction fuel generalizing a s with
  | zero => exact ⟨a, rfl, h, Mem.SameOn.refl, ⟨rfl, rfl, rfl, rfl, rfl⟩, rfl⟩
  | succ fuel ih =>
    unfold mergeLoop Mid.mergeUp
    dsimp only
    by_cases hlt : s.hand.order < a.maxOrder
    · rw [if_pos hlt]
      by_cases hb : s.buddyFree a.maxOrder
      · rw [if_pos ((bdIsFreeAt_iff h hlt).mpr hb), if_pos hb]
        obtain ⟨hm, hs, hoff, hfil⟩ := h.mergeStep hb
        have hkept := bdUnlink_kept (a := a) (k := s.hand.order)
          (wadd a.mem (buddy s.hand.off s.hand.order))
        generalize bdUnlink a (wadd a.mem (buddy s.hand.off s.hand.order)) s.hand.order = a₁
          at hm hs hkept
        obtain ⟨a', e, hinv, hs', hkept', hfil'⟩ := ih hm
        rw [hkept.maxOrder] at e hinv hfil'
        rw [hoff] at e
        refine ⟨a', e, hinv, hs.trans (hs'.mono ?_), hkept.trans hkept', hfil'.trans hfil⟩
        rintro y ⟨u, hu, huu, hy⟩
        have hu' : u ∈ s.mergeStep.rest.filter Block.used := by
          rw [hfil]
          exact List.mem_filter.mpr ⟨hu, huu⟩
        rw [hkept.mem]
        exact ⟨u, (List.mem_filter.mp hu').1, huu, hy⟩
      · rw [if_neg (fun e => hb ((bdIsFreeAt_iff h hlt).mp e)), if_neg hb]
        exact ⟨a, rfl, h, Mem.SameOn.refl, ⟨rfl, rfl, rfl, rfl, rfl⟩, rfl⟩
    · rw [if_neg hlt, if_neg (fun hb => hlt hb.1)]
      exact ⟨a, rfl, h, Mem.SameOn.refl, ⟨rfl, rfl, rfl, rfl, rfl⟩, rfl⟩

/-- each call of `bd_is_free_at` reads the current entry of a block that was there from the
beginning and has not been taken in -/
theorem mergeQueries_spec {s : Mid} (h : CInv a s.blocks s.rest s.lists) (fuel : Nat)
    (q : Query) (hq : q ∈ mergeQueries fuel a s.hand.off s.hand.order) :
    ∃ c ∈ s.rest, q.node = a.mem + c.off ∧ q.a.orderMap (slotOf q.a q.node) = c.enc
      ∧ (c.off + c.size ≤ q.off ∨ q.off + 2 ^ q.order ≤ c.off) := by
  induction fuel generalizing a s with
  | zero => exact absurd hq (by simp [mergeQueries])
  | succ fuel ih =>
    unfold mergeQueries at hq
    dsimp only at hq
    by_cases hlt : s.hand.order < a.maxOrder
    · rw [if_pos hlt] at hq
      rcases List.mem_cons.mp hq with rfl | hq
      · obtain ⟨c, hc, -, haddr, hent⟩ := h.buddy_entry hlt
        dsimp only
        rw [haddr]
        have hbm : s.hand ∈ s.blocks := by unfold Mid.blocks; simp
        exact ⟨c, hc, rfl, hent, h.sys.apart (h.sys.sub c hc) hbm (h.sys.ne_middle hc)⟩
      · by_cases hb : s.buddyFree a.maxOrder
        · rw [if_pos ((bdIsFreeAt_iff h hlt).mpr hb)] at hq
          obtain ⟨hm, -, hoff, -⟩ := h.mergeStep hb
          have hkept := bdUnlink_kept (a := a) (k := s.hand.order)
            (wadd a.mem (buddy s.hand.off s.hand.order))
          generalize bdUnlink a (wadd a.mem (buddy s.hand.off s.hand.order)) s.hand.order = a₁
            at hm hkept hq
          rw [← hoff] at hq
          obtain ⟨c, hc, hrest⟩ := ih hm hq
          rw [hkept.mem] at hrest
          obtain ⟨d, r₁, r₂, -, -, -, hr, hr', -⟩ := h.sys.mergeStep_rest h.geo.max_lt hb
          rw [hr'] at hc
          exact ⟨c, hr ▸ mem_middle_of_mem hc, hrest⟩
        · rw [if_neg (fun e => hb ((bdIsFreeAt_iff h hlt).mp e))] at hq
          exact absurd hq (by simp)
    · rw [if_neg hlt] at hq
      exact absurd hq (by simp)

/-- the tag of a used block, as `bd_deallocate` reads it -/
theorem CInv.tagOf_eq (h : CInv a bs bs lists) (hb : b ∈ bs) (hu : b.used = true) :
    tagOf a (a.mem + b.off) = b.order := by
  have h1 := (h.sys.orders b hb).2
  have h2 := h.geo.max_lt
  unfold tagOf
  rw [h.tags b hb hu]
  exact Nat.mod_eq_of_lt (by omega)

theorem CInv.ptr_eq (h : CInv a bs act lists) (hb : b ∈ bs) :
    a.mem + b.off + 16 ≠ 0 ∧ wsub (a.mem + b.off + 16) BD_HDR = a.mem + b.off
      ∧ wsub (a.mem + b.off) a.mem = b.off := by
  have h1 := h.sys.place (floorOrder_ge _).2 hb
  have h2 := h.geo.bound
  refine ⟨by omega, ?_, ?_⟩
  · rw [wsub_of_le (by unfold BD_HDR; omega) (by omega)]
    unfold BD_HDR
    omega
  · rw [wsub_of_le (by omega) (by omega)]
    omega

/-- the state in which the loop of merges starts: the block is in hand -/
theorem CInv.hold (h : CInv a (l₁ ++ b :: l₂) (l₁ ++ b :: l₂) lists) (hu : b.used = true)
    (n : Nat) :
    CInv (releaseUsed a n) (Mid.mk l₁ b.freed l₂ lists).blocks (Mid.mk l₁ b.freed l₂ lists).rest
      (Mid.mk l₁ b.freed l₂ lists).lists := by
  have h1 : BInv (floorOrder a.minOrder) a.maxOrder (l₁ ++ b.freed :: l₂) (l₁ ++ l₂) lists :=
    (h.sys.take hu).rehand rfl rfl
  exact CInv.of (a := a) rfl rfl rfl rfl h.geo h1 (fun c hc => h.entry c (mem_middle_of_mem hc))
    h.head h.chain (fun c hc => h.tags c (mem_middle_of_mem hc))

/-- **A used block is given back.** -/
theorem bdDeallocate_spec (h : CInv a (l₁ ++ b :: l₂) (l₁ ++ b :: l₂) lists) (hu : b.used = true) :
    ∃ a', bdDeallocate a (a.mem + b.off + 16) = some a'
      ∧ CInv a' (releaseMid a.maxOrder l₁ b l₂ lists).blocks
        (releaseMid a.maxOrder l₁ b l₂ lists).blocks (releaseMid a.maxOrder l₁ b l₂ lists).put
      ∧ Mem.SameOn (UsedBytes a.mem (l₁ ++ l₂)) a.heap a'.heap
      ∧ Kept (releaseUsed a b.size) a'
      ∧ (releaseMid a.maxOrder l₁ b l₂ lists).rest.filter Block.used
        = (l₁ ++ l₂).filter Block.used := by
  have hbm : b ∈ l₁ ++ b :: l₂ := by simp
  obtain ⟨hp0, hp1, hp2⟩ := h.ptr_eq hbm
  obtain ⟨a₁, e, hinv, hs, hkept, hfil⟩ := mergeLoop_spec (h.hold hu b.size) (a.maxOrder - b.order)
  have hmid : Mid.mergeUp a.maxOrder (a.maxOrder - b.order) ⟨l₁, b.freed, l₂, lists⟩
    = releaseMid a.maxOrder l₁ b l₂ lists := rfl
  rw [show (releaseUsed a b.size).maxOrder = a.maxOrder from rfl, hmid] at e hinv hfil
  have hm : a₁.mem = a.mem := hkept.mem
  have hmx : a₁.maxOrder = a.maxOrder := hkept.maxOrder
  generalize hR : releaseMid a.maxOrder l₁ b l₂ lists = R at e hinv hfil
  have hRu : R.hand.used = false := hR ▸ releaseMid_used
  have hRd : ¬ R.buddyFree a₁.maxOrder := by
    rw [hmx]
    exact hR ▸ releaseMid_done
  have hRm : R.hand ∈ R.blocks := by unfold Mid.blocks; simp
  have hput := hinv.sys.put_merged hRu hRd
  obtain ⟨hp, hps⟩ := hinv.push hput hRu
    (fun c => mem_middle_iff)
    (fun hm => hinv.sys.ne_middle hm rfl)
  have haddr : wadd a.mem R.hand.off = a₁.mem + R.hand.off := by
    rw [← hm, wadd_of_lt (hinv.sys.node_addr hinv.geo hRm).2.2]
  have hdone : bdDeallocate a (a.mem + b.off + 16)
      = some (bdPush a₁ (a₁.mem + R.hand.off) R.hand.order) := by
    unfold bdDeallocate
    dsimp only
    have e' : mergeLoop (a.maxOrder - b.order) (releaseUsed a (2 ^ b.order)) b.off b.order
      = (a₁, R.hand.off, R.hand.order) := e
    rw [if_neg hp0, hp1, h.tagOf_eq hbm hu, hp2,
      if_pos ⟨(floorOrder_ge _).1.trans (h.sys.orders b hbm).1, (h.sys.orders b hbm).2⟩, e']
    dsimp only
    rw [haddr]
  refine ⟨_, hdone, hp, hs.trans ?_, hkept.trans (bdPush_kept _), hfil⟩
  refine hps.mono ?_
  rintro y ⟨u, hu', huu, hy⟩
  rw [hm]
  refine ⟨u, ?_, huu, hy⟩
  have h3 : u ∈ R.rest.filter Block.used := by
    rw [hfil]
    exact List.mem_filter.mpr ⟨hu', huu⟩
  exact (List.mem_filter.mp h3).1

end

end HeapForge.Buddy
