import HeapForge.Buddy.Run

/-!
# The C buddy allocator in the words of its source

* `bdWalk_eq`               `bd_walk` reports the blocks of the system;
* `create_inv`              a fresh allocator is one free block;
* `BdRepInv`                the representation invariant: what the walk, the map, the lists, the
                            tags and the counters say;
* `buddy_representation`    it holds in every state of every run, and each call of
                            `bd_is_free_at` reads the entry of a block;
* `allocate_exact`          a request fails exactly if no aligned range is free, and otherwise
                            splits a block of the least order that will do.
-/

set_option linter.unusedSectionVars false
set_option linter.unusedVariables false

namespace HeapForge.Buddy
open Lib Function

/-! ## walking -/

/-- a block as `bd_walk` reports it -/
def Block.info (b : Block) : BlockInfo := ⟨b.off, b.size, !b.used⟩

section
variable {a : BdAlloc} {bs l₁ l₂ : List Block} {lists : Nat → List Nat} {b : Block} {p n : Nat}

theorem walkLoop_eq (hg : Geo a) (hent : ∀ b ∈ bs, a.orderMap (b.off >>> a.minOrder) = b.enc)
    (hord : ∀ b ∈ bs, floorOrder a.minOrder ≤ b.order ∧ b.order ≤ a.maxOrder)
    (ht : Tiles Block.off Block.size p bs (2 ^ a.maxOrder)) (fuel : Nat) (hf : bs.length < fuel) :
    walkLoop a fuel (p >>> a.minOrder) = some (bs.map Block.info) := by
  have hmx := hg.max_lt
  refine ht.visit (walkLoop a) (· >>> a.minOrder) (fun fuel => ?_) ?_ hf
  · unfold walkLoop
    rw [hg.cap, if_neg (lt_irrefl _)]
  · intro b hb fuel hle
    have hbo := hord b hb
    have hmn : a.minOrder ≤ b.order := (floorOrder_ge _).1.trans hbo.1
    obtain ⟨hback, hnext⟩ := b.slot_next hmn
    obtain ⟨h1, h2, -⟩ := b.enc_decode (by omega)
    conv_lhs => unfold walkLoop
    dsimp only
    rw [hg.cap, if_pos (b.slot_lt hmn hle), hent b hb, h1, if_neg fun hc => h2 hc.2, hback, hnext,
      b.enc_free (by omega)]
    rfl

theorem bdWalk_eq (h : CInv a bs bs lists) : bdWalk a = some (bs.map Block.info) := by
  have h2 := h.sys.length_le (floorOrder_ge a.minOrder).1
  rw [← h.geo.cap] at h2
  have h3 := walkLoop_eq h.geo h.entry h.sys.orders h.sys.tiles (a.capacity >>> a.minOrder + 1)
    (by omega)
  rw [Nat.zero_shiftRight] at h3
  exact h3

/-! ## creation -/

theorem hfLog2Floor_two_pow {k : Nat} (hk : k ≤ 63) : hfLog2Floor (2 ^ k) = k := by
  have : 2 ^ k ≤ 2 ^ 63 := Nat.pow_le_pow_right (by norm_num) hk
  rw [hfLog2Floor_eq (by omega), Nat.log2_two_pow]

/-- the capacity and the reservation: a block of `2^mx` bytes in mapped memory -/
theorem create_geo {vm : Vm} {cs : Callocs} {m : Mem} {capacity minBlock : Nat}
    (hc : capacity < 2 ^ 64) (hm : minBlock < 2 ^ 64)
    (h : hfBuddyCreate vm cs m capacity minBlock = some a) :
    ∃ a₀ : BdAlloc, a = bdPush a₀ a₀.mem a₀.maxOrder ∧ Geo a₀ ∧ a₀.minOrder ≤ a₀.maxOrder
      ∧ (∀ k, a₀.freeLists k = 0) ∧ a₀.stats = Stats.fresh a₀.capacity
      ∧ (minBlock ≤ 2 ^ 63 → 5 ≤ a₀.minOrder) := by
  unfold hfBuddyCreate at h
  dsimp only at h
  generalize hmb : (if minBlock < BD_NODE + BD_HDR then BD_NODE + BD_HDR else minBlock) = mb at h
  have hmb1 : 32 ≤ mb ∧ mb < 2 ^ 64 ∧ (minBlock ≤ 2 ^ 63 → mb ≤ 2 ^ 63) := by
    rw [← hmb]
    unfold BD_NODE BD_HDR
    split <;> omega
  -- the block size is a power of two, or it wrapped to 0 and the order is 0
  have hmin : ∃ mn, hfLog2Floor (hfNextPow2 mb) = mn ∧ mn ≤ 63 ∧ hfNextPow2 mb ≤ 2 ^ mn
      ∧ (2 ^ mn ≤ hfNextPow2 mb ∨ mn = 0) ∧ (mb ≤ 2 ^ 63 → 5 ≤ mn) := by
    by_cases hle : mb ≤ 2 ^ 63
    · have h63 : Nat.clog 2 mb ≤ 63 := (Nat.clog_le_iff_le_pow (by norm_num)).mpr hle
      rw [hfNextPow2_clog hle]
      refine ⟨Nat.clog 2 mb, hfLog2Floor_two_pow h63, h63, le_rfl, Or.inl le_rfl, fun _ => ?_⟩
      refine Nat.le_of_not_lt fun hlt => ?_
      have h1 : mb ≤ 2 ^ 4 := (Nat.clog_le_iff_le_pow (by norm_num)).mp (by omega)
      omega
    · rw [hfNextPow2_of_gt hmb1.2.1 (by omega)]
      exact ⟨0, rfl, by omega, by omega, Or.inr rfl, fun h => absurd h hle⟩
  obtain ⟨mn, hmn, hmn63, hmnle, hmnge, hmn5⟩ := hmin
  rw [hmn] at h
  have hmnp : 2 ^ mn ≤ 2 ^ 63 := Nat.pow_le_pow_right (by norm_num) hmn63
  generalize hfNextPow2 mb = pb at h hmnle hmnge
  generalize hcb : (if capacity < pb then pb else capacity) = cb at h
  have hcb1 : pb ≤ cb ∧ cb < 2 ^ 64 := by
    rw [← hcb]
    split <;> omega
  by_cases hcle : cb ≤ 2 ^ 63
  · have hle : mn ≤ Nat.clog 2 cb := by
      rcases hmnge with hge | rfl
      · have h1 : cb ≤ 2 ^ Nat.clog 2 cb := Nat.le_pow_clog (by norm_num) _
        exact (Nat.pow_le_pow_iff_right (by norm_num)).mp (hge.trans (hcb1.1.trans h1))
      · exact Nat.zero_le _
    have hmx63 : Nat.clog 2 cb ≤ 63 := (Nat.clog_le_iff_le_pow (by norm_num)).mpr hcle
    rw [hfNextPow2_clog hcle] at h
    generalize Nat.clog 2 cb = mx at h hle hmx63
    have hmxp : 2 ^ mx ≤ 2 ^ 63 := Nat.pow_le_pow_right (by norm_num) hmx63
    rw [hfLog2Floor_two_pow hmx63] at h
    split at h
    · split at h
      · exact absurd h (by simp)
      · next h0 =>
        split at h
        · -- the mapping is page-aligned and holds the capacity
          obtain ⟨hal, hbd⟩ := hfVmReserve_bounds vm hmxp h0
          generalize hfVmReserve vm (2 ^ mx) = base at h h0 hbd hal
          refine ⟨_, (Option.some.inj h).symm, ⟨?_, ?_, ?_, rfl, ?_⟩, hle, fun _ => rfl, rfl,
            fun hmb2 => hmn5 (hmb1.2.2 hmb2)⟩
          · exact Nat.pos_of_ne_zero h0
          · exact Nat.mod_eq_zero_of_dvd hal
          · exact hbd
          · show mx < 64
            omega
        · exact absurd h (by simp)
    · exact absurd h (by simp)
  · -- a capacity that wraps to 0 cannot be mapped
    rw [hfNextPow2_of_gt hcb1.2 (by omega), hfVmReserve_zero] at h
    simp at h

/-- a fresh allocator is one free block of the top order -/
theorem init_inv {a₀ : BdAlloc} (hg : Geo a₀) (hle : floorOrder a₀.minOrder ≤ a₀.maxOrder)
    (hl : ∀ k, a₀.freeLists k = 0) :
    CInv (bdPush a₀ a₀.mem a₀.maxOrder) [⟨0, a₀.maxOrder, false, dvd_zero _⟩]
      [⟨0, a₀.maxOrder, false, dvd_zero _⟩] (update (fun _ => []) a₀.maxOrder [0]) := by
  have h0 : CInv a₀ [⟨0, a₀.maxOrder, false, dvd_zero _⟩] [] (fun _ => []) :=
    ⟨hg, BInv.none hle, by simp, fun k => hl k, fun _ => trivial, by simp⟩
  exact (h0.push (b := ⟨0, a₀.maxOrder, false, dvd_zero _⟩) (BInv.top hle) rfl (fun c => by simp)
    (by simp)).1

theorem create_inv {vm : Vm} {cs : Callocs} {m : Mem} {capacity minBlock : Nat}
    (hc : capacity ≤ 2 ^ 63) (hm : minBlock ≤ 2 ^ 63)
    (h : hfBuddyCreate vm cs m capacity minBlock = some a) :
    ∃ bs lists, SysInv (Sys.start a) bs lists ∧ Owned (Sys.start a) bs := by
  obtain ⟨a₀, rfl, hg, hle, hl, hst, h5⟩ := create_geo (by omega) (by omega) h
  have h5' := h5 hm
  have hfl : floorOrder a₀.minOrder ≤ a₀.maxOrder := max_le hle (by omega)
  refine ⟨_, _, SysInv.of (init_inv hg hfl hl) ?_ (by simp) (by simp)
    (by show 4 ≤ a₀.minOrder; omega), ?_⟩
  · show a₀.stats.used = 0
    rw [hst]
    rfl
  · intro b hb hu
    rw [List.mem_singleton.mp hb] at hu
    exact absurd hu (by simp)

/-! ## the invariant in the words of the source -/

/-- a byte of `order_map` carries the order and the state of a block -/
def Carries (enc : Nat) (b : BlockInfo) : Prop :=
  enc &&& 0x40 ≠ 0 ∧ 2 ^ (enc &&& 0x3F) = b.size ∧ (enc &&& 0x80 = 0 ↔ b.isFree = true)

/-- **Representation invariant of the C buddy allocator**: `bs` are the blocks, `lists` the nodes
on each free list. -/
structure BdRepInv (a : BdAlloc) (bs : List BlockInfo) (lists : Nat → List Nat) : Prop where
  /-- the walk ends, and its blocks tile the heap -/
  walk : bdWalk a = some bs
  tiles : Tiles BlockInfo.offset BlockInfo.size 0 bs a.capacity
  orders : ∀ b ∈ bs, ∃ k, a.minOrder ≤ k ∧ k ≤ a.maxOrder ∧ b.size = 2 ^ k ∧ 2 ^ k ∣ b.offset
  /-- the entry of the first slot is current -/
  entries : ∀ b ∈ bs, Carries (a.orderMap (b.offset >>> a.minOrder)) b
  /-- each free list is linked in both directions and ends in `NULL` -/
  links : ∀ k, a.freeLists k = (lists k).headD 0
    ∧ Chain 0 (nodeNext a.heap) (nodePrev a.heap) 0 (lists k)
  /-- and holds the free blocks of its order, each once -/
  nodup : ∀ k, (lists k).Nodup
  members : ∀ k n, n ∈ lists k ↔ ∃ b ∈ bs, b.isFree = true ∧ b.size = 2 ^ k ∧ n = a.mem + b.offset
  /-- no two free buddies -/
  merged : ∀ b ∈ bs, ∀ c ∈ bs, b.isFree = true → c.isFree = true → b.size = c.size →
    b.size < a.capacity → c.offset ≠ b.offset ^^^ b.size
  tags : ∀ b ∈ bs, b.isFree = false → ∀ k, b.size = 2 ^ k → a.heap.load64 (a.mem + b.offset) = k
  used : a.stats.used = ((bs.filter fun b => !b.isFree).map BlockInfo.size).sum

theorem two_pow_inj {j k : Nat} (h : 2 ^ j = 2 ^ k) : j = k := Nat.pow_right_injective le_rfl h

theorem Block.info_free (b : Block) : b.info.isFree = true ↔ b.used = false := by
  show (!b.used) = true ↔ _
  simp

theorem Block.info_used (b : Block) : b.info.isFree = false ↔ b.used = true := by
  show (!b.used) = false ↔ _
  simp

theorem Block.carries (b : Block) (h : b.order < 64) : Carries b.enc b.info := by
  obtain ⟨h1, h2, h3⟩ := b.enc_decode h
  refine ⟨h2, ?_, h3.trans b.info_free.symm⟩
  rw [h1]
  rfl

theorem SysInv.repInv {s : Sys} (h : SysInv s bs lists) :
    BdRepInv s.a (bs.map Block.info) (fun k => nodesOf s.a.mem (lists k)) where
  walk := bdWalk_eq h.inv
  tiles := by
    rw [h.inv.geo.cap]
    exact h.inv.sys.tiles.shift (Nat.zero_le 0) fun b => ⟨rfl, rfl⟩
  orders := by
    intro i hi
    obtain ⟨b, hb, rfl⟩ := List.mem_map.mp hi
    obtain ⟨h1, h2⟩ := h.inv.sys.orders b hb
    exact ⟨b.order, (floorOrder_ge _).1.trans h1, h2, rfl, b.dvd⟩
  entries := by
    intro i hi
    obtain ⟨b, hb, rfl⟩ := List.mem_map.mp hi
    have h1 := (h.inv.sys.orders b hb).2
    have h2 := h.inv.geo.max_lt
    have h3 : s.a.orderMap (b.info.offset >>> s.a.minOrder) = b.enc := h.inv.entry b hb
    rw [h3]
    exact b.carries (by omega)
  links := fun k => ⟨h.inv.head k, h.inv.chain k⟩
  nodup := fun k => nodesOf_nodup (h.inv.sys.nodup k)
  members := by
    intro k n
    constructor
    · intro hn
      obtain ⟨x, hx, rfl⟩ := List.mem_map.mp hn
      obtain ⟨b, hb, hf, rfl, rfl⟩ := (h.inv.sys.mem k x).mp hx
      exact ⟨b.info, List.mem_map_of_mem hb, b.info_free.mpr hf, rfl, rfl⟩
    · rintro ⟨i, hi, hf, hs, rfl⟩
      obtain ⟨b, hb, rfl⟩ := List.mem_map.mp hi
      exact mem_nodesOf.mpr
        ((h.inv.sys.mem k _).mpr ⟨b, hb, b.info_free.mp hf, two_pow_inj hs, rfl⟩)
  merged := by
    intro i hi j hj hif hjf hs hlt
    obtain ⟨b, hb, rfl⟩ := List.mem_map.mp hi
    obtain ⟨c, hc, rfl⟩ := List.mem_map.mp hj
    have hlt' : 2 ^ b.order < 2 ^ s.a.maxOrder := h.inv.geo.cap ▸ hlt
    exact h.inv.sys.merged b hb c hc (b.info_free.mp hif) (c.info_free.mp hjf) (two_pow_inj hs)
      ((Nat.pow_lt_pow_iff_right (by norm_num)).mp hlt')
  tags := by
    intro i hi hf k hs
    obtain ⟨b, hb, rfl⟩ := List.mem_map.mp hi
    exact (h.inv.tags b hb (b.info_used.mp hf)).trans (two_pow_inj hs)
  used := by
    have e : ((fun b : BlockInfo => !b.isFree) ∘ Block.info) = Block.used := by
      funext b
      simp [Block.info]
    rw [h.used, List.filter_map, List.map_map, e]
    rfl

/-- what the calls of `bd_is_free_at` read while a live pointer is freed -/
theorem SysInv.queries {s : Sys} {e : Live} (h : SysInv s bs lists) (he : e ∈ s.live) (q : Query)
    (hq : q ∈ bdQueries s.a e.ptr) :
    ∃ b ∈ bs.map Block.info, q.node = s.a.mem + b.offset
      ∧ Carries (q.a.orderMap (slotOf q.a q.node)) b
      ∧ (b.offset + b.size ≤ q.off ∨ q.off + 2 ^ q.order ≤ b.offset) := by
  obtain ⟨b, hb, hu, hp, -⟩ := h.live e he
  obtain ⟨l₁, l₂, rfl⟩ := List.append_of_mem hb
  obtain ⟨-, hp1, hp2⟩ := h.inv.ptr_eq hb
  unfold bdQueries at hq
  dsimp only at hq
  rw [hp, hp1, h.inv.tagOf_eq hb hu, hp2] at hq
  obtain ⟨c, hc, h1, h2, h3⟩ := mergeQueries_spec (h.inv.hold hu (2 ^ b.order)) _ q hq
  have hc' : c ∈ l₁ ++ b :: l₂ := mem_middle_of_mem hc
  have hco := (h.inv.sys.orders c hc').2
  have hmx := h.inv.geo.max_lt
  refine ⟨c.info, List.mem_map_of_mem hc', h1, ?_, h3⟩
  rw [h2]
  exact c.carries (by omega)

theorem SysInv.of_run {vm : Vm} {cs : Callocs} {m : Mem} {capacity minBlock : Nat} {s : Sys}
    {acts : List BdAct} (hc : capacity ≤ 2 ^ 63) (hm : minBlock ≤ 2 ^ 63)
    (hcreate : hfBuddyCreate vm cs m capacity minBlock = some a)
    (hrun : Steps BdStep (Sys.start a) acts s) : ∃ bs lists, SysInv s bs lists ∧ Owned s bs :=
  hrun.invariant (I := fun s => ∃ bs lists, SysInv s bs lists ∧ Owned s bs)
    (create_inv hc hm hcreate)
    fun _ _ _ ⟨_, _, h, ho⟩ hs =>
      let ⟨bs', lists', h', _, ho'⟩ := h.step hs
      ⟨bs', lists', h', ho' ho⟩

end

/-- **The representation invariant holds along every run**, whatever is asked for and whatever
users write into their payloads.  A free of a live pointer passes its assertion, and every call
of `bd_is_free_at` that it makes reads the entry of the first slot of a block: a block of the
walk that is not part of the block in hand, whose current order and state the entry carries. -/
theorem buddy_representation {vm : Vm} {cs : Callocs} {m : Mem} {capacity minBlock : Nat}
    {a : BdAlloc} {acts : List BdAct} {s : Sys} (hc : capacity ≤ 2 ^ 63) (hm : minBlock ≤ 2 ^ 63)
    (hcreate : hfBuddyCreate vm cs m capacity minBlock = some a)
    (hrun : Steps BdStep (Sys.start a) acts s) :
    ∃ bs lists, BdRepInv s.a bs lists
      ∧ ∀ e ∈ s.live, (bdDeallocate s.a e.ptr).isSome = true
        ∧ ∀ q ∈ bdQueries s.a e.ptr, ∃ b ∈ bs, q.node = s.a.mem + b.offset
          ∧ Carries (q.a.orderMap (slotOf q.a q.node)) b
          ∧ (b.offset + b.size ≤ q.off ∨ q.off + 2 ^ q.order ≤ b.offset) := by
  obtain ⟨bs, lists, h, -⟩ := SysInv.of_run hc hm hcreate hrun
  refine ⟨_, _, h.repInv, fun e he => ⟨?_, fun q hq => h.queries he q hq⟩⟩
  obtain ⟨l₁, l₂, b, a', -, -, e1, -⟩ := h.free_spec he
  rw [e1]
  rfl

/-- a machine's allocator of 4096 bytes, in blocks of 32 bytes and more -/
def sampleBuddy : BdAlloc :=
  bdPush ⟨2 ^ 20, 4096, 5, 12, fun _ => 0, fun _ => 0, Stats.fresh 4096, Mem.zero⟩ (2 ^ 20) 12

theorem sampleBuddy_create :
    hfBuddyCreate sampleVm ⟨true, true, true⟩ Mem.zero 4096 32 = some sampleBuddy := by
  have h1 : hfNextPow2 32 = 32 := by decide +kernel
  have h2 : hfNextPow2 4096 = 4096 := by decide +kernel
  have h3 : hfVmReserve sampleVm 4096 = 2 ^ 20 := by decide +kernel
  have h4 : hfLog2Floor 32 = 5 := by decide +kernel
  have h5 : hfLog2Floor 4096 = 12 := by decide +kernel
  unfold hfBuddyCreate
  dsimp only
  rw [if_neg (by decide : ¬ 32 < BD_NODE + BD_HDR), h1, if_neg (by decide : ¬ 4096 < 32),
    h2, h3, h4, h5, if_pos rfl, if_neg (by decide), if_pos ⟨rfl, rfl⟩]
  rfl

/-- after a request for 100 bytes, which gets a block of 128 -/
def sampleState : Sys := ⟨(bdAllocate sampleBuddy 100 16).2, [⟨2 ^ 20 + 16, 7⟩]⟩

theorem sample_run : Steps BdStep (Sys.start sampleBuddy) [.alloc 100 16] sampleState := by
  have h1 : (bdAllocate sampleBuddy 100 16).1 = 2 ^ 20 + 16 := by decide +kernel
  have h2 : orderFor sampleBuddy (bdNeed 100 16) = 7 := by decide +kernel
  have h3 : BdStep (Sys.start sampleBuddy) (.alloc 100 16) ⟨(bdAllocate sampleBuddy 100 16).2,
      [⟨2 ^ 20 + 16, orderFor sampleBuddy (bdNeed 100 16)⟩]⟩ :=
    BdStep.alloc (by omega) (by omega) (Prod.ext h1 rfl) (by omega)
  rw [h2] at h3
  exact Steps.snoc (Steps.nil _) h3

theorem buddy_representation_one_block :
    ∃ bs lists, BdRepInv sampleState.a bs lists
      ∧ ∀ e ∈ sampleState.live, (bdDeallocate sampleState.a e.ptr).isSome = true
        ∧ ∀ q ∈ bdQueries sampleState.a e.ptr, ∃ b ∈ bs, q.node = sampleState.a.mem + b.offset
          ∧ Carries (q.a.orderMap (slotOf q.a q.node)) b
          ∧ (b.offset + b.size ≤ q.off ∨ q.off + 2 ^ q.order ≤ b.offset) :=
  buddy_representation (by omega) (by omega) sampleBuddy_create sample_run

/-! ## requests are served exactly -/

/-- the block shares no byte with the `n` bytes at the offset `x` -/
def Clear (b : BlockInfo) (x n : Nat) : Prop := b.offset + b.size ≤ x ∨ x + n ≤ b.offset

section
variable {s : Sys} {bs : List Block} {lists : Nat → List Nat} {x k d : Nat}

theorem splitBlocks_append {hx : 2 ^ (k + d) ∣ x} (l : List Block) :
    splitBlocks x k d hx l = splitBlocks x k d hx [] ++ l := by
  induction d generalizing l with
  | zero => rfl
  | succ d ih =>
    show splitBlocks x k d _ (upperBlock x (k + d) hx :: l)
      = splitBlocks x k d _ [upperBlock x (k + d) hx] ++ l
    rw [ih, ih [_], List.append_assoc, List.singleton_append]

/-- the halves that were split off are free -/
theorem splitBlocks_free {hx : 2 ^ (k + d) ∣ x} {b : Block} (hb : b ∈ splitBlocks x k d hx []) :
    b.used = false := by
  by_contra hu
  have h1 : b ∈ (splitBlocks x k d hx []).filter Block.used :=
    List.mem_filter.mpr ⟨hb, by simpa using hu⟩
  rw [splitBlocks_used] at h1
  exact absurd h1 (by simp)

/-- a free aligned range, in terms of the walk -/
theorem free_range_info (h : CInv s.a bs bs lists) (hk : k ≤ s.a.maxOrder) :
    (∃ i, (i + 1) * 2 ^ k ≤ s.a.capacity
        ∧ ∀ u ∈ bs.map Block.info, u.isFree = false → Clear u (i * 2 ^ k) (2 ^ k))
      ↔ ∃ b ∈ bs, b.used = false ∧ k ≤ b.order := by
  constructor
  · rintro ⟨i, hi, hclear⟩
    rw [h.geo.cap, Nat.add_mul, Nat.one_mul] at hi
    exact free_block_of_free_range h.sys h.geo.max_lt hk (Nat.dvd_mul_left _ _) hi
      fun b hb hu => hclear b.info (List.mem_map_of_mem hb) (b.info_used.mpr hu)
  · rintro ⟨b, hb, hf, hkb⟩
    obtain ⟨⟨q, hq⟩, h2, h3⟩ := free_range_of_free_block h.sys hb hf hkb
    have e : q * 2 ^ k = b.off := by rw [hq, Nat.mul_comm]
    refine ⟨q, ?_, ?_⟩
    · rw [h.geo.cap, Nat.add_mul, Nat.one_mul, e]
      exact h2
    · intro u hu huf
      obtain ⟨c, hc, rfl⟩ := List.mem_map.mp hu
      rw [e]
      exact h3 c hc (c.info_used.mp huf)

end

/-- **A request is refused only if it must be.**  In every state of every run, a request of order
`k` up to the top order gets `NULL` exactly if every aligned range of `2^k` bytes meets a used
block.  Otherwise a free block of the least order that is large enough is split: its first `2^k`
bytes, an aligned range clear of used blocks, become a used block, the rest is free, all other
blocks and the bytes of the used ones stay, and `used` grows by `2^k`. -/
theorem allocate_exact {vm : Vm} {cs : Callocs} {m : Mem} {capacity minBlock : Nat}
    {a : BdAlloc} {acts : List BdAct} {s : Sys} {size alignment k : Nat} (hc : capacity ≤ 2 ^ 63)
    (hm : minBlock ≤ 2 ^ 63) (hcreate : hfBuddyCreate vm cs m capacity minBlock = some a)
    (hrun : Steps BdStep (Sys.start a) acts s) (hk : orderFor s.a (bdNeed size alignment) = k)
    (hle : k ≤ s.a.maxOrder) :
    ∃ bs, bdWalk s.a = some bs
      ∧ ((bdAllocate s.a size alignment).1 = 0 ↔ ¬ ∃ i, (i + 1) * 2 ^ k ≤ s.a.capacity
          ∧ ∀ u ∈ bs, u.isFree = false → Clear u (i * 2 ^ k) (2 ^ k))
      ∧ ((bdAllocate s.a size alignment).1 ≠ 0 → ∃ l₁ b l₂ halves, bs = l₁ ++ b :: l₂
          ∧ b.isFree = true ∧ 2 ^ k ≤ b.size
          ∧ (∀ c ∈ bs, c.isFree = true → 2 ^ k ≤ c.size → b.size ≤ c.size)
          ∧ (bdAllocate s.a size alignment).1 = s.a.mem + b.offset + 16
          ∧ 2 ^ k ∣ b.offset ∧ (∀ u ∈ bs, u.isFree = false → Clear u b.offset (2 ^ k))
          ∧ bdWalk (bdAllocate s.a size alignment).2
            = some (l₁ ++ ⟨b.offset, 2 ^ k, false⟩ :: (halves ++ l₂))
          ∧ (∀ u ∈ halves, u.isFree = true)
          ∧ (∀ u ∈ bs, u.isFree = false → ∀ y, s.a.mem + u.offset ≤ y →
            y < s.a.mem + u.offset + u.size →
            (bdAllocate s.a size alignment).2.heap y = s.a.heap y)
          ∧ (bdAllocate s.a size alignment).2.stats.used = s.a.stats.used + 2 ^ k) := by
  obtain ⟨bs, lists, h, -⟩ := SysInv.of_run hc hm hcreate hrun
  refine ⟨_, bdWalk_eq h.inv, ?_⟩
  rw [free_range_info h.inv hle]
  rcases h.alloc_cases hk with ⟨hempty, e⟩ | ⟨d, x, t, hx, l₁, l₂, a', hd, hl, hmin, hbs, e, hinv,
    hsame, -, hused, -⟩
  · rw [e]
    refine ⟨⟨fun _ => ?_, fun _ => rfl⟩, fun hne => absurd rfl hne⟩
    rintro ⟨b, hb, hf, hkb⟩
    have := (lists_empty_iff h.inv.sys).mp hempty b hb hf
    omega
  · rw [e]
    have hbm : (⟨x, k + d, false, hx⟩ : Block) ∈ bs := by rw [hbs]; simp
    have hpow : ∀ c : Block, 2 ^ k ≤ c.info.size → k ≤ c.order := fun c hc =>
      (Nat.pow_le_pow_iff_right (by norm_num)).mp hc
    obtain ⟨hdvd, -, hclear⟩ := free_range_of_free_block (k := k) h.inv.sys hbm rfl
      (Nat.le_add_right k d)
    refine ⟨⟨fun h0 => ?_, fun hne => ?_⟩, fun _ => ⟨l₁.map Block.info,
      (⟨x, k + d, false, hx⟩ : Block).info, l₂.map Block.info,
      (splitBlocks x k d hx []).map Block.info, ?_, rfl, ?_, ?_, rfl, hdvd, ?_, ?_, ?_, ?_, hused⟩⟩
    · have h1 : s.a.mem + x + 16 = 0 := h0
      omega
    · exact absurd ⟨_, hbm, rfl, Nat.le_add_right k d⟩ hne
    · rw [hbs, List.map_append, List.map_cons]
    · exact Nat.pow_le_pow_right (by norm_num) (Nat.le_add_right k d)
    · intro i hi hf hs
      obtain ⟨c, hc, rfl⟩ := List.mem_map.mp hi
      have hkc := hpow c hs
      refine Nat.pow_le_pow_right (by norm_num) (Nat.le_of_not_lt fun hlt => ?_)
      have h1 : c.off ∈ lists c.order :=
        (h.inv.sys.mem _ _).mpr ⟨c, hc, c.info_free.mp hf, rfl, rfl⟩
      rw [hmin c.order hkc hlt] at h1
      exact absurd h1 (by simp)
    · intro i hi hf
      obtain ⟨c, hc, rfl⟩ := List.mem_map.mp hi
      exact hclear c hc (c.info_used.mp hf)
    · rw [bdWalk_eq hinv, splitBlocks_append, List.map_append, List.map_cons, List.map_append]
      rfl
    · intro i hi
      obtain ⟨c, hc, rfl⟩ := List.mem_map.mp hi
      exact c.info_free.mpr (splitBlocks_free hc)
    · intro i hi hf y h1 h2
      obtain ⟨c, hc, rfl⟩ := List.mem_map.mp hi
      exact hsame y ⟨c, hc, c.info_used.mp hf, h1, h2⟩

theorem allocate_exact_second_block :
    orderFor sampleState.a (bdNeed 1000 16) = 10 ∧
    ∃ bs, bdWalk sampleState.a = some bs
      ∧ ((bdAllocate sampleState.a 1000 16).1 = 0 ↔ ¬ ∃ i, (i + 1) * 2 ^ 10 ≤ sampleState.a.capacity
          ∧ ∀ u ∈ bs, u.isFree = false → Clear u (i * 2 ^ 10) (2 ^ 10))
      ∧ ((bdAllocate sampleState.a 1000 16).1 ≠ 0 → ∃ l₁ b l₂ halves, bs = l₁ ++ b :: l₂
          ∧ b.isFree = true ∧ 2 ^ 10 ≤ b.size
          ∧ (∀ c ∈ bs, c.isFree = true → 2 ^ 10 ≤ c.size → b.size ≤ c.size)
          ∧ (bdAllocate sampleState.a 1000 16).1 = sampleState.a.mem + b.offset + 16
          ∧ 2 ^ 10 ∣ b.offset ∧ (∀ u ∈ bs, u.isFree = false → Clear u b.offset (2 ^ 10))
          ∧ bdWalk (bdAllocate sampleState.a 1000 16).2
            = some (l₁ ++ ⟨b.offset, 2 ^ 10, false⟩ :: (halves ++ l₂))
          ∧ (∀ u ∈ halves, u.isFree = true)
          ∧ (∀ u ∈ bs, u.isFree = false → ∀ y, sampleState.a.mem + u.offset ≤ y →
            y < sampleState.a.mem + u.offset + u.size →
            (bdAllocate sampleState.a 1000 16).2.heap y = sampleState.a.heap y)
          ∧ (bdAllocate sampleState.a 1000 16).2.stats.used
            = sampleState.a.stats.used + 2 ^ 10) := by
  have h1 : orderFor sampleState.a (bdNeed 1000 16) = 10 := by decide +kernel
  exact ⟨h1, allocate_exact (by omega) (by omega) sampleBuddy_create sample_run h1
    (by decide +kernel)⟩

end HeapForge.Buddy
