import HeapForge.Buddy.Order
import HeapForge.RustBuddy.Refine

/-!
# The C and the Rust buddy allocator are observationally equivalent

Both are driven by the same calls: each request goes to both, a live block is freed in both, and
users write into the payloads on either side.  The two states stay coupled through one buddy
system: doubly linked lists with eager unlinking on one side, stacks with stale entries on the
other, represent the same lists.

* `Coupled`          the relation, `Coupled.step` says that every step keeps it;
* `Agree`            what an observer can compare;
* `buddies_agree`    both allocators agree in every state of every run.
-/

set_option linter.unusedSectionVars false
set_option linter.unusedVariables false

namespace HeapForge.RustBuddy
open Lib Function Buddy

/-! ## the same order for the same request -/

section
variable {n k : Nat} {a : Inner} {c : BdAlloc}

theorem log2Loop_eq (fuel n r : Nat) (h : n < 2 ^ fuel) : log2Loop fuel n r = r + n.log2 := by
  induction fuel generalizing n r with
  | zero =>
    obtain rfl : n = 0 := by omega
    rfl
  | succ fuel ih =>
    unfold log2Loop
    rw [Nat.shiftRight_one, Nat.log2_def]
    by_cases h2 : n > 1
    · rw [if_pos h2, if_pos (by omega), ih (n / 2) (r + 1) (by omega)]
      omega
    · rw [if_neg h2, if_neg (by omega)]
      omega

theorem log2Floor_eq (h : n < 2 ^ 64) : log2Floor n = hfLog2Floor n := by
  rw [hfLog2Floor_eq h]
  have e := log2Loop_eq 64 n 0 h
  rwa [Nat.zero_add] at e

theorem hfNextPow2_lt (h : n < 2 ^ 64) : hfNextPow2 n < 2 ^ 64 := by
  by_cases h1 : 1 < n
  · rw [hfNextPow2_eq h1 h]
    exact Nat.mod_lt _ (by norm_num)
  · unfold hfNextPow2
    rw [if_pos (by omega)]
    norm_num

theorem needFor_eq (size align : Nat) : needFor size align = bdNeed size align := rfl

theorem orderFor_eq (hmin : a.minOrder = c.minOrder) (h : n < 2 ^ 64) :
    orderFor a n = Buddy.orderFor c n := by
  have e : log2Floor (nextPow2 n) = hfLog2Floor (hfNextPow2 n) := log2Floor_eq (hfNextPow2_lt h)
  unfold orderFor Buddy.orderFor
  dsimp only
  rw [e, hmin]
  split <;> omega

/-- requests that do not wrap -/
def Fits (size align : Nat) : Prop := size + 16 ≤ 2 ^ 63 ∧ align + 16 ≤ 2 ^ 63

theorem Fits.need {size align : Nat} (h : Fits size align) :
    16 ≤ bdNeed size align ∧ bdNeed size align ≤ 2 ^ 63 := by
  obtain ⟨h1, h2⟩ := bdNeed_of_fits h.1 (Or.inr h.2)
  exact ⟨by omega, h2⟩

/-- such a request asks for at least sixteen bytes, so its order is possible -/
theorem Fits.floor_le {size align : Nat} (h : Fits size align) (c : BdAlloc) :
    floorOrder c.minOrder ≤ Buddy.orderFor c (bdNeed size align) := by
  obtain ⟨h1, h2⟩ := h.need
  refine max_le (orderFor_ge _) ?_
  have h3 : 4 ≤ Nat.clog 2 (bdNeed size align) :=
    (Nat.lt_clog_iff_pow_lt (by norm_num)).mpr (by omega)
  rw [orderFor_clog c h2]
  exact h3.trans (le_max_right _ _)

end

/-! ## walking and creation on the Rust side -/

section
variable {a : Inner} {bs l₁ l₂ : List Block} {lists : Nat → List Nat} {b : Block} {p x : Nat}

theorem walkLoop_eq (hg : RGeo a) (hent : ∀ b ∈ bs, a.orderMap (b.off >>> a.minOrder) = b.enc)
    (hord : ∀ b ∈ bs, floorOrder a.minOrder ≤ b.order ∧ b.order ≤ a.maxOrder)
    (ht : Tiles Block.off Block.size p bs (2 ^ a.maxOrder)) (fuel : Nat) (hf : bs.length < fuel) :
    walkLoop a fuel (p >>> a.minOrder) = some (bs.map Block.info) := by
  have hmx := hg.max_lt
  refine ht.visit (walkLoop a) (· >>> a.minOrder) (fun fuel => ?_) ?_ hf
  · unfold walkLoop
    rw [hg.cap, if_neg (lt_irrefl _)]
  · intro b hb fuel hle
    have hbo := hord b hb
    have hmn : a.minOrder ≤ b.order := (floorOrder_ge _).1.trans hbo.1
    obtain ⟨hback, hnext⟩ := b.slot_next hmn
    obtain ⟨horder, hvalid, -⟩ := b.enc_decode (by omega)
    conv_lhs => unfold walkLoop
    dsimp only
    rw [hg.cap, if_pos (b.slot_lt hmn hle), hent b hb,
      if_neg (show ¬b.enc &&& VALID = 0 from hvalid), show b.enc &&& ORDER_MASK
        = b.order from horder, hback, hnext,
      show (b.enc &&& USED == 0) = !b.used from b.enc_free (by omega)]
    rfl

theorem walk_eq (h : RInv a bs bs lists []) : walk a = some (bs.map Block.info) := by
  have h2 := h.sys.length_le (floorOrder_ge a.minOrder).1
  rw [← h.geo.cap] at h2
  have h3 := walkLoop_eq h.geo h.entry h.sys.orders h.sys.tiles (a.capacity >>> a.minOrder + 1)
    (by omega)
  rw [Nat.zero_shiftRight] at h3
  exact h3

theorem nextPow2_cases (hx : x < 2 ^ 64) :
    (x ≤ 2 ^ 63 ∧ nextPow2 x = 2 ^ Nat.clog 2 x) ∨ (2 ^ 63 < x ∧ nextPow2 x = 0) := by
  by_cases h : x ≤ 2 ^ 63
  · exact Or.inl ⟨h, hfNextPow2_clog h⟩
  · exact Or.inr ⟨by omega, hfNextPow2_of_gt hx (by omega)⟩

theorem log2Floor_two_pow {k : Nat} (hk : k ≤ 63) : log2Floor (2 ^ k) = k := by
  have h1 : 2 ^ k ≤ 2 ^ 63 := Nat.pow_le_pow_right (by norm_num) hk
  rw [log2Floor_eq (by omega), hfLog2Floor_two_pow hk]

theorem new_geo {vm : Vm} {m : Mem} {capacity minBlock : Nat} (hc : capacity < 2 ^ 64)
    (hm : minBlock < 2 ^ 64) (h : new vm m capacity minBlock = some a) :
    ∃ a₀ : Inner, a = pushFree a₀ 0 a₀.maxOrder ∧ RGeo a₀
      ∧ floorOrder a₀.minOrder ≤ a₀.maxOrder ∧ (∀ k, a₀.freeLists k = [])
      ∧ (∀ s, a₀.orderMap s = 0) ∧ a₀.stats = Stats.fresh a₀.capacity := by
  unfold new at h
  dsimp only at h
  have hmb : max minBlock (BD_HDR + 16) < 2 ^ 64 := by unfold BD_HDR; omega
  -- a block size above `2^63` wraps to 0, of order 0
  have hmin : ∃ mn, log2Floor (nextPow2 (max minBlock (BD_HDR + 16))) = mn ∧ mn ≤ 63
      ∧ nextPow2 (max minBlock (BD_HDR + 16)) ≤ 2 ^ 63
      ∧ (2 ^ mn = nextPow2 (max minBlock (BD_HDR + 16)) ∨ mn = 0) := by
    rcases nextPow2_cases hmb with ⟨hle, e⟩ | ⟨hgt, e⟩
    · have h63 : Nat.clog 2 (max minBlock (BD_HDR + 16)) ≤ 63 :=
        (Nat.clog_le_iff_le_pow (by norm_num)).mpr hle
      rw [e]
      exact ⟨_, log2Floor_two_pow h63, h63, Nat.pow_le_pow_right (by norm_num) h63, Or.inl rfl⟩
    · rw [e]
      exact ⟨0, rfl, by omega, by omega, Or.inr rfl⟩
  obtain ⟨mn, hmn, hmn63, hpb, hpow⟩ := hmin
  rw [hmn] at h
  generalize nextPow2 (max minBlock (BD_HDR + 16)) = pb at h hpb hpow
  have hpage : vm.pageSize ≤ 2 ^ 63 :=
    Nat.pow_le_pow_right (by norm_num) (by have := vm.pageOrder_lt; omega)
  rcases nextPow2_cases (x := max (max capacity pb) vm.pageSize) (by omega) with ⟨hle, e⟩ | ⟨hgt, e⟩
  · have hge : max (max capacity pb) vm.pageSize
        ≤ 2 ^ Nat.clog 2 (max (max capacity pb) vm.pageSize) :=
      Nat.le_pow_clog (by norm_num) _
    have hmx63 : Nat.clog 2 (max (max capacity pb) vm.pageSize) ≤ 63 :=
      (Nat.clog_le_iff_le_pow (by norm_num)).mpr hle
    rw [e] at h
    generalize Nat.clog 2 (max (max capacity pb) vm.pageSize) = mx at h hge hmx63
    have hmxp : 2 ^ mx ≤ 2 ^ 63 := Nat.pow_le_pow_right (by norm_num) hmx63
    have hmn' : mn ≤ mx := by
      rcases hpow with hp | rfl
      · exact (Nat.pow_le_pow_iff_right (by norm_num)).mp (by omega : 2 ^ mn ≤ 2 ^ mx)
      · exact Nat.zero_le _
    have h12 : 12 ≤ mx := by
      have h1 : 2 ^ 12 ≤ 2 ^ mx := by
        have h2 : 2 ^ 12 ≤ vm.pageSize := Nat.pow_le_pow_right (by norm_num) vm.pageOrder_ge
        omega
      exact (Nat.pow_le_pow_iff_right (by norm_num)).mp h1
    rw [log2Floor_two_pow hmx63] at h
    split at h
    · exact absurd h (by simp)
    · next h0 =>
      split at h
      · have h0' : hfVmReserve vm (2 ^ mx) ≠ 0 := by
          have hpos := Nat.two_pow_pos mx
          unfold vmReserve at h0
          rw [show max (2 ^ mx) 1 = 2 ^ mx by omega] at h0
          exact h0
        have hbase : vmReserve vm (2 ^ mx) = hfVmReserve vm (2 ^ mx) := by
          have hpos := Nat.two_pow_pos mx
          unfold vmReserve
          rw [show max (2 ^ mx) 1 = 2 ^ mx by omega]
          rfl
        obtain ⟨-, hbd⟩ := hfVmReserve_bounds vm hmxp h0'
        rw [← hbase] at hbd
        generalize vmReserve vm (2 ^ mx) = base at h h0 hbd
        refine ⟨_, (Option.some.inj h).symm, ⟨Nat.pos_of_ne_zero h0, hbd, rfl, ?_⟩, ?_,
          fun _ => rfl, fun _ => rfl, rfl⟩
        · show mx < 64
          omega
        · exact max_le hmn' (by show 4 ≤ mx; omega)
      · exact absurd h (by simp)
  · -- a capacity that wraps to 0 leaves a map without slots
    rw [e, Nat.zero_shiftRight] at h
    simp at h

theorem new_inv {a₀ : Inner} (hg : RGeo a₀) (hle : floorOrder a₀.minOrder ≤ a₀.maxOrder)
    (hl : ∀ k, a₀.freeLists k = []) (hm : ∀ s, a₀.orderMap s = 0) :
    RInv (pushFree a₀ 0 a₀.maxOrder) [⟨0, a₀.maxOrder, false, dvd_zero _⟩]
      [⟨0, a₀.maxOrder, false, dvd_zero _⟩] (update (fun _ => []) a₀.maxOrder [0]) [] := by
  have hsys := BInv.none hle
  have h0 : RInv a₀ [⟨0, a₀.maxOrder, false, dvd_zero _⟩] [] (fun _ => []) [] := by
    refine ⟨hg, hsys, by simp, fun s _ _ => ?_, fun k => by simp, ?_, ?_, by simp⟩
    · rw [hm s]
      exact not_freeCode_zero
    · intro k x hx
      rw [hl k] at hx
      exact absurd hx (by simp)
    · intro k x hx
      rw [hl k] at hx
      exact absurd hx (by simp)
  exact h0.pushFree (b := ⟨0, a₀.maxOrder, false, dvd_zero _⟩) (BInv.top hle) rfl (fun c => by simp)
    (by simp) (by rw [hl]; simp) (fun _ _ _ hc => hc)

/-- what users write into their payloads does not matter -/
def Inner.writeByte (a : Inner) (x : Nat) (v : BitVec 8) : Inner :=
  { a with heap := a.heap.setByte x v }

theorem RInv.payload (h : RInv a bs bs lists []) (hb : b ∈ bs) (h1 : a.base + b.off + 16 ≤ x)
    (h2 : x < a.base + b.off + b.size) (v : BitVec 8) : RInv (a.writeByte x v) bs bs lists [] := by
  refine ⟨h.geo.congr rfl rfl rfl, h.sys, h.entry, h.quiet, h.live, h.stale, h.aligned, ?_⟩
  intro c hc hu
  show (a.heap.setByte x v).load64 (a.base + c.off) = c.order
  have hpc := h.sys.place (floorOrder_ge _).2 hc
  have hne : x < a.base + c.off ∨ a.base + c.off + 8 ≤ x := by
    by_cases e : c = b
    · subst e
      omega
    · have := h.sys.apart hc hb e
      omega
  rw [Mem.load64_setByte_of_disjoint hne]
  exact h.tags c hc hu

end

/-! ## both at once -/

/-- a live block: its pointers on the two sides and its order -/
structure Entry where
  cptr : Nat
  rptr : Nat
  order : Nat
  deriving DecidableEq

structure Pair where
  c : BdAlloc
  r : Inner
  live : List Entry

def Pair.start (c : BdAlloc) (r : Inner) : Pair := ⟨c, r, []⟩

/-- both allocators get the request; a block is live if both have given one -/
def Pair.allocate (p : Pair) (size align : Nat) : Pair where
  c := (bdAllocate p.c size align).2
  r := (RustBuddy.allocate p.r size align).2
  live := match (bdAllocate p.c size align).1, (RustBuddy.allocate p.r size align).1 with
    | 0, _ => p.live
    | _, none => p.live
    | q + 1, some q' => ⟨q + 1, q', Buddy.orderFor p.c (bdNeed size align)⟩ :: p.live

inductive PairAct
  | alloc (size align : Nat)
  | free (e : Entry)
  | writeC (addr : Nat) (byte : BitVec 8)
  | writeRust (addr : Nat) (byte : BitVec 8)

inductive PairStep : Pair → PairAct → Pair → Prop
  | alloc {p : Pair} {size align : Nat} :
      Fits size align → PairStep p (.alloc size align) (p.allocate size align)
  | free {p : Pair} {e : Entry} {c' : BdAlloc} {r' : Inner} :
      e ∈ p.live → bdDeallocate p.c e.cptr = some c' → deallocate p.r e.rptr = some r' →
      PairStep p (.free e) ⟨c', r', p.live.erase e⟩
  | writeC {p : Pair} {e : Entry} {x : Nat} {v : BitVec 8} :
      e ∈ p.live → e.cptr ≤ x → x + 16 < e.cptr + 2 ^ e.order →
      PairStep p (.writeC x v) ⟨p.c.writeByte x v, p.r, p.live⟩
  | writeRust {p : Pair} {e : Entry} {x : Nat} {v : BitVec 8} :
      e ∈ p.live → e.rptr ≤ x → x + 16 < e.rptr + 2 ^ e.order →
      PairStep p (.writeRust x v) ⟨p.c, p.r.writeByte x v, p.live⟩

/-- the counters an observer compares -/
def SameStats (c r : Stats) : Prop :=
  c.used = r.used ∧ c.peakUsed = r.peakUsed ∧ c.failedAllocs = r.failedAllocs

def Entry.At (e : Entry) (p : Pair) (b : Block) : Prop :=
  b.used = true ∧ e.cptr = p.c.mem + b.off + 16 ∧ e.rptr = p.r.base + b.off + 16 ∧ e.order = b.order

structure Coupled (p : Pair) (bs : List Block) (lists : Nat → List Nat) : Prop where
  c : CInv p.c bs bs lists
  r : RInv p.r bs bs lists []
  minOrder : p.r.minOrder = p.c.minOrder
  maxOrder : p.r.maxOrder = p.c.maxOrder
  stats : SameStats p.c.stats p.r.stats
  live : ∀ e ∈ p.live, ∃ b ∈ bs, e.At p b
  nodup : (p.live.map Entry.cptr).Nodup

section
variable {p p' : Pair} {bs l₁ l₂ : List Block} {lists : Nat → List Nat} {e : Entry} {act : PairAct}
  {size align k : Nat}

theorem Coupled.of {c : BdAlloc} {r : Inner} {live : List Entry} (hc : CInv c bs bs lists)
    (hr : RInv r bs bs lists []) (hmin : r.minOrder = c.minOrder) (hmax : r.maxOrder = c.maxOrder)
    (hst : SameStats c.stats r.stats)
    (hl : ∀ e ∈ live, ∃ b ∈ bs, b.used = true ∧ e.cptr = c.mem + b.off + 16
      ∧ e.rptr = r.base + b.off + 16 ∧ e.order = b.order)
    (hd : (live.map Entry.cptr).Nodup) : Coupled ⟨c, r, live⟩ bs lists :=
  ⟨hc, hr, hmin, hmax, hst, hl, hd⟩

/-- **A request**: both refuse it, or both carve the same block. -/
theorem Coupled.alloc_cases (h : Coupled p bs lists) (hfit : Fits size align) :
    (∃ c' r', bdAllocate p.c size align = (0, c') ∧ RustBuddy.allocate p.r size align = (none, r')
        ∧ Coupled ⟨c', r', p.live⟩ bs lists)
    ∨ ∃ off c' r' bs' lists', bdAllocate p.c size align = (p.c.mem + off + 16, c')
        ∧ RustBuddy.allocate p.r size align = (some (p.r.base + off + 16), r')
        ∧ Coupled ⟨c', r', ⟨p.c.mem + off + 16, p.r.base + off + 16,
          Buddy.orderFor p.c (bdNeed size align)⟩ :: p.live⟩ bs' lists' := by
  have hneed := hfit.need
  have hord : orderFor p.r (needFor size align) = Buddy.orderFor p.c (bdNeed size align) :=
    orderFor_eq h.minOrder (by rw [needFor_eq]; omega)
  have hfl := hfit.floor_le p.c
  generalize hk : Buddy.orderFor p.c (bdNeed size align) = k at hord hfl
  obtain ⟨hu, hp, hf⟩ := h.stats
  rcases least_order lists p.c.maxOrder k with hempty | ⟨d, x, t, hle, hl, hmin⟩
  · left
    have e1 := bdAllocate_fail h.c hk hempty
    obtain ⟨r', e2, hr, hkept⟩ := allocate_fail h.r hord (by rw [h.maxOrder]; exact hempty)
    refine ⟨_, r', e1, e2, Coupled.of ((h.c.restat _).restat _) hr (hkept.minOrder.trans h.minOrder)
      (hkept.maxOrder.trans h.maxOrder) ?_ ?_ h.nodup⟩
    · rw [hkept.stats]
      refine ⟨hu, hp, ?_⟩
      show wadd p.c.stats.failedAllocs 1 = wadd p.r.stats.failedAllocs 1
      rw [hf]
    · rw [hkept.base]
      exact h.live
  · right
    obtain ⟨hx, l₁, l₂, hbs⟩ := h.c.sys.head_block hl
    have hc := h.c
    have hr := h.r
    rw [hbs] at hc hr
    have hc' : CInv (Buddy.countAlloc p.c) (l₁ ++ ⟨x, k + d, false, hx⟩ :: l₂)
      (l₁ ++ ⟨x, k + d, false, hx⟩ :: l₂) lists := hc.restat _
    obtain ⟨c', e1, hcinv, -, hck⟩ := bdCarve_spec hc' hl hfl
    obtain ⟨r', e2, hrinv, hrb, hrmin, hrmax, hrst⟩ := allocate_carve hr hord
      (by rw [h.minOrder]; exact hfl) hl (by rw [h.maxOrder]; exact hle) hmin
    have e1' : bdAllocate p.c size align = (p.c.mem + x + 16, c') :=
      (bdAllocate_carve h.c hk hle (by rw [hl]; simp) hmin).trans e1
    have hcm : c'.mem = p.c.mem := hck.mem
    refine ⟨x, c', r', _, _, e1', e2, Coupled.of hcinv hrinv ?_ ?_ ?_ ?_ ?_⟩
    · rw [hrmin, hck.minOrder]
      exact h.minOrder
    · rw [hrmax, hck.maxOrder]
      exact h.maxOrder
    · rw [hrst, hck.stats]
      have hused : wadd p.c.stats.used (2 ^ k) = wadd p.r.stats.used (2 ^ k) := by rw [hu]
      refine ⟨hused, ?_, hf⟩
      show (if wadd p.c.stats.used (2 ^ k) > p.c.stats.peakUsed then wadd p.c.stats.used (2 ^ k)
        else p.c.stats.peakUsed) = Nat.max p.r.stats.peakUsed (wadd p.r.stats.used (2 ^ k))
      rw [hused, hp]
      show _ = max _ _
      split <;> omega
    · intro e he
      rw [hcm, hrb]
      rcases List.mem_cons.mp he with rfl | he
      · exact ⟨_, List.mem_append_right _ List.mem_cons_self, rfl, rfl, rfl, rfl⟩
      · obtain ⟨b, hb, hat⟩ := h.live e he
        refine ⟨b, ?_, hat⟩
        have hm : b ∈ (l₁ ++ splitBlocks x k d hx l₂).filter Block.used := by
          rw [splitBlocks_middle_used, ← filter_middle_free (b := ⟨x, k + d, false, hx⟩) rfl, ← hbs]
          exact List.mem_filter.mpr ⟨hb, hat.1⟩
        exact mem_middle_of_mem (List.mem_filter.mp hm).1
    · rw [List.map_cons, List.nodup_cons]
      refine ⟨fun hm => ?_, h.nodup⟩
      obtain ⟨e, he, hep⟩ := List.mem_map.mp hm
      obtain ⟨b, hb, hub, hp', -, -⟩ := h.live e he
      have hep' : e.cptr = p.c.mem + x + 16 := hep
      -- the block carved from was free
      have hfree : b = ⟨x, k + d, false, hx⟩ :=
        h.c.sys.off_inj hb (by rw [hbs]; simp) (by show b.off = x; omega)
      rw [hfree] at hub
      exact absurd hub (by simp)

/-- **A free of a live block**: both give the same block back. -/
theorem Coupled.free_spec (h : Coupled p bs lists) (he : e ∈ p.live) :
    ∃ c' r' bs' lists', bdDeallocate p.c e.cptr = some c' ∧ deallocate p.r e.rptr = some r'
      ∧ Coupled ⟨c', r', p.live.erase e⟩ bs' lists' := by
  obtain ⟨b, hb, hu, hpc, hpr, ho⟩ := h.live e he
  obtain ⟨l₁, l₂, rfl⟩ := List.append_of_mem hb
  obtain ⟨c', e1, hcinv, -, hck, -⟩ := bdDeallocate_spec h.c hu
  obtain ⟨r', e2, hrinv, hrk⟩ := deallocate_spec h.r hu
  rw [h.maxOrder] at hrinv
  obtain ⟨su, sp, sf⟩ := h.stats
  refine ⟨c', r', _, _, by rw [hpc]; exact e1, by rw [hpr]; exact e2,
    Coupled.of hcinv hrinv (hrk.minOrder.trans (h.minOrder.trans hck.minOrder.symm))
      (hrk.maxOrder.trans (h.maxOrder.trans hck.maxOrder.symm)) ?_ ?_
      (h.nodup.sublist (List.erase_sublist.map _))⟩
  · rw [hck.stats, hrk.stats]
    refine ⟨?_, sp, sf⟩
    show wsub p.c.stats.used b.size = wsub p.r.stats.used b.size
    rw [su]
  · intro e' he'
    have hne : e'.cptr ≠ e.cptr := key_ne_of_mem_erase h.nodup he he'
    obtain ⟨f, hf, hat⟩ := h.live e' (List.mem_of_mem_erase he')
    rw [hck.mem, hrk.base]
    have hfb : f ≠ b := by
      intro hfb
      rw [hfb] at hat
      exact hne (hat.2.1.trans hpc.symm)
    exact ⟨f, h.c.sys.released_mem h.c.geo.max_lt hu hf hfb hat.1, hat⟩

/-- **Every step keeps the coupling.** -/
theorem Coupled.step (h : Coupled p bs lists) (hstep : PairStep p act p') :
    ∃ bs' lists', Coupled p' bs' lists' := by
  cases hstep with
  | @alloc size align hfit =>
    rcases h.alloc_cases hfit with ⟨c', r', e1, e2, hc⟩ | ⟨off, c', r', bs', lists', e1, e2, hc⟩
    · have e : p.allocate size align = ⟨c', r', p.live⟩ := by
        unfold Pair.allocate
        rw [e1, e2]
      rw [e]
      exact ⟨_, _, hc⟩
    · have e : p.allocate size align = ⟨c', r', ⟨p.c.mem + off + 16, p.r.base + off + 16,
          Buddy.orderFor p.c (bdNeed size align)⟩ :: p.live⟩ := by
        unfold Pair.allocate
        rw [e1, e2]
      rw [e]
      exact ⟨_, _, hc⟩
  | @free e c' r' he h1 h2 =>
    obtain ⟨c'', r'', bs', lists', e1, e2, hc⟩ := h.free_spec he
    rw [h1] at e1
    rw [h2] at e2
    obtain rfl := Option.some.inj e1
    obtain rfl := Option.some.inj e2
    exact ⟨_, _, hc⟩
  | @writeC e x v he h1 h2 =>
    obtain ⟨b, hb, hu, hp, -, ho⟩ := h.live e he
    have hsz : b.size = 2 ^ e.order := by unfold Block.size; rw [ho]
    exact ⟨_, _, Coupled.of (h.c.payload hb hu (by omega) (by omega) v) h.r h.minOrder h.maxOrder
      h.stats h.live
      h.nodup⟩
  | @writeRust e x v he h1 h2 =>
    obtain ⟨b, hb, hu, -, hp, ho⟩ := h.live e he
    have hsz : b.size = 2 ^ e.order := by unfold Block.size; rw [ho]
    exact ⟨_, _, Coupled.of h.c
      (h.r.payload hb (by omega) (by omega) v) h.minOrder h.maxOrder h.stats h.live
      h.nodup⟩

end

/-- **What an observer compares**: the counters, the walk, the answer to every request that does
not wrap, and that a live block can be freed. -/
structure Agree (p : Pair) : Prop where
  stats : SameStats p.c.stats p.r.stats
  walk : ∃ bs, bdWalk p.c = some bs ∧ walk p.r = some bs
  alloc : ∀ size align, Fits size align →
    ((bdAllocate p.c size align).1 = 0 ∧ (allocate p.r size align).1 = none)
    ∨ ∃ off, (bdAllocate p.c size align).1 = p.c.mem + off + 16
      ∧ (allocate p.r size align).1 = some (p.r.base + off + 16)
  free : ∀ e ∈ p.live, (bdDeallocate p.c e.cptr).isSome = true
    ∧ (deallocate p.r e.rptr).isSome = true

theorem Coupled.agree {p : Pair} {bs : List Block} {lists : Nat → List Nat}
    (h : Coupled p bs lists) : Agree p where
  stats := h.stats
  walk := ⟨_, bdWalk_eq h.c, walk_eq h.r⟩
  alloc := by
    intro size align hfit
    rcases h.alloc_cases hfit with ⟨c', r', e1, e2, -⟩ | ⟨off, c', r', -, -, e1, e2, -⟩
    · exact Or.inl ⟨by rw [e1], by rw [e2]⟩
    · exact Or.inr ⟨off, by rw [e1], by rw [e2]⟩
  free := by
    intro e he
    obtain ⟨c', r', -, -, e1, e2, -⟩ := h.free_spec he
    rw [e1, e2]
    exact ⟨rfl, rfl⟩

/-- **The two buddy allocators are observationally equivalent.**  Started with the same orders and
driven by the same requests (that do not wrap) and frees of live blocks, they agree in every state
of every run, whatever users write into their payloads. -/
theorem buddies_agree {vm vm' : Vm} {cs : Callocs} {m m' : Mem}
    {capacity minBlock capacity' minBlock' : Nat} {c : BdAlloc} {r : Inner} {acts : List PairAct}
    {p : Pair} (h1 : capacity < 2 ^ 64) (h2 : minBlock < 2 ^ 64) (h3 : capacity' < 2 ^ 64)
    (h4 : minBlock' < 2 ^ 64) (hc : hfBuddyCreate vm cs m capacity minBlock = some c)
    (hr : new vm' m' capacity' minBlock' = some r) (hmin : r.minOrder = c.minOrder)
    (hmax : r.maxOrder = c.maxOrder) (hrun : Steps PairStep (Pair.start c r) acts p) : Agree p := by
  have hstart : ∃ bs lists, Coupled (Pair.start c r) bs lists := by
    obtain ⟨c₀, rfl, hcg, hcle, hcl, hcst, -⟩ := create_geo h1 h2 hc
    obtain ⟨r₀, rfl, hrg, hrle, hrl, hrm, hrst⟩ := new_geo h3 h4 hr
    have hmin' : r₀.minOrder = c₀.minOrder := hmin
    have hmax' : r₀.maxOrder = c₀.maxOrder := hmax
    have hr' := new_inv hrg hrle hrl hrm
    rw [hmin', hmax'] at hrle
    rw [hmax'] at hr'
    refine ⟨_, _, Coupled.of (init_inv hcg hrle hcl) (hmax' ▸ hr') hmin hmax ?_ (by simp) (by simp)⟩
    show SameStats c₀.stats r₀.stats
    rw [hcst, hrst]
    exact ⟨rfl, rfl, rfl⟩
  obtain ⟨bs, lists, h⟩ : ∃ bs lists, Coupled p bs lists := by
    refine hrun.invariant (I := fun p => ∃ bs lists, Coupled p bs lists) hstart ?_
    rintro p act p' ⟨bs, lists, h⟩ hs
    exact h.step hs
  exact h.agree

/-- one page on the Rust side -/
def sampleInner : Inner :=
  pushFree ⟨2 ^ 20, 4096, 5, 12, fun _ => [], fun _ => 0, Stats.fresh 4096, Mem.zero⟩ 0 12

theorem sampleInner_new : new sampleVm Mem.zero 4096 32 = some sampleInner := by
  have h1 : nextPow2 (max 32 (BD_HDR + 16)) = 32 := by decide +kernel
  have h2 : nextPow2 (max (max 4096 32) sampleVm.pageSize) = 4096 := by decide +kernel
  have h3 : vmReserve sampleVm 4096 = 2 ^ 20 := by decide +kernel
  have h4 : log2Floor 32 = 5 := by decide +kernel
  have h5 : log2Floor 4096 = 12 := by decide +kernel
  unfold new
  dsimp only
  rw [h1, h2, h3, h4, h5, if_neg (by decide), if_pos (by decide)]
  rfl

theorem buddies_agree_one_block :
    Agree ((Pair.start sampleBuddy sampleInner).allocate 100 16) :=
  buddies_agree (by omega) (by omega) (by omega)
    (by omega) sampleBuddy_create sampleInner_new rfl rfl
    (Steps.snoc (Steps.nil _) (PairStep.alloc ⟨by omega, by omega⟩))

end HeapForge.RustBuddy
