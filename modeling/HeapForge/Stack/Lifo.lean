import Mathlib.Data.List.Pairwise
import HeapForge.Stack.Run

/-!
# Last in, first out: the chain of headers under the top

The header in front of a payload holds the top and the payload that were current when the block was
allocated, so the headers of the live blocks form a chain that starts at the top.

* `Chain`      the blocks of the chain, newest first, down to a base `(t₀, l₀)`;
* `LifoStep`   calls of users that give back the newest block and write only into their own;
* `LifoInv`    the live blocks are the chain; **kept by every step that does not wrap**.
-/

set_option linter.unusedSectionVars false
set_option linter.unusedVariables false

namespace HeapForge.Stack
open Lib

/-- a block its user holds: the offset of the payload and the size asked for -/
structure StBlock where
  payload : Nat
  size : Nat
  deriving DecidableEq

def Chain (m : Mem) (mem t₀ l₀ : Nat) : List StBlock → Nat → Nat → Prop
  | [], top, last => top = t₀ ∧ last = l₀
  | b :: bs, top, last => top = b.payload + b.size ∧ last = b.payload
      ∧ m.load64 (mem + b.payload - 16) + 16 ≤ b.payload
      ∧ Chain m mem t₀ l₀ bs (m.load64 (mem + b.payload - 16)) (m.load64 (mem + b.payload - 8))

/-- the older block `c` ends where the header of `b` may begin -/
def Below (b c : StBlock) : Prop := c.payload + c.size + 16 ≤ b.payload

section
variable {m m' : Mem} {mem mem' t₀ l₀ top last top' last' : Nat} {b : StBlock} {bs : List StBlock}

theorem Chain.base_le (h : Chain m mem t₀ l₀ bs top last) : t₀ ≤ top := by
  induction bs generalizing top last with
  | nil => exact le_of_eq h.1.symm
  | cons b bs ih =>
    obtain ⟨h1, h2, h3, h4⟩ := h
    have h5 := ih h4
    omega

theorem Chain.bounds (h : Chain m mem t₀ l₀ bs top last) (hb : b ∈ bs) :
    t₀ + 16 ≤ b.payload ∧ b.payload + b.size ≤ top := by
  induction bs generalizing top last with
  | nil => exact absurd hb (List.not_mem_nil)
  | cons c cs ih =>
    obtain ⟨h1, h2, h3, h4⟩ := h
    cases List.mem_cons.mp hb with
    | inl he =>
      subst he
      have h5 := h4.base_le
      omega
    | inr hb' =>
      have h5 := ih h4 hb'
      omega

theorem Chain.below (h : Chain m mem t₀ l₀ bs top last) : bs.Pairwise Below := by
  induction bs generalizing top last with
  | nil => exact List.Pairwise.nil
  | cons c cs ih =>
    obtain ⟨h1, h2, h3, h4⟩ := h
    apply List.Pairwise.cons
    · intro d hd
      have h5 := h4.bounds hd
      unfold Below
      omega
    · exact ih h4

/-- a chain survives in any memory with the same headers -/
theorem Chain.congr (h : Chain m mem t₀ l₀ bs top last)
    (hm : ∀ b ∈ bs, ∀ x, mem + b.payload - 16 ≤ x → x < mem + b.payload → m' x = m x) :
    Chain m' mem t₀ l₀ bs top last := by
  induction bs generalizing top last with
  | nil => exact h
  | cons c cs ih =>
    have hc := h.bounds List.mem_cons_self
    obtain ⟨h1, h2, h3, h4⟩ := h
    have e1 : m'.load64 (mem + c.payload - 16) = m.load64 (mem + c.payload - 16) :=
      Mem.load_congr fun x hx hx' => hm c List.mem_cons_self x (by omega) (by omega)
    have e2 : m'.load64 (mem + c.payload - 8) = m.load64 (mem + c.payload - 8) :=
      Mem.load_congr fun x hx hx' => hm c List.mem_cons_self x (by omega) (by omega)
    have h5 := ih h4 fun b hb => hm b (List.mem_cons_of_mem c hb)
    refine ⟨h1, h2, ?_, ?_⟩
    · rw [e1]
      exact h3
    · rw [e1, e2]
      exact h5

/-- the blocks alone tell the top and the last payload -/
theorem Chain.unique (h : Chain m mem t₀ l₀ bs top last) (h' : Chain m' mem' t₀ l₀ bs top' last') :
    top' = top ∧ last' = last := by
  cases bs with
  | nil => exact ⟨h'.1.trans h.1.symm, h'.2.trans h.2.symm⟩
  | cons b bs => exact ⟨h'.1.trans h.1.symm, h'.2.1.trans h.2.1.symm⟩

/-- one more header above the top -/
theorem Chain.push (h : Chain m mem t₀ l₀ bs top last) (htop : top < 2 ^ 64) (hlast : last < 2 ^ 64)
    (hb : top + 16 ≤ b.payload) :
    Chain ((m.store64 (mem + b.payload - 16) top).store64 (mem + b.payload - 8) last) mem t₀ l₀
      (b :: bs) (b.payload + b.size) b.payload := by
  have e1 : ((m.store64 (mem + b.payload - 16) top).store64 (mem + b.payload - 8) last).load64
      (mem + b.payload - 16) = top := by
    rw [Mem.load64_store64_of_disjoint (by omega), Mem.load64_store64_same htop]
  have e2 : ((m.store64 (mem + b.payload - 16) top).store64 (mem + b.payload - 8) last).load64
      (mem + b.payload - 8) = last := Mem.load64_store64_same hlast
  refine ⟨rfl, rfl, ?_, ?_⟩
  · rw [e1]
    exact hb
  · rw [e1, e2]
    apply h.congr
    intro c hc x hx hx'
    have hcb := h.bounds hc
    rw [Mem.store64_of_notMem (by omega), Mem.store64_of_notMem (by omega)]

end

/-! ## the memory under the stack -/

structure Room (vm : Vm) (a : StAlloc) : Prop where
  bound : a.mem + a.capacity < 2 ^ 64
  rounding : a.capacity + 2 * vm.pageSize ≤ 2 ^ 64

/-- rounding and adding stay below `2^64` -/
def NoWrap (a : StAlloc) (size alignment : Nat) : Prop :=
  ∃ k, k < 64 ∧ alignment = 2 ^ k ∧ hfAlignUp a.top 8 + ST_HDR + (2 ^ k - 1) < 2 ^ 64
    ∧ stPayload a alignment + size < 2 ^ 64

section
variable {vm : Vm} {a a' : StAlloc} {size alignment : Nat}

theorem Room.create {handle : Bool} {m : Mem} {capacity : Nat}
    (h : hfStackCreate vm handle m capacity = some a) :
    Room vm a ∧ a.top = 0 ∧ a.lastPayload = ST_NONE := by
  unfold hfStackCreate at h
  dsimp only at h
  generalize hn : hfAlignUp (if capacity ≠ 0 then capacity else vm.pageSize) vm.pageSize
    = bytes at h
  have hd : vm.pageSize ∣ bytes := hn ▸ hfAlignUp_dvd _ vm.pageOrder_lt
  have hlt : bytes < 2 ^ 64 := hn ▸ hfAlignUp_lt _ vm.pageOrder_lt
  split at h
  · split at h
    · exact absurd h (by simp)
    · obtain rfl := Option.some.inj h
      obtain ⟨h1, h2, h3⟩ := hfVmReserve_spec vm hlt hd (by assumption)
      refine ⟨⟨h2, ?_⟩, rfl, rfl⟩
      -- the end of the memory is a multiple of the page size below `2^64`, and its start is not 0
      obtain ⟨q, hq⟩ := h1
      obtain ⟨r, hr⟩ := hd
      have hp : (2 : Nat) ^ 64 = vm.pageSize * 2 ^ (64 - vm.pageOrder) := by
        have := vm.pageOrder_lt
        unfold Vm.pageSize
        rw [← pow_add]
        congr 1
        omega
      have hq1 : 1 ≤ q := by
        rcases Nat.eq_zero_or_pos q with rfl | hq1
        · exact absurd hq (by assumption)
        · exact hq1
      have hsum : vm.pageSize * (q + r) < vm.pageSize * 2 ^ (64 - vm.pageOrder) := by
        rw [Nat.mul_add, ← hq, ← hr, ← hp]
        exact h2
      have hle : q + r + 1 ≤ 2 ^ (64 - vm.pageOrder) := Nat.lt_of_mul_lt_mul_left hsum
      have hmul := Nat.mul_le_mul_left vm.pageSize (show r + 2 ≤ 2 ^ (64 - vm.pageOrder) by omega)
      rw [Nat.mul_add, ← hp, ← hr] at hmul
      show bytes + 2 * vm.pageSize ≤ 2 ^ 64
      omega
  · exact absurd h (by simp)

/-- the payload lies behind room for a header above the top -/
theorem stPayload_ge (hr : Room vm a) (ht : a.top ≤ a.capacity) (h : NoWrap a size alignment) :
    a.top + 16 ≤ stPayload a alignment := by
  obtain ⟨k, hk, rfl, h1, h2⟩ := h
  have hps := vm.pageSize_ge
  have h3 := hr.rounding
  have h4 : a.top ≤ hfAlignUp a.top 8 :=
    (hfAlignUp_bounds (k := 3) (n := a.top) (by omega) (by decide)).1
  have h5 := (hfAlignUp_bounds h1 hk).1
  have h6 : ST_HDR = 16 := rfl
  unfold stPayload
  dsimp only
  rw [wadd_of_lt (by omega)]
  omega

/-- alignments up to the page size never wrap in the rounding -/
theorem NoWrap.of_page (hr : Room vm a) (ht : a.top ≤ a.capacity) {k : Nat} (hk : k ≤ vm.pageOrder)
    (h : stPayload a (2 ^ k) + size < 2 ^ 64) : NoWrap a size (2 ^ k) := by
  have hlt := vm.pageOrder_lt
  have hps := vm.pageSize_ge
  have hpk : 2 ^ k ≤ vm.pageSize := Nat.pow_le_pow_right (by norm_num) hk
  have h3 := hr.rounding
  have h4 := (hfAlignUp_bounds (k := 3) (n := a.top) (by omega) (by decide)).2
  have h6 : ST_HDR = 16 := rfl
  refine ⟨k, by omega, rfl, ?_, h⟩
  have h7 : hfAlignUp a.top 8 < a.top + 8 := h4
  omega

end

/-! ## one call -/

/-- the fields a call leaves as they are: the memory is the same, and the same bytes long -/
def SamePlace (a a' : StAlloc) : Prop := a'.mem = a.mem ∧ a'.capacity = a.capacity

section
variable {vm : Vm} {a a' : StAlloc} {size alignment p : Nat}

theorem Room.same (h : Room vm a) (hs : SamePlace a a') : Room vm a' := by
  obtain ⟨h1, h2⟩ := hs
  refine ⟨?_, ?_⟩
  · rw [h1, h2]
    exact h.bound
  · rw [h2]
    exact h.rounding

theorem countAlloc_fields : ∀ a : StAlloc, (countAlloc a).mem = a.mem
    ∧ (countAlloc a).lastPayload = a.lastPayload ∧ (countAlloc a).heap = a.heap
  | ⟨m, _, _, l, _, h⟩ => ⟨(rfl : m = m), (rfl : l = l), (rfl : h = h)⟩

theorem countFailed_fields : ∀ a :
    StAlloc, SamePlace a (countFailed a) ∧ (countFailed a).top = a.top
    ∧ (countFailed a).lastPayload = a.lastPayload ∧ (countFailed a).heap = a.heap
  | ⟨m, c, t, l, _, h⟩ =>
  ⟨⟨(rfl : m = m), (rfl : c = c)⟩, (rfl : t = t), (rfl : l = l), (rfl : h = h)⟩

/-- a request is refused and changes nothing but counters, or gets the payload above the top -/
theorem stAllocate_spec (h : stAllocate a size alignment = (p, a')) :
    SamePlace a a' ∧
    ((p = 0 ∧ a'.top = a.top ∧ a'.lastPayload = a.lastPayload ∧ a'.heap = a.heap)
      ∨ (p = wadd a.mem (stPayload a alignment)
        ∧ wadd (stPayload a alignment) size ≤ a.capacity
        ∧ a'.top = wadd (stPayload a alignment) size
        ∧ a'.lastPayload = stPayload a alignment
        ∧ a'.heap = (a.heap.store64 (stHeader a (stPayload a alignment)) a.top).store64
            (wadd (stHeader a (stPayload a alignment)) 8) a.lastPayload)) := by
  obtain ⟨c1, c2, c3⟩ := countAlloc_fields a
  have c4 := countAlloc_capacity a
  have c5 := countAlloc_top a
  have c6 : stHeader (countAlloc a) (stPayload a alignment)
      = stHeader a (stPayload a alignment) := by
    unfold stHeader
    rw [c1]
  unfold stAllocate at h
  dsimp only at h
  rw [stPayload_countAlloc, c6, c3, c5, c2, c1, c4] at h
  generalize countAlloc a = b at c1 c2 c3 c4 c5 h
  generalize wadd (stPayload a alignment) size = newTop at h ⊢
  generalize (a.heap.store64 (stHeader a (stPayload a alignment)) a.top).store64
    (wadd (stHeader a (stPayload a alignment)) 8) a.lastPayload = heap at h ⊢
  split at h
  · obtain ⟨rfl, rfl⟩ := Prod.mk.inj h
    obtain ⟨⟨f1, f2⟩, f3, f4, f5⟩ := countFailed_fields b
    exact ⟨⟨f1.trans c1, f2.trans c4⟩, Or.inl ⟨rfl, f3.trans c5, f4.trans c2, f5.trans c3⟩⟩
  · rename_i hfit
    obtain ⟨rfl, rfl⟩ := Prod.mk.inj h
    exact ⟨⟨rfl, rfl⟩, Or.inr ⟨rfl, Nat.le_of_not_lt hfit, rfl, rfl, rfl⟩⟩

theorem stDeallocate_spec (hp : p ≠ 0) (h : stDeallocate a p = some a') :
    SamePlace a a' ∧ a'.heap = a.heap ∧ wsub p a.mem = a.lastPayload
      ∧ a'.top = a.heap.load64 (stHeader a a.lastPayload)
      ∧ a'.lastPayload = a.heap.load64 (wadd (stHeader a a.lastPayload) 8) := by
  unfold stDeallocate at h
  dsimp only at h
  rw [if_neg hp] at h
  split at h
  · exact absurd h (by simp)
  · rename_i hl
    obtain rfl := Option.some.inj h
    have e : wsub p a.mem = a.lastPayload := not_not.mp hl
    refine ⟨⟨rfl, rfl⟩, rfl, e, ?_, ?_⟩
    · rw [← e]
    · rw [← e]

theorem hfStackRewind_spec {marker : Nat} (h : hfStackRewind a marker = some a') :
    SamePlace a a' ∧ a'.heap = a.heap ∧ marker ≤ a.top ∧ a'.top = marker
    ∧ a'.lastPayload = ST_NONE := by
  unfold hfStackRewind at h
  split at h
  · obtain rfl := Option.some.inj h
    exact ⟨⟨rfl, rfl⟩, rfl, by assumption, rfl, rfl⟩
  · exact absurd h (by simp)

end

/-! ## runs -/

structure StSys where
  a : StAlloc
  /-- what the users hold, newest first -/
  live : List StBlock

inductive LifoStep (s : StSys) : StAct → StSys → Prop
  | alloc {size alignment p : Nat} {a' : StAlloc} (h : stAllocate s.a size alignment = (p, a'))
      (hp : p ≠ 0) :
      LifoStep s (.alloc size alignment) ⟨a', ⟨stPayload s.a alignment, size⟩ :: s.live⟩
  | refused {size alignment : Nat} {a' : StAlloc} (h : stAllocate s.a size alignment = (0, a')) :
      LifoStep s (.alloc size alignment) ⟨a', s.live⟩
  | free {b : StBlock} {bs : List StBlock} {a' : StAlloc} (hl : s.live = b :: bs)
      (h : stDeallocate s.a (wadd s.a.mem b.payload) = some a') :
      LifoStep s (.free (wadd s.a.mem b.payload)) ⟨a', bs⟩
  | rewind {marker : Nat} {a' : StAlloc} (h : hfStackRewind s.a marker = some a') :
      LifoStep s (.rewind marker) ⟨a', s.live.filter fun b => b.payload + b.size ≤ marker⟩
  | write {b : StBlock} {x : Nat} {v : BitVec 8} (hb : b ∈ s.live) (hx : s.a.mem + b.payload ≤ x)
      (hx' : x < s.a.mem + b.payload + b.size) :
      LifoStep s (.write x v) ⟨{ s.a with heap := s.a.heap.setByte x v }, s.live⟩

/-- no request wraps -/
def Calm (s : StSys) : StAct → Prop
  | .alloc size alignment => NoWrap s.a size alignment
  | .free _ => True
  | .rewind _ => True
  | .write _ _ => True

/-- requests with the alignments of the machine, and no rewind -/
def Lifo (vm : Vm) (s : StSys) : StAct → Prop
  | .alloc size alignment =>
      ∃ k, k ≤ vm.pageOrder ∧ alignment = 2 ^ k ∧ stPayload s.a alignment + size < 2 ^ 64
  | .free _ => True
  | .rewind _ => False
  | .write _ _ => True

structure LifoInv (vm : Vm) (t₀ l₀ : Nat) (s : StSys) : Prop where
  room : Room vm s.a
  top_le : s.a.top ≤ s.a.capacity
  last_lt : s.a.lastPayload < 2 ^ 64
  chain : Chain s.a.heap s.a.mem t₀ l₀ s.live s.a.top s.a.lastPayload

section
variable {vm : Vm} {t₀ l₀ : Nat} {s s' : StSys} {a' : StAlloc} {act : StAct} {b c : StBlock}
  {bs : List StBlock} {size alignment p x : Nat}

theorem LifoInv.inside (h : LifoInv vm t₀ l₀ s) (hb : b ∈ s.live) :
    16 ≤ b.payload ∧ b.payload + b.size ≤ s.a.top := by
  have h1 := h.chain.bounds hb
  omega

theorem LifoInv.apart (h : LifoInv vm t₀ l₀ s) (hb : b ∈ s.live) (hc : c ∈ s.live) :
    b = c ∨ Below b c ∨ Below c b := by
  have h1 : s.live.Pairwise fun b c => b = c ∨ Below b c ∨ Below c b :=
    h.chain.below.imp fun hbc => Or.inr (Or.inl hbc)
  have h2 : s.live.Pairwise (flip fun b c => b = c ∨ Below b c ∨ Below c b) :=
    h.chain.below.imp fun hbc => Or.inr (Or.inr hbc)
  refine List.Pairwise.forall_of_forall_of_flip ?_ h1 h2 hb hc
  intro d hd
  exact Or.inl rfl

/-- the header of a payload that gets served -/
theorem stHeader_eq (hr : Room vm s.a) (ht : s.a.top ≤ s.a.capacity) (h : NoWrap s.a size alignment)
    (hfit : wadd (stPayload s.a alignment) size ≤ s.a.capacity) :
    wadd (stPayload s.a alignment) size = stPayload s.a alignment + size
      ∧ stHeader s.a (stPayload s.a alignment) = s.a.mem + stPayload s.a alignment - 16
      ∧ wadd (stHeader s.a (stPayload s.a alignment)) 8 = s.a.mem + stPayload s.a alignment - 8
      ∧ wadd s.a.mem (stPayload s.a alignment) = s.a.mem + stPayload s.a alignment := by
  have h1 := stPayload_ge hr ht h
  obtain ⟨k, hk, -, -, h2⟩ := h
  rw [wadd_of_lt h2] at hfit
  have h3 := hr.bound
  have e1 : wadd s.a.mem (stPayload s.a alignment) = s.a.mem + stPayload s.a alignment :=
    wadd_of_lt (by omega)
  have e2 : stHeader s.a (stPayload s.a alignment) = s.a.mem + stPayload s.a alignment - 16 := by
    unfold stHeader
    rw [e1]
    exact wsub_of_le (show ST_HDR ≤ _ by unfold ST_HDR; omega) (by omega)
  refine ⟨wadd_of_lt h2, e2, ?_, e1⟩
  rw [e2, wadd_of_lt (by omega)]
  omega

/-- what a served request does to the memory and to the top -/
theorem LifoInv.served (h : LifoInv vm t₀ l₀ s) (hw : NoWrap s.a size alignment)
    (ha : stAllocate s.a size alignment = (p, a')) (hp : p ≠ 0) :
    SamePlace s.a a' ∧ s.a.top + 16 ≤ stPayload s.a alignment
      ∧ stPayload s.a alignment + size ≤ s.a.capacity
      ∧ a'.top = stPayload s.a alignment + size ∧ a'.lastPayload = stPayload s.a alignment
      ∧ a'.heap = (s.a.heap.store64 (s.a.mem + stPayload s.a alignment - 16) s.a.top).store64
          (s.a.mem + stPayload s.a alignment - 8) s.a.lastPayload := by
  obtain ⟨hsame, ⟨h0, -⟩ | ⟨-, hfit, h1, h2, h3⟩⟩ := stAllocate_spec ha
  · exact absurd h0 hp
  · obtain ⟨e1, e2, e3, -⟩ := stHeader_eq h.room h.top_le hw hfit
    rw [e1] at h1 hfit
    rw [e2, ← e2, e3, e2] at h3
    exact ⟨hsame, stPayload_ge h.room h.top_le hw, hfit, h1, h2, h3⟩

theorem LifoInv.alloc (h : LifoInv vm t₀ l₀ s) (hw : NoWrap s.a size alignment)
    (ha : stAllocate s.a size alignment = (p, a')) (hp : p ≠ 0) :
    LifoInv vm t₀ l₀ ⟨a', ⟨stPayload s.a alignment, size⟩ :: s.live⟩ := by
  obtain ⟨hsame, hge, hfit, h1, h2, h3⟩ := h.served hw ha hp
  have hb := h.room.bound
  have htop := h.top_le
  have hpush := h.chain.push (b := ⟨stPayload s.a alignment, size⟩) (by omega) h.last_lt hge
  refine ⟨h.room.same hsame, ?_, ?_, ?_⟩
  · show a'.top ≤ a'.capacity
    rw [h1, hsame.2]
    exact hfit
  · show a'.lastPayload < 2 ^ 64
    omega
  · show Chain a'.heap a'.mem t₀ l₀ (_ :: s.live) a'.top a'.lastPayload
    rw [h1, h2, h3, hsame.1]
    exact hpush

theorem LifoInv.refused (h : LifoInv vm t₀ l₀ s) (hw : NoWrap s.a size alignment)
    (ha : stAllocate s.a size alignment = (0, a')) :
    a'.top = s.a.top ∧ a'.heap = s.a.heap ∧ LifoInv vm t₀ l₀ ⟨a', s.live⟩ := by
  obtain ⟨hsame, ⟨-, h1, h2, h3⟩ | ⟨h0, hfit, -⟩⟩ := stAllocate_spec ha
  · refine ⟨h1, h3, h.room.same hsame, ?_, ?_, ?_⟩
    · show a'.top ≤ a'.capacity
      rw [h1, hsame.2]
      exact h.top_le
    · show a'.lastPayload < 2 ^ 64
      rw [h2]
      exact h.last_lt
    · show Chain a'.heap a'.mem t₀ l₀ s.live a'.top a'.lastPayload
      rw [h1, h2, h3, hsame.1]
      exact h.chain
  · -- a pointer that is served is not NULL
    obtain ⟨-, -, -, e⟩ := stHeader_eq h.room h.top_le hw hfit
    have hge := stPayload_ge h.room h.top_le hw
    omega

/-- the newest block can be given back, and its header tells where the top was -/
theorem LifoInv.free (h : LifoInv vm t₀ l₀ s) (hl : s.live = b :: bs) :
    ∃ a', stDeallocate s.a (wadd s.a.mem b.payload) = some a' ∧ SamePlace s.a a'
      ∧ a'.heap = s.a.heap ∧ LifoInv vm t₀ l₀ ⟨a', bs⟩ := by
  have hb := h.inside (b := b) (hl ▸ List.mem_cons_self)
  have h1 := h.room.bound
  have h2 := h.top_le
  obtain ⟨c1, c2, c3, c4⟩ := hl ▸ h.chain
  have e1 : wadd s.a.mem b.payload = s.a.mem + b.payload := wadd_of_lt (by omega)
  have e2 : wsub (s.a.mem + b.payload) s.a.mem = b.payload := by
    rw [wsub_of_le (by omega) (by omega)]
    omega
  have e3 : stHeader s.a b.payload = s.a.mem + b.payload - 16 := by
    unfold stHeader
    rw [e1]
    exact wsub_of_le (show ST_HDR ≤ _ by unfold ST_HDR; omega) (by omega)
  have e4 : wadd (s.a.mem + b.payload - 16) 8 = s.a.mem + b.payload - 8 := by
    rw [wadd_of_lt (by omega)]
    omega
  have hne : ¬ b.payload ≠ s.a.lastPayload := not_not_intro c2.symm
  unfold stDeallocate
  dsimp only
  rw [e1, if_neg (by omega), e2, if_neg hne, e3, e4]
  refine ⟨_, rfl, ⟨rfl, rfl⟩, rfl, ⟨h.room.bound, h.room.rounding⟩, ?_, ?_, c4⟩
  · show s.a.heap.load64 (s.a.mem + b.payload - 16) ≤ s.a.capacity
    omega
  · exact Mem.load64_lt _ _

/-- writes that miss the headers do not matter -/
theorem LifoInv.write {v : BitVec 8} (h : LifoInv vm t₀ l₀ s)
    (hx : ∀ b ∈ s.live, x < s.a.mem + b.payload - 16 ∨ s.a.mem + b.payload ≤ x) :
    LifoInv vm t₀ l₀ ⟨{ s.a with heap := s.a.heap.setByte x v }, s.live⟩ := by
  refine ⟨⟨h.room.bound, h.room.rounding⟩, h.top_le, h.last_lt, h.chain.congr ?_⟩
  intro b hb y hy hy'
  have hne := hx b hb
  exact if_neg (by omega)

/-- the payload of a live block meets no header -/
theorem LifoInv.payload_misses (h : LifoInv vm t₀ l₀ s) (hc : c ∈ s.live)
    (hx : s.a.mem + c.payload ≤ x) (hx' : x < s.a.mem + c.payload + c.size) (hb : b ∈ s.live) :
    x < s.a.mem + b.payload - 16 ∨ s.a.mem + b.payload ≤ x := by
  have h1 := h.inside hb
  rcases h.apart hb hc with rfl | hbc | hcb
  · omega
  · unfold Below at hbc
    omega
  · unfold Below at hcb
    omega

theorem LifoInv.step (h : LifoInv vm t₀ l₀ s) (hs : LifoStep s act s') (hc : Calm s act)
    (hn : ∀ marker, act ≠ .rewind marker) : LifoInv vm t₀ l₀ s' := by
  cases hs with
  | alloc ha hp => exact h.alloc hc ha hp
  | refused ha => exact (h.refused hc ha).2.2
  | free hl hf =>
    obtain ⟨a₁, h1, -, -, h2⟩ := h.free hl
    obtain rfl : a₁ = _ := Option.some.inj (h1.symm.trans hf)
    exact h2
  | rewind hr => exact absurd rfl (hn _)
  | write hb hx hx' => exact h.write fun c hc' => h.payload_misses hb hx hx' hc'

/-- **A header stays as it is while its block is live.** -/
theorem LifoInv.header_kept (h : LifoInv vm t₀ l₀ s) (hs : LifoStep s act s') (hc : Calm s act)
    (hn : ∀ marker, act ≠ .rewind marker) (hb : b ∈ s.live) (hx : s.a.mem + b.payload - 16 ≤ x)
    (hx' : x < s.a.mem + b.payload) : s'.a.heap x = s.a.heap x := by
  have hbi := h.inside hb
  cases hs with
  | alloc ha hp =>
    obtain ⟨-, hge, -, -, -, he⟩ := h.served hc ha hp
    show _ = s.a.heap x
    rw [he, Mem.store64_of_notMem (by omega), Mem.store64_of_notMem (by omega)]
  | refused ha => exact congrFun (h.refused hc ha).2.1 x
  | free hl hf =>
    obtain ⟨a₁, h1, -, h2, -⟩ := h.free hl
    obtain rfl : a₁ = _ := Option.some.inj (h1.symm.trans hf)
    exact congrFun h2 x
  | rewind hr => exact absurd rfl (hn _)
  | write hw hy hy' =>
    have hm := h.payload_misses hw hy hy' hb
    exact if_neg (by omega)

theorem Calm.of_lifo (h : LifoInv vm t₀ l₀ s) (hl : Lifo vm s act) :
    Calm s act ∧ ∀ marker, act ≠ .rewind marker := by
  cases act with
  | alloc size alignment =>
    obtain ⟨k, hk, rfl, hw⟩ := hl
    exact ⟨NoWrap.of_page h.room h.top_le hk hw, by simp⟩
  | free ptr => exact ⟨trivial, by simp⟩
  | rewind marker => exact absurd hl id
  | write x v => exact ⟨trivial, by simp⟩

end

/-- a step of a run without rewinds -/
def LifoRun (vm : Vm) (s : StSys) (act : StAct) (s' : StSys) : Prop :=
  LifoStep s act s' ∧ Lifo vm s act

section
variable {vm : Vm} {t₀ l₀ : Nat} {s s' : StSys} {acts : List StAct}

theorem LifoInv.run (h : LifoInv vm t₀ l₀ s) (hrun : Steps (LifoRun vm) s acts s') :
    LifoInv vm t₀ l₀ s' :=
  hrun.invariant (I := LifoInv vm t₀ l₀) h fun _ _ _ h hs =>
    h.step hs.1 (Calm.of_lifo h hs.2).1 (Calm.of_lifo h hs.2).2

theorem LifoInv.create {handle : Bool} {m : Mem} {capacity : Nat} {a₀ : StAlloc}
    (h : hfStackCreate vm handle m capacity = some a₀) : LifoInv vm 0 ST_NONE ⟨a₀, []⟩ := by
  obtain ⟨h1, h2, h3⟩ := Room.create h
  refine ⟨h1, ?_, ?_, h2, h3⟩
  · show a₀.top ≤ a₀.capacity
    omega
  · show a₀.lastPayload < 2 ^ 64
    rw [h3]
    decide

/-- **Last in, first out.**  In every state of a run the headers and payloads of the live blocks are
apart and below the top; the newest block can be given back; the top and the last payload are the
same whenever the same blocks are live, in particular after a block and all that was allocated on
it have been given back; and no call and no write changes the header of a live block. -/
theorem lifo_discipline {handle : Bool} {m : Mem} {capacity : Nat} {a₀ : StAlloc}
    (hc : hfStackCreate vm handle m capacity = some a₀)
    (hrun : Steps (LifoRun vm) ⟨a₀, []⟩ acts s) :
    s.a.top ≤ s.a.capacity
    ∧ (∀ b ∈ s.live, 16 ≤ b.payload ∧ b.payload + b.size ≤ s.a.top)
    ∧ s.live.Pairwise Below
    ∧ (∀ b bs, s.live = b :: bs → ∃ a', stDeallocate s.a (wadd s.a.mem b.payload) = some a')
    ∧ (∀ acts' s', Steps (LifoRun vm) s acts' s' → s'.live = s.live →
        s'.a.top = s.a.top ∧ s'.a.lastPayload = s.a.lastPayload)
    ∧ (∀ act b s₁ acts' s₂ a', LifoRun vm s act s₁ → s₁.live = b :: s.live →
        Steps (LifoRun vm) s₁ acts' s₂ → s₂.live = s₁.live →
        stDeallocate s₂.a (wadd s₂.a.mem b.payload) = some a' →
        a'.top = s.a.top ∧ a'.lastPayload = s.a.lastPayload)
    ∧ (∀ act s', LifoRun vm s act s' → ∀ b ∈ s.live, b ∈ s'.live →
        ∀ x, s.a.mem + b.payload - 16 ≤ x → x < s.a.mem + b.payload →
        s'.a.heap x = s.a.heap x) := by
  have h := (LifoInv.create hc).run hrun
  refine ⟨h.top_le, fun b hb => h.inside hb, h.chain.below, ?_, ?_, ?_, ?_⟩
  · intro b bs hl
    obtain ⟨a', ha, -⟩ := h.free hl
    exact ⟨a', ha⟩
  · intro acts' s' hrun' hl
    have h' := (h.run hrun').chain
    rw [hl] at h'
    exact h.chain.unique h'
  · intro act b s₁ acts' s₂ a' hstep hl hrun' hl' hf
    -- after the block is given back the blocks of `s` are live again
    have h₂ := (h.run (Steps.snoc (Steps.nil s) hstep)).run hrun'
    obtain ⟨a₁, h1, hsame, -, h'⟩ := h₂.free (hl'.trans hl)
    obtain rfl : a₁ = _ := Option.some.inj (h1.symm.trans hf)
    exact h.chain.unique h'.chain
  · intro act s' hs b hb _ x hx hx'
    have hcalm := Calm.of_lifo h hs.2
    exact h.header_kept hs.1 hcalm.1 hcalm.2 hb hx hx'

end

/-- a fresh stack of one page -/
def emptyStack : StAlloc := ⟨2 ^ 20, 4096, 0, ST_NONE, Stats.fresh 4096, Mem.zero⟩

theorem emptyStack_create : hfStackCreate sampleVm true Mem.zero 4096 = some emptyStack := by
  have h1 : hfAlignUp (if (4096 : Nat) ≠ 0 then 4096 else sampleVm.pageSize) sampleVm.pageSize
      = 4096 := by
    decide +kernel
  have h2 : hfVmReserve sampleVm 4096 = 2 ^ 20 := by decide +kernel
  unfold hfStackCreate
  dsimp only
  rw [h1, h2, if_pos rfl, if_neg (by decide)]
  rfl

/-- the fresh stack after a request for 24 bytes -/
def oneBlock : StAlloc := (stAllocate emptyStack 24 16).2

theorem oneBlock_alloc : stAllocate emptyStack 24 16 = (2 ^ 20 + 16, oneBlock) := by
  have h : (stAllocate emptyStack 24 16).1 = 2 ^ 20 + 16 := by decide +kernel
  exact Prod.ext h rfl

theorem oneBlock_step : LifoStep ⟨emptyStack, []⟩ (.alloc 24 16) ⟨oneBlock, [⟨16, 24⟩]⟩ := by
  have h : stPayload emptyStack 16 = 16 := by decide +kernel
  have hs : LifoStep ⟨emptyStack, []⟩ (.alloc 24 16) ⟨oneBlock, [⟨stPayload emptyStack 16, 24⟩]⟩ :=
    LifoStep.alloc oneBlock_alloc (by omega)
  rwa [h] at hs

theorem lifo_discipline_oneBlock :
    Steps (LifoRun sampleVm) ⟨emptyStack, []⟩ [.alloc 24 16] ⟨oneBlock, [⟨16, 24⟩]⟩
    ∧ oneBlock.top ≤ oneBlock.capacity
    ∧ ∃ a', stDeallocate oneBlock (wadd oneBlock.mem 16) = some a' := by
  have hl : Lifo sampleVm ⟨emptyStack, []⟩ (.alloc 24 16) := by
    refine ⟨4, by decide, rfl, ?_⟩
    show stPayload emptyStack 16 + 24 < 2 ^ 64
    decide +kernel
  have hrun : Steps (LifoRun sampleVm) ⟨emptyStack, []⟩ [.alloc 24 16] ⟨oneBlock, [⟨16, 24⟩]⟩ :=
    Steps.snoc (Steps.nil _) ⟨oneBlock_step, hl⟩
  have h := lifo_discipline emptyStack_create hrun
  exact ⟨hrun, h.1, h.2.2.2.1 ⟨16, 24⟩ [] rfl⟩

end HeapForge.Stack
