import HeapForge.Lib.Run
import HeapForge.Buddy.Refine

/-!
# Runs of the C buddy allocator

Users allocate, free live pointers and write any byte of the payload of a live block, that is of
the block behind its first sixteen bytes.

* `bdAllocate_fail`, `bdAllocate_carve`   what a request does, by the lists from its order on;
* `SysInv.alloc_cases`, `SysInv.free_spec`   the same with the counters;
* `SysInv.step`     every step keeps the buddy system.
-/

set_option linter.unusedSectionVars false
set_option linter.unusedVariables false

namespace HeapForge.Buddy
open Lib Function

/-! ## requests -/

section
variable {a : BdAlloc} {bs act l₁ l₂ : List Block} {lists : Nat → List Nat} {b c : Block}
  {size alignment x k d o fuel : Nat}

theorem orderFor_ge (bytes : Nat) : a.minOrder ≤ orderFor a bytes := by
  unfold orderFor
  dsimp only
  split <;> omega

theorem CInv.head_null (h : CInv a bs act lists) : a.freeLists k = 0 ↔ lists k = [] := by
  rw [h.head k]
  cases hl : lists k with
  | nil => simp [nodesOf]
  | cons x t =>
    have hx : a.mem + x ∈ nodesOf a.mem (lists k) := mem_nodesOf.mpr (by rw [hl]; simp)
    have h1 := (h.sys.nodes_addr h.geo hx).2.1
    constructor
    · intro he
      have he' : a.mem + x = 0 := he
      omega
    · intro he
      exact absurd he (by simp)

/-- the scan passes the empty lists and stops at the first other one -/
theorem scanLoop_spec (fuel o : Nat) (hn : ∀ j, a.freeLists j = 0 ↔ lists j = [])
    (hf : a.maxOrder + 1 ≤ fuel + o) :
    o ≤ scanLoop a fuel o ∧ (∀ j, o ≤ j → j < scanLoop a fuel o → lists j = [])
      ∧ (scanLoop a fuel o ≤ a.maxOrder → lists (scanLoop a fuel o) ≠ []) := by
  induction fuel generalizing o with
  | zero =>
    have e : scanLoop a 0 o = o := rfl
    rw [e]
    exact ⟨le_rfl, fun j h1 h2 => by omega, fun h => by omega⟩
  | succ fuel ih =>
    unfold scanLoop
    split
    · next hc =>
      obtain ⟨h1, h2, h3⟩ := ih (o + 1) (by omega)
      refine ⟨by omega, fun j hj1 hj2 => ?_, h3⟩
      by_cases e : j = o
      · rw [e]
        exact (hn o).mp hc.2
      · exact h2 j (by omega) hj2
    · next hc =>
      refine ⟨le_rfl, fun j h1 h2 => by omega, fun hle he => hc ⟨hle, (hn o).mpr he⟩⟩

/-- no list from the order on has a block: the request fails -/
theorem bdAllocate_fail (h : CInv a bs bs lists) (hk : orderFor a (bdNeed size alignment) = k)
    (he : ∀ j, k ≤ j → j ≤ a.maxOrder → lists j = []) :
    bdAllocate a size alignment = (0, countFailed (countAlloc a)) := by
  unfold bdAllocate
  dsimp only
  rw [hk]
  split
  · rfl
  · next hle =>
    obtain ⟨h1, h2, h3⟩ := scanLoop_spec (a := countAlloc a) (a.maxOrder + 1) k
      (fun j => h.head_null) (by show a.maxOrder + 1 ≤ _; omega)
    by_cases hs : scanLoop (countAlloc a) (a.maxOrder + 1) k ≤ a.maxOrder
    · exact absurd (he _ h1 hs) (h3 hs)
    · rw [if_pos (show scanLoop (countAlloc a) ((countAlloc a).maxOrder + 1) k
        > (countAlloc a).maxOrder from Nat.lt_of_not_le hs)]

/-- the first list with a block is the one a block is carved from -/
theorem bdAllocate_carve (h : CInv a bs bs lists) (hk : orderFor a (bdNeed size alignment) = k)
    (hle : k + d ≤ a.maxOrder) (hne : lists (k + d) ≠ [])
    (he : ∀ j, k ≤ j → j < k + d → lists j = []) :
    bdAllocate a size alignment = bdCarve (countAlloc a) k (k + d) := by
  obtain ⟨h1, h2, h3⟩ := scanLoop_spec (a := countAlloc a) (a.maxOrder + 1) k
    (fun j => h.head_null) (by show a.maxOrder + 1 ≤ _; omega)
  have hs : scanLoop (countAlloc a) (a.maxOrder + 1) k = k + d := by
    rcases Nat.lt_trichotomy (scanLoop (countAlloc a) (a.maxOrder + 1) k)
      (k + d) with hlt | heq | hgt
    · exact absurd (he _ h1 hlt) (h3 (by show _ ≤ a.maxOrder; omega))
    · exact heq
    · exact absurd (h2 (k + d) (by omega) hgt) hne
  have hmx : (countAlloc a).maxOrder = a.maxOrder := rfl
  unfold bdAllocate
  dsimp only
  rw [hk, hmx, if_neg (by omega), hs, if_neg (by omega)]

/-- the least order from `k` on whose list has a block -/
theorem least_order (lists : Nat → List Nat) (mx k : Nat) :
    (∀ j, k ≤ j → j ≤ mx → lists j = [])
    ∨ ∃ d x t, k + d ≤ mx ∧ lists (k + d) = x :: t ∧ ∀ j, k ≤ j → j < k + d → lists j = [] := by
  by_cases hex : ∃ d, k + d ≤ mx ∧ lists (k + d) ≠ []
  · right
    have h1 := Nat.find_spec hex
    obtain ⟨x, t, hl⟩ := List.exists_cons_of_ne_nil h1.2
    refine ⟨Nat.find hex, x, t, h1.1, hl, fun j hj1 hj2 => ?_⟩
    by_contra hne
    have h2 := Nat.find_min' hex (m := j - k)
      ⟨by omega, by rw [Nat.add_sub_cancel' hj1]; exact hne⟩
    omega
  · left
    intro j h1 h2
    by_contra hne
    exact hex ⟨j - k, by omega, by rw [Nat.add_sub_cancel' h1]; exact hne⟩

/-- the block at the head of a list -/
theorem BInv.head_block {t : List Nat} {mn mx : Nat} (h : BInv mn mx bs bs lists)
    (hl : lists o = x :: t) : ∃ hx l₁ l₂, bs = l₁ ++ (⟨x, o, false, hx⟩ : Block) :: l₂ := by
  obtain ⟨b, hb, hf, ho, hx⟩ := (h.mem o x).mp (by rw [hl]; simp)
  obtain ⟨l₁, l₂, e⟩ := List.append_of_mem hb
  obtain ⟨y, j, u, hd⟩ := b
  have hf : u = false := hf
  have ho : j = o := ho
  have hx : y = x := hx
  subst hf ho hx
  exact ⟨hd, l₁, l₂, e⟩

/-! ## payload writes -/

def BdAlloc.writeByte (a : BdAlloc) (x : Nat) (v : BitVec 8) : BdAlloc :=
  { a with heap := a.heap.setByte x v }

theorem BInv.outside_payload (h : BInv (floorOrder a.minOrder) a.maxOrder bs bs lists) (hg : Geo a)
    (hb : b ∈ bs) (hu : b.used = true) (h1 : a.mem + b.off + 16 ≤ x)
    (h2 : x < a.mem + b.off + b.size) (hc : c ∈ bs) {y : Nat} (h3 : a.mem + c.off ≤ y)
    (h4 : y < a.mem + c.off + 16) : y ≠ x := by
  have hcs := h.place (floorOrder_ge _).2 hc
  by_cases e : c = b
  · subst e
    omega
  · have := h.apart hc hb e
    omega

/-- what users write into their payloads does not matter -/
theorem CInv.payload (h : CInv a bs bs lists) (hb : b ∈ bs) (hu : b.used = true)
    (h1 : a.mem + b.off + 16 ≤ x) (h2 : x < a.mem + b.off + b.size) (v : BitVec 8) :
    CInv (a.writeByte x v) bs bs lists := by
  have hs : Mem.SameOn (· ≠ x) a.heap (a.heap.setByte x v) := Mem.sameOn_setByte fun _ h => h
  have hout : ∀ c ∈ bs, ∀ y, a.mem + c.off ≤ y → y < a.mem + c.off + 16 → y ≠ x :=
    fun c hc y h3 h4 => h.sys.outside_payload h.geo hb hu h1 h2 hc h3 h4
  have hnode : ∀ k, ∀ n ∈ nodesOf a.mem (lists k), ∀ y, n ≤ y → y < n + 16 → y ≠ x := by
    intro k n hn y h3 h4
    obtain ⟨z, hz, rfl⟩ := List.mem_map.mp hn
    obtain ⟨c, hc, -, -, rfl⟩ := (h.sys.mem k z).mp hz
    exact hout c hc y h3 h4
  refine CInv.of (a := a) rfl rfl rfl rfl h.geo h.sys h.entry h.head
    (fun k => ?_) fun c hc hcu => ?_
  · exact (h.chain k).congr
      (fun n hn => hs.load64 fun y h3 h4 => hnode k n hn y h3 (by omega))
      (fun n hn => hs.load64 fun y h3 h4 => hnode k n hn y (by omega) (by omega))
  · show (a.heap.setByte x v).load64 (a.mem + c.off) = c.order
    rw [hs.load64 fun y h3 h4 => hout c hc y h3 (by omega)]
    exact h.tags c hc hcu

end

/-! ## the system -/

/-- a live pointer and the order of the block that was reserved for it -/
structure Live where
  ptr : Nat
  order : Nat
  deriving DecidableEq

structure Sys where
  a : BdAlloc
  live : List Live

def Sys.start (a : BdAlloc) : Sys := ⟨a, []⟩

inductive BdAct
  | alloc (size alignment : Nat)
  | free (ptr : Nat)
  | write (addr : Nat) (byte : BitVec 8)

inductive BdStep : Sys → BdAct → Sys → Prop
  | fail {s : Sys} {size alignment : Nat} {a' : BdAlloc} :
      size < 2 ^ 64 → alignment < 2 ^ 64 → bdAllocate s.a size alignment = (0, a') →
      BdStep s (.alloc size alignment) ⟨a', s.live⟩
  | alloc {s : Sys} {size alignment p : Nat} {a' : BdAlloc} :
      size < 2 ^ 64 → alignment < 2 ^ 64 → bdAllocate s.a size alignment = (p, a') → p ≠ 0 →
      BdStep s (.alloc size alignment) ⟨a', ⟨p, orderFor s.a (bdNeed size alignment)⟩ :: s.live⟩
  | free {s : Sys} {e : Live} {a' : BdAlloc} :
      e ∈ s.live → bdDeallocate s.a e.ptr = some a' →
      BdStep s (.free e.ptr) ⟨a', s.live.erase e⟩
  | write {s : Sys} {e : Live} {x : Nat} {v : BitVec 8} :
      e ∈ s.live → e.ptr ≤ x → x + 16 < e.ptr + 2 ^ e.order →
      BdStep s (.write x v) ⟨s.a.writeByte x v, s.live⟩

/-- the block of a live pointer -/
def Live.At (e : Live) (mem : Nat) (b : Block) : Prop :=
  b.used = true ∧ e.ptr = mem + b.off + 16 ∧ e.order = b.order

structure SysInv (s : Sys) (bs : List Block) (lists : Nat → List Nat) : Prop where
  inv : CInv s.a bs bs lists
  used : s.a.stats.used = usedSum bs
  live : ∀ e ∈ s.live, ∃ b ∈ bs, e.At s.a.mem b
  nodup : (s.live.map Live.ptr).Nodup
  /-- slots are no smaller than nodes, so every order asked for is possible -/
  min_ge : 4 ≤ s.a.minOrder

/-- what no call changes -/
structure Fixed (a a' : BdAlloc) : Prop where
  mem : a'.mem = a.mem
  minOrder : a'.minOrder = a.minOrder
  capacity : a'.capacity = a.capacity

/-- every used block has its live pointer -/
def Owned (s : Sys) (bs : List Block) : Prop :=
  ∀ b ∈ bs, b.used = true → ∃ e ∈ s.live, e.At s.a.mem b

section
variable {s s' : Sys} {bs l₁ l₂ : List Block} {lists : Nat → List Nat} {e : Live} {act : BdAct}
  {size alignment k d x : Nat}

theorem SysInv.of {a : BdAlloc} {live : List Live} (h : CInv a bs bs lists)
    (hu : a.stats.used = usedSum bs) (hl : ∀ e ∈ live, ∃ b ∈ bs, e.At a.mem b)
    (hd : (live.map Live.ptr).Nodup) (hm : 4 ≤ a.minOrder) : SysInv ⟨a, live⟩ bs lists :=
  ⟨h, hu, hl, hd, hm⟩

theorem SysInv.floor_le (h : SysInv s bs lists) (bytes : Nat) :
    floorOrder s.a.minOrder ≤ orderFor s.a bytes :=
  max_le (orderFor_ge bytes) (h.min_ge.trans (orderFor_ge bytes))

/-- a request: nothing from its order on, or a block is carved -/
theorem SysInv.alloc_cases (h : SysInv s bs lists)
    (hk : orderFor s.a (bdNeed size alignment) = k) :
    ((∀ j, k ≤ j → j ≤ s.a.maxOrder → lists j = [])
        ∧ bdAllocate s.a size alignment = (0, countFailed (countAlloc s.a)))
    ∨ ∃ (d x : Nat) (t : List Nat) (hx : 2 ^ (k + d) ∣ x) (l₁ l₂ : List Block) (a' : BdAlloc),
        k + d ≤ s.a.maxOrder ∧ lists (k + d) = x :: t
        ∧ (∀ j, k ≤ j → j < k + d → lists j = [])
        ∧ bs = l₁ ++ ⟨x, k + d, false, hx⟩ :: l₂
        ∧ bdAllocate s.a size alignment = (s.a.mem + x + 16, a')
        ∧ CInv a'
          (l₁ ++ ⟨x, k, true, (pow_dvd_pow 2 (Nat.le_add_right k d)).trans hx⟩ :: splitBlocks x
            k d hx l₂)
          (l₁ ++ ⟨x, k, true, (pow_dvd_pow 2 (Nat.le_add_right k d)).trans hx⟩ :: splitBlocks x
            k d hx l₂)
          (splitLists x k d (update lists (k + d) t))
        ∧ Mem.SameOn (UsedBytes s.a.mem bs) s.a.heap a'.heap
        ∧ Fixed s.a a'
        ∧ a'.stats.used = s.a.stats.used + 2 ^ k
        ∧ usedSum (l₁ ++ ⟨x, k, true, (pow_dvd_pow 2 (Nat.le_add_right k d)).trans hx⟩
            :: splitBlocks x k d hx l₂) = usedSum bs + 2 ^ k := by
  rcases least_order lists s.a.maxOrder k with he | ⟨d, x, t, hle, hl, he⟩
  · exact Or.inl ⟨he, bdAllocate_fail h.inv hk he⟩
  · right
    obtain ⟨hx, l₁, l₂, rfl⟩ := h.inv.sys.head_block hl
    have hc : CInv (countAlloc s.a) (l₁ ++ ⟨x, k + d, false, hx⟩ :: l₂)
      (l₁ ++ ⟨x, k + d, false, hx⟩ :: l₂) lists := h.inv.restat _
    obtain ⟨a', e1, e2, e3, e4⟩ := bdCarve_spec hc hl (hk ▸ h.floor_le _)
    have hfil : (l₁ ++ splitBlocks x k d hx l₂).filter Block.used
        = (l₁ ++ ⟨x, k + d, false, hx⟩ :: l₂).filter Block.used := by
      rw [filter_middle_free rfl, splitBlocks_middle_used]
    have hsum : usedSum (l₁ ++ ⟨x, k, true, (pow_dvd_pow 2 (Nat.le_add_right k d)).trans hx⟩
        :: splitBlocks x k d hx l₂) = usedSum (l₁ ++ ⟨x, k + d, false, hx⟩ :: l₂) + 2 ^ k :=
      usedSum_middle rfl hfil
    have hlt := usedSum_le e2.sys
    have hmx : a'.maxOrder = s.a.maxOrder := e4.maxOrder
    have hb := h.inv.geo.bound
    have hst : a'.stats.used = wadd s.a.stats.used (2 ^ k) := by
      rw [e4.stats]
      rfl
    rw [hsum, hmx] at hlt
    refine ⟨d, x, t, hx, l₁, l₂, a', hle, hl, he, rfl, ?_, e2, e3,
      ⟨e4.mem, e4.minOrder, e4.capacity⟩, ?_, hsum⟩
    · rw [bdAllocate_carve h.inv hk hle (by rw [hl]; simp) he]
      exact e1
    · rw [hst, wadd_of_lt]
      rw [h.used]
      omega

/-- a free of a live pointer -/
theorem SysInv.free_spec (h : SysInv s bs lists) (he : e ∈ s.live) :
    ∃ (l₁ l₂ : List Block) (b : Block) (a' : BdAlloc), bs = l₁ ++ b :: l₂ ∧ e.At s.a.mem b
      ∧ bdDeallocate s.a e.ptr = some a'
      ∧ CInv a' (releaseMid s.a.maxOrder l₁ b l₂ lists).blocks
        (releaseMid s.a.maxOrder l₁ b l₂ lists).blocks (releaseMid s.a.maxOrder l₁ b l₂ lists).put
      ∧ Fixed s.a a'
      ∧ a'.stats.used = usedSum (releaseMid s.a.maxOrder l₁ b l₂ lists).blocks
      ∧ (releaseMid s.a.maxOrder l₁ b l₂ lists).blocks.filter Block.used
        = (l₁ ++ l₂).filter Block.used := by
  obtain ⟨b, hb, hu, hp, ho⟩ := h.live e he
  obtain ⟨l₁, l₂, rfl⟩ := List.append_of_mem hb
  obtain ⟨a', e1, e2, e3, e4, e5⟩ := bdDeallocate_spec h.inv hu
  have hfil : (releaseMid s.a.maxOrder l₁ b l₂ lists).blocks.filter Block.used
      = (l₁ ++ l₂).filter Block.used := by
    rw [← e5]
    exact filter_middle_free releaseMid_used
  refine ⟨l₁, l₂, b, a', rfl, ⟨hu, hp, ho⟩, by rw [hp]; exact e1, e2,
    ⟨e4.mem, e4.minOrder, e4.capacity⟩, ?_, hfil⟩
  have hsum : usedSum (l₁ ++ b :: l₂) = usedSum (l₁ ++ l₂) + b.size := usedSum_middle hu rfl
  have hle := usedSum_le h.inv.sys
  have hbd := h.inv.geo.bound
  have hst : a'.stats.used = wsub s.a.stats.used b.size := by
    rw [e4.stats]
    rfl
  have hsame : usedSum (releaseMid s.a.maxOrder l₁ b l₂ lists).blocks = usedSum (l₁ ++ l₂) := by
    unfold usedSum
    rw [hfil]
  rw [hst, hsame, h.used, wsub_of_le (by omega) (by omega)]
  omega

/-- **Every step keeps the system.** -/
theorem SysInv.step (h : SysInv s bs lists) (hstep : BdStep s act s') :
    ∃ bs' lists', SysInv s' bs' lists' ∧ Fixed s.a s'.a ∧ (Owned s bs → Owned s' bs') := by
  cases hstep with
  | @fail size alignment a' h1 h2 hr =>
    rcases h.alloc_cases rfl with ⟨-, e⟩ | ⟨d, x, t, hx, l₁, l₂, a'', -, -, -, -, e, -⟩
    · rw [hr] at e
      obtain rfl : a' = _ := (Prod.mk.inj e).2
      exact ⟨bs, lists, SysInv.of ((h.inv.restat _).restat _) h.used h.live h.nodup h.min_ge,
        ⟨rfl, rfl, rfl⟩, fun ho => ho⟩
    · rw [hr] at e
      have := (Prod.mk.inj e).1
      omega
  | @alloc size alignment p a' h1 h2 hr hp =>
    rcases h.alloc_cases (k := orderFor s.a (bdNeed size alignment)) rfl with
      ⟨-, e⟩ | ⟨d, x, t, hx, l₁, l₂, a'', -, -, -, hbs, e, hinv, -, hfix, hused, hsum⟩
    · rw [hr] at e
      exact absurd (Prod.mk.inj e).1 hp
    · rw [hr] at e
      obtain ⟨rfl, rfl⟩ := Prod.mk.inj e
      generalize orderFor s.a (bdNeed size alignment) = k at *
      have hold : ∀ b : Block, b.used = true → (b ∈ l₁ ++ splitBlocks x k d hx l₂ ↔ b ∈ bs) := by
        refine fun b hb => mem_iff_of_filter_used ?_ hb
        rw [splitBlocks_middle_used, hbs, filter_middle_free rfl]
      refine ⟨_, _, SysInv.of hinv (by rw [hused, hsum, h.used]) ?_ ?_ (hfix.minOrder ▸ h.min_ge),
        hfix, ?_⟩
      · intro e he
        rw [hfix.mem]
        rcases List.mem_cons.mp he with rfl | he
        · exact ⟨_, List.mem_append_right _ List.mem_cons_self, rfl, rfl, rfl⟩
        · obtain ⟨b, hb, hat⟩ := h.live e he
          exact ⟨b, mem_middle_of_mem ((hold b hat.1).mpr hb), hat⟩
      · rw [List.map_cons, List.nodup_cons]
        refine ⟨fun hm => ?_, h.nodup⟩
        obtain ⟨e, he, hep⟩ := List.mem_map.mp hm
        obtain ⟨b, hb, hu, hp', -⟩ := h.live e he
        have hep' : e.ptr = s.a.mem + x + 16 := hep
        -- the block carved from was free
        have hfree : b = ⟨x, k + d, false, hx⟩ :=
          h.inv.sys.off_inj hb (by rw [hbs]; simp) (by show b.off = x; omega)
        rw [hfree] at hu
        exact absurd hu (by simp)
      · intro ho b hb hu
        show ∃ e ∈ _ :: s.live, e.At a'.mem b
        rw [hfix.mem]
        rcases mem_middle_iff.mp hb with rfl | hb
        · exact ⟨_, List.mem_cons_self, rfl, rfl, rfl⟩
        · obtain ⟨e, he, hat⟩ := ho b ((hold b hu).mp hb) hu
          exact ⟨e, List.mem_cons_of_mem _ he, hat⟩
  | @free e a' he hr =>
    obtain ⟨l₁, l₂, b, a'', hbs, hat, e1, hinv, hfix, hused, hfil⟩ := h.free_spec he
    rw [hr] at e1
    obtain rfl := Option.some.inj e1
    have hold : ∀ c : Block, c.used = true →
        (c ∈ (releaseMid s.a.maxOrder l₁ b l₂ lists).blocks ↔ c ∈ l₁ ++ l₂) :=
      fun c hc => mem_iff_of_filter_used hfil hc
    have hbm : b ∈ bs := by rw [hbs]; simp
    refine ⟨_, _, SysInv.of hinv hused ?_ (h.nodup.sublist (List.erase_sublist.map _))
      (hfix.minOrder ▸ h.min_ge), hfix, ?_⟩
    · intro e' he'
      have hne : e'.ptr ≠ e.ptr := key_ne_of_mem_erase h.nodup he he'
      obtain ⟨c, hc, hcat⟩ := h.live e' (List.mem_of_mem_erase he')
      rw [hfix.mem]
      have hcb : c ≠ b := by
        rintro rfl
        exact hne (hcat.2.1.trans hat.2.1.symm)
      exact ⟨c, (hold c hcat.1).mpr (mem_of_mem_middle (hbs ▸ hc) hcb), hcat⟩
    · intro ho c hc hu
      show ∃ e' ∈ s.live.erase e, e'.At a'.mem c
      rw [hfix.mem]
      have hc' := (hold c hu).mp hc
      obtain ⟨e', he', hat'⟩ := ho c (by rw [hbs]; exact mem_middle_of_mem hc') hu
      refine ⟨e', (List.mem_erase_of_ne fun hee => ?_).mpr he', hat'⟩
      -- one pointer has one block
      have hp := hat'.2.1
      rw [hee, hat.2.1] at hp
      have hcb : c = b := h.inv.sys.off_inj (by rw [hbs]; exact mem_middle_of_mem hc') hbm
        (by omega)
      subst hcb
      rw [hbs] at h
      exact h.inv.sys.ne_middle hc' rfl
  | @write e x v he h1 h2 =>
    obtain ⟨b, hb, hu, hp, ho⟩ := h.live e he
    have hsz : b.size = 2 ^ e.order := by unfold Block.size; rw [ho]
    exact ⟨bs, lists, SysInv.of (h.inv.payload hb hu (by omega) (by omega) v) h.used h.live h.nodup
      h.min_ge, ⟨rfl, rfl, rfl⟩, fun ho => ho⟩

end

end HeapForge.Buddy
