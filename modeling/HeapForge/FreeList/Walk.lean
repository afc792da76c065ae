import HeapForge.FreeList.Run

/-!
# The representation invariant, seen through `fl_walk`

`RepInv a` states the invariant in the words of the source: what `fl_walk` visits, what the
headers and the circular list hold and what the counters say.  It holds after creation and along
every run whose requests ask for an alignment of at most 16; on the way no call loops for ever
and no assertion fails.
-/

set_option linter.unusedSectionVars false
set_option linter.unusedVariables false

namespace HeapForge.FreeList
open Lib

/-! ## walking -/

/-- a block as `fl_walk` reports it -/
def Blk.info (mem : Nat) (b : Blk) : BlockInfo := ⟨b.addr - mem, b.size, !b.used⟩

section
variable {a : FlAlloc} {bs l₁ l₂ : List Blk} {b : Blk} {p x fuel : Nat}

theorem flWalk_eq (h : Heap a bs) : flWalk a = some (bs.map (Blk.info a.mem)) := by
  have hlen := h.tiles.length_le
  refine h.tiles.visit (walkLoop a) id (fun fuel => ?_) ?_ (by omega)
  · unfold walkLoop
    exact if_neg (lt_irrefl _)
  · intro b hb fuel hle
    have hplace := h.place hb
    have hpos := b.size_ge
    conv_lhs => unfold walkLoop
    dsimp only [id]
    rw [if_pos (by omega), h.hdrSize hb, h.hdrUsed hb, wadd_of_lt (by omega)]
    rfl

/-- the bytes in used blocks, as `fl_walk` reports them -/
def usedBytes (a : FlAlloc) : Nat :=
  ((((flWalk a).getD []).filter fun b => !b.isFree).map BlockInfo.size).sum

theorem usedBytes_eq (h : Heap a bs) : usedBytes a = usedSum bs := by
  unfold usedBytes usedSum
  rw [flWalk_eq h, Option.getD_some, List.filter_map, List.map_map]
  have e : ((fun b : BlockInfo => !b.isFree) ∘ Blk.info a.mem) = Blk.used := by
    funext b
    simp [Blk.info]
  rw [e]
  rfl

/-! ## the invariant in the words of the source -/

/-- the address of the block that precedes: `NULL` for the first block -/
def precedingAddr (mem : Nat) (l : List BlockInfo) : Nat :=
  match l.getLast? with
  | none => 0
  | some b => mem + b.offset

/-- **Representation invariant of the free-list allocator.** -/
structure RepInv (a : FlAlloc) (bs : List BlockInfo) (ring : List Nat) : Prop where
  /-- the walk ends, and stepping by the block sizes lands exactly on the capacity -/
  walk : flWalk a = some bs
  tiles : Tiles BlockInfo.offset BlockInfo.size 0 bs a.capacity
  /-- every size is a multiple of 16 and at least 32 -/
  sizes : ∀ b ∈ bs, b.size % 16 = 0 ∧ 32 ≤ b.size
  /-- `prev_phys` is the physical predecessor -/
  prev : ∀ l₁ b l₂, bs = l₁ ++ b :: l₂ →
    prevPhys a.heap (a.mem + b.offset) = precedingAddr a.mem l₁
  /-- the circular list, read from `free_head`: links in both directions, mutually inverse -/
  links : Ring (nodeNext a.heap) (nodePrev a.heap) ring
  inverse : ∀ n ∈ ring, nodePrev a.heap (nodeNext a.heap n) = n
    ∧ nodeNext a.heap (nodePrev a.heap n) = n
  /-- it holds the node of each free block once and nothing else -/
  nodup : ring.Nodup
  members : ∀ n, n ∈ ring ↔ ∃ b ∈ bs, b.isFree = true ∧ n = a.mem + b.offset + 16
  /-- head and cursor are `NULL` when no block is free and otherwise point into the list -/
  empty : ring = [] → a.freeHead = 0 ∧ a.cursor = 0
  nonempty : ring ≠ [] → ring.head? = some a.freeHead ∧ a.cursor ∈ ring
  /-- `used` is the sum of the sizes of the used blocks -/
  used : a.stats.used = ((bs.filter fun b => !b.isFree).map BlockInfo.size).sum

theorem precedingAddr_eq (h : ∀ b ∈ l₁, a.mem ≤ b.addr) :
    precedingAddr a.mem (l₁.map (Blk.info a.mem)) = lastAddr 0 l₁ := by
  rcases List.eq_nil_or_concat' l₁ with rfl | ⟨l, c, rfl⟩
  · rfl
  · have hc := h c (by simp)
    unfold precedingAddr
    rw [List.map_append, List.map_singleton, List.getLast?_append, lastAddr_append]
    show a.mem + (c.addr - a.mem) = c.addr
    omega

theorem Inv.repInv {ring : List Nat} (h : Inv a bs bs ring) :
    RepInv a (bs.map (Blk.info a.mem)) ring where
  walk := flWalk_eq h.heap
  tiles := by
    have := h.heap.tiles.shift (le_refl a.mem) fun b => (⟨rfl, rfl⟩ :
      BlockInfo.offset (b.info a.mem) = b.addr - a.mem ∧ BlockInfo.size (b.info a.mem) = b.size)
    rwa [Nat.sub_self, Nat.add_sub_cancel_left] at this
  sizes := by
    intro b hb
    obtain ⟨c, -, rfl⟩ := List.mem_map.mp hb
    exact ⟨c.size_mod, c.size_ge⟩
  prev := by
    intro m₁ b m₂ e
    obtain ⟨l₁, r, rfl, rfl, hr⟩ := List.map_eq_append_iff.mp e
    obtain ⟨c, l₂, rfl, rfl, rfl⟩ := List.map_eq_cons_iff.mp hr
    have hc := (h.heap.place (b := c) (by simp)).2.2.1
    rw [precedingAddr_eq fun d hd => (h.heap.place (b := d) (by simp [hd])).2.2.1]
    have e2 : a.mem + (c.info a.mem).offset = c.addr := by
      show a.mem + (c.addr - a.mem) = c.addr
      omega
    rw [e2]
    exact h.heap.prevPhys
  links := h.list.links
  inverse := fun n hn => h.list.links.inverse hn
  nodup := h.list.nodup
  members := by
    intro n
    rw [h.tied n]
    constructor
    · rintro ⟨b, hb, hf, rfl⟩
      have hc := (h.heap.place hb).2.2.1
      refine ⟨b.info a.mem, List.mem_map_of_mem hb, ?_, ?_⟩
      · show (!b.used) = true
        rw [hf]
        rfl
      · show b.addr + 16 = a.mem + (b.addr - a.mem) + 16
        omega
    · rintro ⟨i, hi, hf, rfl⟩
      obtain ⟨b, hb, rfl⟩ := List.mem_map.mp hi
      have hc := (h.heap.place hb).2.2.1
      refine ⟨b, hb, ?_, ?_⟩
      · have hf' : (!b.used) = true := hf
        simpa using hf'
      · show a.mem + (b.addr - a.mem) + 16 = b.addr + 16
        omega
  empty := fun hr => ⟨h.list.freeHead_eq_zero.mpr hr, h.list.cursor_nil hr⟩
  nonempty := by
    intro hr
    refine ⟨?_, h.list.cursor_mem hr⟩
    rw [h.list.head]
    cases ring with
    | nil => exact absurd rfl hr
    | cons n l => rfl
  used := by
    have h1 := usedBytes_eq h.heap
    unfold usedBytes at h1
    rw [flWalk_eq h.heap, Option.getD_some] at h1
    rw [h1]
    exact h.used

end

/-! ## creation -/

section
variable {vm : Vm} {handle : Bool} {m : Mem} {capacity : Nat} {policy : FitPolicy} {a : FlAlloc}

/-- the memory of a fresh heap -/
def initHeap (m : Mem) (base cap : Nat) : Mem :=
  setNext (setPrev (setPrevPhys (hdrSet m base cap false) base 0) (base + 16) (base + 16))
    (base + 16) (base + 16)

theorem initHeap_words {base cap : Nat} (h16 : cap % 16 = 0) (hbd : base + cap < 2 ^ 64)
    (hge : 32 ≤ cap) :
    (initHeap m base cap).load64 base = cap ∧ (initHeap m base cap).load64 (base + 8) = 0
      ∧ (initHeap m base cap).load64 (base + 16) = base + 16
      ∧ (initHeap m base cap).load64 (base + 16 + 8) = base + 16 := by
  have e : hdrSet m base cap false = m.store64 base cap := hdrSet_eq (by omega)
  unfold initHeap setNext setPrev setPrevPhys
  rw [e]
  refine ⟨?_, ?_, ?_, ?_⟩
  · simp (disch := omega) only [Mem.load64_store64_of_disjoint, Mem.load64_store64_same]
  · simp (disch := omega) only [Mem.load64_store64_of_disjoint, Mem.load64_store64_same]
  · exact Mem.load64_store64_same (by omega)
  · simp (disch := omega) only [Mem.load64_store64_of_disjoint, Mem.load64_store64_same]

theorem init_inv {base cap : Nat} (policy : FitPolicy) (hpos : 0 < base) (hb : base % 16 = 0)
    (h16 : cap % 16 = 0) (hbd : base + cap < 2 ^ 64) (hge : 32 ≤ cap) :
    Inv ⟨base, cap, policy, base + 16, base + 16, Stats.fresh cap, initHeap m base cap⟩
      [⟨base, cap, false, hge, h16⟩] [⟨base, cap, false, hge, h16⟩] [base + 16] := by
  obtain ⟨w1, w2, w3, w4⟩ := initHeap_words (m := m) h16 hbd hge
  refine ⟨⟨hpos, hb, hbd, rfl, w1, w2, rfl⟩, ⟨by simp, ?_, ring_singleton.mpr ⟨w3, w4⟩, rfl,
    by simp, by simp⟩, ?_, fun _ hb => hb, rfl⟩
  · intro n hn
    rw [List.mem_singleton.mp hn]
    omega
  · intro n
    simp

/-- a heap that was created is one free block -/
theorem create_block (h : hfFreeListCreate vm handle m capacity policy = some a) :
    ∃ b ring, b.used = false ∧ SysInv (Sys.start a)
    [b] ring ∧ a.stats.used = 0 ∧ a.stats.peakUsed = 0 := by
  unfold hfFreeListCreate at h
  dsimp only at h
  generalize hcap : hfAlignUp (if capacity < FL_MIN * 2 then FL_MIN * 2 else capacity) vm.pageSize
    = cap at h
  split at h
  · exact absurd h (by simp)
  split at h
  · exact absurd h (by simp)
  next h0 =>
  have hlt : cap < 2 ^ 64 := hcap ▸ hfAlignUp_lt _ vm.pageOrder_lt
  have hdvd : vm.pageSize ∣ cap := hcap ▸ hfAlignUp_dvd _ vm.pageOrder_lt
  obtain ⟨hal, hbd, hpos⟩ := hfVmReserve_spec vm hlt hdvd h0
  have hc16 : cap % 16 = 0 := Nat.mod_eq_zero_of_dvd (vm.sixteen_dvd_page.trans hdvd)
  have hb16 := Nat.mod_eq_zero_of_dvd (vm.sixteen_dvd_page.trans hal)
  have hge : 32 ≤ cap := by
    have h1 : (2 : Nat) ^ 12 ≤ 2 ^ vm.pageOrder := Nat.pow_le_pow_right (by decide) vm.pageOrder_ge
    have h2 : vm.pageSize ≤ cap := Nat.le_of_dvd hpos hdvd
    have h3 : vm.pageSize = 2 ^ vm.pageOrder := rfl
    omega
  generalize hfVmReserve vm cap = base at h h0 hbd hb16
  have hnode : payloadNode base = base + 16 := wadd_of_lt (show base + 16 < 2 ^ 64 by omega)
  rw [hnode] at h
  have hinv := init_inv (m := m) policy (by omega) hb16 hc16 hbd hge
  have ha : (⟨base, cap, policy, base + 16, base + 16, Stats.fresh cap, initHeap m base cap⟩
    : FlAlloc) = a := Option.some.inj h
  rw [ha] at hinv
  refine ⟨_, _, rfl, SysInv.of hinv List.nodup_nil (by simp), ?_, ?_⟩
  · rw [← ha]
    rfl
  · rw [← ha]
    rfl

theorem create_inv (h : hfFreeListCreate vm handle m capacity policy = some a) :
    ∃ bs ring, SysInv (Sys.start a) bs ring ∧ a.stats.used = 0 ∧ a.stats.peakUsed = 0 :=
  let ⟨b, ring, _, hsys⟩ := create_block h
  ⟨[b], ring, hsys⟩

end

/-! ## runs -/

/-- the requests of the representation invariant -/
def FlAct.Small : FlAct → Prop
  | .alloc _ alignment => alignment ≤ 16
  | _ => True

def SmallStep (s : Sys) (act : FlAct) (s' : Sys) : Prop := FlStep s act s' ∧ act.Small

section
variable {s s' : Sys} {act : FlAct} {e : Live} {bs : List Blk} {ring : List Nat}

theorem FlStep.live_cases (h : FlStep s act s') (he : e ∈ s'.live) :
    e ∈ s.live ∨ ∃ size, act = .alloc size e.align := by
  cases h with
  | fail => exact Or.inl he
  | alloc =>
    rcases List.mem_cons.mp he with rfl | he
    · exact Or.inr ⟨_, rfl⟩
    · exact Or.inl he
  | free => exact Or.inl (List.mem_of_mem_erase he)
  | write => exact Or.inl he

theorem FlAct.Small.requests (h : act.Small) : act.Requests := by
  cases act with
  | alloc size alignment => exact Or.inl h
  | free => trivial
  | write => trivial

/-- what every state of a run with small alignments satisfies -/
structure SmallInv (s : Sys) : Prop where
  sys : ∃ bs ring, SysInv s bs ring
  small : ∀ e ∈ s.live, e.align ≤ 16
  le_peak : s.a.stats.used ≤ s.a.stats.peakUsed
  peak : s.a.stats.peakUsed = (s.past.map usedBytes).foldr max 0

theorem SmallInv.step (h : SmallInv s) (hstep : SmallStep s act s') : SmallInv s' := by
  obtain ⟨⟨bs, ring, hsys⟩, hsmall, hle, hpeak⟩ := h
  obtain ⟨hst, hact⟩ := hstep
  obtain ⟨bs', ring', hsys', hpast, hp, -⟩ := hsys.step hle hst hact.requests fun e he _ =>
    (resolveHeader_iff hsys.inv (hsys.live e he)).mpr (Or.inl (hsmall e he))
  have hub : usedBytes s'.a = s'.a.stats.used :=
    (usedBytes_eq hsys'.inv.heap).trans hsys'.inv.used.symm
  have hp' : s'.a.stats.peakUsed = max s.a.stats.peakUsed s'.a.stats.used := hp
  refine ⟨⟨bs', ring', hsys'⟩, fun e he => ?_, ?_, ?_⟩
  · rcases hst.live_cases he with he | ⟨size, rfl⟩
    · exact hsmall e he
    · exact hact
  · omega
  · rw [hpast, List.map_cons, List.foldr_cons, hub, ← hpeak, hp', max_comm]

theorem SmallInv.progress (h : SmallInv s) :
    (∀ size alignment, alignment ≤ 16 → (flAllocate s.a size alignment).isSome = true)
      ∧ ∀ e ∈ s.live, (flDeallocate s.a e.ptr).isSome = true := by
  obtain ⟨⟨bs, ring, hsys⟩, hsmall, -, -⟩ := h
  constructor
  · intro size alignment hal
    rcases hsys.alloc size (Or.inl hal) with ⟨hr, -⟩ | ⟨p, hdr, a', a'', bs', ring', hr, -⟩
    · rw [hr]
      rfl
    · rw [hr]
      rfl
  · intro e he
    have hok := hsys.live e he
    rw [flDeallocate_eq hsys.inv hok ((resolveHeader_iff hsys.inv hok).mpr (Or.inl (hsmall e he)))]
    rfl

end

/-- **The representation invariant holds along every run** with alignments up to 16, whatever
users write into their payloads; `peak_used` is the largest number of used bytes so far; every
allocation ends and every free of a live pointer passes its assertion. -/
theorem representation_invariant {vm : Vm} {handle : Bool} {m : Mem} {capacity : Nat}
    {policy : FitPolicy} {a : FlAlloc} {acts : List FlAct} {s : Sys}
    (hcreate : hfFreeListCreate vm handle m capacity policy = some a)
    (hrun : Steps SmallStep (Sys.start a) acts s) :
    (∃ bs ring, RepInv s.a bs ring)
    ∧ s.a.stats.peakUsed = (s.past.map usedBytes).foldr max 0
    ∧ (∀ size alignment, alignment ≤ 16 → (flAllocate s.a size alignment).isSome = true)
    ∧ ∀ e ∈ s.live, (flDeallocate s.a e.ptr).isSome = true := by
  have hinv : SmallInv s := by
    refine hrun.invariant ?_ fun _ _ _ h hs => h.step hs
    obtain ⟨bs, ring, hsys, hu, hp⟩ := create_inv hcreate
    have hub : usedBytes a = 0 :=
      ((usedBytes_eq hsys.inv.heap).trans hsys.inv.used.symm).trans hu
    refine ⟨⟨bs, ring, hsys⟩, by simp [Sys.start], ?_, ?_⟩
    · show a.stats.used ≤ a.stats.peakUsed
      omega
    · show a.stats.peakUsed = max (usedBytes a) 0
      rw [hp, hub]
      rfl
  obtain ⟨bs, ring, hsys⟩ := hinv.sys
  exact ⟨⟨_, ring, hsys.inv.repInv⟩, hinv.peak, hinv.progress⟩

def sampleHeap : FlAlloc :=
  ⟨2 ^ 20, 4096, .first, 2 ^ 20 + 16, 2 ^ 20 + 16, Stats.fresh 4096,
  initHeap Mem.zero (2 ^ 20) 4096⟩

theorem sampleHeap_create :
    hfFreeListCreate sampleVm true Mem.zero 4096 .first = some sampleHeap := by
  have h1 : hfAlignUp 4096 sampleVm.pageSize = 4096 := by decide +kernel
  have h2 : hfVmReserve sampleVm 4096 = 2 ^ 20 := by decide +kernel
  have h3 : payloadNode (2 ^ 20) = 2 ^ 20 + 16 := by decide +kernel
  unfold hfFreeListCreate
  dsimp only
  rw [if_neg (by decide : ¬ 4096 < FL_MIN * 2), h1, h2, if_neg (by decide), if_neg (by decide), h3]
  rfl

theorem eq_some_of_fst {o : Option (Nat × FlAlloc)} {p : Nat} (d : FlAlloc)
    (h : o.map Prod.fst = some p) : o = some (p, (o.getD (0, d)).2) := by
  obtain ⟨r, rfl, rfl⟩ := Option.map_eq_some_iff.mp h
  rfl

/-- the allocator after a first request for 200 bytes -/
def sampleTaken : FlAlloc := ((flAllocate sampleHeap 200 16).getD (0, sampleHeap)).2

def sampleState : Sys :=
  ⟨sampleTaken, [⟨2 ^ 20 + 16, 2 ^ 20, 16⟩], [sampleTaken, sampleHeap]⟩

theorem sample_alloc : FlStep (Sys.start sampleHeap) (.alloc 200 16) sampleState := by
  have h1 : (flAllocate sampleHeap 200 16).map Prod.fst = some (2 ^ 20 + 16) := by decide +kernel
  have h2 : (flReserve sampleHeap (flNeed 200 16)).map Prod.fst = some (2 ^ 20) := by decide +kernel
  exact FlStep.alloc (s := Sys.start sampleHeap) (by omega) (by omega)
    (eq_some_of_fst sampleHeap h1) (by omega) (eq_some_of_fst sampleHeap h2)

theorem representation_invariant_one_block :
    (∃ bs ring, RepInv sampleState.a bs ring)
    ∧ sampleState.a.stats.peakUsed = (sampleState.past.map usedBytes).foldr max 0
    ∧ (∀ size alignment, alignment ≤ 16 → (flAllocate sampleState.a size alignment).isSome = true)
    ∧ ∀ e ∈ sampleState.live, (flDeallocate sampleState.a e.ptr).isSome = true :=
  representation_invariant sampleHeap_create
    (Steps.snoc (Steps.nil _) ⟨sample_alloc, by show 16 ≤ 16; omega⟩)

end HeapForge.FreeList
