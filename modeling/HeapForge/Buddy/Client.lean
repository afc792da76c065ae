import HeapForge.Buddy.Order

/-!
# The buddy allocator serves objects

* `Housed`            every range lies behind the tag of a used block of its own, and there are no
                      other used blocks;
* `implements`        the contract of an allocator, for requests whose sum does not wrap;
* `buddy_objects`     **every run.**
-/

set_option linter.unusedSectionVars false
set_option linter.unusedVariables false

namespace HeapForge.Buddy
open Lib Function

/-- the sum computed from the request fits in a block -/
def Plain (size alignment : Nat) : Prop := size + 16 ≤ 2 ^ 63 ∧ NeedFits size alignment

structure Housed (mem : Nat) (bs : List Block) (l : List Extent) : Prop where
  nodup : (l.map Extent.ptr).Nodup
  block : ∀ e ∈ l, ∃ b ∈ bs, b.used = true ∧ e.ptr = mem + b.off + 16
    ∧ e.ptr + e.size ≤ mem + b.off + b.size
  /-- no used block is forgotten -/
  owned : ∀ b ∈ bs, b.used = true → ∃ e ∈ l, e.ptr = mem + b.off + 16

def Serves (a : BdAlloc) (l : List Extent) : Prop :=
  ∃ bs lists, SysInv ⟨a, []⟩ bs lists ∧ Housed a.mem bs l

section
variable {a a' : BdAlloc} {bs bs' : List Block} {lists : Nat → List Nat} {l : List Extent}
  {e : Extent} {size alignment p x mem : Nat} {m : Mem}

theorem Housed.bytes (h : Housed mem bs l) (hx : Held l x) : UsedBytes mem bs x := by
  obtain ⟨e, he, h1, h2⟩ := hx
  obtain ⟨b, hb, hu, hp, hend⟩ := h.block e he
  exact ⟨b, hb, hu, by omega, by omega⟩

theorem Housed.apart (h : Housed mem bs l) {mn mx : Nat} (hi : BInv mn mx bs bs lists) :
    l.Pairwise Extent.Apart := by
  refine pairwise_apart h.nodup fun e he f hf hne => ?_
  obtain ⟨b, hb, -, hpb, heb⟩ := h.block e he
  obtain ⟨c, hc, -, hpc, hec⟩ := h.block f hf
  have hbc : b ≠ c := by
    rintro rfl
    exact hne (hpb.trans hpc.symm)
  have := hi.apart hb hc hbc
  omega

theorem Housed.congr (h : Housed mem bs l) (hk : ∀ b : Block, b.used = true → (b ∈ bs' ↔ b ∈ bs)) :
    Housed mem bs' l :=
  ⟨h.nodup, fun e he =>
    let ⟨b, hb, hu, hp, hend⟩ := h.block e he
    ⟨b, (hk b hu).mpr hb, hu, hp, hend⟩, fun b hb hu => h.owned b ((hk b hu).mp hb) hu⟩

/-- the first sixteen bytes of a block belong to no range -/
theorem Housed.tag_free (h : Housed a.mem bs l) (hi : CInv a bs bs lists) {c : Block} (hc : c ∈ bs)
    (h1 : a.mem + c.off ≤ x) (h2 : x < a.mem + c.off + 16) : ¬ Held l x := by
  rintro ⟨e, he, h3, h4⟩
  obtain ⟨b, hb, hu, hp, hend⟩ := h.block e he
  exact hi.sys.outside_payload hi.geo hb hu (x := x) (by omega) (by omega) hc h1 h2 rfl

/-- whatever is written into the ranges, nodes and tags stay as they are -/
theorem CInv.held (hi : CInv a bs bs lists) (h : Housed a.mem bs l)
    (hs : Mem.SameOn (fun x => ¬ Held l x) a.heap m) : CInv { a with heap := m } bs bs lists := by
  have hnode : ∀ k, ∀ n ∈ nodesOf a.mem (lists k), ∀ y, n ≤ y → y < n + 16 → ¬ Held l y := by
    intro k n hn y h3 h4
    obtain ⟨z, hz, rfl⟩ := List.mem_map.mp hn
    obtain ⟨c, hc, -, -, rfl⟩ := (hi.sys.mem k z).mp hz
    exact h.tag_free hi hc h3 h4
  refine CInv.of (a := a) rfl rfl rfl rfl hi.geo hi.sys hi.entry hi.head
    (fun k => ?_) fun c hc hcu => ?_
  · exact (hi.chain k).congr
      (fun n hn => hs.load64 fun y h3 h4 => hnode k n hn y h3 (by omega))
      (fun n hn => hs.load64 fun y h3 h4 => hnode k n hn y (by omega) (by omega))
  · show m.load64 (a.mem + c.off) = c.order
    rw [hs.load64 fun y h3 h4 => h.tag_free hi hc h3 (by omega)]
    exact hi.tags c hc hcu

theorem Serves.alloc (h : Serves a l) (hreq : Plain size alignment)
    (hcall : bdAllocate a size alignment = (p, a')) :
    Mem.SameOn (Held l) a.heap a'.heap ∧ (p = 0 → Serves a' l)
    ∧ (p ≠ 0 → Serves a' (⟨p, size⟩ :: l)) := by
  obtain ⟨bs, lists, hi, hh⟩ := h
  have hroom := room_of_fits a hreq.1 hreq.2
  rcases hi.alloc_cases (k := orderFor a (bdNeed size alignment)) rfl with
    ⟨-, hr⟩ | ⟨d, x, t, hx, l₁, l₂, a₁, -, -, -, rfl, hr, hinv, hsame, hfix, hused, hsum⟩
  · obtain ⟨rfl, rfl⟩ := Prod.mk.inj (hcall.symm.trans hr)
    exact ⟨Mem.SameOn.refl, fun _ => ⟨bs, lists,
      SysInv.of ((hi.inv.restat _).restat _) hi.used (by simp) (by simp) hi.min_ge, hh⟩,
      fun h0 => absurd rfl h0⟩
  · obtain ⟨rfl, rfl⟩ := Prod.mk.inj (hcall.symm.trans hr)
    have hmem : a'.mem = a.mem := hfix.mem
    have hpos := hi.inv.geo.mem_pos
    have hpos' : 0 < a.mem := hpos
    refine ⟨hsame.mono fun x hx => hh.bytes hx, fun h0 => ?_, fun _ => ⟨_, _,
      SysInv.of hinv (by rw [hused, hsum, hi.used]) (by simp) (by simp)
        (hfix.minOrder ▸ hi.min_ge), ?_⟩⟩
    · have h0' : a.mem + x + 16 = 0 := h0
      omega
    · have hold : ∀ b : Block, b.used = true →
          (b ∈ l₁ ++ splitBlocks x (orderFor a (bdNeed size alignment)) d hx l₂
            ↔ b ∈ l₁ ++ ⟨x, orderFor a (bdNeed size alignment) + d, false, hx⟩ :: l₂) := fun b hu =>
        mem_iff_of_filter_used (by rw [splitBlocks_middle_used, filter_middle_free rfl]) hu
      rw [hmem]
      refine ⟨List.nodup_cons.mpr ⟨fun hm => ?_, hh.nodup⟩, fun e he => ?_, fun b hb hu => ?_⟩
      · -- the block carved from was free, so no range lay in it
        obtain ⟨e, he, hep⟩ := List.mem_map.mp hm
        obtain ⟨b, hb, hu, hp, -⟩ := hh.block e he
        have hep' : e.ptr = a.mem + x + 16 := hep
        have hfree := hi.inv.sys.off_inj hb (List.mem_append_right _ List.mem_cons_self)
          (show b.off = x by omega)
        rw [hfree] at hu
        exact absurd hu (by simp)
      · rcases List.mem_cons.mp he with rfl | he
        · exact ⟨_, List.mem_append_right _ List.mem_cons_self, rfl, rfl, by
            show a.mem + x + 16 + size ≤ a.mem + x + 2 ^ orderFor a (bdNeed size alignment)
            omega⟩
        · obtain ⟨b, hb, hu, hp, hend⟩ := hh.block e he
          exact ⟨b, mem_middle_of_mem ((hold b hu).mpr hb), hu, hp, hend⟩
      · rcases mem_middle_iff.mp hb with rfl | hb
        · exact ⟨_, List.mem_cons_self, rfl⟩
        · obtain ⟨e, he, hpe⟩ := hh.owned b ((hold b hu).mp hb) hu
          exact ⟨e, List.mem_cons_of_mem _ he, hpe⟩

theorem Serves.free (h : Serves a l) (he : e ∈ l) :
    ∃ a', bdDeallocate a e.ptr = some a' ∧ Serves a' (l.erase e)
      ∧ Mem.SameOn (Held (l.erase e)) a.heap a'.heap := by
  obtain ⟨bs, lists, hi, hh⟩ := h
  obtain ⟨b, hb, hu, hp, hend⟩ := hh.block e he
  have hone : SysInv ⟨a, [⟨e.ptr, b.order⟩]⟩ bs lists := by
    refine SysInv.of hi.inv hi.used (fun f hf => ?_) (by simp) hi.min_ge
    rw [List.mem_singleton.mp hf]
    exact ⟨b, hb, hu, hp, rfl⟩
  obtain ⟨l₁, l₂, c, a', rfl, hat, hcall, hinv, hfix, hused, hfil⟩ :=
    hone.free_spec List.mem_cons_self
  have hcb : b = c := hi.inv.sys.off_inj hb (by simp)
    (by have := hat.2.1; dsimp only at this; omega)
  subst hcb
  obtain ⟨a₁, e1, -, hsame, -⟩ := bdDeallocate_spec hi.inv hu
  have hcall' : bdDeallocate a (a.mem + b.off + 16) = some a' := by
    rw [← hp]
    exact hcall
  obtain rfl := Option.some.inj (hcall'.symm.trans e1)
  -- the blocks of the other ranges are other blocks
  have hrest : Housed a.mem (l₁ ++ l₂) (l.erase e) := by
    refine ⟨nodup_ptr_erase hh.nodup e, fun f hf => ?_, fun c hc hcu => ?_⟩
    · obtain ⟨c, hc, hcu, hpc, hec⟩ := hh.block f (List.mem_of_mem_erase hf)
      have hcb : c ≠ b := by
        rintro rfl
        exact key_ne_of_mem_erase hh.nodup he hf (hpc.trans hp.symm)
      exact ⟨c, mem_of_mem_middle hc hcb, hcu, hpc, hec⟩
    · obtain ⟨f, hf, hpf⟩ := hh.owned c (mem_middle_of_mem hc) hcu
      have hfe : f ≠ e := by
        rintro rfl
        exact hi.inv.sys.ne_middle hc (hi.inv.sys.off_inj (mem_middle_of_mem hc) hb (by omega))
      exact ⟨f, (List.mem_erase_of_ne hfe).mpr hf, hpf⟩
  have hmem : a'.mem = a.mem := hfix.mem
  refine ⟨a', hcall,
    ⟨_, _, SysInv.of hinv hused (by simp) (by simp) (hfix.minOrder ▸ hi.min_ge), ?_⟩,
    hsame.mono fun x hx => hrest.bytes hx⟩
  rw [hmem]
  exact hrest.congr fun c hcu => mem_iff_of_filter_used hfil hcu

theorem Serves.create {vm : Vm} {cs : Callocs} {capacity minBlock : Nat} (hc : capacity ≤ 2 ^ 63)
    (hm : minBlock ≤ 2 ^ 63) (hcreate : hfBuddyCreate vm cs m capacity minBlock = some a) :
    Serves a [] := by
  obtain ⟨bs, lists, hi, ho⟩ := create_inv hc hm hcreate
  refine ⟨bs, lists, hi, List.nodup_nil, fun e he => absurd he (by simp), fun b hb hu => ?_⟩
  obtain ⟨e, he, -⟩ := ho b hb hu
  exact absurd he (by simp [Sys.start])

/-- with nothing held nothing is in use -/
theorem Serves.empty (h : Serves a []) : a.stats.used = 0 := by
  obtain ⟨bs, lists, hi, hh⟩ := h
  have hused : a.stats.used = usedSum bs := hi.used
  rw [hused, usedSum, List.filter_eq_nil_iff.mpr fun b hb hu => ?_]
  · rfl
  · obtain ⟨e, he, -⟩ := hh.owned b hb hu
    exact absurd he (by simp)

theorem Serves.inside (h : Serves a l) (he : e ∈ l) : e.ptr + e.size < 2 ^ 64 := by
  obtain ⟨bs, lists, hi, hh⟩ := h
  obtain ⟨b, hb, -, -, hend⟩ := hh.block e he
  have hlt : b.off + b.size ≤ 2 ^ a.maxOrder := (hi.inv.sys.place (floorOrder_ge _).2 hb).2.2
  have hbound : a.mem + 2 ^ a.maxOrder < 2 ^ 64 := hi.inv.geo.bound
  omega

theorem Serves.write (h : Serves a l) (hs : Mem.SameOn (fun x => ¬ Held l x) a.heap m) :
    Serves { a with heap := m } l := by
  obtain ⟨bs, lists, hi, hh⟩ := h
  exact ⟨bs, lists, SysInv.of (hi.inv.held hh hs) hi.used (by simp) (by simp) hi.min_ge, hh⟩

theorem implements : Implements allocator Plain anyOrder Serves where
  apart := fun ⟨_, _, hi, hh⟩ => hh.apart hi.inv.sys
  inside := Serves.inside
  alloc := fun h hreq ha => h.alloc hreq (Option.some.inj ha)
  free := fun h he _ => h.free he
  write := fun h hs => ⟨h.write hs, rfl⟩

end

/-- **A client of the buddy allocator sees objects of its own**, and its frees come back.  (Its
requests do in any case.)  When all is freed, nothing is in use. -/
theorem buddy_objects {vm : Vm} {cs : Callocs} {m : Mem} {capacity minBlock : Nat} {a : BdAlloc}
    {evs : List Event} {s : Client BdAlloc} (hc : capacity ≤ 2 ^ 63) (hm : minBlock ≤ 2 ^ 63)
    (hcreate : hfBuddyCreate vm cs m capacity minBlock = some a)
    (hrun : Steps (ClientStep allocator Plain anyOrder) ⟨a, []⟩ evs s) :
    Steps ObjStep noObjects evs (objects s.b.heap s.held)
      ∧ (∀ e ∈ s.held, (bdDeallocate s.b e.ptr).isSome = true)
      ∧ (s.held = [] → s.b.stats.used = 0) := by
  have hstart := Serves.create hc hm hcreate
  have hok : Serves s.b s.held := implements.of_run hstart hrun
  refine ⟨implements.refines hstart hrun, fun e he => implements.free_isSome hok he trivial,
    fun h0 => ?_⟩
  rw [h0] at hok
  exact hok.empty

/-- a block of 100 bytes is granted, and its byte 5 is written -/
theorem buddy_objects_one_block : ∃ s, Steps (ClientStep allocator Plain anyOrder) ⟨sampleBuddy, []⟩
      [.grant (2 ^ 20 + 16) 100, .write (2 ^ 20 + 16) 5 0x21#8] s
    ∧ Steps ObjStep noObjects [.grant (2 ^ 20 + 16) 100, .write (2 ^ 20 + 16) 5 0x21#8]
      (objects s.b.heap s.held) := by
  have h1 : (bdAllocate sampleBuddy 100 16).1 = 2 ^ 20 + 16 := by decide +kernel
  have s1 : ClientStep allocator Plain anyOrder ⟨sampleBuddy, []⟩ (.grant (2 ^ 20 + 16) 100)
      ⟨(bdAllocate sampleBuddy 100 16).2, [⟨2 ^ 20 + 16, 100⟩]⟩ :=
    @ClientStep.grant _ allocator Plain anyOrder ⟨sampleBuddy, []⟩ 100 16 _ _
      ⟨by omega, Or.inl (by omega)⟩ (congrArg some (Prod.ext h1 rfl)) (by omega)
  have s2 := @ClientStep.write _ allocator Plain anyOrder
    ⟨(bdAllocate sampleBuddy 100 16).2, [⟨2 ^ 20 + 16, 100⟩]⟩ ⟨2 ^ 20 + 16, 100⟩ 5 0x21#8
    List.mem_cons_self (by show 5 < 100; omega)
  have hrun := ((Steps.nil _).snoc s1).snoc s2
  exact ⟨_, hrun, (buddy_objects (by omega) (by omega) sampleBuddy_create hrun).1⟩

end HeapForge.Buddy
