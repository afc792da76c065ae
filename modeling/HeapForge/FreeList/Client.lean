import HeapForge.FreeList.Layout

/-!
# The free list serves objects

The calls of the free list keep the contract of an allocator: a client with alignments up to 16
that writes inside the bytes it asked for and frees each pointer once sees a memory of independent
objects.

* `Housed`                every range lies in the payload of a used block of its own, and there are
                          no other used blocks;
* `implements`            the contract;
* `free_list_objects`     **every run.**
-/

set_option linter.unusedSectionVars false
set_option linter.unusedVariables false

namespace HeapForge.FreeList
open Lib

/-- the block size does not wrap, and the pointer is the payload -/
def Plain (size alignment : Nat) : Prop := size + 31 < 2 ^ 64 ∧ alignment ≤ 16

structure Housed (bs : List Blk) (l : List Extent) : Prop where
  nodup : (l.map Extent.ptr).Nodup
  block : ∀ e ∈ l, ∃ b ∈ bs, b.used = true ∧ e.ptr = b.addr + 16 ∧ e.ptr + e.size ≤ b.addr + b.size
  /-- no used block is forgotten -/
  owned : ∀ b ∈ bs, b.used = true → ∃ e ∈ l, e.ptr = b.addr + 16

def Serves (a : FlAlloc) (l : List Extent) : Prop := ∃ bs ring, Inv a bs bs ring ∧ Housed bs l

section
variable {a a' : FlAlloc} {bs bs' : List Blk} {ring : List Nat} {l : List Extent} {e : Extent}
  {size alignment p x : Nat}

theorem flNeed_plain (h : Plain size alignment) : 16 + size ≤ flNeed size alignment := by
  obtain ⟨hw, hal⟩ := h
  unfold flNeed
  dsimp only
  rw [if_neg (show ¬ alignment > HF_DEFAULT_ALIGN from Nat.not_lt.mpr hal)]
  generalize hn : (if size = 0 then 1 else size) = n
  have hn1 : size ≤ n ∧ n + 16 + 15 ≤ 2 ^ 64 - 1 := by
    rw [← hn]
    split <;> omega
  have hadd : wadd FL_HDR n = 16 + n := wadd_of_lt (show 16 + n < 2 ^ 64 by omega)
  have hup : 16 + n ≤ hfAlignUp (16 + n) HF_DEFAULT_ALIGN :=
    (hfAlignUp_bounds (n := 16 + n) (k := 4) (by omega) (by decide)).1
  rw [hadd]
  split <;> omega

theorem Housed.payload (h : Housed bs l) (hx : Held l x) : UsedPayload bs x := by
  obtain ⟨e, he, h1, h2⟩ := hx
  obtain ⟨b, hb, hu, hp, hend⟩ := h.block e he
  exact ⟨b, hb, hu, by omega, by omega⟩

theorem Housed.apart (h : Housed bs l) (hi : Inv a bs bs ring) : l.Pairwise Extent.Apart := by
  refine pairwise_apart h.nodup fun e he f hf hne => ?_
  obtain ⟨b, hb, -, hpb, heb⟩ := h.block e he
  obtain ⟨c, hc, -, hpc, hec⟩ := h.block f hf
  have hbc : b ≠ c := by
    rintro rfl
    exact hne (hpb.trans hpc.symm)
  have := hi.heap.apart hb hc hbc
  omega

theorem Housed.congr (h : Housed bs l) (hk : ∀ b : Blk, b.used = true → (b ∈ bs' ↔ b ∈ bs)) :
    Housed bs' l :=
  ⟨h.nodup, fun e he =>
    let ⟨b, hb, hu, hp, hend⟩ := h.block e he
    ⟨b, (hk b hu).mpr hb, hu, hp, hend⟩, fun b hb hu => h.owned b ((hk b hu).mp hb) hu⟩

/-- a request that returns -/
theorem Serves.alloc (h : Serves a l) (hreq : Plain size alignment) :
    ∃ p a', flAllocate a size alignment = some (p, a') ∧ Mem.SameOn (Held l) a.heap a'.heap
      ∧ (p = 0 → Serves a' l) ∧ (p ≠ 0 → Serves a' (⟨p, size⟩ :: l)) := by
  obtain ⟨bs, ring, hi, hh⟩ := h
  rcases hi.reserve (flNeed_ge size alignment) (flNeed_mod size alignment) with ⟨hr, -⟩ |
      ⟨l₁, b, l₂, u, rest, a₁, ring', rfl, hf, hle, hcarve, huu, hua, hr, hinv, hsame, -⟩
  · refine ⟨0, countFailed (countAlloc a), ?_, Mem.SameOn.refl,
      fun _ => ⟨bs, ring, hi.withStats rfl, hh⟩, fun h0 => absurd rfl h0⟩
    unfold flAllocate
    rw [hr]
    rfl
  · have hum : u ∈ l₁ ++ u :: (rest ++ l₂) := by simp
    obtain ⟨h16, hpos, hlo, hhi, hlt⟩ := hinv.heap.place hum
    have hge := u.size_ge
    have hsz : flNeed size alignment ≤ u.size := by
      obtain ⟨-, -, ⟨-, hs, -⟩ | ⟨r, -, -, hs, -⟩⟩ := Blk.carve_cases hcarve
      · omega
      · omega
    have hneed := flNeed_plain hreq
    have hcall : flAllocate a size alignment = some (u.addr + 16, a₁) := by
      unfold flAllocate
      rw [hr, Option.map_some]
      dsimp only
      rw [if_neg (by omega), flPlace_small hreq.2 (by omega)]
    have htook : Took (l₁ ++ b :: l₂) (l₁ ++ u :: (rest ++ l₂)) (flNeed size alignment) b u :=
      ⟨l₁, l₂, rest, flNeed_ge size alignment, flNeed_mod size alignment, rfl, hf, hle, hcarve, rfl⟩
    refine ⟨_, a₁, hcall, hsame.mono fun x hx => hh.payload hx,
      fun h0 => absurd h0 (by omega), fun _ =>
      ⟨_, ring', hinv, List.nodup_cons.mpr ⟨fun hm => ?_, hh.nodup⟩, fun e he => ?_,
      fun c hc hcu => ?_⟩⟩
    · -- the block was free, so no range lay in it
      obtain ⟨e, he, hep⟩ := List.mem_map.mp hm
      obtain ⟨c, hc, hcu, hpc, -⟩ := hh.block e he
      have hep' : e.ptr = u.addr + 16 := hep
      have hcb : c = b := hi.heap.tiles.pos_inj hc (by simp) (by omega)
      rw [hcb, hf] at hcu
      exact absurd hcu (by simp)
    · rcases List.mem_cons.mp he with rfl | he
      · refine ⟨u, hum, huu, rfl, ?_⟩
        show u.addr + 16 + size ≤ _
        omega
      · obtain ⟨c, hc, hcu, hpc, hec⟩ := hh.block e he
        exact ⟨c, (htook.used_iff hcu).mpr (Or.inr hc), hcu, hpc, hec⟩
    · rcases (htook.used_iff hcu).mp hc with rfl | hc
      · exact ⟨_, List.mem_cons_self, rfl⟩
      · obtain ⟨e, he, hpe⟩ := hh.owned c hc hcu
        exact ⟨e, List.mem_cons_of_mem _ he, hpe⟩

theorem Serves.free (h : Serves a l) (he : e ∈ l) :
    ∃ a', flDeallocate a e.ptr = some a' ∧ Serves a' (l.erase e)
      ∧ Mem.SameOn (Held (l.erase e)) a.heap a'.heap := by
  obtain ⟨bs, ring, hi, hh⟩ := h
  obtain ⟨b, hb, hu, hp, hend⟩ := hh.block e he
  have hok : LiveOk a bs ⟨e.ptr, b.addr, 16⟩ :=
    ⟨⟨b, hb, hu, rfl, by have := b.size_ge; show e.ptr < b.addr + b.size; omega⟩, hp.ge,
    fun _ => hp,
      fun h16 => absurd h16 (lt_irrefl 16)⟩
  have hcall := flDeallocate_eq hi hok ((resolveHeader_iff hi hok).mpr (Or.inl (le_refl 16)))
  have hcount : Inv (countFree a) bs bs ring := hi.withStats rfl
  obtain ⟨l₁, l₂, rfl⟩ := List.append_of_mem hb
  obtain ⟨bs', ring', hinv, -, hkeep, -, hsame⟩ := hcount.freeBlock hu
  -- the blocks of the other ranges are other blocks
  have hrest : Housed (l₁ ++ l₂) (l.erase e) := by
    refine ⟨nodup_ptr_erase hh.nodup e, fun f hf => ?_, fun c hc hcu => ?_⟩
    · obtain ⟨c, hc, hcu, hpc, hec⟩ := hh.block f (List.mem_of_mem_erase hf)
      have hcb : c ≠ b := by
        rintro rfl
        exact key_ne_of_mem_erase hh.nodup he hf (hpc.trans hp.symm)
      refine ⟨c, ?_, hcu, hpc, hec⟩
      rcases List.mem_append.mp hc with hc | hc
      · exact List.mem_append_left _ hc
      · exact List.mem_append_right _ (List.mem_of_ne_of_mem hcb hc)
    · have hcm : c ∈ l₁ ++ b :: l₂ := by
        rcases List.mem_append.mp hc with hc | hc
        · exact List.mem_append_left _ hc
        · exact List.mem_append_right _ (List.mem_cons_of_mem _ hc)
      obtain ⟨f, hf, hpf⟩ := hh.owned c hcm hcu
      have hfe : f ≠ e := by
        rintro rfl
        exact hi.heap.ne_middle hc (hi.heap.tiles.pos_inj hcm hb (by omega))
      exact ⟨f, (List.mem_erase_of_ne hfe).mpr hf, hpf⟩
  exact ⟨_, hcall, ⟨bs', ring', hinv, hrest.congr hkeep⟩, hsame.mono fun x hx => hrest.payload hx⟩

theorem Serves.create {vm : Vm} {handle : Bool} {m : Mem} {capacity : Nat} {policy : FitPolicy}
    (hc : hfFreeListCreate vm handle m capacity policy = some a) : Serves a [] := by
  obtain ⟨bs, ring, hg⟩ := GapInv.create hc
  exact ⟨bs, ring, hg.inv, List.nodup_nil, fun e he => absurd he (by simp),
    fun b hb hu => absurd ((hg.all_free rfl b hb).symm.trans hu) (by simp)⟩

/-- with nothing held nothing is in use -/
theorem Serves.empty (h : Serves a []) : a.stats.used = 0 := by
  obtain ⟨bs, ring, hi, hh⟩ := h
  rw [hi.used, usedSum, List.filter_eq_nil_iff.mpr fun b hb hu => ?_]
  · rfl
  · obtain ⟨e, he, -⟩ := hh.owned b hb hu
    exact absurd he (by simp)

theorem Serves.write {m : Mem} (h : Serves a l) (hs : Mem.SameOn (fun x => ¬ Held l x) a.heap m) :
    Serves { a with heap := m } l := by
  obtain ⟨bs, ring, hi, hh⟩ := h
  exact ⟨bs, ring, hi.payload (hs.mono fun x hx hc => hx (hh.payload hc)), hh⟩

theorem implements : Implements allocator Plain anyOrder Serves where
  apart := fun ⟨_, _, hi, hh⟩ => hh.apart hi
  inside := fun ⟨_, _, hi, hh⟩ he =>
    let ⟨_, hb, _, _, hend⟩ := hh.block _ he
    lt_of_le_of_lt hend (hi.heap.place hb).2.2.2.2
  alloc := by
    intro b b' l size alignment p h hreq ha
    obtain ⟨q, a', hcall, hrest⟩ := h.alloc hreq
    obtain ⟨rfl, rfl⟩ := Prod.mk.inj (Option.some.inj (hcall.symm.trans ha))
    exact hrest
  free := fun h he _ => h.free he
  write := fun h hs => ⟨h.write hs, rfl⟩

end

/-- **A client of the free list sees objects of its own.**  For every capacity and policy, every
trace of allocations, frees, reads and writes is one of a memory in which the objects have nothing
to do with each other, and no call fails to come back.  When all is freed, nothing is in use. -/
theorem free_list_objects {vm : Vm} {handle : Bool} {m : Mem} {capacity : Nat} {policy : FitPolicy}
    {a : FlAlloc} {evs : List Event} {s : Client FlAlloc}
    (hc : hfFreeListCreate vm handle m capacity policy = some a)
    (hrun : Steps (ClientStep allocator Plain anyOrder) ⟨a, []⟩ evs s) :
    Steps ObjStep noObjects evs (objects s.b.heap s.held)
      ∧ (∀ size alignment, Plain size alignment → (flAllocate s.b size alignment).isSome = true)
      ∧ (∀ e ∈ s.held, (flDeallocate s.b e.ptr).isSome = true)
      ∧ (s.held = [] → s.b.stats.used = 0) := by
  have hstart := Serves.create hc
  have hok : Serves s.b s.held := implements.of_run hstart hrun
  refine ⟨implements.refines hstart hrun, fun size alignment hreq => ?_,
    fun e he => implements.free_isSome hok he trivial, fun h0 => ?_⟩
  · obtain ⟨p, a', hcall, -⟩ := hok.alloc hreq
    rw [hcall]
    rfl
  · rw [h0] at hok
    exact hok.empty

/-- a block of 200 bytes is granted, and its byte 5 is written -/
theorem free_list_objects_one_block :
    ∃ s, Steps (ClientStep allocator Plain anyOrder) ⟨sampleHeap, []⟩
      [.grant (2 ^ 20 + 16) 200, .write (2 ^ 20 + 16) 5 0x21#8] s
    ∧ Steps ObjStep noObjects [.grant (2 ^ 20 + 16) 200, .write (2 ^ 20 + 16) 5 0x21#8]
      (objects s.b.heap s.held) := by
  have h1 : (flAllocate sampleHeap 200 16).map Prod.fst = some (2 ^ 20 + 16) := by decide +kernel
  have s1 : ClientStep allocator Plain anyOrder ⟨sampleHeap, []⟩ (.grant (2 ^ 20 + 16) 200)
      ⟨sampleTaken, [⟨2 ^ 20 + 16, 200⟩]⟩ :=
    @ClientStep.grant _ allocator Plain anyOrder ⟨sampleHeap, []⟩ 200 16 _ _
      ⟨by omega, le_refl 16⟩ (eq_some_of_fst sampleHeap h1) (by omega)
  have s2 := @ClientStep.write _ allocator Plain anyOrder
    ⟨sampleTaken, [⟨2 ^ 20 + 16, 200⟩]⟩ ⟨2 ^ 20 + 16, 200⟩ 5 0x21#8 List.mem_cons_self
    (by show 5 < 200; omega)
  have hrun := ((Steps.nil _).snoc s1).snoc s2
  exact ⟨_, hrun, (free_list_objects sampleHeap_create hrun).1⟩

end HeapForge.FreeList
