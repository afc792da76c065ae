import HeapForge.Lib.Spaced
import HeapForge.BlockPool.Run

/-!
# The block pool serves objects

Any request may be made, whatever its size and alignment: one that is larger than a block is
refused.

* `Serves`               every range is the start of a block of its own whose bit is set, and no
                         other bit is;
* `implements`           the contract of an allocator;
* `block_pool_objects`   **every run** of a pool whose blocks do not wrap.
-/

set_option linter.unusedSectionVars false
set_option linter.unusedVariables false

namespace HeapForge.BlockPool
open Lib

def anyRequest : Nat → Nat → Prop := fun _ _ => True

structure Serves (vm : Vm) (a : BpAlloc) (l : List Extent) : Prop where
  inv : BpInv vm a
  pos : 0 < a.mem
  room : a.mem + a.blockSize * a.blockCount < 2 ^ 64
  nodup : (l.map Extent.ptr).Nodup
  block : ∀ e ∈ l, ∃ i, i < a.blockCount ∧ bpTest a i = true ∧ e.ptr = a.mem + i * a.blockSize
    ∧ e.size ≤ a.blockSize
  /-- no set bit is forgotten -/
  owned : ∀ i, i < a.blockCount → bpTest a i = true → ∃ e ∈ l, e.ptr = a.mem + i * a.blockSize

section
variable {vm : Vm} {a a' : BpAlloc} {l : List Extent} {e : Extent}
  {size alignment p i j : Nat} {m : Mem}

theorem end_le (hi : i < a.blockCount) :
    i * a.blockSize + a.blockSize ≤ a.blockSize * a.blockCount := by
  rw [Nat.mul_comm a.blockSize]
  exact stride_mono a.blockSize hi

theorem bpAddr_eq (h : a.mem + a.blockSize * a.blockCount < 2 ^ 64) (hi : i < a.blockCount) :
    bpAddr a i = a.mem + i * a.blockSize := by
  have hle := end_le hi
  unfold bpAddr
  rw [wmul_of_lt (by omega), wadd_of_lt (by omega)]

theorem Serves.apart (h : Serves vm a l) : l.Pairwise Extent.Apart := by
  refine pairwise_apart h.nodup fun e he f hf hne => ?_
  obtain ⟨i, hi, -, hpi, hsi⟩ := h.block e he
  obtain ⟨j, hj, -, hpj, hsj⟩ := h.block f hf
  have hij : i ≠ j := by
    rintro rfl
    exact hne (hpi.trans hpj.symm)
  rcases Nat.lt_or_gt_of_ne hij with hlt | hlt
  · have := stride_mono a.blockSize hlt
    omega
  · have := stride_mono a.blockSize hlt
    omega

theorem Serves.alloc (h : Serves vm a l) (hcall : bpAllocate a size alignment = (p, a')) :
    Mem.SameOn (Held l) a.heap a'.heap ∧ (p = 0 → Serves vm a' l)
    ∧ (p ≠ 0 → Serves vm a' (⟨p, size⟩ :: l)) := by
  rcases bpAllocate_cases a size alignment with hr | ⟨idx, hi, hf, hsz, hr⟩
  · obtain ⟨rfl, rfl⟩ := Prod.mk.inj (hcall.symm.trans hr)
    exact ⟨Mem.SameOn.refl, fun _ =>
      ⟨⟨h.inv.mem, h.inv.size, h.inv.pos, h.inv.used⟩, h.pos, h.room, h.nodup, h.block, h.owned⟩,
      fun h0 => absurd rfl h0⟩
  · obtain ⟨rfl, rfl⟩ := Prod.mk.inj (hcall.symm.trans hr)
    have hp := bpAddr_eq h.room hi
    have hpos := h.pos
    refine ⟨Mem.SameOn.refl, fun h0 => ?_,
      fun _ => ⟨h.inv.take hi hf, h.pos, h.room, ?_, fun e he => ?_, fun j hj hset => ?_⟩⟩
    · omega
    · refine List.nodup_cons.mpr ⟨fun hm => ?_, h.nodup⟩
      obtain ⟨e, he, hep⟩ := List.mem_map.mp hm
      obtain ⟨j, hj, hset, hpj, -⟩ := h.block e he
      have hep' : e.ptr = bpAddr a idx := hep
      have hji : j = idx := Nat.eq_of_mul_eq_mul_right h.inv.pos.1 (by omega)
      rw [hji, hf] at hset
      exact absurd hset (by simp)
    · show ∃ i, i < a.blockCount ∧ (a.bitmap.set idx).test i = true
        ∧ e.ptr = a.mem + i * a.blockSize
        ∧ e.size ≤ a.blockSize
      rcases List.mem_cons.mp he with rfl | he
      · refine ⟨idx, hi, ?_, hp, hsz⟩
        rw [WordMap.test_set (by decide), decide_eq_true rfl, Bool.true_or]
      · obtain ⟨j, hj, hset, hpj, hsj⟩ := h.block e he
        refine ⟨j, hj, ?_, hpj, hsj⟩
        rw [WordMap.test_set (by decide), show a.bitmap.test j = true from hset, Bool.or_true]
    · have hset' : (a.bitmap.set idx).test j = true := hset
      rw [WordMap.test_set (by decide), Bool.or_eq_true, decide_eq_true_eq] at hset'
      rcases hset' with rfl | hset'
      · exact ⟨_, List.mem_cons_self, hp⟩
      · obtain ⟨e, he, hpe⟩ := h.owned j hj hset'
        exact ⟨e, List.mem_cons_of_mem _ he, hpe⟩

theorem Serves.free (h : Serves vm a l) (he : e ∈ l) :
    ∃ a', bpDeallocate a e.ptr = some a' ∧ Serves vm a' (l.erase e)
      ∧ Mem.SameOn (Held (l.erase e)) a.heap a'.heap := by
  obtain ⟨i, hi, hset, hp, hs⟩ := h.block e he
  have hpos := h.pos
  have hroom := h.room
  have hle := end_le hi
  have hcall : bpDeallocate a e.ptr = some (bpGive a i) := by
    unfold bpDeallocate
    dsimp only
    rw [if_neg (by omega), wsub_of_le (by omega) (by omega), hp, Nat.add_sub_cancel_left,
      if_pos (Nat.mul_mod_left _ _), Nat.mul_div_cancel _ h.inv.pos.1, if_pos ⟨hi, hset⟩]
  refine ⟨_, hcall, ⟨h.inv.give hi hset, h.pos, h.room, nodup_ptr_erase h.nodup e, fun f hf => ?_,
    fun j hj hsetj => ?_⟩, Mem.SameOn.refl⟩
  · obtain ⟨j, hj, hsetj, hpj, hsj⟩ := h.block f (List.mem_of_mem_erase hf)
    have hji : i ≠ j := by
      rintro rfl
      exact key_ne_of_mem_erase h.nodup he hf (hpj.trans hp.symm)
    refine ⟨j, hj, ?_, hpj, hsj⟩
    show (a.bitmap.clear i).test j = true
    rw [WordMap.test_clear (by decide), show a.bitmap.test j = true from hsetj]
    simpa using Ne.symm hji
  · have hsetj' : (a.bitmap.clear i).test j = true := hsetj
    rw [WordMap.test_clear (by decide), Bool.and_eq_true, Bool.not_eq_true',
      decide_eq_false_iff_not] at hsetj'
    obtain ⟨f, hf, hpf⟩ := h.owned j hj hsetj'.2
    have hfe : f ≠ e := by
      rintro rfl
      have hij : i * a.blockSize = j * a.blockSize := by omega
      exact hsetj'.1 (Nat.eq_of_mul_eq_mul_right h.inv.pos.1 hij).symm
    exact ⟨f, (List.mem_erase_of_ne hfe).mpr hf, hpf⟩

theorem Serves.inside (h : Serves vm a l) (he : e ∈ l) : e.ptr + e.size < 2 ^ 64 := by
  obtain ⟨i, hi, -, hp, hs⟩ := h.block e he
  have hle := end_le hi
  have hroom := h.room
  omega

theorem implements (vm : Vm) : Implements allocator anyRequest anyOrder (Serves vm) where
  apart := Serves.apart
  inside := Serves.inside
  alloc := fun h _ ha => h.alloc (Option.some.inj ha)
  free := fun h he _ => h.free he
  write :=
    fun h _ =>
      ⟨⟨⟨h.inv.mem, h.inv.size, h.inv.pos, h.inv.used⟩, h.pos, h.room, h.nodup, h.block, h.owned⟩,
      rfl⟩

/-- a new pool whose blocks fit has them inside its mapping -/
theorem Serves.create {handle bits : Bool} {blockSize blockCount : Nat}
    (hc : hfBlockPoolCreate vm handle bits m blockSize blockCount = some a) (hfit : Fits a) :
    Serves vm a [] := by
  have hinv := BpInv.create hc
  obtain ⟨bs, bytes, hbs, hbytes, hmem, rfl⟩ := hfBlockPoolCreate_eq hc
  have hfit' : bs * blockCount < 2 ^ 64 := hfit
  rw [wmul_of_lt hfit'] at hbytes
  obtain ⟨-, hbound, hb0⟩ :=
    hfVmReserve_spec vm (hbytes ▸ vm.alignPage_lt _) (hbytes ▸ vm.alignPage_dvd _) hmem
  have hpage : bs * blockCount + (vm.pageSize - 1) < 2 ^ 64 := by
    by_contra hge
    rw [vm.alignPage_wrap hfit' (by omega)] at hbytes
    omega
  have hup := (vm.alignPage hpage).1
  refine ⟨hinv, Nat.pos_of_ne_zero hmem, ?_, List.nodup_nil, fun e he => absurd he (by simp),
    fun i _ hset => absurd hset (by simp [bpTest, WordMap.test])⟩
  show hfVmReserve vm bytes + bs * blockCount < 2 ^ 64
  omega

/-- with nothing held nothing is in use -/
theorem Serves.empty (h : Serves vm a []) : a.stats.used = 0 := by
  have hroom := h.room
  rw [h.inv.used (by unfold Fits; omega), usedCount, List.countP_eq_zero.mpr fun i hi hset => ?_,
    Nat.mul_zero]
  obtain ⟨e, he, -⟩ := h.owned i (List.mem_range.mp hi) hset
  exact absurd he (by simp)

end

/-- **A client of the block pool sees objects of its own**, whatever it asks for, and its frees come
back.  When all is freed, nothing is in use. -/
theorem block_pool_objects {vm : Vm} {handle bits : Bool} {m : Mem} {blockSize blockCount : Nat}
    {a : BpAlloc} {evs : List Event} {s : Client BpAlloc}
    (hc : hfBlockPoolCreate vm handle bits m blockSize blockCount = some a) (hfit : Fits a)
    (hrun : Steps (ClientStep allocator anyRequest anyOrder) ⟨a, []⟩ evs s) :
    Steps ObjStep noObjects evs (objects s.b.heap s.held)
      ∧ (∀ e ∈ s.held, (bpDeallocate s.b e.ptr).isSome = true)
      ∧ (s.held = [] → s.b.stats.used = 0) := by
  have hstart := Serves.create hc hfit
  have hok : Serves vm s.b s.held := (implements vm).of_run hstart hrun
  refine ⟨(implements vm).refines hstart hrun,
    fun e he => (implements vm).free_isSome hok he trivial, fun h0 => ?_⟩
  rw [h0] at hok
  exact hok.empty

/-- a block is granted for 40 bytes, and its byte 5 is written -/
theorem block_pool_objects_one_block :
    ∃ s, Steps (ClientStep allocator anyRequest anyOrder) ⟨samplePool, []⟩
      [.grant (2 ^ 20) 40, .write (2 ^ 20) 5 0x21#8] s
    ∧ Steps ObjStep noObjects [.grant (2 ^ 20) 40, .write (2 ^ 20) 5 0x21#8]
      (objects s.b.heap s.held) := by
  have h1 : (bpAllocate samplePool 40 16).1 = 2 ^ 20 := by decide +kernel
  have s1 : ClientStep allocator anyRequest anyOrder ⟨samplePool, []⟩ (.grant (2 ^ 20) 40)
      ⟨(bpAllocate samplePool 40 16).2, [⟨2 ^ 20, 40⟩]⟩ :=
    @ClientStep.grant _ allocator anyRequest anyOrder ⟨samplePool, []⟩ 40 16 _ _ trivial
      (congrArg some (Prod.ext h1 rfl)) (by omega)
  have s2 := @ClientStep.write _ allocator anyRequest anyOrder
    ⟨(bpAllocate samplePool 40 16).2, [⟨2 ^ 20, 40⟩]⟩ ⟨2 ^ 20, 40⟩ 5 0x21#8 List.mem_cons_self
    (by show 5 < 40; omega)
  have hrun := ((Steps.nil _).snoc s1).snoc s2
  exact ⟨_, hrun, (block_pool_objects samplePool_create (by unfold Fits; decide) hrun).1⟩

end HeapForge.BlockPool
