import HeapForge.BlockPool.Search
import HeapForge.RustBlockPool.Impl

/-!
# The two block pools take the same blocks

* `Same`              the two pools stand in the same state, each at its own address;
* `Same.create`       as they do when they are created alike;
* `Same.allocate`     **both take the same block, and stand in the same state again;**
* `Same.deallocate`   giving back the same block;
* `Same.walk`         the walks are the same;
* `Exact`, `search_exact`   **what the search finds in every reachable state, in C and in Rust.**
-/

set_option linter.unusedSectionVars false
set_option linter.unusedVariables false

namespace HeapForge.RustBlockPool
open Lib BlockPool

structure Same (a : BpAlloc) (g : Inner) : Prop where
  blockSize : g.blockSize = a.blockSize
  blockCount : g.blockCount = a.blockCount
  hint : g.hint = a.hint
  words : g.words = a.words
  bitmap : g.bitmap = a.bitmap
  /-- the blocks are mapped -/
  room : 0 < g.base ∧ g.base + g.blockSize * g.blockCount ≤ 2 ^ 64

section
variable {a a' : BpAlloc} {g g' : Inner} {bits : BitVec 64} {w idx size align i : Nat}

/-! ## the search -/

/-- `trailing_zeros` of the complement is `lowest_zero` -/
theorem ctz_not (h : bits ≠ BitVec.allOnes 64) : (~~~bits).ctz.toNat = lowestZero bits := by
  obtain ⟨h64, hzero, hbelow⟩ := lowestZero_spec h
  have hne : ~~~bits ≠ 0#64 := by
    intro h0
    apply h
    rw [← BitVec.not_not (b := bits), h0]
    rfl
  have hset := BitVec.getLsbD_true_ctz_of_ne_zero hne
  rcases Nat.lt_trichotomy (~~~bits).ctz.toNat (lowestZero bits) with hlt | heq | hgt
  · rw [BitVec.getLsbD_not, hbelow _ hlt, Bool.not_true, Bool.and_false] at hset
    exact absurd hset (by simp)
  · exact heq
  · have hclear := BitVec.getLsbD_false_of_lt_ctz hgt
    rw [BitVec.getLsbD_not, hzero, decide_eq_true h64] at hclear
    exact absurd hclear (by simp)

theorem Same.probe (h : Same a g) (w : Nat) :
    probe g w = (bpProbe a w).map fun idx => (idx / 64, idx % 64) := by
  unfold RustBlockPool.probe bpProbe
  dsimp only
  rw [h.hint, h.words, h.bitmap, h.blockCount]
  generalize wadd a.hint w % a.words = wi
  by_cases hb : a.bitmap wi = BitVec.allOnes 64
  · rw [if_pos hb, if_pos hb]
    rfl
  · rw [if_neg hb, if_neg hb, ctz_not hb]
    have h64 := (lowestZero_spec hb).1
    generalize lowestZero (a.bitmap wi) = n at h64
    split
    · rfl
    · rw [Option.map_some, show (wi * 64 + n) / 64
        = wi by omega, show (wi * 64 + n) % 64 = n by omega]

theorem Same.find (h : Same a g) :
    (List.range g.words).findSome? (RustBlockPool.probe g)
      = (bpFind a).map fun idx => (idx / 64, idx % 64) := by
  unfold bpFind
  rw [List.map_findSome?, h.words]
  exact congrArg (fun f => (List.range a.words).findSome? f) (funext h.probe)

/-! ## the calls -/

theorem Same.take (h : Same a g) (idx : Nat) :
    Same (bpTake (BlockPool.countAlloc a) idx)
    (RustBlockPool.take (countAlloc g) (idx / 64) (idx % 64)) := by
  refine ⟨h.blockSize, h.blockCount, rfl, h.words, ?_, h.room⟩
  show g.bitmap.set (idx / 64 * 64 + idx % 64) = a.bitmap.set idx
  rw [h.bitmap, Nat.div_add_mod']

theorem Same.give (h : Same a g) (idx : Nat) : Same (bpGive a idx) (RustBlockPool.give g idx) := by
  refine ⟨h.blockSize, h.blockCount, rfl, h.words, ?_, h.room⟩
  show g.bitmap.clear idx = a.bitmap.clear idx
  rw [h.bitmap]

/-- the address of a block -/
theorem Same.addr (h : Same a g) (ht : Tidy a) (hi : idx < a.blockCount) :
    wadd g.base (wmul idx g.blockSize) = g.base + idx * a.blockSize
      ∧ g.base + idx * a.blockSize < 2 ^ 64 := by
  have h1 : (idx + 1) * a.blockSize ≤ a.blockCount * a.blockSize := Nat.mul_le_mul_right _ hi
  have h2 := ht.pos.1
  obtain ⟨h3, h4⟩ := h.room
  rw [h.blockSize, h.blockCount, Nat.mul_comm] at h4
  rw [Nat.add_mul, Nat.one_mul] at h1
  rw [h.blockSize, wmul_of_lt (by omega), wadd_of_lt (by omega)]
  exact ⟨rfl, by omega⟩

theorem Same.refused (h : Same a g) (ht : Tidy a)
    (hno : a.blockSize < size ∨ ∀ i < a.blockCount, bpTest a i = true) :
    RustBlockPool.allocate g size align = (none, countFailed (countAlloc g)) := by
  unfold RustBlockPool.allocate
  dsimp only
  split
  · rfl
  · next hle =>
    have hle' : ¬ a.blockSize < size := h.blockSize ▸ hle
    have hnone : (List.range (countAlloc g).words).findSome? (RustBlockPool.probe (countAlloc g))
        = none := by
      have hf := h.find
      rw [(bpFind_none_iff ht).mpr (hno.resolve_left hle')] at hf
      exact hf
    rw [hnone]

theorem Same.served (h : Same a g) (ht : Tidy a) (hs : size ≤ a.blockSize)
    (hfirst : FirstFree a idx) :
    RustBlockPool.allocate g size align
      = (some (g.base + idx * a.blockSize),
      RustBlockPool.take (countAlloc g) (idx / 64) (idx % 64)) := by
  have hsome : (List.range (countAlloc g).words).findSome? (RustBlockPool.probe (countAlloc g))
      = some (idx / 64, idx % 64) := by
    have hf := h.find
    rw [(bpFind_some_iff ht).mpr hfirst] at hf
    exact hf
  unfold RustBlockPool.allocate
  dsimp only
  have hle : ¬ size > (countAlloc g).blockSize := by
    show ¬ size > g.blockSize
    rw [h.blockSize]
    omega
  rw [if_neg hle, hsome]
  dsimp only
  rw [Nat.div_add_mod', show wadd (countAlloc g).base (wmul idx (countAlloc g).blockSize)
    = g.base + idx * a.blockSize from (h.addr ht hfirst.lt).1]
  unfold nonNull
  rw [if_neg (by have := h.room.1; omega)]

/-- **A request takes the same block of both pools, or none.** -/
theorem Same.allocate (h : Same a g) (ht : Tidy a) (size align : Nat) :
    ((bpAllocate a size align).1 = 0 ∧ (RustBlockPool.allocate g size align).1 = none
      ∨ ∃ idx < a.blockCount, (bpAllocate a size align).1 = a.mem + idx * a.blockSize
        ∧ (RustBlockPool.allocate g size align).1 = some (g.base + idx * a.blockSize))
    ∧ Same (bpAllocate a size align).2 (RustBlockPool.allocate g size align).2 := by
  by_cases hno : a.blockSize < size ∨ ∀ i < a.blockCount, bpTest a i = true
  · rw [bpAllocate_refused ht hno, h.refused ht hno]
    exact ⟨Or.inl ⟨rfl, rfl⟩, h.blockSize, h.blockCount, h.hint, h.words, h.bitmap, h.room⟩
  · obtain ⟨hsize, hsome⟩ := not_or.mp hno
    obtain ⟨idx, hfirst⟩ := exists_firstFree ht hsome
    rw [bpAllocate_first ht (by omega) hfirst, h.served ht (by omega) hfirst]
    exact ⟨Or.inr ⟨idx, hfirst.lt, (ht.addr hfirst.lt).1, rfl⟩, h.take idx⟩

theorem Same.deallocate (h : Same a g) (ht : Tidy a) (hi : idx < a.blockCount)
    (hu : bpTest a idx = true) :
    RustBlockPool.deallocate g (g.base + idx * a.blockSize) = some (RustBlockPool.give g idx) := by
  have hlt := (h.addr ht hi).2
  have htest : test g idx = true := by
    unfold test
    rw [h.bitmap]
    exact hu
  unfold RustBlockPool.deallocate
  dsimp only
  rw [wsub_of_le (by omega) hlt, Nat.add_sub_cancel_left, h.blockSize, Nat.mul_mod_left, if_pos rfl,
    Nat.mul_div_cancel idx ht.pos.1, h.blockCount, if_pos ⟨hi, htest⟩]

/-! ## the walk -/

theorem Same.walkLoop (h : Same a g) (fuel i rs : Nat) (ru : Bool) :
    RustBlockPool.walkLoop g fuel i rs ru = BlockPool.walkLoop a fuel i rs ru := by
  have htest : test g = bpTest a := by
    unfold test bpTest
    rw [h.bitmap]
  unfold RustBlockPool.walkLoop BlockPool.walkLoop
  rw [h.blockCount, h.blockSize, htest]

/-- **The walks are the same.** -/
theorem Same.walk (h : Same a g) (hpos : 0 < a.blockCount) : RustBlockPool.walk g = bpWalk a := by
  unfold RustBlockPool.walk bpWalk
  rw [h.blockCount, if_neg hpos.ne', h.walkLoop]
  unfold test bpTest
  rw [h.bitmap]

/-! ## creation -/

theorem Same.create {vm : Vm} {handle bits : Bool} {m : Mem} {blockSize blockCount : Nat}
    (hs : 0 < blockSize) (ha : hfBlockPoolCreate vm handle bits m blockSize blockCount = some a)
    (hg : new vm blockSize blockCount = some g) : Same a g := by
  obtain ⟨bs, bytes, hbs, hbytes, hmem, e⟩ := hfBlockPoolCreate_eq ha
  unfold new at hg
  dsimp only at hg
  rw [Nat.max_eq_left hs, ← hbs] at hg
  split at hg
  · next hfit =>
    have hfits : Fits a := by
      rw [e]
      exact hfit
    have ht := Tidy.create ha hfits
    have hpos : bytes ≠ 0 := by
      rintro rfl
      exact hmem (hfVmReserve_zero vm)
    -- both ask for the same mapping
    have hbase : RustBuddy.vmReserve vm bytes = hfVmReserve vm bytes := by
      unfold RustBuddy.vmReserve hfVmReserve
      rw [Nat.max_eq_left (Nat.pos_of_ne_zero hpos)]
    rw [wmul_of_lt hfit] at hbytes
    rw [← hbytes, hbase, if_neg hmem] at hg
    obtain rfl := Option.some.inj hg
    have hwords := ht.words
    have hroom := ht.room
    rw [e] at hwords hroom ⊢
    exact ⟨rfl, rfl, rfl, hwords.symm, rfl, Nat.pos_of_ne_zero hmem, hroom⟩
  · exact absurd hg (by simp)

end

/-- what a caller sees of the search in a state of the C pool, and in the same state of the Rust
pool -/
structure Exact (a : BpAlloc) : Prop where
  hint : a.hint < a.words
  clear : ∀ i, a.blockCount ≤ i → bpTest a i = false
  used : a.stats.used = a.blockSize * usedCount a
  null_iff : ∀ size alignment, (bpAllocate a size alignment).1 = 0
    ↔ a.blockSize < size ∨ ∀ i < a.blockCount, bpTest a i = true
  takes : ∀ size alignment, (bpAllocate a size alignment).1 ≠ 0 → ∃ idx, FirstFree a idx
    ∧ (∀ i, bpTest (bpAllocate a size alignment).2 i = (decide (i = idx) || bpTest a i))
    ∧ (bpAllocate a size alignment).1 = a.mem + idx * a.blockSize
    ∧ ∀ g, Same a g → (allocate g size alignment).1 = some (g.base + idx * a.blockSize)
  null : ∀ size alignment, (bpAllocate a size alignment).1 = 0 →
    ∀ g, Same a g → (allocate g size alignment).1 = none
  /-- so that the same holds of the next call -/
  same : ∀ size alignment g, Same a g →
    Same (bpAllocate a size alignment).2 (allocate g size alignment).2
  /-- a block given back to a full pool is taken next -/
  refill : (∀ j < a.blockCount, bpTest a j = true) →
    ∀ i < a.blockCount, ∀ size ≤ a.blockSize, ∀ alignment,
    (∃ a', bpDeallocate a (a.mem + i * a.blockSize) = some a'
      ∧ (bpAllocate a' size alignment).1 = a.mem + i * a.blockSize)
    ∧ ∀ g, Same a g → ∃ g', deallocate g (g.base + i * a.blockSize) = some g'
      ∧ (allocate g' size alignment).1 = some (g.base + i * a.blockSize)

theorem Exact.of_tidy {a : BpAlloc} (ht : Tidy a)
    (hused : a.stats.used = a.blockSize * usedCount a) :
    Exact a where
  hint := ht.hint
  clear := ht.clear
  used := hused
  null_iff _ _ := bpAllocate_null_iff ht
  takes size alignment h0 := by
    obtain ⟨hsize, hsome⟩ := not_or.mp fun hno => h0 ((bpAllocate_null_iff ht).mpr hno)
    obtain ⟨idx, hfirst⟩ := exists_firstFree ht hsome
    rw [bpAllocate_first ht (by omega) hfirst]
    refine ⟨idx, hfirst, WordMap.test_set (by decide) a.bitmap idx, (ht.addr hfirst.lt).1,
      fun g hg => ?_⟩
    rw [hg.served ht (by omega) hfirst]
  null size alignment h0 g hg := by rw [hg.refused ht ((bpAllocate_null_iff ht).mp h0)]
  same size alignment g hg := (hg.allocate ht size alignment).2
  refill hall i hi size hs alignment := by
    have ht' := ht.give hi
    have hfirst := firstFree_give ht hall hi
    have haddr := (ht.addr hi).1
    refine ⟨⟨bpGive a i, ?_, ?_⟩, fun g hg => ⟨give g i, hg.deallocate ht hi (hall i hi), ?_⟩⟩
    · rw [← haddr]
      exact bpDeallocate_addr ht hi (hall i hi)
    · rw [bpAllocate_first ht' hs hfirst]
      exact haddr
    · rw [(hg.give i).served ht' hs hfirst]
      rfl

/-- **The search is exact.**  In every state of every run of the C pool, the cursor, the bitmap and
the counter are in order, a request is refused only if it is too large or all blocks are used, and
otherwise it takes the first free block from the cursor on.  The Rust pool takes the same block in
the same state. What is given back to a full pool is taken next. -/
theorem search_exact {vm : Vm} {handle bits : Bool} {m : Mem} {blockSize blockCount : Nat}
    {a₀ a : BpAlloc} {acts : List BpAct}
    (hcreate : hfBlockPoolCreate vm handle bits m blockSize blockCount = some a₀) (hfit : Fits a₀)
    (hrun : Steps BpStep a₀ acts a) : Exact a :=
  Exact.of_tidy ((Tidy.create hcreate hfit).of_run hrun)
    ((BpInv.of_run hcreate hrun).used (fits_of_run hfit hrun))

theorem search_exact_small : Exact (bpAllocate samplePool 64 16).2 :=
  search_exact samplePool_create (show 64 * 8 < 2 ^ 64 by decide)
    (Steps.snoc (Steps.nil _) (BpStep.alloc 64 16))

end HeapForge.RustBlockPool
