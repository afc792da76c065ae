import HeapForge.BlockPool.Run

/-!
# The walk of the block pool is a run-length encoding

The walk lists the runs of blocks in the same state, in bytes.  As long as no offset and no size
wraps, these are the runs of `Lib.runLengths`, scaled by the size of a block.

* `walkFrom`            the loop with its counter in a machine word; it may run for ever;
* `ends_iff`            it ends, with the list `bpWalk`, unless the counter wraps;
* `Faithful`            what a run-length encoding of the bitmap is;
* `LastFits`            the bytes of the last run of the bitmap do not wrap;
* `walk_iff`            **then the walk is one, and only then;**
* `BpInv.walk`          it reports the bytes in use, if the size of the pool does not wrap;
* `walk_faithful_iff`   **only of such a pool is it one for every bitmap.**
-/

set_option linter.unusedSectionVars false
set_option linter.unusedVariables false

namespace HeapForge.BlockPool
open Lib

/-- `for (i = 1; i <= block_count; ++i)` with `i` in a machine word; `none` says that the loop has
not ended in the given number of rounds -/
def walkFrom (a : BpAlloc) : Nat → Nat → Nat → Bool → Option (List BlockInfo)
  | 0, _, _, _ => none
  | fuel + 1, i, runStart, runUsed =>
    if i ≤ a.blockCount then
      let used := if i < a.blockCount then bpTest a i else !runUsed
      if used ≠ runUsed then
        (walkFrom a fuel (wadd i 1) i used).map
          (⟨wmul runStart a.blockSize, wmul (wsub i runStart) a.blockSize, !runUsed⟩ :: ·)
      else walkFrom a fuel (wadd i 1) runStart runUsed
    else some []

/-- the walk ends and has reported `w` -/
def Ends (a : BpAlloc) (w : List BlockInfo) : Prop :=
  ∃ fuel, walkFrom a fuel 1 0 (bpTest a 0) = some w

/-- **A run-length encoding of the bitmap**: the entries are not empty, the first starts at 0, each
where the one before ends, the last ends with the last block; they are free and used in turn; the
entry with a block is free if the bit of the block is clear. -/
structure Faithful (a : BpAlloc) (w : List BlockInfo) : Prop where
  tiles : Tiles BlockInfo.offset BlockInfo.size 0 w (a.blockCount * a.blockSize)
  alternating : w.IsChain fun x y => x.isFree ≠ y.isFree
  bits : ∀ i < a.blockCount, ∃ b ∈ w, b.offset ≤ i * a.blockSize
    ∧ i * a.blockSize < b.offset + b.size
    ∧ (b.isFree = true ↔ bpTest a i = false)

/-- a run as it is reported -/
def segInfo (blockSize : Nat) (x : Seg) : BlockInfo :=
  ⟨wmul x.start blockSize, wmul x.len blockSize, !x.value⟩

/-- the bytes in front of a run and its own fit into a word -/
def SegFits (blockSize : Nat) (x : Seg) : Prop :=
  x.start * blockSize < 2 ^ 64 ∧ x.len * blockSize < 2 ^ 64

/-- those of the last run of the bitmap do -/
def LastFits (a : BpAlloc) : Prop :=
  ∀ x ∈ (runLengths (bpTest a) a.blockCount).getLast?, SegFits a.blockSize x

section
variable {vm : Vm} {a : BpAlloc} {fuel fuel' k i rs : Nat} {ru : Bool} {w w' : List BlockInfo}

/-! ## the loop ends -/

theorem walkFrom_succ (h : walkFrom a fuel i rs ru = some w) :
    walkFrom a (fuel + 1) i rs ru = some w := by
  induction fuel generalizing i rs ru w with
  | zero => exact absurd h (by simp [walkFrom])
  | succ fuel ih =>
    unfold walkFrom at h ⊢
    split
    · next hi =>
      rw [if_pos hi] at h
      dsimp only at h ⊢
      generalize (if i < a.blockCount then bpTest a i else !ru) = u at h ⊢
      by_cases hu : u ≠ ru
      · rw [if_pos hu] at h ⊢
        obtain ⟨w', hw, e⟩ := Option.map_eq_some_iff.mp h
        rw [ih hw]
        exact congrArg some e
      · rw [if_neg hu] at h ⊢
        exact ih h
    · next hi =>
      rw [if_neg hi] at h
      exact h

theorem walkFrom_mono (h : walkFrom a fuel i rs ru = some w) (hle : fuel ≤ fuel') :
    walkFrom a fuel' i rs ru = some w := by
  induction hle with
  | refl => exact h
  | step _ ih => exact walkFrom_succ ih

/-- the rounds up to the last -/
theorem walkFrom_eq (hb : a.blockCount + 1 < 2 ^ 64) (hi : i + k = a.blockCount + 1) :
    walkFrom a (k + 1) i rs ru = some (walkLoop a k i rs ru) := by
  unfold walkLoop
  induction k generalizing i rs ru with
  | zero =>
    unfold walkFrom runsLoop
    rw [if_neg (by omega)]
  | succ k ih =>
    unfold walkFrom runsLoop
    rw [if_pos (by omega), wadd_of_lt (by omega)]
    dsimp only
    generalize (if i < a.blockCount then bpTest a i else !ru) = u
    by_cases hu : u ≠ ru
    · rw [if_pos hu, if_pos hu, ih (by omega)]
      rfl
    · rw [if_neg hu, if_neg hu]
      exact ih (by omega)

/-- a counter that is never above the number of blocks -/
theorem walkFrom_stuck (hb : a.blockCount + 1 = 2 ^ 64) (hi : i < 2 ^ 64) :
    walkFrom a fuel i rs ru = none := by
  induction fuel generalizing i rs ru with
  | zero => rfl
  | succ fuel ih =>
    unfold walkFrom
    rw [if_pos (by omega)]
    dsimp only
    generalize (if i < a.blockCount then bpTest a i else !ru) = u
    by_cases hu : u ≠ ru
    · rw [if_pos hu, ih (wadd_lt i 1)]
      rfl
    · rw [if_neg hu]
      exact ih (wadd_lt i 1)

/-- **When the walk ends, and with what.** -/
theorem ends_iff (hb : a.blockCount < 2 ^ 64) : Ends a w
    ↔ a.blockCount + 1 < 2 ^ 64 ∧ w = bpWalk a := by
  constructor
  · intro ⟨fuel, h⟩
    have hlt : a.blockCount + 1 < 2 ^ 64 := by
      by_contra hge
      rw [walkFrom_stuck (by omega) (by decide)] at h
      exact absurd h (by simp)
    have h' : walkFrom a (a.blockCount + 1) 1 0 (bpTest a 0) = some (bpWalk a) :=
      walkFrom_eq hlt (Nat.add_comm 1 a.blockCount)
    have e := walkFrom_mono h (Nat.le_max_left fuel (a.blockCount + 1))
    rw [walkFrom_mono h' (Nat.le_max_right fuel (a.blockCount + 1))] at e
    exact ⟨hlt, (Option.some.inj e).symm⟩
  · intro ⟨hlt, e⟩
    rw [e]
    exact ⟨_, walkFrom_eq hlt (Nat.add_comm 1 a.blockCount)⟩

/-! ## the runs in bytes -/

theorem bpWalk_eq (hb : a.blockCount < 2 ^ 64) :
    bpWalk a = (runLengths (bpTest a) a.blockCount).map (segInfo a.blockSize) := by
  refine runsLoop_eq_map (fun s i v hs hi => ?_) (Nat.add_comm 1 a.blockCount) (Nat.zero_le 1)
  rw [wsub_of_le hs (by omega)]
  rfl

theorem Fits.count_lt (h : Fits a) (hpos : 0 < a.blockSize) : a.blockCount < 2 ^ 64 := by
  have h1 : 1 * a.blockCount ≤ a.blockSize * a.blockCount := Nat.mul_le_mul_right _ hpos
  have h2 : a.blockSize * a.blockCount < 2 ^ 64 := h
  omega

/-- blocks have at least 16 bytes, so the counter does not wrap either -/
theorem Fits.ends (h : Fits a) (hd : 16 ∣ a.blockSize) (hs : 0 < a.blockSize) :
    Ends a (bpWalk a) := by
  have h1 : 16 * a.blockCount ≤ a.blockSize * a.blockCount :=
    Nat.mul_le_mul_right _ (Nat.le_of_dvd hs hd)
  have h2 : a.blockSize * a.blockCount < 2 ^ 64 := h
  exact (ends_iff (h.count_lt hs)).mpr ⟨by omega, rfl⟩

theorem SegFits.eq {n : Nat} {x : Seg} (h : SegFits n x) :
    (segInfo n x).offset = x.start * n ∧ (segInfo n x).size = x.len * n :=
  ⟨wmul_of_lt h.1, wmul_of_lt h.2⟩

/-- the other runs lie in front of the last one -/
theorem LastFits.all (h : LastFits a) (hc : 0 < a.blockCount) :
    ∀ x ∈ runLengths (bpTest a) a.blockCount, SegFits a.blockSize x := by
  unfold LastFits at h
  have ht := (runLengths_encodes (bpTest a) hc).tiles
  generalize runLengths (bpTest a) a.blockCount = l at h ht
  intro x hx
  rcases List.eq_nil_or_concat' l with rfl | ⟨l, y, rfl⟩
  · exact absurd hx List.not_mem_nil
  · have hy : SegFits a.blockSize y := h y (by rw [List.getLast?_concat]; rfl)
    rcases List.mem_append.mp hx with hx | hx
    · have hend := ht.around.1 x hx
      have h1 : x.start * a.blockSize ≤ y.start * a.blockSize := Nat.mul_le_mul_right _ (by omega)
      have h2 : x.len * a.blockSize ≤ y.start * a.blockSize := Nat.mul_le_mul_right _ (by omega)
      exact ⟨h1.trans_lt hy.1, h2.trans_lt hy.1⟩
    · rw [List.mem_singleton.mp hx]
      exact hy

theorem Fits.lastFits (h : Fits a) (hc : 0 < a.blockCount) : LastFits a := by
  intro x hx
  have hend := ((runLengths_encodes (bpTest a) hc).tiles.bounds (List.mem_of_getLast? hx)).2.1
  have h1 : x.start * a.blockSize ≤ a.blockCount * a.blockSize := Nat.mul_le_mul_right _ (by omega)
  have h2 : x.len * a.blockSize ≤ a.blockCount * a.blockSize := Nat.mul_le_mul_right _ (by omega)
  have h3 : a.blockSize * a.blockCount < 2 ^ 64 := h
  rw [Nat.mul_comm] at h3
  exact ⟨by omega, by omega⟩

/-- blocks have at least 16 bytes, so the counter does not wrap -/
theorem LastFits.count_lt (h : LastFits a) (hc : 0 < a.blockCount) (hd : 16 ∣ a.blockSize)
    (hs : 0 < a.blockSize) : a.blockCount + 1 < 2 ^ 64 := by
  have ht := (runLengths_encodes (bpTest a) hc).tiles
  unfold LastFits at h
  generalize runLengths (bpTest a) a.blockCount = l at h ht
  rcases List.eq_nil_or_concat' l with rfl | ⟨l, y, rfl⟩
  · have h0 : 0 = a.blockCount := ht
    omega
  · obtain ⟨h1, h2⟩ : SegFits a.blockSize y := h y (by rw [List.getLast?_concat]; rfl)
    obtain ⟨mid, -, hmid, -, hlast⟩ := tiles_append.mp ht
    have hlast : mid + y.len = a.blockCount := hlast
    have h16 := Nat.le_of_dvd hs hd
    have h3 : y.start * 16 ≤ y.start * a.blockSize := Nat.mul_le_mul_left _ h16
    have h4 : y.len * 16 ≤ y.len * a.blockSize := Nat.mul_le_mul_left _ h16
    omega

/-- **The walk is a run-length encoding of the bitmap.** -/
theorem bpWalk_faithful (hb : a.blockCount < 2 ^ 64) (hfit : LastFits a) (hs : 0 < a.blockSize)
    (hc : 0 < a.blockCount) : Faithful a (bpWalk a) := by
  rw [bpWalk_eq hb]
  obtain ⟨ht, halt, hval⟩ := runLengths_encodes (bpTest a) hc
  have hfit := hfit.all hc
  generalize runLengths (bpTest a) a.blockCount = l at ht halt hval hfit
  refine ⟨?_, ?_, ?_⟩
  · have hscaled := ht.scale (g := segInfo a.blockSize) hs (fun x hx => (hfit x hx).eq.1)
      fun x hx => (hfit x hx).eq.2
    rw [Nat.zero_mul] at hscaled
    exact hscaled
  · rw [List.isChain_map]
    refine halt.imp fun x y hxy e => hxy ?_
    exact Bool.not_inj e
  · intro i hi
    obtain ⟨x, hx, h1, h2⟩ := ht.cover ⟨Nat.zero_le i, hi⟩
    obtain ⟨e1, e2⟩ := (hfit x hx).eq
    have h3 : (i + 1) * a.blockSize ≤ (x.start + x.len) * a.blockSize := Nat.mul_le_mul_right _ h2
    rw [Nat.add_mul, Nat.one_mul, Nat.add_mul] at h3
    refine ⟨_, List.mem_map_of_mem hx, ?_, ?_, ?_⟩
    · rw [e1]
      exact Nat.mul_le_mul_right _ h1
    · rw [e1, e2]
      omega
    · rw [hval x hx i h1 h2]
      show (!x.value) = true ↔ x.value = false
      rw [Bool.not_eq_true']

/-- a run whose bytes wrap is too short, and the walk ends too early -/
theorem Faithful.lastFits (h : Faithful a (bpWalk a)) (hb : a.blockCount < 2 ^ 64)
    (hc : 0 < a.blockCount) : LastFits a := by
  have htiles := h.tiles
  rw [bpWalk_eq hb, ← Nat.zero_mul a.blockSize] at htiles
  have heq := (runLengths_encodes (bpTest a) hc).tiles.eq_scale htiles fun _ _ => Nat.mod_le _ _
  intro x hx
  obtain ⟨h1, h2⟩ := heq x (List.mem_of_getLast? hx)
  exact ⟨h1 ▸ Nat.mod_lt _ (Nat.two_pow_pos 64), h2 ▸ Nat.mod_lt _ (Nat.two_pow_pos 64)⟩

/-- **The walk of this bitmap.** -/
theorem walk_iff (hb : a.blockCount < 2 ^ 64) (hd : 16 ∣ a.blockSize) (hs : 0 < a.blockSize)
    (hc : 0 < a.blockCount) : (∃ w, Ends a w ∧ Faithful a w) ↔ LastFits a := by
  constructor
  · rintro ⟨w, hw, hfaith⟩
    obtain ⟨-, rfl⟩ := (ends_iff hb).mp hw
    exact hfaith.lastFits hb hc
  · intro hfit
    exact ⟨_, (ends_iff hb).mpr ⟨hfit.count_lt hc hd hs, rfl⟩, bpWalk_faithful hb hfit hs hc⟩

/-! ## the bytes in use -/

/-- the used runs of a list, in bytes -/
theorem usedSize_segInfo {l : List Seg} {n : Nat} (h : ∀ x ∈ l, (segInfo n x).size = x.len * n) :
    usedSize (l.map (segInfo n)) = ((l.filter Seg.value).map Seg.len).sum * n := by
  induction l with
  | nil => rw [List.map_nil, List.filter_nil, List.map_nil, List.sum_nil, Nat.zero_mul]; rfl
  | cons x l ih =>
    have hx := h x List.mem_cons_self
    have hrest := ih fun y hy => h y (List.mem_cons_of_mem x hy)
    rw [show (x :: l).map (segInfo n) = [segInfo n x] ++ l.map (segInfo n) from rfl,
      usedSize_append, hrest]
    cases hv : x.value with
    | false => simp [usedSize, segInfo, hv]
    | true =>
      rw [List.filter_cons_of_pos hv, List.map_cons, List.sum_cons, Nat.add_mul, ← hx]
      simp [usedSize, segInfo, hv]

/-- **The walk reports the bytes in use.** -/
theorem BpInv.walk (h : BpInv vm a) (hfit : Fits a) : a.stats.used = usedSize (bpWalk a) := by
  obtain ⟨hs, hc⟩ := h.pos
  have henc := runLengths_encodes (bpTest a) hc
  rw [h.used hfit, bpWalk_eq (hfit.count_lt hs),
    usedSize_segInfo fun x hx => ((hfit.lastFits hc).all hc x hx).eq.2, henc.count, Nat.mul_comm]
  rfl

/-! ## pools whose size wraps -/

def BpAlloc.withBits (a : BpAlloc) (bitmap : WordMap 64) : BpAlloc := { a with bitmap := bitmap }

/-- with all blocks free there is one run -/
theorem LastFits.fits (h : LastFits a) (hc : 0 < a.blockCount) (hclear : ∀ i, bpTest a i = false) :
    Fits a := by
  unfold LastFits at h
  have henc := runLengths_encodes (bpTest a) hc
  generalize runLengths (bpTest a) a.blockCount = l at h henc
  have hfree : ∀ x ∈ l, x.value = false := by
    intro x hx
    have h0 := (henc.tiles.bounds hx).2.2
    rw [← henc.value x hx x.start le_rfl (by omega)]
    exact hclear x.start
  match l, h, henc, hfree with
  | [], _, henc, _ =>
    have h0 : 0 = a.blockCount := henc.tiles
    omega
  | [x], h, henc, _ =>
    have hlen : 0 + x.len = a.blockCount := henc.tiles.2.2
    have hx : x.len * a.blockSize < 2 ^ 64 := (h x rfl).2
    rw [Nat.zero_add] at hlen
    rw [hlen, Nat.mul_comm] at hx
    exact hx
  | x :: y :: l, _, henc, hfree =>
    have hne := (List.isChain_cons_cons.mp henc.alternating).1
    rw [hfree x List.mem_cons_self, hfree y (List.mem_cons_of_mem x List.mem_cons_self)] at hne
    exact absurd rfl hne

end

/-- **The walk is a run-length encoding of a bitmap exactly if the bytes in front of its last run
and those of this run fit into a word**, so of every bitmap of a pool exactly if the size of the
pool does not wrap.  Then it also reports the bytes in use, in every state of every run. -/
theorem walk_faithful_iff {vm : Vm} {handle bits : Bool} {m : Mem} {blockSize blockCount : Nat}
    {a : BpAlloc} (hcreate : hfBlockPoolCreate vm handle bits m blockSize blockCount = some a)
    (hb : blockCount < 2 ^ 64) :
    (∀ bitmap, (∃ w, Ends (a.withBits bitmap) w ∧ Faithful (a.withBits bitmap) w)
      ↔ LastFits (a.withBits bitmap))
    ∧ ((∀ bitmap, ∃ w, Ends (a.withBits bitmap) w ∧ Faithful (a.withBits bitmap) w) ↔ Fits a)
    ∧ (Fits a → ∀ acts a', Steps BpStep a acts a' →
      ∃ w, Ends a' w ∧ Faithful a' w ∧ usedSize w = a'.stats.used) := by
  obtain ⟨-, h16, hpos, -⟩ := BpInv.create hcreate
  have hcount : a.blockCount < 2 ^ 64 := by
    obtain ⟨bs, bytes, -, -, -, rfl⟩ := hfBlockPoolCreate_eq hcreate
    exact hb
  have hiff : ∀ bitmap, (∃ w, Ends (a.withBits bitmap) w ∧ Faithful (a.withBits bitmap) w)
      ↔ LastFits (a.withBits bitmap) := fun bitmap => walk_iff hcount h16 hpos.1 hpos.2
  refine ⟨hiff, ⟨fun hall => ?_, fun hfit bitmap => ?_⟩, fun hfit acts a' hrun => ?_⟩
  · have hlast := (hiff _).mp (hall fun _ => 0#64)
    exact hlast.fits hpos.2 fun i => by simp [bpTest, WordMap.test, BpAlloc.withBits]
  · have hfit' : Fits (a.withBits bitmap) := hfit
    exact (hiff bitmap).mpr (hfit'.lastFits hpos.2)
  · have hinv := BpInv.of_run hcreate hrun
    have hfit' := fits_of_run hfit hrun
    have hlast := hfit'.lastFits hinv.pos.2
    exact ⟨_, hfit'.ends hinv.size hinv.pos.1,
      bpWalk_faithful (hfit'.count_lt hinv.pos.1) hlast hinv.pos.1 hinv.pos.2,
      (hinv.walk hfit').symm⟩

/-- two blocks whose sizes add up to 32 -/
def wrappedPool : BpAlloc :=
  ⟨2 ^ 20, 4096, 2 ^ 63 + 16, 2, 0, fun _ => 0#64, 1, Stats.fresh 4096, Mem.zero⟩

theorem wrappedPool_create :
    hfBlockPoolCreate sampleVm true true Mem.zero (2 ^ 63 + 16) 2 = some wrappedPool := by
  have h1 : hfAlignUp (2 ^ 63 + 16) HF_DEFAULT_ALIGN = 2 ^ 63 + 16 := by decide +kernel
  have h2 : hfAlignUp (wmul (2 ^ 63 + 16) 2) sampleVm.pageSize = 4096 := by decide +kernel
  have h3 : hfVmReserve sampleVm 4096 = 2 ^ 20 := by decide +kernel
  unfold hfBlockPoolCreate
  dsimp only
  rw [if_pos rfl, h1, h2, h3, if_neg (by decide), if_pos rfl]
  rfl

/-- a pool whose size does not wrap; and one whose size does, with the first of its two blocks
used -/
theorem walk_faithful_small :
    (∃ w, Ends samplePool w ∧ Faithful samplePool w ∧ usedSize w = samplePool.stats.used)
      ∧ ∃ w, Ends (wrappedPool.withBits fun _ => 1#64) w
      ∧ Faithful (wrappedPool.withBits fun _ => 1#64) w := by
  constructor
  · have hfit : Fits samplePool := show 64 * 8 < 2 ^ 64 by decide
    exact (walk_faithful_iff samplePool_create (by decide)).2.2 hfit [] samplePool (Steps.nil _)
  · have hruns : runLengths (bpTest (wrappedPool.withBits fun _ => 1#64)) 2
      = [⟨0, 1, true⟩, ⟨1, 1, false⟩] := rfl
    refine ((walk_faithful_iff wrappedPool_create (by decide)).1 fun _ => 1#64).mpr fun x hx => ?_
    change x ∈ (runLengths (bpTest (wrappedPool.withBits fun _ => 1#64)) 2).getLast? at hx
    rw [hruns] at hx
    obtain rfl := Option.some.inj hx
    show 1 * (2 ^ 63 + 16) < 2 ^ 64 ∧ 1 * (2 ^ 63 + 16) < 2 ^ 64
    omega

/-- **A pool whose walk is one entry of 32 bytes**: no entry contains the second block. -/
theorem walk_of_wrapped_pool :
    hfBlockPoolCreate sampleVm true true Mem.zero (2 ^ 63 + 16) 2 = some wrappedPool
      ∧ Ends wrappedPool [⟨0, 32, true⟩] ∧ ∀ w, Ends wrappedPool w → ¬ Faithful wrappedPool w := by
  have hwalk : bpWalk wrappedPool = [⟨0, 32, true⟩] := by decide +kernel
  refine ⟨wrappedPool_create, (ends_iff (by decide)).mpr ⟨by decide, hwalk.symm⟩,
    fun w hw hfaith => ?_⟩
  obtain ⟨-, rfl⟩ := (ends_iff (by decide)).mp hw
  obtain ⟨b, hb, hle, hlt, -⟩ := hfaith.bits 1 (by decide)
  rw [hwalk, List.mem_singleton] at hb
  rw [hb] at hlt
  exact absurd hlt (by decide)

end HeapForge.BlockPool
