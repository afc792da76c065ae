import HeapForge.FreeList.Layout

/-!
# Over-aligned blocks of the free list

A request with an alignment `A > 16` reserves `A` bytes more.  Its pointer is moved past an 8-byte
word and then up to a multiple of `A`, at most `16 + A` bytes from the header in all, since
everything is a multiple of 16 from the header on.

* `Shaped`           the blocks and the circular list of a heap, without its counters;
* `Shaped.reserve`   the block that a request reserves;
* `over_inside`      **an over-aligned pointer and the word in front of it lie in their block.**
-/

set_option linter.unusedSectionVars false
set_option linter.unusedVariables false

namespace HeapForge.FreeList
open Lib

/-! ## the counters do not matter -/

def FlAlloc.withStats (a : FlAlloc) (s : Stats) : FlAlloc := { a with stats := s }

section
variable {a : FlAlloc} {bs : List Blk} {ring : List Nat} {need h : Nat} {s : Stats}

theorem findFit_withStats (a : FlAlloc) (need : Nat) (s : Stats) :
    findFit (a.withStats s) need = (findFit a need).map fun r => (r.1, r.2.withStats s) := by
  obtain ⟨mem, capacity, policy, freeHead, cursor, stats, heap⟩ := a
  unfold findFit FlAlloc.withStats
  dsimp only
  by_cases h0 : freeHead = 0
  · rw [if_pos h0, if_pos h0]
    rfl
  · rw [if_neg h0, if_neg h0]
    cases policy with
    | first =>
      dsimp only
      rw [Option.map_map]
      rfl
    | best =>
      dsimp only
      rw [Option.map_map]
      rfl
    | next =>
      dsimp only
      rw [Option.map_map]
      refine congrArg (fun f => Option.map f _) (funext fun n => ?_)
      rw [Function.comp_apply]
      by_cases hn : n = 0
      · rw [if_pos hn, if_pos hn]
      · rw [if_neg hn, if_neg hn]
        rfl

theorem flUnlink_withStats (a : FlAlloc) (n : Nat) (s : Stats) :
    flUnlink (a.withStats s) n = (flUnlink a n).withStats s := by
  unfold flUnlink FlAlloc.withStats
  dsimp only
  by_cases h : nodeNext a.heap n = n
  · rw [if_pos h, if_pos h]
  · rw [if_neg h, if_neg h]

theorem flSplit_withStats (a : FlAlloc) (h need : Nat) (s : Stats) :
    flSplit (a.withStats s) h need = (flSplit a h need).withStats s := by
  unfold flSplit FlAlloc.withStats
  dsimp only
  by_cases hle : FL_MIN ≤ wsub (hdrSize a.heap h) need
  · rw [if_pos hle, if_pos hle]
    rfl
  · rw [if_neg hle, if_neg hle]

/-- a request reserves the same block whatever the counters are -/
theorem flReserve_withStats (a : FlAlloc) (need : Nat) (s : Stats) :
    (flReserve (a.withStats s) need).map (fun r => (r.1, r.2.heap))
      = (flReserve a need).map fun r => (r.1, r.2.heap) := by
  have e : countAlloc (a.withStats s)
    = (countAlloc a).withStats { s with allocCalls := wadd s.allocCalls 1 } := rfl
  unfold flReserve
  rw [e, findFit_withStats, Option.map_map, Option.map_map, Option.map_map]
  refine congrArg (fun f => Option.map f _) (funext fun r => ?_)
  obtain ⟨node, a₁⟩ := r
  show (fun r : Nat × FlAlloc => (r.1, r.2.heap)) (if node = 0 then _ else _)
    = (fun r : Nat × FlAlloc => (r.1, r.2.heap)) (if node = 0 then _ else _)
  by_cases h0 : node = 0
  · rw [if_pos h0, if_pos h0]
    rfl
  · rw [if_neg h0, if_neg h0]
    dsimp only
    rw [flUnlink_withStats, flSplit_withStats]
    rfl

end

/-! ## the block reserved -/

/-- **A heap**: blocks at multiples of 16 with sizes that are multiples of 16, one behind the other,
and the circular list of the free ones; nothing is said about the counters -/
structure Shaped (a : FlAlloc) (bs : List Blk) (ring : List Nat) : Prop where
  heap : Heap a bs
  list : FreeRing a ring
  tied : Tied bs ring

section
variable {a a₁ : FlAlloc} {bs : List Blk} {ring : List Nat} {size need alignment h : Nat}

/-- as every heap of a run is -/
theorem Inv.shaped (h : Inv a bs bs ring) : Shaped a bs ring := ⟨h.heap, h.list, h.tied⟩

theorem Shaped.inv (hs : Shaped a bs ring) :
    Inv (a.withStats { a.stats with used := usedSum bs }) bs bs ring where
  heap := ⟨hs.heap.mem_pos, hs.heap.mem_mod, hs.heap.bound, hs.heap.seg⟩
  list := hs.list.congr rfl rfl fun _ _ => ⟨rfl, rfl⟩
  tied := hs.tied
  sub _ hb := hb
  used := rfl

theorem Shaped.reserve (hs : Shaped a bs ring) (h1 : 32 ≤ need) (h2 : need % 16 = 0)
    (hres : flReserve a need = some (h, a₁)) (h0 : h ≠ 0) :
    h % 16 = 0 ∧ need ≤ hdrSize a₁.heap h ∧ h + hdrSize a₁.heap h < 2 ^ 64 := by
  have hsame := flReserve_withStats a need { a.stats with used := usedSum bs }
  rw [hres, Option.map_some] at hsame
  obtain ⟨r, hr, e⟩ := Option.map_eq_some_iff.mp hsame
  obtain ⟨e1, e2⟩ := Prod.mk.inj e
  rcases hs.inv.reserve h1 h2
    with ⟨hfail, -⟩ | ⟨l₁, b, l₂, u, rest, a', ring', -, -, hle, hcarve, -, -, hok, hinv, -⟩
  · rw [hfail] at hr
    obtain rfl := Option.some.inj hr
    exact absurd e1.symm h0
  · rw [hok] at hr
    obtain rfl := Option.some.inj hr
    have e1 : u.addr = h := e1
    have e2 : a'.heap = a₁.heap := e2
    have hum : u ∈ l₁ ++ u :: (rest ++ l₂) := by simp
    obtain ⟨h16, -, -, -, hlt⟩ := hinv.heap.place hum
    have hsize : hdrSize a₁.heap h = u.size := by
      rw [← e2, ← e1]
      exact hinv.heap.hdrSize hum
    have hu : need ≤ u.size := by
      rcases (Blk.carve_cases hcarve).2.2 with ⟨-, hsz, -⟩ | ⟨-, -, -, hsz, -⟩
      · rw [hsz]
        exact hle
      · exact hsz.ge
    rw [hsize, ← e1]
    exact ⟨h16, hu, hlt⟩

end

/-- **An over-aligned pointer lies in its block.**  In every heap, for every request of at least one
byte with an alignment above 16 that does not wrap: the pointer is aligned, the word in front of it
lies behind the header, the bytes asked for lie in the block, and the word leads back to the
payload. -/
theorem over_inside {a a₁ : FlAlloc} {bs : List Blk} {ring : List Nat} {size alignment h : Nat}
    (hheap : Shaped a bs ring) (hsize : 1 ≤ size) (hpow : ∃ k, alignment = 2 ^ k)
    (hal : 16 < alignment) (hw : size + alignment + 31 < 2 ^ 64)
    (hres : flReserve a (flNeed size alignment) = some (h, a₁)) (h0 : h ≠ 0) :
    ∃ p a', flAllocate a size alignment = some (p, a') ∧ alignment ∣ p ∧ h + 16 ≤ p - 8
      ∧ p + size ≤ h + hdrSize a'.heap h ∧ a'.heap.load64 (p - 8) ≤ p
      ∧ p - a'.heap.load64 (p - 8) = h + 16 := by
  obtain ⟨k, rfl⟩ := hpow
  have h5 : 5 ≤ k := (Nat.pow_lt_pow_iff_right (show 1 < 2 by decide)).mp
    (show 2 ^ 4 < 2 ^ k from hal)
  have h64 : k < 64 := (Nat.pow_lt_pow_iff_right (show 1 < 2 by decide)).mp
    (show 2 ^ k < 2 ^ 64 by omega)
  obtain ⟨h16, hneed, hlt⟩ := hheap.reserve (flNeed_ge _ _) (flNeed_mod _ _) hres h0
  have hge : 16 + max size 1 + 2 ^ k ≤ flNeed size (2 ^ k) := flNeed_over h5 (by omega)
  rw [Nat.max_eq_left hsize] at hge
  generalize hp : hfAlignUp (h + 24) (2 ^ k) = p
  obtain ⟨hd, -, hp32, hend⟩ := over_place h5 h64 h16 (hge.trans hneed) hlt hp.symm
  have hplace := flPlace_over (m := a₁.heap) hal (by omega) hp.symm hp32 (by omega)
  -- the word stands behind the header
  have hhdr : hdrSize (a₁.heap.store64 (p - 8) (p - (h + 16))) h = hdrSize a₁.heap h := by
    unfold hdrSize
    rw [Mem.load64_store64_of_disjoint (by omega)]
  have hback : (a₁.heap.store64 (p - 8) (p - (h + 16))).load64 (p - 8) = p - (h + 16) :=
    Mem.load64_store64_same (by omega)
  refine ⟨p, { a₁ with heap := a₁.heap.store64 (p - 8) (p - (h + 16)) }, ?_,
    hd, by omega, ?_, ?_, ?_⟩
  · unfold flAllocate
    rw [hres, Option.map_some]
    dsimp only
    rw [if_neg h0, hplace]
  · rw [hhdr]
    exact hend
  · rw [hback]
    omega
  · rw [hback]
    omega

theorem over_inside_small :
    ∃ p a', flAllocate sampleHeap 100 64 = some (p, a') ∧ 64 ∣ p ∧ 2 ^ 20 + 16 ≤ p - 8
      ∧ p + 100 ≤ 2 ^ 20 + hdrSize a'.heap (2 ^ 20) ∧ a'.heap.load64 (p - 8) ≤ p
      ∧ p - a'.heap.load64 (p - 8) = 2 ^ 20 + 16 := by
  obtain ⟨bs, ring, hsys, -⟩ := create_inv sampleHeap_create
  have hres : (flReserve sampleHeap (flNeed 100 64)).map Prod.fst = some (2 ^ 20) := by
    decide +kernel
  exact over_inside (Inv.shaped hsys.inv) (by decide) ⟨6, rfl⟩ (by decide) (by decide)
    (eq_some_of_fst sampleHeap hres) (by decide)

end HeapForge.FreeList
