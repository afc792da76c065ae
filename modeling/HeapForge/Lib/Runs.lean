import Mathlib.Data.List.Chain
import HeapForge.Lib.Bitmap
import HeapForge.Lib.Tiling

/-!
# Run lengths

The values `f 0, …, f (n - 1)`, written as a list of maximal runs.  The loop compares each value
with that of the current run, and closes the last run one place behind the end with a value that
differs.

* `runsLoop`              the loop, with any way to report a run;
* `Encodes f n l`         the segments of `l` tile `[0, n)`, `f` is constant on each, and the
                          constants alternate;
* `runLengths_encodes`    **what the loop makes;**
* `Encodes.count`         the lengths of the segments with value `true` add up to their number.
-/

set_option linter.unusedSectionVars false

namespace HeapForge.Lib

structure Seg where
  start : Nat
  len : Nat
  value : Bool

/-- round `i`, with the current run from `s` on of value `v`; a run that ends at `i` is reported as
`emit s i v` -/
def runsLoop {α : Type*} (f : Nat → Bool) (n : Nat) (emit : Nat → Nat → Bool → α) :
    Nat → Nat → Nat → Bool → List α
  | 0, _, _, _ => []
  | fuel + 1, i, s, v =>
    let u := if i < n then f i else !v
    if u ≠ v then emit s i v :: runsLoop f n emit fuel (i + 1) i u
    else runsLoop f n emit fuel (i + 1) s v

def segs (f : Nat → Bool) (n : Nat) : Nat → Nat → Nat → Bool → List Seg :=
  runsLoop f n fun s i v => ⟨s, i - s, v⟩

def runLengths (f : Nat → Bool) (n : Nat) : List Seg := segs f n n 1 0 (f 0)

/-- the segments from `s` to `n` -/
structure EncodesFrom (f : Nat → Bool) (s n : Nat) (l : List Seg) : Prop where
  tiles : Tiles Seg.start Seg.len s l n
  alternating : l.IsChain fun x y => x.value ≠ y.value
  value : ∀ x ∈ l, ∀ i, x.start ≤ i → i < x.start + x.len → f i = x.value

def Encodes (f : Nat → Bool) (n : Nat) (l : List Seg) : Prop := EncodesFrom f 0 n l

section
variable {f : Nat → Bool} {n i s fuel m : Nat} {v : Bool} {l : List Seg}

/-- the segments, reported in another form -/
theorem runsLoop_eq_map {α : Type*} {emit : Nat → Nat → Bool → α} {g : Seg → α}
    (hemit : ∀ s i v, s ≤ i → i ≤ n → emit s i v = g ⟨s, i - s, v⟩) (hi : i + fuel = n + 1)
    (hs : s ≤ i) :
    runsLoop f n emit fuel i s v = (segs f n fuel i s v).map g := by
  unfold segs
  induction fuel generalizing i s v with
  | zero => rfl
  | succ fuel ih =>
    unfold runsLoop
    dsimp only
    generalize (if i < n then f i else !v) = u
    by_cases hu : u ≠ v
    · rw [if_pos hu, if_pos hu, ih (by omega) (by omega), hemit s i v hs (by omega)]
      rfl
    · rw [if_neg hu, if_neg hu]
      exact ih (by omega) (by omega)

/-- a segment is put before the others -/
theorem EncodesFrom.cons (h : EncodesFrom f i n l) (hs : s < i)
    (hrun : ∀ j, s ≤ j → j < i → f j = v) (hhead : ∀ y ∈ l.head?, y.value ≠ v) :
    EncodesFrom f s n (⟨s, i - s, v⟩ :: l) := by
  refine ⟨⟨rfl, Nat.sub_pos_of_lt hs, ?_⟩, ?_, ?_⟩
  · show Tiles _ _ (s + (i - s)) l n
    rw [Nat.add_sub_cancel' hs.le]
    exact h.tiles
  · refine List.isChain_cons.mpr ⟨fun y hy => ?_, h.alternating⟩
    exact (hhead y hy).symm
  · intro x hx j h1 h2
    rcases List.mem_cons.mp hx with rfl | hx
    · exact hrun j h1 (by have h2' : j < s + (i - s) := h2; omega)
    · exact h.value x hx j h1 h2

theorem segs_spec (hi : i + fuel = n + 1) (hs : s < i) (hle : i ≤ n)
    (hrun : ∀ j, s ≤ j → j < i → f j = v) :
    EncodesFrom f s n (segs f n fuel i s v) ∧ ∀ y ∈ (segs f n fuel i s v).head?, y.value = v := by
  unfold segs
  induction fuel generalizing i s v with
  | zero => omega
  | succ fuel ih =>
    unfold runsLoop
    dsimp only
    by_cases hlast : i < n
    · rw [if_pos hlast]
      by_cases hv : f i = v
      · rw [if_neg (not_not.mpr hv)]
        refine ih (by omega) (by omega) hlast fun j h1 h2 => ?_
        by_cases hj : j = i
        · rw [hj, hv]
        · exact hrun j h1 (by omega)
      · rw [if_pos hv]
        obtain ⟨h1, h2⟩ := ih (i := i + 1) (s := i) (v := f i) (by omega)
          (by omega) hlast fun j h1 h2 => by
          rw [show j = i by omega]
        refine ⟨h1.cons hs hrun fun y hy => ?_, fun y hy => ?_⟩
        · rw [h2 y hy]
          exact hv
        · obtain rfl := Option.some.inj hy
          rfl
    · -- the round behind the end
      obtain rfl : i = n := by omega
      obtain rfl : fuel = 0 := by omega
      have hend : EncodesFrom f i i [] := ⟨rfl, List.IsChain.nil, by simp⟩
      rw [if_neg hlast, if_pos (by simp)]
      refine ⟨hend.cons hs hrun (by simp), fun y hy => ?_⟩
      obtain rfl := Option.some.inj hy
      rfl

/-- **The loop finds the runs.** -/
theorem runLengths_encodes (f : Nat → Bool) (hn : 0 < n) : Encodes f n (runLengths f n) := by
  refine (segs_spec (Nat.add_comm 1 n) Nat.one_pos hn fun j _ hj => ?_).1
  rw [show j = 0 by omega]

theorem countP_range_const (h : ∀ i, s ≤ i → i < s + m → f i = v) :
    (List.range (s + m)).countP f = (List.range s).countP f + if v then m else 0 := by
  induction m with
  | zero => simp
  | succ m ih =>
    rw [← Nat.add_assoc, countP_range_succ, ih fun i h1 h2 => h i h1 (by omega),
      h (s + m) (by omega) (by omega)]
    cases v <;> simp [Nat.add_assoc]

theorem EncodesFrom.count (h : EncodesFrom f s n l) :
    ((l.filter Seg.value).map Seg.len).sum + (List.range s).countP f = (List.range n).countP f := by
  induction l generalizing s with
  | nil =>
    obtain rfl : s = n := h.tiles
    simp
  | cons x l ih =>
    obtain ⟨h1, h2, h3⟩ := h.tiles
    have hrest : EncodesFrom f (s + x.len) n l :=
      ⟨h3, (List.isChain_cons.mp h.alternating).2,
      fun y hy => h.value y (List.mem_cons_of_mem x hy)⟩
    have hx : ∀ i, s ≤ i → i < s + x.len → f i = x.value := h1 ▸ h.value x List.mem_cons_self
    have e := ih hrest
    rw [countP_range_const hx] at e
    rw [← e]
    cases hv : x.value with
    | false => simp [hv]
    | true =>
      simp [hv]
      omega

theorem Encodes.count (h : Encodes f n l) :
    ((l.filter Seg.value).map Seg.len).sum = (List.range n).countP f := EncodesFrom.count h

end

end HeapForge.Lib
