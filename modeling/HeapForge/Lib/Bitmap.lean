import Mathlib.Data.Nat.Basic
import Mathlib.Logic.Function.Basic

/-!
# A bitmap stored in bytes

Bit `i` of the map is bit `i % 8` of byte `i / 8`.  Two bitmaps with the same bits have the
same bytes (`Bitmap.ext`), so every fact about bytes below is a fact about single bits:
`test_set`, `test_clear`.
-/

set_option linter.unusedSectionVars false

namespace HeapForge.Lib

/-! ## counting -/

section
variable {f g : Nat → Bool} {i n : Nat}

theorem countP_range_succ (f : Nat → Bool) (n : Nat) :
    (List.range (n + 1)).countP f = (List.range n).countP f + (f n).toNat := by
  rw [List.range_succ, List.countP_append, List.countP_singleton]
  cases f n <;> rfl

theorem countP_range_le (f : Nat → Bool) (n : Nat) : (List.range n).countP f ≤ n :=
  le_of_le_of_eq List.countP_le_length List.length_range

theorem countP_range_same (h : ∀ j < n, g j = f j) :
    (List.range n).countP g = (List.range n).countP f :=
  List.countP_congr fun j hj => by rw [h j (List.mem_range.mp hj)]

/-- one place changes -/
theorem countP_range_flip (hi : i < n) (h : ∀ j, j ≠ i → g j = f j) :
    (List.range n).countP g + (f i).toNat = (List.range n).countP f + (g i).toNat := by
  induction n with
  | zero => omega
  | succ n ih =>
    rw [countP_range_succ, countP_range_succ]
    by_cases hn : n = i
    · subst hn
      rw [countP_range_same fun j hj => h j (by omega)]
      omega
    · rw [h n hn]
      have := ih (by omega)
      omega

end

/-! ## the bytes -/

def Bitmap : Type := Nat → BitVec 8

namespace Bitmap

def empty : Bitmap := fun _ => 0#8

def test (b : Bitmap) (i : Nat) : Bool := (b (i / 8)).getLsbD (i % 8)

def set (b : Bitmap) (i : Nat) : Bitmap :=
  fun j => if j = i / 8 then b j ||| (1#8 <<< (i % 8)) else b j

def clear (b : Bitmap) (i : Nat) : Bitmap :=
  fun j => if j = i / 8 then b j &&& ~~~(1#8 <<< (i % 8)) else b j

/-- bit `i` becomes `v` -/
def put (b : Bitmap) (i : Nat) (v : Bool) : Bitmap := if v then b.set i else b.clear i

theorem eq_iff_div_mod (i j : Nat) : j = i ↔ j / 8 = i / 8 ∧ j % 8 = i % 8 := by omega

theorem test_set (b : Bitmap) (i j : Nat) : (b.set i).test j = (decide (j = i) || b.test j) := by
  unfold test set
  by_cases h : j / 8 = i / 8
  · have hlt : j % 8 < 8 := Nat.mod_lt _ (by omega)
    by_cases e : j % 8 = i % 8
    · have hji : j = i := (eq_iff_div_mod i j).mpr ⟨h, e⟩
      simp [hji]
      omega
    · have hji : j ≠ i := fun e' => e (by rw [e'])
      simp [h, hji]
      omega
  · have hji : j ≠ i := fun e => h (by rw [e])
    simp [h, hji]

theorem test_clear (b : Bitmap) (i j : Nat) :
    (b.clear i).test j = (!decide (j = i) && b.test j) := by
  unfold test clear
  by_cases h : j / 8 = i / 8
  · have hlt : j % 8 < 8 := Nat.mod_lt _ (by omega)
    by_cases e : j % 8 = i % 8
    · have hji : j = i := (eq_iff_div_mod i j).mpr ⟨h, e⟩
      simp [hji]
    · have hji : j ≠ i := fun e' => e (by rw [e'])
      simp [h, hji]
      omega
  · have hji : j ≠ i := fun e => h (by rw [e])
    simp [h, hji]

theorem test_put (b : Bitmap) (i j : Nat) (v : Bool) :
    (b.put i v).test j = if j = i then v else b.test j := by
  unfold put
  by_cases h : j = i
  · subst h
    cases v <;> simp [test_set, test_clear]
  · cases v <;> simp [test_set, test_clear, h]

/-- two bitmaps with the same bits in a byte have the same byte there -/
theorem byte_ext {a b : Bitmap} (j : Nat) (h : ∀ i, i / 8 = j → a.test i = b.test i) :
    a j = b j := by
  apply BitVec.eq_of_getLsbD_eq
  intro k hk
  have h1 := h (8 * j + k) (by omega)
  unfold test at h1
  have e1 : (8 * j + k) / 8 = j := by omega
  have e2 : (8 * j + k) % 8 = k := by omega
  rwa [e1, e2] at h1

theorem ext {a b : Bitmap} (h : ∀ i, a.test i = b.test i) : a = b :=
  funext fun j => byte_ext j (fun i _ => h i)

theorem put_eq_self {b : Bitmap} {i : Nat} {v : Bool} (h : b.test i = v) : b.put i v = b := by
  apply ext
  intro j
  rw [test_put]
  by_cases e : j = i
  · rw [if_pos e, e, h]
  · rw [if_neg e]

/-- the new value of bit `i` decides it, so only the other bits of the old map matter -/
theorem put_congr {a b : Bitmap} {i : Nat} {v : Bool} (h : ∀ j, j ≠ i → a.test j = b.test j) :
    a.put i v = b.put i v := by
  apply ext
  intro j
  rw [test_put, test_put]
  by_cases e : j = i
  · rw [if_pos e, if_pos e]
  · rw [if_neg e, if_neg e, h j e]

/-- the writes `ws`, one after the other -/
def putAll (b : Bitmap) (ws : List (Nat × Bool)) : Bitmap := ws.foldl (fun b w => b.put w.1 w.2) b

theorem putAll_cons (b : Bitmap) (w : Nat × Bool) (ws : List (Nat × Bool)) :
    b.putAll (w :: ws) = (b.put w.1 w.2).putAll ws := rfl

theorem putAll_append (b : Bitmap) (ws vs : List (Nat × Bool)) :
    b.putAll (ws ++ vs) = (b.putAll ws).putAll vs := List.foldl_append

/-- a bit that no write names keeps its value -/
theorem test_putAll_of_forall_ne {ws : List (Nat × Bool)} {j : Nat} (h : ∀ w ∈ ws, w.1 ≠ j)
    (b : Bitmap) : (b.putAll ws).test j = b.test j := by
  induction ws generalizing b with
  | nil => rfl
  | cons w ws ih =>
    rw [putAll_cons, ih (fun v hv => h v (List.mem_cons_of_mem _ hv)), test_put,
      if_neg (h w (List.mem_cons_self ..)).symm]

/-- **Replay over any map that agrees away from the written bits.** -/
theorem putAll_congr {ws : List (Nat × Bool)} {a b : Bitmap}
    (h : ∀ j, (∀ w ∈ ws, w.1 ≠ j) → a.test j = b.test j) : a.putAll ws = b.putAll ws := by
  induction ws generalizing a b with
  | nil => exact ext (fun i => h i (by simp))
  | cons w ws ih =>
    rw [putAll_cons, putAll_cons]
    apply ih
    intro j hj
    rw [test_put, test_put]
    by_cases e : j = w.1
    · rw [if_pos e, if_pos e]
    · rw [if_neg e, if_neg e]
      apply h
      intro v hv
      rcases List.mem_cons.mp hv with rfl | hv
      · exact fun e' => e e'.symm
      · exact hj v hv

/-- the number of set bits below `n` -/
def count (b : Bitmap) (n : Nat) : Nat := (List.range n).countP b.test

theorem count_le (b : Bitmap) (n : Nat) : b.count n ≤ n := countP_range_le b.test n

theorem count_put (b : Bitmap) {i n : Nat} (v : Bool) (h : i < n) :
    (b.put i v).count n + (b.test i).toNat = b.count n + v.toNat := by
  have hflip := countP_range_flip (f := b.test) (g := (b.put i v).test) h fun j hj => by
    rw [test_put, if_neg hj]
  rwa [test_put, if_pos rfl] at hflip

end Bitmap

end HeapForge.Lib
