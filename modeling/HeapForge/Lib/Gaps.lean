import Mathlib.Data.List.Chain
import HeapForge.Lib.Tiling

/-!
# Tilings whose free tiles are gaps

Some tiles of a tiling are free, the others are taken.  If no two free tiles are neighbours, a free
tile is a whole gap between taken ones.

* `Sparse`              no two neighbours are free;
* `Sparse.range_in`     a range that meets no taken tile lies in one free tile;
* `Sparse.gap_iff`      the free tiles are the maximal such ranges;
* `Sparse.unique`       so the taken tiles determine all tiles.
-/

set_option linter.unusedSectionVars false

namespace HeapForge.Lib

section
variable {β : Type*} {pos size : β → Nat} {free : β → Bool} {a e x n : Nat} {b c d : β}
  {bs cs l l₁ l₂ : List β}

def Sparse (free : β → Bool) (l : List β) : Prop :=
  l.IsChain fun b c => free b = false ∨ free c = false

theorem Sparse.right (h : Sparse free (l₁ ++ b :: l₂)) (hb : free b = true) :
    ∀ c ∈ l₂.head?, free c = false := by
  intro c hc
  obtain ⟨l, rfl⟩ := List.head?_eq_some_iff.mp hc
  have h1 : Sparse free (b :: c :: l) := (List.isChain_append.mp h).2.1
  exact ((List.isChain_cons_cons.mp h1).1).resolve_left (by simp [hb])

theorem Sparse.left (h : Sparse free (l₁ ++ b :: l₂)) (hb : free b = true) :
    ∀ c ∈ l₁.getLast?, free c = false := by
  intro c hc
  have h1 := (List.isChain_append.mp h).2.2 c hc b rfl
  exact h1.resolve_right (by simp [hb])

/-- the parts around one tile -/
theorem sparse_middle : Sparse free (l₁ ++ b :: l₂) ↔
    Sparse free l₁ ∧ Sparse free l₂ ∧ (∀ c ∈ l₁.getLast?, free c = false ∨ free b = false)
      ∧ ∀ c ∈ l₂.head?, free b = false ∨ free c = false := by
  rw [Sparse, List.isChain_append, List.isChain_cons]
  simp only [List.head?_cons, Option.mem_some_iff, forall_eq']
  tauto

/-- a range meets no taken tile -/
def Clear (pos size : β → Nat) (free : β → Bool) (bs : List β) (x n : Nat) : Prop :=
  ∀ b ∈ bs, free b = false → pos b + size b ≤ x ∨ x + n ≤ pos b

/-- **A range without taken tiles lies in a free tile.** -/
theorem Sparse.range_in (h : Sparse free bs) (ht : Tiles pos size a bs e) (hn : 0 < n) (h1 : a ≤ x)
    (h2 : x + n ≤ e) (hc : Clear pos size free bs x n) :
    ∃ b ∈ bs, free b = true ∧ pos b ≤ x ∧ x + n ≤ pos b + size b := by
  obtain ⟨b, hb, hx⟩ := ht.cover (x := x) (by omega)
  have hfree : free b = true := by
    by_contra hf
    have := hc b hb (by simpa using hf)
    omega
  refine ⟨b, hb, hfree, hx.1, ?_⟩
  by_contra hlt
  -- the tile behind `b` is taken and starts inside the range
  obtain ⟨l₁, l₂, rfl⟩ := List.append_of_mem hb
  obtain ⟨mid, -, hpos, -, h3⟩ := tiles_append.mp ht
  cases l₂ with
  | nil =>
    have : mid + size b = e := h3
    omega
  | cons c l₂ =>
    have hcf := h.right hfree c rfl
    have h4 := h3.1
    have h5 := h3.2.1
    have := hc c (by simp) hcf
    omega

/-- a maximal range without taken tiles -/
structure Gap (pos size : β → Nat) (free : β → Bool) (a e : Nat) (bs : List β) (x n : Nat) :
    Prop where
  pos_lt : 0 < n
  ge : a ≤ x
  le : x + n ≤ e
  clear : Clear pos size free bs x n
  left : x = a ∨ ∃ b ∈ bs, free b = false ∧ pos b + size b = x
  right : x + n = e ∨ ∃ b ∈ bs, free b = false ∧ pos b = x + n

/-- a free and a taken tile have no point in common -/
theorem Tiles.apart_free (ht : Tiles pos size a bs e) (hb : b ∈ bs) (hf : free b = true)
    (hc : c ∈ bs) (hcf : free c = false) : pos b + size b ≤ pos c ∨ pos c + size c ≤ pos b := by
  have hne : b ≠ c := by
    rintro rfl
    rw [hf] at hcf
    exact absurd hcf (by simp)
  have h1 := ht.bounds hb
  have h2 := ht.bounds hc
  by_contra hcon
  exact hne (ht.eq_of_mem (x := max (pos b) (pos c)) hb hc (by omega) (by omega))

/-- what stands in front of a tile ends where it starts -/
theorem Tiles.ends_left (ht : Tiles pos size a (l₁ ++ b :: l₂) e) :
    (l₁ = [] ∧ pos b = a) ∨ ∃ c ∈ l₁.getLast?, pos c + size c = pos b := by
  rcases List.eq_nil_or_concat' l₁ with rfl | ⟨l, c, rfl⟩
  · exact Or.inl ⟨rfl, ht.1⟩
  · rw [List.append_assoc] at ht
    obtain ⟨mid, -, h1, -, h2, -⟩ := tiles_append.mp ht
    exact Or.inr ⟨c, by simp, by rw [h1, h2]⟩

/-- what stands behind a tile starts where it ends -/
theorem Tiles.ends_right (ht : Tiles pos size a (l₁ ++ b :: l₂) e) :
    (l₂ = [] ∧ pos b + size b = e) ∨ ∃ c ∈ l₂.head?, pos c = pos b + size b := by
  obtain ⟨mid, -, h1, -, h2⟩ := tiles_append.mp ht
  cases l₂ with
  | nil => exact Or.inl ⟨rfl, by rw [h1]; exact h2⟩
  | cons c l₂ => exact Or.inr ⟨c, rfl, by rw [h1]; exact h2.1⟩

/-- **The free tiles are the gaps.** -/
theorem Sparse.gap_iff (h : Sparse free bs) (ht : Tiles pos size a bs e) :
    Gap pos size free a e bs x n ↔ ∃ b ∈ bs, free b = true ∧ pos b = x ∧ size b = n := by
  constructor
  · rintro ⟨hn, h1, h2, hc, hl, hr⟩
    obtain ⟨b, hb, hfree, h3, h4⟩ := h.range_in ht hn h1 h2 hc
    have hbd := ht.bounds hb
    have hx : pos b = x := by
      rcases hl with rfl | ⟨c, hcm, hcf, hce⟩
      · omega
      · have := ht.apart_free hb hfree hcm hcf
        have := ht.bounds hcm
        omega
    refine ⟨b, hb, hfree, hx, ?_⟩
    rcases hr with he | ⟨c, hcm, hcf, hce⟩
    · omega
    · have := ht.apart_free hb hfree hcm hcf
      have := ht.bounds hcm
      omega
  · rintro ⟨b, hb, hfree, rfl, rfl⟩
    have hbd := ht.bounds hb
    refine ⟨hbd.2.2, hbd.1, hbd.2.1, fun c hc hcf => (ht.apart_free hb hfree hc hcf).symm, ?_, ?_⟩
    · obtain ⟨l₁, l₂, rfl⟩ := List.append_of_mem hb
      rcases ht.ends_left with ⟨-, he⟩ | ⟨c, hc, he⟩
      · exact Or.inl he
      · exact Or.inr ⟨c, List.mem_append_left _ (List.mem_of_getLast? hc), h.left hfree c hc, he⟩
    · obtain ⟨l₁, l₂, rfl⟩ := List.append_of_mem hb
      rcases ht.ends_right with ⟨-, he⟩ | ⟨c, hc, he⟩
      · exact Or.inl he
      · have hm : c ∈ l₁ ++ b :: l₂ :=
          List.mem_append_right _ (List.mem_cons_of_mem _ (List.mem_of_head? hc))
        exact Or.inr ⟨c, hm, h.right hfree c hc, he⟩

/-- gaps are a matter of the taken tiles -/
theorem Gap.of_same (h : Gap pos size free a e bs x n)
    (hsame : ∀ b, free b = false → (b ∈ bs ↔ b ∈ cs)) :
    Gap pos size free a e cs x n where
  pos_lt := h.pos_lt
  ge := h.ge
  le := h.le
  clear := fun b hb hf => h.clear b ((hsame b hf).mpr hb) hf
  left := h.left.imp_right fun ⟨b, hb, hf, he⟩ => ⟨b, (hsame b hf).mp hb, hf, he⟩
  right := h.right.imp_right fun ⟨b, hb, hf, he⟩ => ⟨b, (hsame b hf).mp hb, hf, he⟩

/-- **The taken tiles determine the tiling.** -/
theorem Sparse.unique (hext : ∀ b c, pos b = pos c → size b = size c → free b = free c → b = c)
    (h : Sparse free bs) (h' : Sparse free cs) (ht : Tiles pos size a bs e)
    (ht' : Tiles pos size a cs e) (hsame : ∀ b, free b = false → (b ∈ bs ↔ b ∈ cs)) : bs = cs := by
  refine ht.ext ht' fun b => ?_
  cases hb : free b with
  | false => exact hsame b hb
  | true =>
    constructor
    · intro hm
      have hgap := (h.gap_iff ht).mpr ⟨b, hm, hb, rfl, rfl⟩
      obtain ⟨c, hc, hcf, h1, h2⟩ := (h'.gap_iff ht').mp (hgap.of_same hsame)
      exact hext c b h1 h2 (hcf.trans hb.symm) ▸ hc
    · intro hm
      have hgap := (h'.gap_iff ht').mpr ⟨b, hm, hb, rfl, rfl⟩
      obtain ⟨c, hc, hcf, h1, h2⟩ := (h.gap_iff ht).mp (hgap.of_same fun d hd => (hsame d hd).symm)
      exact hext c b h1 h2 (hcf.trans hb.symm) ▸ hc

end

end HeapForge.Lib
