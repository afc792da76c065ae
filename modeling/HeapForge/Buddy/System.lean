import HeapForge.Lib.Dyadic
import HeapForge.Lib.Tiling

/-!
# The buddy system

The abstract state behind the buddy allocators: a tiling of `[0, 2^mx)` by dyadic blocks, and for
each order the list of its free blocks, the one to be taken next first.

* `BInv`            the invariant; `act` is the part of the blocks that is in no operation's hand;
* `BInv.split`      the block in hand gives back its upper half; `splitBlocks` and `splitLists`
                    say where that leads;
* `Mid.mergeUp`     the block in hand takes in its buddy as long as the buddy is free;
* `buddy_is_block`  next to a block there is always a block, so the buddy's place is the start of
                    one;
* `free_block_around`   if an aligned range of `2^k` bytes meets no used block, it lies in a free
                    block;
* `BInv.unique`     the used blocks determine the free ones.
-/

set_option linter.unusedSectionVars false
set_option linter.unusedVariables false

namespace HeapForge.Buddy
open Lib Function

structure Block where
  off : Nat
  order : Nat
  used : Bool
  dvd : 2 ^ order ∣ off

def Block.size (b : Block) : Nat := 2 ^ b.order

/-- the least order of a block: no block is smaller than a slot or than the sixteen bytes in front
of a payload -/
def floorOrder (minOrder : Nat) : Nat := max minOrder 4

theorem floorOrder_ge (minOrder : Nat) : minOrder ≤ floorOrder minOrder ∧ 4 ≤ floorOrder minOrder :=
  ⟨le_max_left _ _, le_max_right _ _⟩

structure BInv (mn mx : Nat) (bs act : List Block) (lists : Nat → List Nat) : Prop where
  tiles : Tiles Block.off Block.size 0 bs (2 ^ mx)
  orders : ∀ b ∈ bs, mn ≤ b.order ∧ b.order ≤ mx
  sub : ∀ b ∈ act, b ∈ bs
  nodup : ∀ k, (lists k).Nodup
  mem : ∀ k x, x ∈ lists k ↔ ∃ b ∈ act, b.used = false ∧ b.order = k ∧ b.off = x
  /-- no two buddies are free -/
  merged : ∀ b ∈ act, ∀ c ∈ act, b.used = false → c.used = false → b.order = c.order →
    b.order < mx → c.off ≠ buddy b.off b.order

section
variable {mn mx k x j : Nat} {bs act l₁ l₂ : List Block} {lists : Nat → List Nat} {a b c : Block}

theorem Block.size_pos (b : Block) : 0 < b.size := Nat.two_pow_pos _

theorem BInv.bounds (h : BInv mn mx bs act lists) (hb : b ∈ bs) : b.off + b.size ≤ 2 ^ mx :=
  (h.tiles.bounds hb).2.1

theorem BInv.off_lt (h : BInv mn mx bs act lists) (hmx : mx < 64) (hb : b ∈ bs) :
    b.off < 2 ^ 64 := by
  have h1 := h.bounds hb
  have h2 := b.size_pos
  have h3 : 2 ^ mx < 2 ^ 64 := Nat.pow_lt_pow_right (by norm_num) hmx
  omega

/-- two blocks with the same start are the same -/
theorem BInv.off_inj (h : BInv mn mx bs act lists) (hb : b ∈ bs) (hc : c ∈ bs)
    (he : b.off = c.off) : b = c := h.tiles.pos_inj hb hc he

theorem BInv.apart (h : BInv mn mx bs act lists) (hb : b ∈ bs) (hc : c ∈ bs) (hne : b ≠ c) :
    b.off + b.size ≤ c.off ∨ c.off + c.size ≤ b.off := by
  by_contra hcon
  have h1 := h.tiles.bounds hb
  have h2 := h.tiles.bounds hc
  by_cases hle : b.off ≤ c.off
  · exact hne (h.tiles.eq_of_mem hb hc (x := c.off) (by omega) (by omega))
  · exact hne (h.tiles.eq_of_mem hb hc (x := b.off) (by omega) (by omega))

/-- blocks of at least sixteen bytes start at multiples of sixteen -/
theorem BInv.place (h : BInv mn mx bs act lists) (hmn : 4 ≤ mn) (hb : b ∈ bs) :
    b.off % 16 = 0 ∧ 16 ≤ b.size ∧ b.off + b.size ≤ 2 ^ mx := by
  have h2 := (h.orders b hb).1
  have h3 : 2 ^ 4 ∣ 2 ^ b.order := pow_dvd_pow 2 (by omega)
  have h4 : 2 ^ 4 ≤ 2 ^ b.order := Nat.le_of_dvd (Nat.two_pow_pos _) h3
  exact ⟨Nat.mod_eq_zero_of_dvd (h3.trans b.dvd), h4, h.bounds hb⟩

/-- in units of `2^j`, which no block is smaller than, blocks have different starts -/
theorem BInv.slot_dvd (h : BInv mn mx bs act lists) (hj : j ≤ mn) (hb : b ∈ bs) : 2 ^ j ∣ b.off :=
  (pow_dvd_pow 2 (hj.trans (h.orders b hb).1)).trans b.dvd

theorem shiftRight_inj (hx : 2 ^ j ∣ x) (hk : 2 ^ j ∣ k) (he : x >>> j = k >>> j) : x = k := by
  rw [Nat.shiftRight_eq_div_pow, Nat.shiftRight_eq_div_pow] at he
  rw [← Nat.div_mul_cancel hx, ← Nat.div_mul_cancel hk, he]

theorem BInv.slot_inj (h : BInv mn mx bs act lists) (hj : j ≤ mn) (hb : b ∈ bs) (hc : c ∈ bs)
    (he : b.off >>> j = c.off >>> j) : b = c :=
  h.off_inj hb hc (shiftRight_inj (h.slot_dvd hj hb) (h.slot_dvd hj hc) he)

/-- a block that shares a point with an aligned range of the same or a larger order lies in it -/
theorem Block.inside (b : Block) {y p : Nat} (hy : 2 ^ k ∣ y) (hk : b.order ≤ k)
    (h1 : b.off ≤ p ∧ p < b.off + b.size) (h2 : y ≤ p ∧ p < y + 2 ^ k) :
    y ≤ b.off ∧ b.off + b.size ≤ y + 2 ^ k :=
  dyadic_nested b.dvd hy hk h1 h2

theorem buddy_lt (h : BInv mn mx bs act lists) (hmx : mx < 64) (hb : b ∈ bs) (ho : b.order < mx) :
    buddy b.off b.order + 2 ^ b.order ≤ 2 ^ mx := by
  have h1 := h.bounds hb
  have h2 := b.size_pos
  have h3 := buddy_mem (y := 0) b.dvd (by omega) (h.off_lt hmx hb) (dvd_zero (2 ^ mx)) ho (by omega)
  omega

/-- **Next to a block there is a block.**  The buddy of a block below the top order is the start
of a block, and that block is not larger. -/
theorem buddy_is_block (h : BInv mn mx bs act lists) (hmx : mx < 64) (hb : b ∈ bs)
    (ho : b.order < mx) : ∃ c ∈ bs, c.off = buddy b.off b.order ∧ c.order ≤ b.order ∧ c ≠ b := by
  have hlt := h.off_lt hmx hb
  have hbl := buddy_lt h hmx hb ho
  have h0 := Nat.two_pow_pos b.order
  have hbo : b.off + 2 ^ b.order ≤ 2 ^ mx := h.bounds hb
  have hmlt : 2 ^ mx < 2 ^ 64 := Nat.pow_lt_pow_right (by norm_num) hmx
  obtain ⟨c, hc, hcp⟩ := h.tiles.cover (x := buddy b.off b.order) (by omega)
  have hcb : c ≠ b := by
    rintro rfl
    have e := dyadic_eq (p := buddy c.off c.order) c.dvd (buddy_dvd c.dvd) hcp (by omega)
    exact buddy_ne _ _ e.symm
  have hco : c.order ≤ b.order := by
    by_contra hgt
    -- a larger block around the buddy would contain `b` as well
    have hbd : 2 ^ b.order ∣ buddy b.off b.order := buddy_dvd b.dvd
    have hin := buddy_mem hbd (by omega) (by omega) c.dvd (by omega : b.order < c.order) hcp
    rw [buddy_buddy] at hin
    have := h.apart hc hb hcb
    have hcs : c.size = 2 ^ c.order := rfl
    have hbs : b.size = 2 ^ b.order := rfl
    omega
  refine ⟨c, hc, ?_, hco, hcb⟩
  have hin := c.inside (buddy_dvd b.dvd) hco hcp (by omega)
  omega

theorem BInv.ne_middle (h : BInv mn mx (l₁ ++ b :: l₂) act lists) (hc : c ∈ l₁ ++ l₂) : c ≠ b := by
  rintro rfl
  have hd := List.nodup_middle.mp h.tiles.nodup
  exact (List.nodup_cons.mp hd).1 hc

theorem mem_of_mem_middle (hc : c ∈ l₁ ++ b :: l₂) (hne : c ≠ b) : c ∈ l₁ ++ l₂ := by
  rcases List.mem_append.mp hc with hc | hc
  · exact List.mem_append_left _ hc
  · exact List.mem_append_right _ (List.mem_of_ne_of_mem hne hc)

theorem mem_middle_of_mem (hc : c ∈ l₁ ++ l₂) : c ∈ l₁ ++ b :: l₂ :=
  List.mem_append.mpr ((List.mem_append.mp hc).imp_right (List.mem_cons_of_mem b))

theorem mem_middle_iff : c ∈ l₁ ++ b :: l₂ ↔ c = b ∨ c ∈ l₁ ++ l₂ := by
  simp only [List.mem_append, List.mem_cons]
  tauto

theorem filter_middle_free (hf : b.used = false) :
    (l₁ ++ b :: l₂).filter Block.used = (l₁ ++ l₂).filter Block.used := by
  rw [List.filter_append, List.filter_append, List.filter_cons_of_neg (by rw [hf]; simp)]

theorem filter_middle_used (hu : b.used = true) :
    (l₁ ++ b :: l₂).filter Block.used = l₁.filter Block.used ++ b :: l₂.filter Block.used := by
  rw [List.filter_append, List.filter_cons_of_pos hu]

/-- the used blocks of a list, by membership -/
theorem mem_iff_of_filter_used (h : l₁.filter Block.used = l₂.filter Block.used)
    (hc : c.used = true) :
    c ∈ l₁ ↔ c ∈ l₂ := by
  have hm : c ∈ l₁.filter Block.used ↔ c ∈ l₂.filter Block.used := by rw [h]
  rwa [List.mem_filter, List.mem_filter, and_iff_left hc, and_iff_left hc] at hm

/-! ## completeness: a free range means a free block -/

/-- **Maximal merging.**  If an aligned range of `2^k` bytes meets no used block, then it lies in
one free block: otherwise the smallest block in the range would have a free buddy. -/
theorem free_block_around (h : BInv mn mx bs bs lists) (hmx : mx < 64) (hk : k ≤ mx)
    {y : Nat} (hy : 2 ^ k ∣ y) (hle : y + 2 ^ k ≤ 2 ^ mx)
    (hfree : ∀ b ∈ bs, b.used = true → b.off + b.size ≤ y ∨ y + 2 ^ k ≤ b.off) :
    ∃ b ∈ bs, b.used = false ∧ b.off ≤ y ∧ y + 2 ^ k ≤ b.off + b.size := by
  have h0 := Nat.two_pow_pos k
  obtain ⟨b₀, hb₀, hp₀⟩ := h.tiles.cover (x := y) (by omega)
  -- a block that meets the range is free
  have hfr : ∀ b ∈ bs, b.off < y + 2 ^ k → y < b.off + b.size → b.used = false := by
    intro b hb h1 h2
    by_contra hu
    have := hfree b hb (by simpa using hu)
    omega
  by_cases hk₀ : k ≤ b₀.order
  · have hin := dyadic_nested hy b₀.dvd hk₀ (p := y) (by omega) hp₀
    exact ⟨b₀, hb₀, hfr b₀ hb₀ (by omega) (by omega), hin.1, hin.2⟩
  exfalso
  -- the orders of the blocks in the range have a least element
  have hex : ∃ j, ∃ b ∈ bs, b.order = j ∧ y ≤ b.off ∧ b.off + b.size ≤ y + 2 ^ k :=
    ⟨b₀.order, b₀, hb₀, rfl, b₀.inside hy (by omega) hp₀ (by omega)⟩
  classical
  obtain ⟨b, hb, hbo, h1, h2⟩ := Nat.find_spec hex
  have hmin : ∀ c ∈ bs, y ≤ c.off → c.off + c.size ≤ y + 2 ^ k → b.order ≤ c.order := by
    intro c hc h3 h4
    rw [hbo]
    exact Nat.find_min' hex ⟨c, hc, rfl, h3, h4⟩
  have hbs := b.size_pos
  have hbk : b.order < k := lt_of_le_of_lt
    (hmin b₀ hb₀ (b₀.inside hy (by omega) hp₀ (by omega)).1
      (b₀.inside hy (by omega) hp₀ (by omega)).2)
    (by omega)
  obtain ⟨c, hc, hco, hcle, hcb⟩ := buddy_is_block h hmx hb (by omega)
  have hin := buddy_mem b.dvd (by omega) (h.off_lt hmx hb) hy hbk (by omega)
  have hcs : c.size ≤ 2 ^ b.order := Nat.pow_le_pow_right (by norm_num) hcle
  have hcp := c.size_pos
  have hge := hmin c hc (by omega) (by omega)
  exact h.merged b hb c hc (hfr b hb (by omega) (by omega)) (hfr c hc (by omega) (by omega))
    (by omega)
    (by omega) hco

/-- so some free block has order `k` or more -/
theorem free_block_of_free_range (h : BInv mn mx bs bs lists) (hmx : mx < 64) (hk : k ≤ mx)
    {y : Nat} (hy : 2 ^ k ∣ y) (hle : y + 2 ^ k ≤ 2 ^ mx)
    (hfree : ∀ b ∈ bs, b.used = true → b.off + b.size ≤ y ∨ y + 2 ^ k ≤ b.off) :
    ∃ b ∈ bs, b.used = false ∧ k ≤ b.order := by
  obtain ⟨b, hb, hf, h1, h2⟩ := free_block_around h hmx hk hy hle hfree
  have hpow : 2 ^ k ≤ 2 ^ b.order := by
    have hs : b.size = 2 ^ b.order := rfl
    omega
  exact ⟨b, hb, hf, (Nat.pow_le_pow_iff_right (by norm_num)).mp hpow⟩

/-- a free block of order `k` or more holds an aligned range that no used block meets -/
theorem free_range_of_free_block (h : BInv mn mx bs bs lists) (hb : b ∈ bs) (hf : b.used = false)
    (hk : k ≤ b.order) :
    2 ^ k ∣ b.off ∧ b.off + 2 ^ k ≤ 2 ^ mx
      ∧ ∀ c ∈ bs, c.used = true → c.off + c.size ≤ b.off ∨ b.off + 2 ^ k ≤ c.off := by
  have hle : 2 ^ k ≤ b.size := Nat.pow_le_pow_right (by norm_num) hk
  have hbd := h.bounds hb
  refine ⟨(pow_dvd_pow 2 hk).trans b.dvd, by omega, fun c hc hu => ?_⟩
  have hne : c ≠ b := by
    rintro rfl
    rw [hf] at hu
    exact absurd hu (by simp)
  have := h.apart hc hb hne
  omega

/-- two blocks of one range and state are the same -/
theorem Block.ext' (h1 : b.off = c.off) (h2 : b.order = c.order) (h3 : b.used = c.used) :
    b = c := by
  cases b
  cases c
  simp_all

/-- a free block of one system is a block of every other with the same used blocks -/
theorem BInv.free_mem {mn' : Nat} {bs' : List Block} {lists' : Nat → List Nat}
    (h : BInv mn mx bs bs lists) (h' : BInv mn' mx bs' bs' lists') (hmx : mx < 64)
    (hsame : ∀ b : Block, b.used = true → (b ∈ bs ↔ b ∈ bs')) (hb : b ∈ bs) (hf : b.used = false) :
    b ∈ bs' := by
  have hbd := h.bounds hb
  have hbs := b.size_pos
  have hs : b.size = 2 ^ b.order := rfl
  obtain ⟨-, -, hclear⟩ := free_range_of_free_block h hb hf le_rfl
  -- `b` lies in a free block `c` of the other system
  obtain ⟨c, hc, hcf, h1, h2⟩ := free_block_around h' hmx (h.orders b hb).2 b.dvd (by omega)
    fun u hu huu => hclear u ((hsame u huu).mpr hu) huu
  have hcd := h'.bounds hc
  have hcs : c.size = 2 ^ c.order := rfl
  obtain ⟨-, -, hclear'⟩ := free_range_of_free_block h' hc hcf le_rfl
  -- and `c` in a free block of this one, which can only be `b`
  obtain ⟨d, hd, hdf, h3, h4⟩ := free_block_around h hmx (h'.orders c hc).2 c.dvd (by omega)
    fun u hu huu => hclear' u ((hsame u huu).mp hu) huu
  obtain rfl : b = d := h.tiles.eq_of_mem (x := b.off) hb hd (by omega) (by omega)
  have hpow : 2 ^ b.order = 2 ^ c.order := by omega
  have hbc : b = c := Block.ext' (by omega) (Nat.pow_right_injective le_rfl hpow)
    (hf.trans hcf.symm)
  exact hbc ▸ hc

/-- **The used blocks determine the system.** -/
theorem BInv.unique {mn' : Nat} {bs' : List Block} {lists' : Nat → List Nat}
    (h : BInv mn mx bs bs lists) (h' : BInv mn' mx bs' bs' lists') (hmx : mx < 64)
    (hsame : ∀ b : Block, b.used = true → (b ∈ bs ↔ b ∈ bs')) : bs = bs' := by
  refine h.tiles.ext h'.tiles fun b => ?_
  cases hu : b.used with
  | true => exact hsame b hu
  | false =>
    exact ⟨fun hb => h.free_mem h' hmx hsame hb hu,
      fun hb => h'.free_mem h hmx (fun c hc => (hsame c hc).symm) hb hu⟩

/-- the lists from `k` on are empty exactly if no free block is large enough -/
theorem lists_empty_iff (h : BInv mn mx bs bs lists) :
    (∀ j, k ≤ j → j ≤ mx → lists j = []) ↔ ∀ b ∈ bs, b.used = false → b.order < k := by
  constructor
  · intro he b hb hf
    by_contra hge
    have h1 := he b.order (by omega) (h.orders b hb).2
    have h2 : b.off ∈ lists b.order := (h.mem _ _).mpr ⟨b, hb, hf, rfl, rfl⟩
    rw [h1] at h2
    exact absurd h2 (by simp)
  · intro hs j hkj hj
    rw [List.eq_nil_iff_forall_not_mem]
    intro x hx
    obtain ⟨b, hb, hf, ho, -⟩ := (h.mem j x).mp hx
    have := hs b hb hf
    omega

/-! ## taking and giving back -/

/-- the block in hand is taken out of the active ones -/
theorem BInv.take (h : BInv mn mx (l₁ ++ b :: l₂) (l₁ ++ b :: l₂) lists) (hu : b.used = true) :
    BInv mn mx (l₁ ++ b :: l₂) (l₁ ++ l₂) lists where
  tiles := h.tiles
  orders := h.orders
  sub := fun c hc => mem_middle_of_mem hc
  nodup := h.nodup
  mem := by
    intro k x
    rw [h.mem k x]
    constructor
    · rintro ⟨c, hc, hf, h1⟩
      refine ⟨c, mem_of_mem_middle hc ?_, hf, h1⟩
      rintro rfl
      rw [hu] at hf
      exact absurd hf (by simp)
    · rintro ⟨c, hc, h1⟩
      exact ⟨c, mem_middle_of_mem hc, h1⟩
  merged := fun c hc d hd => h.merged c (mem_middle_of_mem hc) d (mem_middle_of_mem hd)

/-- a free block leaves its list -/
theorem BInv.unlink (h : BInv mn mx bs (l₁ ++ c :: l₂) lists) (hf : c.used = false)
    (hout : c ∉ l₁ ++ l₂) :
    BInv mn mx bs (l₁ ++ l₂) (update lists c.order ((lists c.order).erase c.off)) where
  tiles := h.tiles
  orders := h.orders
  sub := fun d hd => h.sub d (mem_middle_of_mem hd)
  nodup := by
    intro k
    by_cases hk : k = c.order
    · subst hk
      rw [update_self]
      exact (h.nodup _).erase _
    · rw [update_of_ne hk]
      exact h.nodup k
  mem := by
    intro k x
    have hcm : c ∈ l₁ ++ c :: l₂ := by simp
    by_cases hk : k = c.order
    · subst hk
      rw [update_self, (h.nodup _).mem_erase_iff, h.mem]
      constructor
      · rintro ⟨hne, d, hd, hdf, hdo, rfl⟩
        exact ⟨d, mem_of_mem_middle hd (fun e => hne (by rw [e])), hdf, hdo, rfl⟩
      · rintro ⟨d, hd, hdf, hdo, rfl⟩
        refine ⟨fun e => hout ?_, d, mem_middle_of_mem hd, hdf, hdo, rfl⟩
        have : d = c := h.off_inj (h.sub d (mem_middle_of_mem hd)) (h.sub c hcm) e
        exact this ▸ hd
    · rw [update_of_ne hk, h.mem]
      constructor
      · rintro ⟨d, hd, hdf, hdo, rfl⟩
        exact ⟨d, mem_of_mem_middle hd (fun e => hk (by rw [← hdo, e])), hdf, hdo, rfl⟩
      · rintro ⟨d, hd, h1⟩
        exact ⟨d, mem_middle_of_mem hd, h1⟩
  merged := fun d hd e he => h.merged d (mem_middle_of_mem hd) e (mem_middle_of_mem he)

/-- a used block becomes active -/
theorem BInv.put_used (h : BInv mn mx (l₁ ++ b :: l₂) (l₁ ++ l₂) lists) (hu : b.used = true) :
    BInv mn mx (l₁ ++ b :: l₂) (l₁ ++ b :: l₂) lists where
  tiles := h.tiles
  orders := h.orders
  sub := fun _ hc => hc
  nodup := h.nodup
  mem := by
    intro k x
    rw [h.mem k x]
    constructor
    · rintro ⟨c, hc, h1⟩
      exact ⟨c, mem_middle_of_mem hc, h1⟩
    · rintro ⟨c, hc, hf, h1⟩
      refine ⟨c, mem_of_mem_middle hc ?_, hf, h1⟩
      rintro rfl
      rw [hu] at hf
      exact absurd hf (by simp)
  merged := by
    intro c hc d hd hcf hdf
    have hne : ∀ e : Block, e.used = false → e ≠ b := by
      rintro e he rfl
      rw [hu] at he
      exact absurd he (by simp)
    exact h.merged c (mem_of_mem_middle hc (hne c hcf)) d (mem_of_mem_middle hd (hne d hdf)) hcf hdf

/-- a free block without a free buddy becomes active, in front of its list -/
theorem BInv.put_free (h : BInv mn mx bs (l₁ ++ l₂) lists) (hb : b ∈ bs) (hf : b.used = false)
    (hout : b ∉ l₁ ++ l₂)
    (hbud : b.order < mx → ∀ c ∈ l₁ ++ l₂, c.used = false → c.order = b.order →
      c.off ≠ buddy b.off b.order) :
    BInv mn mx bs (l₁ ++ b :: l₂) (update lists b.order (b.off :: lists b.order)) where
  tiles := h.tiles
  orders := h.orders
  sub := by
    intro c hc
    by_cases e : c = b
    · exact e ▸ hb
    · exact h.sub c (mem_of_mem_middle hc e)
  nodup := by
    intro k
    by_cases hk : k = b.order
    · subst hk
      rw [update_self]
      refine List.nodup_cons.mpr ⟨fun hm => ?_, h.nodup _⟩
      obtain ⟨c, hc, -, -, ho⟩ := (h.mem _ _).mp hm
      have : c = b := h.off_inj (h.sub c hc) hb ho
      exact hout (this ▸ hc)
    · rw [update_of_ne hk]
      exact h.nodup k
  mem := by
    intro k x
    by_cases hk : k = b.order
    · subst hk
      rw [update_self, List.mem_cons, h.mem]
      constructor
      · rintro (rfl | ⟨c, hc, h1⟩)
        · exact ⟨b, by simp, hf, rfl, rfl⟩
        · exact ⟨c, mem_middle_of_mem hc, h1⟩
      · rintro ⟨c, hc, hcf, hco, rfl⟩
        by_cases e : c = b
        · exact Or.inl (by rw [e])
        · exact Or.inr ⟨c, mem_of_mem_middle hc e, hcf, hco, rfl⟩
    · rw [update_of_ne hk, h.mem]
      constructor
      · rintro ⟨c, hc, h1⟩
        exact ⟨c, mem_middle_of_mem hc, h1⟩
      · rintro ⟨c, hc, hcf, hco, h1⟩
        exact ⟨c, mem_of_mem_middle hc (fun e => hk (by rw [← hco, e])), hcf, hco, h1⟩
  merged := by
    intro c hc d hd hcf hdf ho hlt he
    by_cases ec : c = b
    · subst ec
      by_cases ed : d = c
      · subst ed
        exact buddy_ne _ _ he.symm
      · exact hbud hlt d (mem_of_mem_middle hd ed) hdf ho.symm he
    · by_cases ed : d = b
      · subst ed
        refine hbud (by omega) c (mem_of_mem_middle hc ec) hcf ho ?_
        rw [he, ho, buddy_buddy]
      · exact h.merged c (mem_of_mem_middle hc ec) d (mem_of_mem_middle hd ed) hcf hdf ho hlt he

/-- the blocks change around the active ones -/
theorem BInv.retile {bs' : List Block} (h : BInv mn mx bs act lists)
    (ht : Tiles Block.off Block.size 0 bs' (2 ^ mx))
    (ho : ∀ b ∈ bs', mn ≤ b.order ∧ b.order ≤ mx) (hs : ∀ b ∈ act, b ∈ bs') :
    BInv mn mx bs' act lists :=
  ⟨ht, ho, hs, h.nodup, h.mem, h.merged⟩

/-- another block at the place of the one in hand -/
theorem BInv.rehand (h : BInv mn mx (l₁ ++ b :: l₂) (l₁ ++ l₂) lists) (ho : c.off = b.off)
    (hk : c.order = b.order) : BInv mn mx (l₁ ++ c :: l₂) (l₁ ++ l₂) lists := by
  refine h.retile ?_ ?_ fun d hd => mem_middle_of_mem hd
  · have e : ∀ l : List Block, l₁ ++ l ++ l₂ = l₁ ++ (l ++ l₂) := fun l => List.append_assoc _ _ _
    have h1 : Tiles Block.off Block.size 0 (l₁ ++ [b] ++ l₂) (2 ^ mx) := by
      rw [e]
      exact h.tiles
    have h2 := h1.replace [c] fun p q hpq => by
      obtain ⟨h3, h4, h5⟩ := hpq
      have hsz : c.size = b.size := by unfold Block.size; rw [hk]
      exact ⟨ho.trans h3, by omega, by rw [hsz]; exact h5⟩
    rw [e] at h2
    exact h2
  · intro d hd
    by_cases hdc : d = c
    · subst hdc
      rw [hk]
      exact h.orders b (by simp)
    · exact h.orders d (mem_middle_of_mem (mem_of_mem_middle hd hdc))

/-! ## splitting -/

theorem dvd_of_dvd_succ (hx : 2 ^ (j + 1) ∣ x) : 2 ^ j ∣ x :=
  (pow_dvd_pow 2 (Nat.le_succ j)).trans hx

/-- the upper half of an interval of order `j + 1` -/
def upperBlock (x j : Nat) (hx : 2 ^ (j + 1) ∣ x) : Block :=
  ⟨x + 2 ^ j, j, false, Nat.dvd_add (dvd_of_dvd_succ hx) dvd_rfl⟩

/-- the upper half of the block in hand is not active -/
theorem upperBlock_notMem {u : Bool} {hx : 2 ^ (j + 1) ∣ x}
    (h : BInv mn mx (l₁ ++ ⟨x, j + 1, u, hx⟩ :: l₂) (l₁ ++ l₂) lists) :
    upperBlock x j hx ∉ l₁ ++ l₂ := by
  intro hm
  have hbm : (⟨x, j + 1, u, hx⟩ : Block) ∈ l₁ ++ ⟨x, j + 1, u, hx⟩ :: l₂ := by simp
  have h1 : x + 2 ^ j + 2 ^ j ≤ x ∨ x + 2 ^ (j + 1) ≤ x + 2 ^ j :=
    h.apart (mem_middle_of_mem hm) hbm (h.ne_middle hm)
  have h0 := Nat.two_pow_pos j
  rw [pow_succ] at h1
  omega

/-- the block in hand keeps its lower half, the upper half goes to the front of its list -/
theorem BInv.split {u : Bool} {hx : 2 ^ (j + 1) ∣ x}
    (h : BInv mn mx (l₁ ++ ⟨x, j + 1, u, hx⟩ :: l₂) (l₁ ++ l₂) lists) (hmx : mx < 64)
    (hj : mn ≤ j) :
    BInv mn mx (l₁ ++ ⟨x, j, u, dvd_of_dvd_succ hx⟩ :: upperBlock x j hx :: l₂)
      (l₁ ++ upperBlock x j hx :: l₂) (update lists j ((x + 2 ^ j) :: lists j)) := by
  have hout := upperBlock_notMem h
  generalize hb : (⟨x, j + 1, u, hx⟩ : Block) = b at h
  generalize hlo : (⟨x, j, u, dvd_of_dvd_succ hx⟩ : Block) = lo
  generalize hup : upperBlock x j hx = up at hout
  have hbm : b ∈ l₁ ++ b :: l₂ := by simp
  have hbo := (h.orders b hbm).2
  have hpow : 2 ^ (j + 1) = 2 ^ j + 2 ^ j := by rw [pow_succ]; omega
  have h0 := Nat.two_pow_pos j
  have eb : b.off = x ∧ b.order = j + 1 ∧ b.size = 2 ^ j + 2 ^ j := by
    subst hb
    exact ⟨rfl, rfl, hpow⟩
  have elo : lo.off = x ∧ lo.order = j ∧ lo.size = 2 ^ j := by
    subst hlo
    exact ⟨rfl, rfl, rfl⟩
  have eup : up.off = x + 2 ^ j ∧ up.order = j ∧ up.size = 2 ^ j ∧ up.used = false := by
    subst hup
    exact ⟨rfl, rfl, rfl, rfl⟩
  have hre : BInv mn mx (l₁ ++ lo :: up :: l₂) (l₁ ++ l₂) lists := by
    refine h.retile ?_ ?_ ?_
    · have h1 : Tiles Block.off Block.size 0 (l₁ ++ [b] ++ l₂) (2 ^ mx) := by
        rw [List.append_assoc]
        exact h.tiles
      have h2 := h1.replace [lo, up] fun p q hpq => by
        obtain ⟨h3, h4, h5⟩ := hpq
        have h5' : p + b.size = q := h5
        refine ⟨by omega, by omega, by omega, by omega, ?_⟩
        show p + lo.size + up.size = q
        omega
      rw [List.append_assoc] at h2
      exact h2
    · intro d hd
      by_cases h1 : d = lo
      · rw [h1]
        omega
      by_cases h2 : d = up
      · rw [h2]
        omega
      have h3 := mem_of_mem_middle hd h1
      exact h.orders d (mem_middle_of_mem (mem_of_mem_middle h3 h2))
    · intro d hd
      exact List.mem_append.mpr ((List.mem_append.mp hd).imp_right fun h =>
        List.mem_cons_of_mem _ (List.mem_cons_of_mem _ h))
  have hum : up ∈ l₁ ++ lo :: up :: l₂ := by simp
  have e : update lists j ((x + 2 ^ j) :: lists j)
      = update lists up.order (up.off :: lists up.order) := by rw [eup.1, eup.2.1]
  rw [e]
  refine hre.put_free hum eup.2.2.2 hout fun hlt c hc hcf hco hcoff => ?_
  -- the buddy of the upper half is the lower half, which is in hand
  have hbud : buddy up.off up.order = x := by
    have hlt' := h.off_lt hmx hbm
    have hmx' : 2 ^ j < 2 ^ 64 := Nat.pow_lt_pow_right (by norm_num) (by omega)
    rcases buddy_cases (dvd_of_dvd_succ hx) (by omega : j < 64)
      (by omega) with ⟨e', -, -⟩ | ⟨e', -, hd⟩
    · rw [eup.1, eup.2.1, ← e', buddy_buddy]
    · -- the lower half starts at a multiple of the larger size
      have h2 := dyadic_eq (k := j + 1) (p := x) hx hd (by omega) (by omega)
      omega
  rw [hbud] at hcoff
  have h1 := h.apart (mem_middle_of_mem hc) hbm (h.ne_middle hc)
  have h2 := c.size_pos
  omega

/-! ### down to the order wanted -/

/-- the lists after the orders `k + d - 1, …, k` have got one upper half each -/
def splitLists (x k : Nat) : Nat → (Nat → List Nat) → Nat → List Nat
  | 0, lists => lists
  | d + 1, lists => splitLists x k d (update lists (k + d) ((x + 2 ^ (k + d)) :: lists (k + d)))

/-- those upper halves, in front of the blocks behind -/
def splitBlocks (x k : Nat) : (d : Nat) → 2 ^ (k + d) ∣ x → List Block → List Block
  | 0, _, l => l
  | d + 1, hx, l => splitBlocks x k d (dvd_of_dvd_succ hx) (upperBlock x (k + d) hx :: l)

theorem splitBlocks_used {d : Nat} {hx : 2 ^ (k + d) ∣ x} {l : List Block} :
    (splitBlocks x k d hx l).filter Block.used = l.filter Block.used := by
  induction d generalizing l with
  | zero => rfl
  | succ d ih => exact ih

theorem splitBlocks_middle_used {d : Nat} {hx : 2 ^ (k + d) ∣ x} :
    (l₁ ++ splitBlocks x k d hx l₂).filter Block.used = (l₁ ++ l₂).filter Block.used := by
  rw [List.filter_append, splitBlocks_used, List.filter_append]

/-! ## merging -/

/-- the block in hand between those before and those behind, and the lists -/
structure Mid where
  l₁ : List Block
  hand : Block
  l₂ : List Block
  lists : Nat → List Nat

def Mid.blocks (s : Mid) : List Block := s.l₁ ++ s.hand :: s.l₂
def Mid.rest (s : Mid) : List Block := s.l₁ ++ s.l₂

/-- the interval of the next order around a block -/
def Block.joined (b : Block) : Block :=
  ⟨b.off / 2 ^ (b.order + 1) * 2 ^ (b.order + 1), b.order + 1, b.used, Nat.dvd_mul_left _ _⟩

/-- the buddy, behind or in front, leaves its list and is taken in -/
def Mid.mergeStep (s : Mid) : Mid where
  l₁ := if s.hand.off < buddy s.hand.off s.hand.order then s.l₁ else s.l₁.dropLast
  hand := s.hand.joined
  l₂ := if s.hand.off < buddy s.hand.off s.hand.order then s.l₂.tail else s.l₂
  lists := update s.lists s.hand.order
    ((s.lists s.hand.order).erase (buddy s.hand.off s.hand.order))

def Mid.buddyFree (s : Mid) (mx : Nat) : Prop :=
  s.hand.order < mx ∧ buddy s.hand.off s.hand.order ∈ s.lists s.hand.order

instance (s : Mid) (mx : Nat) : Decidable (s.buddyFree mx) := inferInstanceAs (Decidable (_ ∧ _))

/-- merging as long as the buddy is free -/
def Mid.mergeUp (mx : Nat) : Nat → Mid → Mid
  | 0, s => s
  | fuel + 1, s => if s.buddyFree mx then Mid.mergeUp mx fuel s.mergeStep else s

theorem Block.joined_cases (b : Block) (hk : b.order < 64) (hlt : b.off < 2 ^ 64) :
    (buddy b.off b.order = b.off + 2 ^ b.order ∧ b.joined.off = b.off)
    ∨ (b.off = buddy b.off b.order + 2 ^ b.order ∧ b.joined.off = buddy b.off b.order) := by
  have h0 := Nat.two_pow_pos b.order
  have hpow : 2 ^ (b.order + 1) = 2 ^ b.order + 2 ^ b.order := by rw [pow_succ]; omega
  have hpos := Nat.two_pow_pos (b.order + 1)
  have hin : b.joined.off ≤ b.off ∧ b.off < b.joined.off + 2 ^ (b.order + 1) := by
    have h1 := Nat.div_add_mod b.off (2 ^ (b.order + 1))
    have h2 := Nat.mod_lt b.off hpos
    rw [Nat.mul_comm] at h1
    show b.off / 2 ^ (b.order + 1) * 2 ^ (b.order + 1) ≤ b.off ∧ _
    have e : b.joined.off = b.off / 2 ^ (b.order + 1) * 2 ^ (b.order + 1) := rfl
    omega
  rcases buddy_cases b.dvd hk hlt with ⟨e, -, hd⟩ | ⟨e, -, hd⟩
  · exact Or.inl
      ⟨e, dyadic_eq (k := b.order + 1) (p := b.off) b.joined.dvd hd hin ⟨le_rfl, by omega⟩⟩
  · exact Or.inr ⟨e, dyadic_eq (k := b.order + 1) (p := b.off) b.joined.dvd hd hin (by omega)⟩

theorem Block.joined_parent (b : Block) (hk : b.order < 64) (hlt : b.off < 2 ^ 64) :
    b.joined.off = parent b.off b.order := by
  have h0 := Nat.two_pow_pos b.order
  rcases buddy_cases b.dvd hk hlt with ⟨e, e', -⟩ | ⟨e, e', -⟩
  · rcases b.joined_cases hk hlt with ⟨f, f'⟩ | ⟨f, f'⟩
    · rw [e', f']
    · omega
  · rcases b.joined_cases hk hlt with ⟨f, f'⟩ | ⟨f, f'⟩
    · omega
    · rw [e', f']

/-- the neighbours of the block in hand: a free buddy stands next to it -/
theorem BInv.neighbour {s : Mid} (h : BInv mn mx s.blocks s.rest s.lists) (hmx : mx < 64)
    (hb : s.buddyFree mx) :
    ∃ c : Block, c.used = false ∧ c.order = s.hand.order ∧ c.off = buddy s.hand.off s.hand.order ∧
      ((s.hand.off < buddy s.hand.off s.hand.order ∧ s.hand.joined.off = s.hand.off
          ∧ c.off = s.hand.off + s.hand.size ∧ ∃ r, s.l₂ = c :: r)
        ∨ (buddy s.hand.off s.hand.order < s.hand.off ∧ s.hand.joined.off = c.off
          ∧ s.hand.off = c.off + c.size ∧ ∃ r, s.l₁ = r ++ [c])) := by
  obtain ⟨l₁, b, l₂, lists⟩ := s
  obtain ⟨hlt, hmem⟩ := hb
  have h : BInv mn mx (l₁ ++ b :: l₂) (l₁ ++ l₂) lists := h
  have hlt : b.order < mx := hlt
  have hmem : buddy b.off b.order ∈ lists b.order := hmem
  obtain ⟨c, hc, hcf, hco, hcoff⟩ := (h.mem _ _).mp hmem
  refine ⟨c, hcf, hco, hcoff, ?_⟩
  show (b.off < buddy b.off b.order ∧ b.joined.off = b.off ∧ c.off = b.off + b.size
    ∧ ∃ r, l₂ = c :: r)
    ∨ (buddy b.off b.order < b.off ∧ b.joined.off = c.off ∧ b.off = c.off + c.size
      ∧ ∃ r, l₁ = r ++ [c])
  have hbm : b ∈ l₁ ++ b :: l₂ := by simp
  have h0 := Nat.two_pow_pos b.order
  have hbs : b.size = 2 ^ b.order := rfl
  have hcs : c.size = 2 ^ b.order := by unfold Block.size; rw [hco]
  obtain ⟨hl, hr⟩ := h.tiles.around
  obtain ⟨mid, t1, t2, t3, t4⟩ := tiles_append.mp h.tiles
  have hcm : c ∈ l₁ ++ b :: l₂ := mem_middle_of_mem hc
  rcases b.joined_cases (by omega) (h.off_lt hmx hbm) with ⟨e, e'⟩ | ⟨e, e'⟩
  · refine Or.inl ⟨by omega, e', by omega, ?_⟩
    cases l₂ with
    | nil =>
      rw [List.append_nil] at hc
      have := hl c hc
      omega
    | cons d r =>
      obtain ⟨u1, u2, u3⟩ := t4
      have hd : d = c := h.off_inj (by simp) hcm (by omega)
      exact ⟨r, by rw [hd]⟩
  · refine Or.inr ⟨by omega, by omega, by omega, ?_⟩
    rcases List.eq_nil_or_concat' l₁ with rfl | ⟨r, d, rfl⟩
    · have := hr c (by simpa using hc)
      omega
    · obtain ⟨mid', u1, u2, u3, u4⟩ := tiles_append.mp t1
      have u4' : mid' + d.size = mid := u4
      have hdb := d.size_pos
      have hd : d = c := h.tiles.eq_of_mem (x := b.off - 1) (by simp) hcm (by omega) (by omega)
      exact ⟨r, by rw [hd]⟩

/-- the buddy leaves the rest -/
theorem BInv.mergeStep_rest {s : Mid} (h : BInv mn mx s.blocks s.rest s.lists) (hmx : mx < 64)
    (hb : s.buddyFree mx) :
    ∃ c r₁ r₂, c.used = false ∧ c.order = s.hand.order ∧ c.off = buddy s.hand.off s.hand.order
      ∧ s.rest = r₁ ++ c :: r₂ ∧ s.mergeStep.rest = r₁ ++ r₂ ∧ c ∉ r₁ ++ r₂ := by
  obtain ⟨c, hcf, hco, hcoff, hcase⟩ := h.neighbour hmx hb
  have hd : s.rest.Nodup := (List.nodup_cons.mp (List.nodup_middle.mp h.tiles.nodup)).2
  have hout : ∀ r₁ r₂, s.rest = r₁ ++ c :: r₂ → c ∉ r₁ ++ r₂ := fun r₁ r₂ e => by
    rw [e] at hd
    exact (List.nodup_cons.mp (List.nodup_middle.mp hd)).1
  unfold Mid.rest at hout ⊢
  rcases hcase with ⟨hdir, -, -, r, hr⟩ | ⟨hdir, -, -, r, hr⟩
  · refine ⟨c, s.l₁, r, hcf, hco, hcoff, by rw [hr], ?_, hout _ _ (by rw [hr])⟩
    unfold Mid.mergeStep
    dsimp only
    rw [if_pos hdir, if_pos hdir, hr, List.tail_cons]
  · have e : s.l₁ ++ s.l₂ = r ++ c :: s.l₂ := by rw [hr, List.append_assoc, List.singleton_append]
    refine ⟨c, r, s.l₂, hcf, hco, hcoff, e, ?_, hout _ _ e⟩
    unfold Mid.mergeStep
    dsimp only
    rw [if_neg (by omega), if_neg (by omega), hr, List.dropLast_concat]

/-- with its buddy the block in hand covers the next larger interval -/
theorem BInv.mergeStep_tiles {s : Mid} (h : BInv mn mx s.blocks s.rest s.lists) (hmx : mx < 64)
    (hb : s.buddyFree mx) : Tiles Block.off Block.size 0 s.mergeStep.blocks (2 ^ mx) := by
  obtain ⟨c, hcf, hco, hcoff, hcase⟩ := h.neighbour hmx hb
  have ht := h.tiles
  have hcs : c.size = s.hand.size := by unfold Block.size; rw [hco]
  have hjs : s.hand.joined.size = s.hand.size + s.hand.size := by
    show 2 ^ (s.hand.order + 1) = 2 ^ s.hand.order + 2 ^ s.hand.order
    rw [pow_succ]
    omega
  unfold Mid.blocks at ht ⊢
  rcases hcase with ⟨hdir, hjoff, hadj, r, hr⟩ | ⟨hdir, hjoff, hadj, r, hr⟩
  · have h1 : Tiles Block.off Block.size 0 (s.l₁ ++ [s.hand, c] ++ r) (2 ^ mx) := by
      rw [hr] at ht
      rw [List.append_assoc]
      exact ht
    have h2 := h1.replace [s.hand.joined] fun p q hpq => by
      obtain ⟨v1, v2, v3, v4, v5⟩ := hpq
      have v5' : p + s.hand.size + c.size = q := v5
      refine ⟨hjoff.trans v1, by omega, ?_⟩
      show p + s.hand.joined.size = q
      omega
    unfold Mid.mergeStep
    dsimp only
    rw [if_pos hdir, if_pos hdir, hr, List.tail_cons]
    rw [List.append_assoc] at h2
    exact h2
  · have h1 : Tiles Block.off Block.size 0 (r ++ [c, s.hand] ++ s.l₂) (2 ^ mx) := by
      rw [hr, List.append_assoc] at ht
      rw [List.append_assoc]
      exact ht
    have h2 := h1.replace [s.hand.joined] fun p q hpq => by
      obtain ⟨v1, v2, v3, v4, v5⟩ := hpq
      have v5' : p + c.size + s.hand.size = q := v5
      refine ⟨hjoff.trans v1, by omega, ?_⟩
      show p + s.hand.joined.size = q
      omega
    unfold Mid.mergeStep
    dsimp only
    rw [if_neg (by omega), if_neg (by omega), hr, List.dropLast_concat]
    rw [List.append_assoc] at h2
    exact h2

theorem BInv.mergeStep {s : Mid} (h : BInv mn mx s.blocks s.rest s.lists) (hmx : mx < 64)
    (hb : s.buddyFree mx) :
    BInv mn mx s.mergeStep.blocks s.mergeStep.rest s.mergeStep.lists
      ∧ s.mergeStep.rest.filter Block.used = s.rest.filter Block.used := by
  obtain ⟨c, r₁, r₂, hcf, hco, hcoff, hrest, hrest', hout⟩ := h.mergeStep_rest hmx hb
  have hu : BInv mn mx s.blocks s.mergeStep.rest s.mergeStep.lists := by
    have h1 := h
    rw [hrest] at h1
    have h2 := h1.unlink hcf hout
    rw [hco, hcoff] at h2
    rw [hrest']
    exact h2
  refine ⟨hu.retile (h.mergeStep_tiles hmx hb) ?_ fun d hd => mem_middle_of_mem hd, ?_⟩
  · intro d hd
    by_cases hdj : d = s.hand.joined
    · subst hdj
      have h1 := (h.orders s.hand (by unfold Mid.blocks; simp)).1
      have h2 := hb.1
      show mn ≤ s.hand.order + 1 ∧ s.hand.order + 1 ≤ mx
      omega
    · exact h.orders d (hu.sub d (mem_of_mem_middle hd hdj))
  · rw [hrest, hrest', filter_middle_free hcf]

/-- merging ends when the buddy is not free -/
theorem Mid.mergeUp_done (mx fuel : Nat) (s : Mid) (hf : mx - s.hand.order ≤ fuel) :
    ¬ (s.mergeUp mx fuel).buddyFree mx := by
  induction fuel generalizing s with
  | zero =>
    intro h
    have h1 : s.hand.order < mx := h.1
    omega
  | succ fuel ih =>
    unfold Mid.mergeUp
    split
    · refine ih s.mergeStep ?_
      show mx - (s.hand.order + 1) ≤ fuel
      omega
    · next h => exact h

theorem Mid.mergeUp_induct {P : Mid → Prop} (step : ∀ s, P s → s.buddyFree mx → P s.mergeStep)
    {s : Mid} (h : P s) (fuel : Nat) : P (s.mergeUp mx fuel) := by
  induction fuel generalizing s with
  | zero => exact h
  | succ fuel ih =>
    unfold Mid.mergeUp
    split
    · next hb => exact ih (step s h hb)
    · exact h

/-- the block in hand goes to the front of its list -/
def Mid.put (s : Mid) : Nat → List Nat :=
  update s.lists s.hand.order (s.hand.off :: s.lists s.hand.order)

theorem BInv.put_merged {s : Mid} (h : BInv mn mx s.blocks s.rest s.lists)
    (hf : s.hand.used = false) (hdone : ¬ s.buddyFree mx) : BInv mn mx s.blocks s.blocks s.put := by
  have hout : s.hand ∉ s.l₁ ++ s.l₂ := fun hm => h.ne_middle hm rfl
  refine BInv.put_free h (by unfold Mid.blocks; simp) hf hout fun hlt c hc hcf hco he => ?_
  exact hdone ⟨hlt, (h.mem _ _).mpr ⟨c, hc, hcf, hco, he⟩⟩

/-- a used block as it is given back -/
def Block.freed (b : Block) : Block := ⟨b.off, b.order, false, b.dvd⟩

/-- a used block is given back: it is in hand, then merged as far as possible -/
def releaseMid (mx : Nat) (l₁ : List Block) (b : Block) (l₂ : List Block)
    (lists : Nat → List Nat) : Mid :=
  Mid.mergeUp mx (mx - b.order) ⟨l₁, b.freed, l₂, lists⟩

theorem releaseMid_used : (releaseMid mx l₁ b l₂ lists).hand.used = false :=
  Mid.mergeUp_induct (P := fun s => s.hand.used = false) (fun _ h _ => h) rfl _

theorem releaseMid_done : ¬ (releaseMid mx l₁ b l₂ lists).buddyFree mx :=
  Mid.mergeUp_done mx _ _ le_rfl

/-- the other used blocks stay -/
theorem BInv.released_used (h : BInv mn mx (l₁ ++ b :: l₂) (l₁ ++ b :: l₂) lists) (hmx : mx < 64)
    (hu : b.used = true) :
    (releaseMid mx l₁ b l₂ lists).rest.filter Block.used = (l₁ ++ l₂).filter Block.used := by
  have hheld : BInv mn mx (l₁ ++ b.freed :: l₂) (l₁ ++ l₂) lists := (h.take hu).rehand rfl rfl
  refine (Mid.mergeUp_induct (s := ⟨l₁, b.freed, l₂, lists⟩)
    (P := fun s => BInv mn mx s.blocks s.rest s.lists
      ∧ s.rest.filter Block.used = (l₁ ++ l₂).filter Block.used) ?_ ⟨hheld, rfl⟩ _).2
  intro s hs hb
  obtain ⟨h1, h2⟩ := hs.1.mergeStep hmx hb
  exact ⟨h1, h2.trans hs.2⟩

/-- the other blocks in use survive the release -/
theorem BInv.released_mem (h : BInv mn mx (l₁ ++ b :: l₂) (l₁ ++ b :: l₂) lists) (hmx : mx < 64)
    (hu : b.used = true) (hc : c ∈ l₁ ++ b :: l₂) (hne : c ≠ b) (hcu : c.used = true) :
    c ∈ (releaseMid mx l₁ b l₂ lists).blocks :=
  mem_middle_of_mem
    ((mem_iff_of_filter_used (h.released_used hmx hu) hcu).mpr (mem_of_mem_middle hc hne))

/-! ## the start: one free block -/

theorem BInv.none (hle : mn ≤ mx) :
    BInv mn mx [⟨0, mx, false, dvd_zero _⟩] [] (fun _ => []) := by
  refine ⟨⟨rfl, Nat.two_pow_pos _, Nat.zero_add _⟩, ?_, by simp, fun _ => List.nodup_nil, by simp,
    by simp⟩
  intro b hb
  rw [List.mem_singleton.mp hb]
  exact ⟨hle, le_rfl⟩

theorem BInv.top (hle : mn ≤ mx) :
    BInv mn mx [⟨0, mx, false, dvd_zero _⟩] [⟨0, mx, false, dvd_zero _⟩]
      (update (fun _ => []) mx [0]) :=
  BInv.put_free (show BInv _ _ _ ([] ++ []) _ from BInv.none hle) (by simp) rfl (by simp) (by simp)

/-! ## slots, for the walk -/

theorem shiftRight_add (h : 2 ^ j ∣ x) (k : Nat) : x >>> j + k >>> j = (x + k) >>> j := by
  obtain ⟨r, rfl⟩ := h
  rw [Nat.shiftRight_eq_div_pow, Nat.shiftRight_eq_div_pow, Nat.shiftRight_eq_div_pow,
    Nat.mul_div_cancel_left _ (Nat.two_pow_pos j), Nat.mul_add_div (Nat.two_pow_pos j)]

theorem shiftLeft_shiftRight (h : 2 ^ j ∣ x) : x >>> j <<< j = x := by
  rw [Nat.shiftRight_eq_div_pow, Nat.shiftLeft_eq, Nat.div_mul_cancel h]

/-- the slots of a block, and where the next one starts -/
theorem Block.slot_next (b : Block) (hj : j ≤ b.order) : b.off >>> j <<< j = b.off
    ∧ b.off >>> j + 2 ^ b.order >>> j = (b.off + b.size) >>> j := by
  have hd : 2 ^ j ∣ b.off := (pow_dvd_pow 2 hj).trans b.dvd
  exact ⟨shiftLeft_shiftRight hd, shiftRight_add hd _⟩

/-- the first slot of a block is a slot -/
theorem Block.slot_lt (b : Block) (hj : j ≤ b.order) (hle : b.off + b.size ≤ 2 ^ mx) :
    b.off >>> j < 2 ^ mx >>> j := by
  have h4 : 2 ^ j ≤ b.size := Nat.pow_le_pow_right (by norm_num) hj
  have h5 := Nat.two_pow_pos j
  rw [Nat.shiftRight_eq_div_pow, Nat.shiftRight_eq_div_pow]
  calc b.off / 2 ^ j < (b.off + 2 ^ j) / 2 ^ j := by
        rw [Nat.add_div_right _ h5]
        omega
    _ ≤ 2 ^ mx / 2 ^ j := Nat.div_le_div_right (by omega)

/-- there are no more blocks than slots -/
theorem BInv.length_le (h : BInv mn mx bs act lists) (hj : j ≤ mn) : bs.length ≤ 2 ^ mx >>> j := by
  have h1 := h.tiles.length_mul_le (n := 2 ^ j) fun b hb =>
    Nat.pow_le_pow_right (by norm_num) (hj.trans (h.orders b hb).1)
  rw [Nat.shiftRight_eq_div_pow, Nat.le_div_iff_mul_le (Nat.two_pow_pos _)]
  omega

/-! ## the bytes in used blocks -/

def usedSum (bs : List Block) : Nat := ((bs.filter Block.used).map Block.size).sum

theorem usedSum_le (h : BInv mn mx bs act lists) : usedSum bs ≤ 2 ^ mx := by
  have := h.tiles.sum_le Block.used
  rwa [Nat.sub_zero] at this

theorem usedSum_middle (hu : b.used = true) {l₁' l₂' : List Block}
    (he : (l₁ ++ l₂).filter Block.used = (l₁' ++ l₂').filter Block.used) :
    usedSum (l₁ ++ b :: l₂) = usedSum (l₁' ++ l₂') + b.size := by
  unfold usedSum
  rw [← he, filter_middle_used hu, List.filter_append, List.map_append, List.map_append,
    List.map_cons, List.sum_append, List.sum_append, List.sum_cons]
  omega

end

end HeapForge.Buddy
