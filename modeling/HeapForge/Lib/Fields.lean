import HeapForge.Lib.Fnv
import HeapForge.Lib.Mem

/-!
# Records of little-endian fields

`storeFields m a fs` writes the fields `fs`, pairs of a width and a value, one behind the other from
`a` on; `loadFields m a ns` reads fields of the widths `ns`.  What is read is what was written, cut
to the widths (`loadFields_storeFields`), and nothing else changes (`storeFields_of_notMem`).
`bytes m a n` are the bytes themselves; a field that was read has those of its place
(`leBytes_load`).
-/

set_option linter.unusedSectionVars false

namespace HeapForge.Lib.Mem

def storeFields (m : Mem) (a : Nat) : List (Nat × Nat) → Mem
  | [] => m
  | f :: fs => storeFields (m.store a f.1 f.2) (a + f.1) fs

def loadFields (m : Mem) (a : Nat) : List Nat → List Nat
  | [] => []
  | n :: ns => m.load a n :: loadFields m (a + n) ns

/-- the `n` bytes at `a` -/
def bytes (m : Mem) (a n : Nat) : List Nat := (List.range n).map fun i => (m (a + i)).toNat

section
variable {m m' : Mem} {a x n : Nat} {fs : List (Nat × Nat)} {ns : List Nat}

theorem storeFields_of_notMem (h : x < a ∨ a + (fs.map Prod.fst).sum ≤ x) :
    storeFields m a fs x = m x := by
  induction fs generalizing m a with
  | nil => rfl
  | cons f fs ih =>
    rw [List.map_cons, List.sum_cons] at h
    rw [storeFields, ih (by omega)]
    exact store_of_notMem (by omega)

theorem loadFields_congr (h : ∀ x, a ≤ x → x < a + ns.sum → m' x = m x) :
    loadFields m' a ns = loadFields m a ns := by
  induction ns generalizing a with
  | nil => rfl
  | cons n ns ih =>
    rw [List.sum_cons] at h
    rw [loadFields, loadFields, load_congr fun x h1 h2 => h x h1 (by omega),
      ih fun x h1 h2 => h x (by omega) (by omega)]

theorem loadFields_storeFields (m : Mem) (a : Nat) (fs : List (Nat × Nat)) :
    loadFields (storeFields m a fs) a (fs.map Prod.fst) = fs.map fun f => f.2 % 256 ^ f.1 := by
  induction fs generalizing m a with
  | nil => rfl
  | cons f fs ih =>
    rw [List.map_cons, List.map_cons, loadFields, storeFields, ih]
    -- the first field lies before the others
    have hhead : (storeFields (m.store a f.1 f.2) (a + f.1) fs).load a f.1 = f.2 % 256 ^ f.1 := by
      rw [load_congr fun x h1 h2 => storeFields_of_notMem (Or.inl h2)]
      exact load_store_same m a f.1 f.2
    rw [hhead]

theorem bytes_lt (m : Mem) (a n : Nat) : ∀ b ∈ m.bytes a n, b < 256 := by
  intro b hb
  obtain ⟨i, -, rfl⟩ := List.mem_map.mp hb
  exact (m (a + i)).isLt

theorem bytes_getElem? (m : Mem) (a n j : Nat) :
    (m.bytes a n)[j]? = if j < n then some (m (a + j)).toNat else none := by
  unfold bytes
  rw [List.getElem?_map]
  by_cases h : j < n
  · rw [if_pos h, List.getElem?_range h, Option.map_some]
  · rw [if_neg h, List.getElem?_eq_none (by rw [List.length_range]; omega), Option.map_none]

theorem bytes_add (m : Mem) (a n k : Nat) :
    m.bytes a (n + k) = m.bytes a n ++ m.bytes (a + n) k := by
  unfold bytes
  rw [List.range_add, List.map_append, List.map_map]
  refine congrArg _ (List.map_congr_left fun i _ => ?_)
  rw [Function.comp_apply, Nat.add_assoc]

theorem bytes_congr (h : ∀ x, a ≤ x → x < a + n → m' x = m x) : m'.bytes a n = m.bytes a n := by
  refine List.map_congr_left fun i hi => ?_
  have hlt := List.mem_range.mp hi
  rw [h (a + i) (by omega) (by omega)]

/-- one byte of a word -/
theorem load_div (m : Mem) (a : Nat) {n i : Nat} (hi : i < n) :
    m.load a n / 256 ^ i % 256 = (m (a + i)).toNat := by
  induction i generalizing a n with
  | zero =>
    obtain ⟨n, rfl⟩ : ∃ k, n = k + 1 := ⟨n - 1, by omega⟩
    have hb := (m a).isLt
    show ((m a).toNat + 256 * m.load (a + 1) n) / 256 ^ 0 % 256 = (m a).toNat
    omega
  | succ i ih =>
    obtain ⟨n, rfl⟩ : ∃ k, n = k + 1 := ⟨n - 1, by omega⟩
    have hb := (m a).isLt
    have hstep : ((m a).toNat + 256 * m.load (a + 1) n) / 256 = m.load (a + 1) n := by omega
    show ((m a).toNat + 256 * m.load (a + 1) n) / 256 ^ (i + 1) % 256 = _
    rw [pow_succ', ← Nat.div_div_eq_div_mul, hstep, ih (a + 1) (by omega), Nat.add_right_comm a 1 i,
      Nat.add_assoc]

theorem leBytes_load (m : Mem) (a n : Nat) : leBytes n (m.load a n) = m.bytes a n :=
  List.map_congr_left fun _ hi => load_div m a (List.mem_range.mp hi)

/-- one byte is changed -/
theorem bytes_oneOff (hx : a ≤ x ∧ x < a + n) (h : ∀ y, a ≤ y → y < a + n → (m' y ≠ m y ↔ y = x)) :
    OneOff (m.bytes a n) (m'.bytes a n) := by
  refine ⟨by simp [bytes], x - a, fun j => ?_⟩
  rw [bytes_getElem?, bytes_getElem?]
  by_cases hj : j < n
  · rw [if_pos hj, if_pos hj]
    have hy := h (a + j) (by omega) (by omega)
    have hval : some (m (a + j)).toNat ≠ some (m' (a + j)).toNat ↔ m' (a + j) ≠ m (a + j) := by
      rw [not_iff_not, Option.some_inj, ← BitVec.toNat_inj]
      exact eq_comm
    rw [hval, hy]
    omega
  · rw [if_neg hj, if_neg hj]
    exact ⟨fun hc => absurd rfl hc, fun hc => by omega⟩

end

end HeapForge.Lib.Mem
