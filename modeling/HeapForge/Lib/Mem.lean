import Mathlib.Data.Nat.Basic
import Mathlib.Algebra.Order.Ring.Nat
import Mathlib.Tactic.Ring

/-!
# Byte-addressed memory with little-endian words

`load m a n` reads `n` bytes at `a`, `store m a n v` writes the low `n` bytes of `v`, `fill`
writes one byte over a range.  A load sees the last store to its place (`load_store_same`) and
no store elsewhere (`load_store_of_disjoint`); what a program changes is stated byte by byte
with `SameOn`.
-/

set_option linter.unusedSectionVars false

namespace HeapForge.Lib

def Mem : Type := Nat → BitVec 8

namespace Mem

/-- memory of zero bytes -/
def zero : Mem := fun _ => 0#8

def load (m : Mem) : Nat → Nat → Nat
  | _, 0 => 0
  | a, n + 1 => (m a).toNat + 256 * load m (a + 1) n

def store (m : Mem) (a n v : Nat) : Mem :=
  fun x => if a ≤ x ∧ x < a + n then BitVec.ofNat 8 (v / 256 ^ (x - a)) else m x

def fill (m : Mem) (a n : Nat) (b : BitVec 8) : Mem :=
  fun x => if a ≤ x ∧ x < a + n then b else m x

def setByte (m : Mem) (a : Nat) (b : BitVec 8) : Mem := fun x => if x = a then b else m x

def load64 (m : Mem) (a : Nat) : Nat := m.load a 8
def store64 (m : Mem) (a v : Nat) : Mem := m.store a 8 v
def load32 (m : Mem) (a : Nat) : Nat := m.load a 4
def store32 (m : Mem) (a v : Nat) : Mem := m.store a 4 v

/-- `m'` and `m` have the same bytes where `P` holds -/
def SameOn (P : Nat → Prop) (m m' : Mem) : Prop := ∀ x, P x → m' x = m x

section
variable {m m' m'' : Mem} {P Q : Nat → Prop} {a b n k v : Nat}

theorem SameOn.refl : SameOn P m m := fun _ _ => rfl

theorem SameOn.trans (h : SameOn P m m') (h' : SameOn P m' m'') : SameOn P m m'' :=
  fun x hx => (h' x hx).trans (h x hx)

theorem SameOn.mono (h : SameOn P m m') (hQ : ∀ x, Q x → P x) : SameOn Q m m' :=
  fun x hx => h x (hQ x hx)

theorem load_congr (h : ∀ x, a ≤ x → x < a + n → m' x = m x) : m'.load a n = m.load a n := by
  induction n generalizing a with
  | zero => rfl
  | succ n ih =>
    show (m' a).toNat + 256 * m'.load (a + 1) n = (m a).toNat + 256 * m.load (a + 1) n
    rw [h a (le_refl a) (by omega), ih (fun x h1 h2 => h x (by omega) (by omega))]

/-- a word determines its bytes -/
theorem load_inj (h : m'.load a n = m.load a n) : ∀ x, a ≤ x → x < a + n → m' x = m x := by
  induction n generalizing a with
  | zero =>
    intro x h1 h2
    omega
  | succ n ih =>
    have e : (m' a).toNat + 256 * m'.load (a + 1) n = (m a).toNat + 256 * m.load (a + 1) n := h
    have h1 := (m' a).isLt
    have h2 := (m a).isLt
    have hhead : (m' a).toNat = (m a).toNat := by omega
    have htail : m'.load (a + 1) n = m.load (a + 1) n := by omega
    intro x hx hx'
    rcases Nat.eq_or_lt_of_le hx with rfl | hlt
    · exact BitVec.eq_of_toNat_eq hhead
    · exact ih htail x hlt (by omega)

theorem load_eq_iff : m'.load a n = m.load a n ↔ ∀ x, a ≤ x → x < a + n → m' x = m x :=
  ⟨load_inj, load_congr⟩

theorem SameOn.load (h : SameOn P m m') (hP : ∀ x, a ≤ x → x < a + n → P x) :
    m'.load a n = m.load a n :=
  load_congr (fun x h1 h2 => h x (hP x h1 h2))

theorem SameOn.load64 (h : SameOn P m m') (hP : ∀ x, a ≤ x → x < a + 8 → P x) :
    m'.load64 a = m.load64 a :=
  h.load hP

theorem load_lt (m : Mem) (a n : Nat) : m.load a n < 256 ^ n := by
  induction n generalizing a with
  | zero => exact Nat.one_pos
  | succ n ih =>
    show (m a).toNat + 256 * m.load (a + 1) n < 256 ^ (n + 1)
    have h1 := ih (a + 1)
    have h2 : (256 : Nat) ^ (n + 1) = 256 * 256 ^ n := by ring
    omega

theorem load64_lt (m : Mem) (a : Nat) : m.load64 a < 2 ^ 64 := by
  have h := load_lt m a 8
  exact lt_of_lt_of_eq h (by norm_num)

theorem load_zero (a n : Nat) : zero.load a n = 0 := by
  induction n generalizing a with
  | zero => rfl
  | succ n ih =>
    show (zero a).toNat + 256 * zero.load (a + 1) n = 0
    rw [ih]
    rfl

/-- a word of which some bytes are still zero is no larger -/
theorem load_le_of_part (h : ∀ x, m' x = 0#8 ∨ m' x = m x) (a n : Nat) :
    m'.load a n ≤ m.load a n := by
  induction n generalizing a with
  | zero => exact le_refl 0
  | succ n ih =>
    have hrest := ih (a + 1)
    show (m' a).toNat + 256 * m'.load (a + 1) n ≤ (m a).toNat + 256 * m.load (a + 1) n
    rcases h a with h0 | h0
    · have hz : (m' a).toNat = 0 := by
        rw [h0]
        rfl
      omega
    · rw [h0]
      omega

theorem store_of_notMem {x : Nat} (h : x < a ∨ a + n ≤ x) : m.store a n v x = m x :=
  if_neg (by omega)

theorem store64_of_notMem {x : Nat} (h : x < a ∨ a + 8 ≤ x) : m.store64 a v x = m x :=
  store_of_notMem h

theorem sameOn_store (hP : ∀ x, P x → x < a ∨ a + n ≤ x) : SameOn P m (m.store a n v) :=
  fun x hx => store_of_notMem (hP x hx)

theorem sameOn_store64 (hP : ∀ x, P x → x < a ∨ a + 8 ≤ x) : SameOn P m (m.store64 a v) :=
  sameOn_store hP

theorem sameOn_setByte {c : BitVec 8} (hP : ∀ x, P x → x ≠ a) : SameOn P m (m.setByte a c) :=
  fun x hx => if_neg (hP x hx)

theorem load_store_of_disjoint (h : a + n ≤ b ∨ b + k ≤ a) :
    (m.store a n v).load b k = m.load b k :=
  load_congr (fun x h1 h2 => store_of_notMem (by omega))

/-- the digits of `v` from position `k` on -/
theorem load_store_from (m : Mem) (a n v k : Nat) (hk : k ≤ n) :
    (m.store a n v).load (a + (n - k)) k = v / 256 ^ (n - k) % 256 ^ k := by
  induction k with
  | zero => simp [load, Nat.mod_one]
  | succ k ih =>
    have e : n - k = n - (k + 1) + 1 := by omega
    have ih' := ih (by omega)
    show ((m.store a n v) (a + (n - (k + 1)))).toNat
      + 256 * (m.store a n v).load (a + (n - (k + 1)) + 1) k = _
    rw [Nat.add_assoc, ← e, ih', e]
    have hb : (m.store a n v) (a + (n - (k + 1))) = BitVec.ofNat 8 (v / 256 ^ (n - (k + 1))) := by
      unfold store
      rw [if_pos (by omega), Nat.add_sub_cancel_left]
    rw [hb, BitVec.toNat_ofNat, pow_succ 256 (n - (k + 1)), ← Nat.div_div_eq_div_mul,
      show (256 : Nat) ^ (k + 1) = 256 * 256 ^ k by ring, Nat.mod_mul]

theorem load_store_same (m : Mem) (a n v : Nat) : (m.store a n v).load a n = v % 256 ^ n := by
  have h := load_store_from m a n v n (le_refl n)
  rwa [Nat.sub_self, Nat.add_zero, pow_zero, Nat.div_one] at h

theorem load64_store64_same (hv : v < 2 ^ 64) : (m.store64 a v).load64 a = v := by
  have h := load_store_same m a 8 v
  rw [Nat.mod_eq_of_lt (lt_of_lt_of_eq hv (by norm_num))] at h
  exact h

theorem load64_store64_of_disjoint (h : a + 8 ≤ b ∨ b + 8 ≤ a) :
    (m.store64 a v).load64 b = m.load64 b :=
  load_store_of_disjoint h

theorem load64_setByte_of_disjoint {c : BitVec 8} (h : a < b ∨ b + 8 ≤ a) :
    (m.setByte a c).load64 b = m.load64 b :=
  load_congr (fun x h1 h2 => if_neg (by omega))

end

end Mem

end HeapForge.Lib
