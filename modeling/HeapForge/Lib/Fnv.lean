import Mathlib.Algebra.Order.Ring.Nat
import Mathlib.Data.List.Basic
import Mathlib.Data.Nat.Bitwise
import Mathlib.Data.Nat.ModEq

/-!
# The FNV-1a checksum over bytes

`fnv1a` folds the bytes of a string into a 64-bit value: exclusive-or with the byte, then
multiplication by the FNV prime.  `leBytes n v` are the `n` bytes of a little-endian field.

The prime is odd, so a round can be undone: it is injective in the value before it and in the byte.
A difference that has once reached the value stays to the end of the string.

* `fnvRound_left_inj`, `fnvRound_right_inj`   one round;
* `fnv1a_append_ne`                           **any suffix keeps a difference;**
* `fnv1a_ne_of_oneOff`                        **strings that differ in one position hash
                                              differently.**
-/

set_option linter.unusedSectionVars false

namespace HeapForge.Lib

/-- the `n` bytes of `v`, least significant first -/
def leBytes (n v : Nat) : List Nat := (List.range n).map (fun i => v / 256 ^ i % 256)

@[irreducible] def fnv1a (data : List Nat) : Nat :=
  data.foldl (fun h b => ((h ^^^ b) * 1099511628211) % 2 ^ 64) 1469598103934665603

theorem fnv1a_lt (data : List Nat) : fnv1a data < 2 ^ 64 := by
  unfold fnv1a
  have h : ∀ (l : List Nat) (h : Nat), h < 2 ^ 64 →
      l.foldl (fun h b => ((h ^^^ b) * 1099511628211) % 2 ^ 64) h < 2 ^ 64 := by
    intro l
    induction l with
    | nil => exact fun h hh => hh
    | cons b l ih => exact fun h _ => ih _ (Nat.mod_lt _ (by decide))
  exact h data _ (by decide)

/-! ## what a round keeps -/

def fnvRound (h b : Nat) : Nat := ((h ^^^ b) * 1099511628211) % 2 ^ 64

/-- the two strings have the same length and differ in one position -/
def OneOff {α : Type*} (l l' : List α) : Prop :=
  l.length = l'.length ∧ ∃ i : Nat, ∀ j : Nat, l[j]? ≠ l'[j]? ↔ j = i

section
variable {h h' b b' : Nat} {l l' s : List Nat}

theorem fnv1a_eq (data : List Nat) : fnv1a data = data.foldl fnvRound 1469598103934665603 := by
  unfold fnv1a
  rfl

theorem fnvRound_lt (h b : Nat) : fnvRound h b < 2 ^ 64 := Nat.mod_lt _ (Nat.two_pow_pos 64)

/-- multiplying by an odd number loses nothing -/
theorem mul_prime_inj (hb : b < 2 ^ 64) (hb' : b' < 2 ^ 64)
    (e : b * 1099511628211 % 2 ^ 64 = b' * 1099511628211 % 2 ^ 64) : b = b' := by
  have hgcd : Nat.gcd (2 ^ 64) 1099511628211 = 1 := by decide
  have hmod : b ≡ b' [MOD 2 ^ 64] := Nat.ModEq.cancel_right_of_coprime hgcd e
  exact hmod.eq_of_lt_of_lt hb hb'

theorem byte_xor_lt (hh : h < 2 ^ 64) (hb : b < 256) : h ^^^ b < 2 ^ 64 :=
  Nat.xor_lt_two_pow hh (by omega)

theorem fnvRound_left_inj (hh : h < 2 ^ 64) (hh' : h' < 2 ^ 64) (hb : b < 256)
    (e : fnvRound h b = fnvRound h' b) : h = h' :=
  Nat.xor_left_injective (mul_prime_inj (byte_xor_lt hh hb) (byte_xor_lt hh' hb) e)

theorem fnvRound_right_inj (hh : h < 2 ^ 64) (hb : b < 256) (hb' : b' < 256)
    (e : fnvRound h b = fnvRound h b') : b = b' :=
  Nat.xor_right_injective (mul_prime_inj (byte_xor_lt hh hb) (byte_xor_lt hh hb') e)

/-- a difference in the value stays -/
theorem foldl_fnvRound_ne (hs : ∀ b ∈ s, b < 256) (hh : h < 2 ^ 64) (hh' : h' < 2 ^ 64)
    (hne : h ≠ h') :
    s.foldl fnvRound h ≠ s.foldl fnvRound h' := by
  induction s generalizing h h' with
  | nil => exact hne
  | cons b s ih =>
    rw [List.foldl_cons, List.foldl_cons]
    apply ih (fun c hc => hs c (List.mem_cons_of_mem b hc)) (fnvRound_lt h b) (fnvRound_lt h' b)
    intro e
    exact hne (fnvRound_left_inj hh hh' (hs b List.mem_cons_self) e)

theorem fnv1a_append (l s : List Nat) : fnv1a (l ++ s) = s.foldl fnvRound (fnv1a l) := by
  rw [fnv1a_eq, fnv1a_eq, List.foldl_append]

/-- **Any suffix keeps a difference.** -/
theorem fnv1a_append_ne (hs : ∀ b ∈ s, b < 256) (hne : fnv1a l ≠ fnv1a l') :
    fnv1a (l ++ s) ≠ fnv1a (l' ++ s) := by
  rw [fnv1a_append, fnv1a_append]
  exact foldl_fnvRound_ne hs (fnv1a_lt l) (fnv1a_lt l') hne

/-- the strings around the one position -/
theorem OneOff.split {α : Type*} {l l' : List α} (h : OneOff l l') :
    ∃ p x y s, l = p ++ x :: s ∧ l' = p ++ y :: s ∧ x ≠ y := by
  obtain ⟨hlen, i, hi⟩ := h
  have hdiff : l[i]? ≠ l'[i]? := (hi i).mpr rfl
  have hlt : i < l.length := by
    by_contra hge
    apply hdiff
    rw [List.getElem?_eq_none (by omega), List.getElem?_eq_none (by omega)]
  have hlt' : i < l'.length := by omega
  have hsame : ∀ j, j ≠ i → l[j]? = l'[j]? := by
    intro j hj
    by_contra hc
    exact hj ((hi j).mp hc)
  have htake : l.take i = l'.take i := by
    apply List.ext_getElem?
    intro j
    rw [List.getElem?_take, List.getElem?_take]
    split
    · exact hsame j (by omega)
    · rfl
  have hdrop : l.drop (i + 1) = l'.drop (i + 1) := by
    apply List.ext_getElem?
    intro j
    rw [List.getElem?_drop, List.getElem?_drop]
    exact hsame _ (by omega)
  refine ⟨l.take i, l[i], l'[i], l.drop (i + 1), ?_, ?_, ?_⟩
  · rw [List.getElem_cons_drop, List.take_append_drop]
  · rw [htake, hdrop, List.getElem_cons_drop, List.take_append_drop]
  · intro e
    apply hdiff
    rw [List.getElem?_eq_getElem hlt, List.getElem?_eq_getElem hlt', e]

/-- **Strings that differ in one position hash differently.** -/
theorem fnv1a_ne_of_oneOff (hl : ∀ b ∈ l, b < 256) (hl' : ∀ b ∈ l', b < 256) (h : OneOff l l') :
    fnv1a l ≠ fnv1a l' := by
  obtain ⟨p, x, y, s, rfl, rfl, hxy⟩ := h.split
  have hx : x < 256 := hl x (by simp)
  have hy : y < 256 := hl' y (by simp)
  have hs : ∀ b ∈ s, b < 256 := fun b hb => hl b (by simp [hb])
  rw [fnv1a_append, fnv1a_append, List.foldl_cons, List.foldl_cons]
  apply foldl_fnvRound_ne hs (fnvRound_lt _ x) (fnvRound_lt _ y)
  intro e
  exact hxy (fnvRound_right_inj (fnv1a_lt p) hx hy e)

end

end HeapForge.Lib
