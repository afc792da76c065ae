import Mathlib.Data.Finset.Card
import Mathlib.Data.Finset.Range
import Mathlib.Data.Nat.Find
import Mathlib.Data.Nat.ModEq
import Mathlib.Logic.Function.Basic

/-!
# Linear probing

A table of `cap` slots, each empty or with a key.  The search for a key starts at the key's hash
and goes on, slot by slot and around the end, until it meets the key or an empty slot.

* `probe`             the search, `probe_of_dist` and `probe_eq_some` say where it stops;
* `Probed`            every key is where its own search stops;
* `Probed.insert`     putting a key where its search stops keeps that;
* `occupied`          the number of keys, `exists_stop` says that a table with room ends a search.
-/

set_option linter.unusedSectionVars false

namespace HeapForge.Lib
open Function

def probe (stop : Nat → Bool) (cap : Nat) : Nat → Nat → Option Nat
  | 0, _ => none
  | fuel + 1, i => if stop i then some i else probe stop cap fuel ((i + 1) % cap)

/-- the search for `k` stops here -/
def stops {κ : Type*} [DecidableEq κ] (key : Nat → Option κ) (k : κ) (i : Nat) : Bool :=
  key i == none || key i == some k

section
variable {stop stop' : Nat → Bool} {cap fuel i j d : Nat}

theorem succ_mod_add (i d cap : Nat) : ((i + 1) % cap + d) % cap = (i + (d + 1)) % cap := by
  rw [Nat.mod_add_mod, Nat.add_assoc, Nat.add_comm 1 d]

theorem probe_of_dist (hi : i < cap) (hd : d < fuel) (hs : stop ((i + d) % cap) = true)
    (hn : ∀ e < d, stop ((i + e) % cap) = false) :
    probe stop cap fuel i = some ((i + d) % cap) := by
  induction fuel generalizing i d with
  | zero => omega
  | succ fuel ih =>
    unfold probe
    cases d with
    | zero =>
      rw [Nat.add_zero, Nat.mod_eq_of_lt hi] at hs
      rw [if_pos hs, Nat.add_zero, Nat.mod_eq_of_lt hi]
    | succ d =>
      have h0 := hn 0 (Nat.succ_pos d)
      rw [Nat.add_zero, Nat.mod_eq_of_lt hi] at h0
      rw [if_neg (by rw [h0]; simp), ← succ_mod_add i d cap]
      refine ih (Nat.mod_lt _ (by omega)) (by omega : d < fuel) (by rw [succ_mod_add]; exact hs)
        fun e he => ?_
      rw [succ_mod_add]
      exact hn (e + 1) (by omega)

theorem probe_eq_some (hi : i < cap) (h : probe stop cap fuel i = some j) :
    ∃ d < fuel, j = (i + d) % cap ∧ stop j = true ∧ ∀ e < d, stop ((i + e) % cap) = false := by
  induction fuel generalizing i with
  | zero => exact absurd h (by simp [probe])
  | succ fuel ih =>
    unfold probe at h
    by_cases hs : stop i = true
    · rw [if_pos hs] at h
      obtain rfl := Option.some.inj h
      exact ⟨0, by omega, by rw [Nat.add_zero, Nat.mod_eq_of_lt hi], hs, by omega⟩
    · rw [if_neg hs] at h
      obtain ⟨d, hd, rfl, hj, hn⟩ := ih (Nat.mod_lt _ (by omega)) h
      refine ⟨d + 1, by omega, succ_mod_add i d cap, hj, fun e he => ?_⟩
      cases e with
      | zero => rw [Nat.add_zero, Nat.mod_eq_of_lt hi]; simpa using hs
      | succ e => rw [← succ_mod_add]; exact hn e (by omega)

theorem probe_lt (hi : i < cap) (h : probe stop cap fuel i = some j) : j < cap := by
  obtain ⟨d, -, rfl, -⟩ := probe_eq_some hi h
  exact Nat.mod_lt _ (by omega)

theorem probe_stop (hi : i < cap) (h : probe stop cap fuel i = some j) : stop j = true := by
  obtain ⟨d, -, -, hs, -⟩ := probe_eq_some hi h
  exact hs

/-- the search only looks at the slots up to the one where it stops -/
theorem probe_congr (hi : i < cap) (h : probe stop cap fuel i = some j) (hs : stop' j = true)
    (hn : ∀ x, stop x = false → stop' x = false) : probe stop' cap fuel i = some j := by
  obtain ⟨d, hd, rfl, -, hpath⟩ := probe_eq_some hi h
  exact probe_of_dist hi hd hs fun e he => hn _ (hpath e he)

/-- a search that may see every slot finds one to stop at -/
theorem exists_probe (hi : i < cap) (hj : j < cap) (hs : stop j = true) :
    ∃ x, probe stop cap cap i = some x := by
  have hx : ∃ d, stop ((i + d) % cap) = true := by
    refine ⟨cap - i + j, ?_⟩
    rw [show i + (cap - i + j) = j + cap by omega, Nat.add_mod_right, Nat.mod_eq_of_lt hj]
    exact hs
  classical
  have hmin := Nat.find_spec hx
  have hlt : Nat.find hx < cap := by
    have h2 : stop ((i + Nat.find hx % cap) % cap) = true := by
      rw [Nat.add_mod_mod]
      exact hmin
    exact lt_of_le_of_lt (Nat.find_min' hx h2) (Nat.mod_lt _ (by omega))
  exact ⟨_, probe_of_dist hi hlt hmin fun e he => by simpa using Nat.find_min hx he⟩

end

section
variable {κ : Type*} [DecidableEq κ] {key : Nat → Option κ} {hash : κ → Nat} {cap i j : Nat}
  {k k' : κ}

theorem stops_iff : stops key k i = true ↔ key i = none ∨ key i = some k := by
  unfold stops
  rw [Bool.or_eq_true, beq_iff_eq, beq_iff_eq]

theorem stops_eq_false : stops key k i = false ↔ key i ≠ none ∧ key i ≠ some k := by
  rw [← Bool.not_eq_true, stops_iff, not_or]

/-- every key is where its own search stops -/
structure Probed (cap : Nat) (hash : κ → Nat) (key : Nat → Option κ) : Prop where
  hash_lt : ∀ k, hash k < cap
  home : ∀ i k, i < cap → key i = some k → probe (stops key k) cap cap (hash k) = some i

def occupied (cap : Nat) (key : Nat → Option κ) : Nat :=
  ((Finset.range cap).filter fun i => key i ≠ none).card

theorem Probed.inj (h : Probed cap hash key) (hi : i < cap) (hj : j < cap) (hki : key i = some k)
    (hkj : key j = some k) : i = j :=
  Option.some.inj ((h.home i k hi hki).symm.trans (h.home j k hj hkj))

/-- **A key may be put where its search stops.** -/
theorem Probed.insert (h : Probed cap hash key)
    (hj : probe (stops key k) cap cap (hash k) = some j) :
    Probed cap hash (update key j (some k)) := by
  rcases stops_iff.mp (probe_stop (h.hash_lt k) hj) with hnone | hsome
  · refine ⟨h.hash_lt, fun i k' hi hk' => ?_⟩
    by_cases hij : i = j
    · subst hij
      rw [update_self] at hk'
      obtain rfl := Option.some.inj hk'
      refine probe_congr (h.hash_lt k) hj (stops_iff.mpr (Or.inr (update_self ..))) fun x hx => ?_
      have hxj : x ≠ i := by
        rintro rfl
        exact (stops_eq_false.mp hx).1 hnone
      rw [stops_eq_false, update_of_ne hxj]
      exact stops_eq_false.mp hx
    · rw [update_of_ne hij] at hk'
      refine probe_congr (h.hash_lt k') (h.home i k' hi hk')
        (stops_iff.mpr (Or.inr (by rw [update_of_ne hij]; exact hk'))) fun x hx => ?_
      -- the empty slot was not passed on the way
      have hxj : x ≠ j := by
        rintro rfl
        exact (stops_eq_false.mp hx).1 hnone
      rw [stops_eq_false, update_of_ne hxj]
      exact stops_eq_false.mp hx
  · rw [← hsome, update_eq_self]
    exact h

theorem Probed.empty (hh : ∀ k, hash k < cap) : Probed cap hash (fun _ => none) :=
  ⟨hh, fun _ _ _ h => absurd h (by simp)⟩

theorem occupied_empty : occupied cap (fun _ => none : Nat → Option κ) = 0 := by
  unfold occupied
  simp

theorem occupied_insert (hj : j < cap) (hn : key j = none) :
    occupied cap (update key j (some k)) = occupied cap key + 1 := by
  unfold occupied
  have e : (Finset.range cap).filter (fun i => update key j (some k) i ≠ none)
      = insert j ((Finset.range cap).filter fun i => key i ≠ none) := by
    ext i
    by_cases hij : i = j
    · subst hij
      simp [hj]
    · simp [hij]
  rw [e, Finset.card_insert_of_notMem (by simp [hn])]

/-- a table with room ends every search -/
theorem Probed.exists_stop (h : Probed cap hash key) (hocc : occupied cap key < cap) (k : κ) :
    ∃ j, probe (stops key k) cap cap (hash k) = some j := by
  have he : ∃ j < cap, key j = none := by
    by_contra hno
    push Not at hno
    have hall : (Finset.range cap).filter (fun i => key i ≠ none) = Finset.range cap :=
      Finset.filter_true_of_mem fun i hi => hno i (Finset.mem_range.mp hi)
    unfold occupied at hocc
    rw [hall, Finset.card_range] at hocc
    exact lt_irrefl _ hocc
  obtain ⟨j, hj, hn⟩ := he
  exact exists_probe (h.hash_lt k) hj (stops_iff.mpr (Or.inl hn))

end

end HeapForge.Lib
