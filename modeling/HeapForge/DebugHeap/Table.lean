import HeapForge.DebugHeap.Impl
import HeapForge.Lib.Probe

/-!
# The pointer table as a map

`get t p` is the entry that `dh_find` gives for `p`.  Over it the operations of the table are those
of a map, with one exception: growing loses the freed flags.

* `TabInv`             the table: its capacity, its load, and every entry where the search finds it;
* `putEntry_spec`      `dh_put` with room changes the map at one pointer;
* `rehash_spec`        `dh_rehash` keeps the map up to the flags;
* `dhPut_spec`         both together.
-/

set_option linter.unusedSectionVars false
set_option linter.unusedVariables false

namespace HeapForge.DebugHeap
open Lib Function

/-- the key in a slot -/
def DhTable.key (t : DhTable) (i : Nat) : Option Nat :=
  if (t.table i).user = 0 then none else some (t.table i).user

/-- the entry of a pointer -/
def DhTable.get (t : DhTable) (p : Nat) : Option DhEntry := (dhFind t p).map t.table

structure TabInv (t : DhTable) : Prop where
  order : ∃ k, 6 ≤ k ∧ k ≤ 58 ∧ t.cap = 2 ^ k
  probed : Probed t.cap (fun p => dhHash p t.cap) t.key
  count : t.count = occupied t.cap t.key
  load : t.count * 10 < t.cap * 7
  blank : ∀ i, (t.table i).user = 0 → (t.table i).freed = false

/-- a growing table loses the flag -/
def DhEntry.regrown (e : DhEntry) : DhEntry := { e with freed := false }

section
variable {t : DhTable} {p q raw size i j k n : Nat} {e : DhEntry}

/-! ## searching -/

theorem key_eq_some (hp : p ≠ 0) : t.key i = some p ↔ (t.table i).user = p := by
  unfold DhTable.key
  split
  · next h =>
    rw [h]
    exact ⟨fun h => absurd h (by simp), fun h => absurd h.symm hp⟩
  · exact Option.some_inj

theorem key_eq_none : t.key i = none ↔ (t.table i).user = 0 := by
  unfold DhTable.key
  split <;> simp [*]

theorem land_pred_two_pow (x : Nat) (hk : k < 64) : x &&& wsub (2 ^ k) 1 = x % 2 ^ k := by
  have h1 : 2 ^ k < 2 ^ 64 := Nat.pow_lt_pow_right (by norm_num) hk
  rw [wsub_of_le (Nat.two_pow_pos k) h1, Nat.and_two_pow_sub_one_eq_mod]

theorem dhHash_lt (hk : k < 64) (p : Nat) : dhHash p (2 ^ k) < 2 ^ k := by
  unfold dhHash
  dsimp only
  rw [land_pred_two_pow _ hk]
  exact Nat.mod_lt _ (Nat.two_pow_pos k)

theorem TabInv.mask (h : TabInv t) (x : Nat) : x &&& wsub t.cap 1 = x % t.cap := by
  obtain ⟨k, -, hk, e⟩ := h.order
  rw [e, land_pred_two_pow x (by omega)]

theorem TabInv.cap_bounds (h : TabInv t) : 64 ≤ t.cap ∧ t.cap ≤ 2 ^ 58 := by
  obtain ⟨k, h6, h58, e⟩ := h.order
  have h1 : 2 ^ 6 ≤ 2 ^ k := Nat.pow_le_pow_right (by norm_num) h6
  have h2 : 2 ^ k ≤ 2 ^ 58 := Nat.pow_le_pow_right (by norm_num) h58
  omega

theorem putLoop_eq (h : TabInv t) (hp : p ≠ 0) :
    putLoop t p n i = probe (stops t.key p) t.cap n i := by
  induction n generalizing i with
  | zero => rfl
  | succ n ih =>
    unfold putLoop probe
    rw [ih, h.mask]
    refine if_congr ?_ rfl rfl
    rw [stops_iff, key_eq_none, key_eq_some hp]

theorem findLoop_eq (h : TabInv t) (hp : p ≠ 0) :
    findLoop t p n i = (probe (stops t.key p) t.cap n i).filter fun j => (t.table j).user = p := by
  induction n generalizing i with
  | zero => rfl
  | succ n ih =>
    unfold findLoop probe
    rw [ih, h.mask]
    by_cases h0 : (t.table i).user = 0
    · rw [if_pos ⟨h0, h.blank i h0⟩, if_pos (stops_iff.mpr (Or.inl (key_eq_none.mpr h0)))]
      rw [Option.filter_some, if_neg (by rw [h0, decide_eq_true_eq]; exact hp.symm)]
    · rw [if_neg fun hc => h0 hc.1]
      by_cases hu : (t.table i).user = p
      · rw [if_pos hu, if_pos (stops_iff.mpr (Or.inr ((key_eq_some hp).mpr hu))),
          Option.filter_some, if_pos (by rw [hu, decide_eq_true_eq])]
      · rw [if_neg hu, if_neg]
        rw [stops_iff, key_eq_none, key_eq_some hp]
        exact not_or.mpr ⟨h0, hu⟩

/-- what `dh_find` finds -/
theorem dhFind_eq_some (h : TabInv t) (hp : p ≠ 0) :
    dhFind t p = some i ↔ i < t.cap ∧ (t.table i).user = p := by
  unfold dhFind
  rw [findLoop_eq h hp, Option.filter_eq_some_iff, decide_eq_true_eq]
  constructor
  · rintro ⟨h1, h2⟩
    exact ⟨probe_lt (h.probed.hash_lt p) h1, h2⟩
  · rintro ⟨h1, h2⟩
    exact ⟨h.probed.home i p h1 ((key_eq_some hp).mpr h2), h2⟩

theorem get_eq_some (h : TabInv t) (hp : p ≠ 0) :
    t.get p = some e ↔ ∃ i < t.cap, t.table i = e ∧ e.user = p := by
  unfold DhTable.get
  rw [Option.map_eq_some_iff]
  constructor
  · rintro ⟨i, hi, rfl⟩
    obtain ⟨h1, h2⟩ := (dhFind_eq_some h hp).mp hi
    exact ⟨i, h1, rfl, h2⟩
  · rintro ⟨i, h1, rfl, h2⟩
    exact ⟨i, (dhFind_eq_some h hp).mpr ⟨h1, h2⟩, rfl⟩

/-- the map, from the entries of the slots -/
theorem get_ext {o : Option DhEntry} (h : TabInv t) (hp : p ≠ 0)
    (ho : ∀ e, (∃ i < t.cap, t.table i = e ∧ e.user = p) ↔ o = some e) : t.get p = o := by
  apply Option.ext
  intro e
  rw [get_eq_some h hp, ho]

/-! ## one entry more -/

theorem key_update (t : DhTable) (j raw size : Nat) (hp : p ≠ 0) :
    (fun i => DhTable.key { t with table := update t.table j ⟨p, raw, size, false⟩ } i)
      = update t.key j (some p) := by
  funext i
  by_cases h : i = j
  · subst h
    simp [DhTable.key, hp]
  · simp [DhTable.key, h]

/-- **An entry is put into a table with room**: the map changes there. -/
theorem putEntry_spec (h : TabInv t) (hp : p ≠ 0) (hroom : (t.count + 1) * 10 < t.cap * 7)
    (raw size : Nat) :
    ∃ t', putEntry t p raw size = some t' ∧ TabInv t' ∧ t'.cap = t.cap ∧ t'.count ≤ t.count + 1
      ∧ ∀ q, q ≠ 0 → t'.get q = if q = p then some ⟨p, raw, size, false⟩ else t.get q := by
  have hcap := h.cap_bounds
  have hocc : occupied t.cap t.key < t.cap := by
    rw [← h.count]
    omega
  obtain ⟨j, hj⟩ := h.probed.exists_stop hocc p
  have hjlt := probe_lt (h.probed.hash_lt p) hj
  have hstop := stops_iff.mp (probe_stop (h.probed.hash_lt p) hj)
  have hkey := key_update t j raw size hp
  have hput : putEntry t p raw size = some { t with
      count := if (t.table j).user = 0 ∧ (t.table j).freed = false then wadd t.count 1 else t.count
      table := update t.table j ⟨p, raw, size, false⟩ } := by
    unfold putEntry
    rw [putLoop_eq h hp, hj]
    rfl
  -- the counter counts the occupied slots
  have hcount : (if (t.table j).user = 0
    ∧ (t.table j).freed = false then wadd t.count 1 else t.count)
      = occupied t.cap (update t.key j (some p)) := by
    rcases hstop with hn | hs
    · have h0 := key_eq_none.mp hn
      rw [if_pos ⟨h0, h.blank j h0⟩, occupied_insert hjlt hn, ← h.count, wadd_of_lt (by omega)]
    · have hu := (key_eq_some hp).mp hs
      rw [if_neg fun hc => hp (hu.symm.trans hc.1), ← hs, update_eq_self, ← h.count]
  have hle : (if (t.table j).user = 0 ∧ (t.table j).freed = false then wadd t.count 1 else t.count)
      ≤ t.count + 1 := by
    split
    · rw [wadd_of_lt (by omega)]
    · omega
  generalize (if (t.table j).user = 0 ∧ (t.table j).freed = false then wadd t.count 1 else t.count)
    = c at hput hcount hle
  have hinv : TabInv { t with count := c, table := update t.table j ⟨p, raw, size, false⟩ } := by
    refine ⟨h.order, ?_, ?_, by show c * 10 < t.cap * 7; omega, ?_⟩
    · have h1 := h.probed.insert hj
      rw [← hkey] at h1
      exact h1
    · rw [← hkey] at hcount
      exact hcount
    · intro i hi
      by_cases hij : i = j
      · subst hij
        simp [update_self] at hi
        exact absurd hi hp
      · simp only [update_of_ne hij] at hi ⊢
        exact h.blank i hi
  refine ⟨_, hput, hinv, rfl, hle, fun q hq => get_ext hinv hq fun e => ?_⟩
  by_cases hqp : q = p
  · subst hqp
    rw [if_pos rfl, Option.some_inj]
    constructor
    · rintro ⟨i, hi, he, hu⟩
      have hij : i = j := by
        refine hinv.probed.inj (k := q) hi hjlt ?_ ?_
        · rw [key_eq_some hq, he]
          exact hu
        · rw [key_eq_some hq]
          simp
      subst hij
      rw [← he]
      simp
    · rintro rfl
      exact ⟨j, hjlt, by simp, rfl⟩
  · rw [if_neg hqp, get_eq_some h hq]
    -- the slot has had no other pointer
    have huj : (t.table j).user ≠ q := by
      rcases hstop with hn | hs
      · rw [key_eq_none.mp hn]
        exact hq.symm
      · rw [(key_eq_some hp).mp hs]
        exact Ne.symm hqp
    constructor
    · rintro ⟨i, hi, he, hu⟩
      have hij : i ≠ j := by
        rintro rfl
        simp only [update_self] at he
        rw [← he] at hu
        exact hqp hu.symm
      simp only [update_of_ne hij] at he
      exact ⟨i, hi, he, hu⟩
    · rintro ⟨i, hi, he, hu⟩
      have hij : i ≠ j := by
        rintro rfl
        rw [he] at huj
        exact huj hu
      exact ⟨i, hi, by simp only [update_of_ne hij]; exact he, hu⟩

/-! ## growing -/

theorem TabInv.room_iff (h : TabInv t) :
    wmul (wadd t.count 1) 10 ≥ wmul t.cap 7 ↔ ¬ (t.count + 1) * 10 < t.cap * 7 := by
  have h1 := h.cap_bounds
  have h2 := h.load
  rw [wadd_of_lt (by omega), wmul_of_lt (by omega), wmul_of_lt (by omega), ge_iff_le, not_lt]

theorem dhPut_of_room (cl : TableCalloc) (d : Nat) (h : TabInv t)
    (hroom : (t.count + 1) * 10 < t.cap * 7) :
    dhPut cl (d + 1) t p raw size = putEntry t p raw size := by
  unfold dhPut
  dsimp only
  rw [if_neg (by rw [h.room_iff]; exact not_not.mpr hroom)]
  rfl

theorem TabInv.empty (hk : 6 ≤ k) (hk' : k ≤ 58) :
    TabInv ⟨fun _ => DhEntry.blank, 2 ^ k, 0⟩ := by
  have h0 := Nat.two_pow_pos k
  have hkey : DhTable.key ⟨fun _ => DhEntry.blank, 2 ^ k, 0⟩ = fun _ => none := by
    funext i
    rfl
  refine ⟨⟨k, hk, hk', rfl⟩, ?_, ?_, by show 0 * 10 < 2 ^ k * 7; omega, fun _ _ => rfl⟩
  · rw [hkey]
    exact Probed.empty (dhHash_lt (by omega))
  · rw [hkey, occupied_empty]

theorem get_empty (hk : 6 ≤ k) (hk' : k ≤ 58) (hp : p ≠ 0) :
    DhTable.get ⟨fun _ => DhEntry.blank, 2 ^ k, 0⟩ p = none := by
  refine get_ext (TabInv.empty hk hk') hp fun e => ?_
  constructor
  · rintro ⟨i, -, rfl, hu⟩
    exact absurd hu.symm hp
  · intro h
    exact absurd h (by simp)

/-- the entries of the first `n` slots are in the new table, none of them freed -/
theorem rehashLoop_spec (cl : TableCalloc) (d : Nat) (h : TabInv t)
    (hg : cl.grants (2 * t.cap) = true) (hn : n ≤ t.cap) :
    ∃ t', rehashLoop (dhPut cl (d + 1)) t.table ⟨fun _ => DhEntry.blank, 2 * t.cap, 0⟩ n = some t'
      ∧ TabInv t' ∧ t'.cap = 2 * t.cap ∧ t'.count ≤ n
      ∧ ∀ q, q ≠ 0 → ∀ e, t'.get q = some e
        ↔ ∃ i < n, (t.table i).user = q ∧ e = (t.table i).regrown := by
  obtain ⟨k, h6, h58, hcap⟩ := h.order
  have hb := cl.bound _ hg
  have hk : k + 1 ≤ 58 := by
    by_contra hlt
    have : k = 58 := by omega
    subst this
    omega
  have hcap' : 2 * t.cap = 2 ^ (k + 1) := by rw [hcap, pow_succ]; omega
  have h64 := h.cap_bounds
  induction n with
  | zero =>
    refine ⟨_, rfl, ?_, rfl, le_rfl, fun q hq e => ?_⟩
    · rw [hcap']
      exact TabInv.empty (by omega) hk
    · rw [hcap', get_empty (by omega) hk hq]
      simp
  | succ n ih =>
    obtain ⟨t₁, h1, hinv, hc, hcount, hget⟩ := ih (by omega)
    unfold rehashLoop
    rw [h1, Option.bind_some]
    by_cases hu : (t.table n).user = 0
    · rw [if_neg (not_not.mpr hu)]
      refine ⟨t₁, rfl, hinv, hc, by omega, fun q hq e => ?_⟩
      rw [hget q hq e]
      constructor
      · rintro ⟨i, hi, h2⟩
        exact ⟨i, by omega, h2⟩
      · rintro ⟨i, hi, h2, h3⟩
        have hne : i ≠ n := by
          rintro rfl
          exact hq (h2.symm.trans hu)
        exact ⟨i, by omega, h2, h3⟩
    · rw [if_pos hu]
      have hroom : (t₁.count + 1) * 10 < t₁.cap * 7 := by omega
      rw [dhPut_of_room cl d hinv hroom]
      obtain ⟨t₂, h2, hinv₂, hc₂, hcount₂, hget₂⟩ :=
        putEntry_spec hinv hu hroom (t.table n).raw (t.table n).size
      refine ⟨t₂, h2, hinv₂, hc₂.trans hc, by omega, fun q hq e => ?_⟩
      rw [hget₂ q hq]
      by_cases hqu : q = (t.table n).user
      · rw [if_pos hqu, Option.some_inj]
        constructor
        · rintro rfl
          exact ⟨n, by omega, hqu.symm, rfl⟩
        · rintro ⟨i, hi, h3, rfl⟩
          -- a pointer is in one slot only
          have hin : i = n := h.probed.inj (k := q) (by omega) (by omega)
            ((key_eq_some hq).mpr h3) ((key_eq_some hq).mpr hqu.symm)
          subst hin
          rfl
      · rw [if_neg hqu, hget q hq e]
        constructor
        · rintro ⟨i, hi, h3⟩
          exact ⟨i, by omega, h3⟩
        · rintro ⟨i, hi, h3, h4⟩
          have hne : i ≠ n := by
            rintro rfl
            exact hqu h3.symm
          exact ⟨i, by omega, h3, h4⟩

/-- **Growing keeps the map up to the flags.** -/
theorem rehash_spec (cl : TableCalloc) (d : Nat) (h : TabInv t)
    (hg : cl.grants (2 * t.cap) = true) :
    ∃ t', dhRehash cl (dhPut cl (d + 1)) t (wmul t.cap 2) = some t' ∧ TabInv t' ∧ t'.cap = 2 * t.cap
      ∧ (t'.count + 1) * 10 < t'.cap * 7
      ∧ ∀ q, q ≠ 0 → t'.get q = (t.get q).map DhEntry.regrown := by
  have h64 := h.cap_bounds
  obtain ⟨t', h1, hinv, hc, hcount, hget⟩ := rehashLoop_spec cl d h hg le_rfl
  have hw : wmul t.cap 2 = 2 * t.cap := by rw [wmul_of_lt (by omega), Nat.mul_comm]
  refine ⟨t', ?_, hinv, hc, by omega, fun q hq => ?_⟩
  · unfold dhRehash
    rw [hw, if_pos hg]
    exact h1
  · apply Option.ext
    intro e
    rw [hget q hq e, Option.map_eq_some_iff]
    constructor
    · rintro ⟨i, hi, h2, rfl⟩
      exact ⟨t.table i, (get_eq_some h hq).mpr ⟨i, hi, rfl, h2⟩, rfl⟩
    · rintro ⟨e', he', rfl⟩
      obtain ⟨i, hi, rfl, h2⟩ := (get_eq_some h hq).mp he'
      exact ⟨i, hi, h2, rfl⟩

/-- **An entry is put into any table.**  If the table grew, the other entries have lost their
flags. -/
theorem dhPut_spec (cl : TableCalloc) {t' : DhTable} (h : TabInv t) (hp : p ≠ 0)
    (hput : dhPut cl 64 t p raw size = some t') :
    TabInv t' ∧ ∀ q, q ≠ 0 → t'.get q = if q = p then some ⟨p, raw, size, false⟩
      else if t'.cap = t.cap then t.get q else (t.get q).map DhEntry.regrown := by
  by_cases hroom : (t.count + 1) * 10 < t.cap * 7
  · rw [dhPut_of_room cl 63 h hroom] at hput
    obtain ⟨t₁, h1, hinv, hc, -, hget⟩ := putEntry_spec h hp hroom raw size
    rw [h1] at hput
    obtain rfl := Option.some.inj hput
    refine ⟨hinv, fun q hq => ?_⟩
    rw [hget q hq, if_pos hc]
  · unfold dhPut at hput
    dsimp only at hput
    rw [if_pos (h.room_iff.mpr hroom)] at hput
    by_cases hg : cl.grants (2 * t.cap) = true
    · obtain ⟨t₁, h1, hinv₁, hc₁, hroom₁, hget₁⟩ := rehash_spec cl 62 h hg
      rw [h1, Option.bind_some] at hput
      obtain ⟨t₂, h2, hinv, hc, -, hget⟩ := putEntry_spec hinv₁ hp hroom₁ raw size
      rw [h2] at hput
      obtain rfl := Option.some.inj hput
      have hcap := h.cap_bounds
      refine ⟨hinv, fun q hq => ?_⟩
      rw [hget q hq, hget₁ q hq, if_neg (show t₂.cap ≠ t.cap by omega)]
    · have hcap := h.cap_bounds
      have hw : wmul t.cap 2 = 2 * t.cap := by rw [wmul_of_lt (by omega), Nat.mul_comm]
      unfold dhRehash at hput
      rw [hw, if_neg hg] at hput
      exact absurd hput (by simp)

end

end HeapForge.DebugHeap
