import HeapForge.DebugHeap.Classify
import HeapForge.Lib.Run

/-!
# The pointer table after any sequence of puts

Runs of `dh_put` alone, from the table of a new heap.  `PutStep` asks that the call returns;
`dhPut_returns` says that it does whenever `calloc` grants the table that a growth asks for.

* `lastPut`            the arguments of the last call for a pointer;
* `PutsInv`            the table is the map of these;
* `rehashLoop_flat`    the calls of `dh_put` inside `dh_rehash` do not grow the table again;
* `table_of_puts`      **the table is a correct map, and the next call returns.**
-/

set_option linter.unusedSectionVars false
set_option linter.unusedVariables false

namespace HeapForge.DebugHeap
open Lib Function

/-- the arguments of `dh_put` -/
structure Put where
  user : Nat
  raw : Nat
  size : Nat
  deriving DecidableEq

/-- the entry that the call leaves -/
def Put.entry (a : Put) : DhEntry := ⟨a.user, a.raw, a.size, false⟩

/-- a call for a pointer that is not null returns -/
def PutStep (cl : TableCalloc) (t : DhTable) (a : Put) (t' : DhTable) : Prop :=
  a.user ≠ 0 ∧ dhPut cl 64 t a.user a.raw a.size = some t'

/-- the next call grows the table -/
def DhTable.Full (t : DhTable) : Prop := wmul (wadd t.count 1) 10 ≥ wmul t.cap 7

def lastPut (acts : List Put) (p : Nat) : Option Put := (acts.filter fun a => a.user == p).getLast?

structure PutsInv (acts : List Put) (t : DhTable) : Prop where
  tab : TabInv t
  keys : ∀ a ∈ acts, a.user ≠ 0
  get : ∀ p, p ≠ 0 → t.get p = (lastPut acts p).map Put.entry

section
variable {t t' : DhTable} {cl : TableCalloc} {acts : List Put} {a : Put} {p raw size i n : Nat}

/-! ## the last call -/

theorem lastPut_snoc (acts : List Put) (a : Put) (p : Nat) :
    lastPut (acts ++ [a]) p = if a.user = p then some a else lastPut acts p := by
  unfold lastPut
  rw [List.filter_append]
  by_cases h : a.user = p
  · rw [if_pos h, List.filter_cons_of_pos (by rw [h, beq_self_eq_true]), List.filter_nil,
      List.getLast?_concat]
  · rw [if_neg h, List.filter_cons_of_neg (by rw [beq_iff_eq]; exact h), List.filter_nil,
      List.append_nil]

theorem lastPut_user (h : lastPut acts p = some a) : a ∈ acts ∧ a.user = p := by
  obtain ⟨h1, h2⟩ := List.mem_filter.mp (List.mem_of_getLast? h)
  exact ⟨h1, beq_iff_eq.mp h2⟩

theorem lastPut_isSome_iff : (∃ a, lastPut acts p = some a) ↔ ∃ a ∈ acts, a.user = p := by
  constructor
  · rintro ⟨a, h⟩
    exact ⟨a, lastPut_user h⟩
  · rintro ⟨a, ha, hu⟩
    have hne : acts.filter (fun a => a.user == p) ≠ [] :=
      List.ne_nil_of_mem (List.mem_filter.mpr ⟨ha, beq_iff_eq.mpr hu⟩)
    exact ⟨_, List.getLast?_eq_some_getLast hne⟩

/-- an entry that was put is not freed, so growing changes nothing about it -/
theorem map_regrown_entry (o : Option Put) :
    (o.map Put.entry).map DhEntry.regrown = o.map Put.entry := by
  cases o <;> rfl

/-! ## one call -/

theorem TabInv.full_iff (h : TabInv t) : t.Full ↔ ¬ (t.count + 1) * 10 < t.cap * 7 := h.room_iff

/-- **The call returns** if `calloc` grants what a growth asks for. -/
theorem dhPut_returns (h : TabInv t) (hp : p ≠ 0) (hg : t.Full → cl.grants (2 * t.cap) = true)
    (raw size : Nat) : ∃ t', dhPut cl 64 t p raw size = some t' := by
  by_cases hroom : (t.count + 1) * 10 < t.cap * 7
  · obtain ⟨t₁, h1, -⟩ := putEntry_spec h hp hroom raw size
    exact ⟨t₁, (dhPut_of_room cl 63 h hroom).trans h1⟩
  · have hfull := h.full_iff.mpr hroom
    obtain ⟨t₁, h1, hinv, -, hroom₁, -⟩ := rehash_spec cl 62 h (hg hfull)
    obtain ⟨t₂, h2, -⟩ := putEntry_spec hinv hp hroom₁ raw size
    refine ⟨t₂, ?_⟩
    unfold dhPut
    dsimp only
    rw [if_pos (h.room_iff.mpr hroom), h1, Option.bind_some, h2]

/-- the loop over the old table does not grow the new one -/
theorem rehashLoop_flat (h : TabInv t) (hg : cl.grants (2 * t.cap) = true) (d : Nat)
    (hn : n ≤ t.cap) :
    rehashLoop (dhPut cl (d + 1)) t.table ⟨fun _ => DhEntry.blank, 2 * t.cap, 0⟩ n
      = rehashLoop putEntry t.table ⟨fun _ => DhEntry.blank, 2 * t.cap, 0⟩ n := by
  induction n with
  | zero => rfl
  | succ n ih =>
    -- the new table has twice the slots and at most `n` entries
    obtain ⟨t₁, h1, hinv, hc, hcount, -⟩ := rehashLoop_spec cl d h hg (n := n) (by omega)
    have h64 := h.cap_bounds
    rw [rehashLoop, rehashLoop, ← ih (by omega), h1, Option.bind_some, Option.bind_some,
      dhPut_of_room cl d hinv (by omega)]

theorem dhRehash_flat (cl : TableCalloc) (h : TabInv t) (d : Nat) :
    dhRehash cl (dhPut cl (d + 1)) t (wmul t.cap 2) = dhRehash cl putEntry t (wmul t.cap 2) := by
  have h64 := h.cap_bounds
  have hw : wmul t.cap 2 = 2 * t.cap := by rw [wmul_of_lt (by omega), Nat.mul_comm]
  unfold dhRehash
  rw [hw]
  by_cases hg : cl.grants (2 * t.cap) = true
  · rw [if_pos hg, if_pos hg, rehashLoop_flat h hg d le_rfl]
  · rw [if_neg hg, if_neg hg]

/-! ## the slots -/

theorem TabInv.probe_returns (h : TabInv t) (hp : p ≠ 0) :
    ∃ i, putLoop t p t.cap (dhHash p t.cap) = some i := by
  have hload := h.load
  have hcap := h.cap_bounds
  obtain ⟨j, hj⟩ := h.probed.exists_stop (by rw [← h.count]; omega) p
  exact ⟨j, (putLoop_eq h hp).trans hj⟩

/-- the slots on the way to an entry are occupied -/
theorem TabInv.path (h : TabInv t) (hi : i < t.cap) (hu : (t.table i).user ≠ 0) :
    ∃ d < t.cap, i = (dhHash (t.table i).user t.cap + d) % t.cap
      ∧ ∀ e < d, (t.table ((dhHash (t.table i).user t.cap + e) % t.cap)).user ≠ 0 := by
  have hhome := h.probed.home i _ hi ((key_eq_some hu).mpr rfl)
  obtain ⟨d, hd, he, -, hpath⟩ := probe_eq_some (h.probed.hash_lt _) hhome
  refine ⟨d, hd, he, fun e hlt h0 => ?_⟩
  exact (stops_eq_false.mp (hpath e hlt)).1 (key_eq_none.mpr h0)

theorem TabInv.count_users (h : TabInv t) :
    t.count = ((Finset.range t.cap).filter fun i => (t.table i).user ≠ 0).card := by
  rw [h.count, occupied]
  refine congrArg Finset.card (Finset.filter_congr fun i _ => ?_)
  rw [ne_eq, ne_eq, key_eq_none]

/-- the null pointer is not found -/
theorem TabInv.findLoop_null (h : TabInv t) : findLoop t 0 n i = none := by
  induction n generalizing i with
  | zero => rfl
  | succ n ih =>
    unfold findLoop
    by_cases h0 : (t.table i).user = 0
    · rw [if_pos ⟨h0, h.blank i h0⟩]
    · rw [if_neg fun hc => h0 hc.1, if_neg h0, ih]

/-! ## all calls -/

theorem PutsInv.start (cl : TableCalloc) : PutsInv [] ⟨fun _ => DhEntry.blank, 64, 0⟩ :=
  ⟨TabInv.empty (k := 6) (by omega) (by omega), fun _ ha => absurd ha (by simp),
    fun _ hp => get_empty (k := 6) (by omega) (by omega) hp⟩

theorem PutsInv.step (h : PutsInv acts t) (hs : PutStep cl t a t') : PutsInv (acts ++ [a]) t' := by
  obtain ⟨hu, hput⟩ := hs
  obtain ⟨hinv, hget⟩ := dhPut_spec cl h.tab hu hput
  refine ⟨hinv, ?_, fun p hp => ?_⟩
  · intro b hb
    rcases List.mem_append.mp hb with hb | hb
    · exact h.keys b hb
    · rw [List.mem_singleton.mp hb]
      exact hu
  · rw [hget p hp, lastPut_snoc, h.get p hp, map_regrown_entry]
    by_cases hpa : p = a.user
    · rw [if_pos hpa, if_pos hpa.symm]
      rfl
    · rw [if_neg hpa, if_neg (Ne.symm hpa), ite_self]

theorem PutsInv.of_run {t₀ : DhTable} (h0 : PutsInv [] t₀) (hrun : Steps (PutStep cl) t₀ acts t) :
    PutsInv acts t :=
  hrun.invariant_trace h0 fun _ _ _ _ => PutsInv.step

/-- what `dh_find` finds -/
theorem PutsInv.find (h : PutsInv acts t) (hf : dhFind t p = some i) :
    ∃ a, lastPut acts p = some a ∧ t.table i = a.entry := by
  have hp : p ≠ 0 := by
    rintro rfl
    unfold dhFind at hf
    rw [h.tab.findLoop_null] at hf
    exact absurd hf (by simp)
  have hget := h.get p hp
  unfold DhTable.get at hget
  rw [hf, Option.map_some] at hget
  obtain ⟨a, ha, he⟩ := Option.map_eq_some_iff.mp hget.symm
  exact ⟨a, ha, he.symm⟩

theorem PutsInv.find_iff (h : PutsInv acts t) (p : Nat) :
    (∃ i, dhFind t p = some i) ↔ ∃ a ∈ acts, a.user = p := by
  rw [← lastPut_isSome_iff]
  constructor
  · rintro ⟨i, hf⟩
    obtain ⟨a, ha, -⟩ := h.find hf
    exact ⟨a, ha⟩
  · rintro ⟨a, ha⟩
    obtain ⟨hmem, hu⟩ := lastPut_user ha
    have hget := h.get p (hu ▸ h.keys a hmem)
    rw [ha, Option.map_some] at hget
    obtain ⟨i, hi, -⟩ := Option.map_eq_some_iff.mp hget
    exact ⟨i, hi⟩

end

/-- **The pointer table is a correct map.**  After any sequence of calls for pointers that are not
null: the capacity is a power of two, the counter is the number of occupied slots and less than
seven tenths of it; every pointer put is in exactly one slot, and the slots on the way there are
occupied; `dh_find` finds a pointer exactly if it was put, with the arguments of its last put.  The
search for a place ends within one round of the table, growing does not grow again, and the next
call returns if `calloc` grants the table that a growth asks for. -/
theorem table_of_puts {β : Type*} {cl : TableCalloc} {b : β} {h : DhHeap β} {acts : List Put}
    {t : DhTable} (hc : hfDebugHeapCreate cl b = some h) (hrun : Steps (PutStep cl) h.tab acts t) :
    (∃ k, t.cap = 2 ^ k)
      ∧ t.count = ((Finset.range t.cap).filter fun i => (t.table i).user ≠ 0).card
      ∧ 10 * t.count < 7 * t.cap
      ∧ (∀ a ∈ acts, ∃! i, i < t.cap ∧ (t.table i).user = a.user)
      ∧ (∀ i < t.cap, (t.table i).user ≠ 0 → ∃ d < t.cap,
          i = (dhHash (t.table i).user t.cap + d) % t.cap
          ∧ ∀ e < d, (t.table ((dhHash (t.table i).user t.cap + e) % t.cap)).user ≠ 0)
      ∧ (∀ p, (∃ i, dhFind t p = some i) ↔ ∃ a ∈ acts, a.user = p)
      ∧ (∀ p i, dhFind t p = some i → ∃ a, lastPut acts p = some a
          ∧ t.table i = ⟨a.user, a.raw, a.size, false⟩)
      ∧ (∀ p, p ≠ 0 → ∃ i, putLoop t p t.cap (dhHash p t.cap) = some i)
      ∧ (∀ d, dhRehash cl (dhPut cl (d + 1)) t (wmul t.cap 2)
        = dhRehash cl putEntry t (wmul t.cap 2))
      ∧ ∀ p raw size, p ≠ 0 → (t.Full → cl.grants (2 * t.cap) = true) →
        ∃ t', dhPut cl 64 t p raw size = some t' := by
  have hstart : h.tab = ⟨fun _ => DhEntry.blank, 64, 0⟩ := by
    unfold hfDebugHeapCreate at hc
    split at hc
    · rw [← Option.some.inj hc]
    · exact absurd hc (by simp)
  rw [hstart] at hrun
  have hinv := PutsInv.of_run (PutsInv.start cl) hrun
  have htab := hinv.tab
  obtain ⟨k, -, -, hk⟩ := htab.order
  have hload := htab.load
  refine ⟨⟨k, hk⟩, htab.count_users, by omega, ?_, fun i hi hu => htab.path hi hu, hinv.find_iff,
    fun p i => hinv.find, fun p hp => htab.probe_returns hp, dhRehash_flat cl htab,
    fun p raw size hp hg => dhPut_returns htab hp hg raw size⟩
  intro a ha
  have hu := hinv.keys a ha
  obtain ⟨i, hf⟩ := (hinv.find_iff a.user).mpr ⟨a, ha, rfl⟩
  refine ⟨i, (dhFind_eq_some htab hu).mp hf, ?_⟩
  rintro j ⟨hj, hju⟩
  have hfj := (dhFind_eq_some htab hu).mpr ⟨hj, hju⟩
  rw [hf] at hfj
  exact (Option.some.inj hfj).symm

theorem table_of_one_put :
    ∃ t i, Steps (PutStep grantAll) ⟨fun _ => DhEntry.blank, 64, 0⟩ [⟨4096, 4084, 8⟩] t
    ∧ dhFind t 4096 = some i ∧ t.table i = ⟨4096, 4084, 8, false⟩ := by
  have hc : hfDebugHeapCreate grantAll ()
    = some ⟨(), ⟨fun _ => DhEntry.blank, 64, 0⟩, ⟨0, 0, 0, 0, 0, 0⟩⟩ := rfl
  have hgrant : DhTable.Full ⟨fun _ => DhEntry.blank, 64, 0⟩ → grantAll.grants (2 * 64) = true :=
    fun _ => by decide +kernel
  obtain ⟨t, ht⟩ := dhPut_returns (PutsInv.start grantAll).tab (p := 4096) (by omega) hgrant 4084 8
  have hrun : Steps (PutStep grantAll) ⟨fun _ => DhEntry.blank, 64, 0⟩
      ([] ++ [⟨4096, 4084, 8⟩]) t :=
    Steps.snoc (Steps.nil _) ⟨by decide, ht⟩
  obtain ⟨-, -, -, -, -, hfind, hlast, -⟩ := table_of_puts hc hrun
  obtain ⟨i, hi⟩ := (hfind 4096).mpr ⟨⟨4096, 4084, 8⟩, List.mem_singleton_self _, rfl⟩
  obtain ⟨a, ha, he⟩ := hlast 4096 i hi
  obtain rfl : (⟨4096, 4084, 8⟩ : Put) = a := Option.some.inj ha
  exact ⟨t, i, hrun, hi, he⟩

end HeapForge.DebugHeap
