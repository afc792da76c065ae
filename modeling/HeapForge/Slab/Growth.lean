import HeapForge.Slab.Run

/-!
# A slab allocator that cannot grow

`sl_grow` cuts the new memory into slots and links them into the central list before it makes room
in the array of slabs.  If there is no room, the memory goes back to the system and its slots stay
behind.

* `GrowFails`            memory was given, the array is full, and `realloc` fails;
* `slGrow_kept_iff`      **a growth that is not recorded changes nothing, unless it failed so;**
* `slots_pos_of_run`     a slab has slots, in every run;
* `failed_growth_iff`    that in every run, and what a request does then;
* `released_slot`        a request that is given a slot of released memory.
-/

set_option linter.unusedSectionVars false
set_option linter.unusedVariables false

namespace HeapForge.Slab
open Lib Function

/-- memory was given, the array of slabs is full, and there is no memory for a larger one -/
def GrowFails (os : Os) (c : Call) : Prop :=
  os.mem ≠ 0 ∧ c.a.slabCount = c.a.slabCap ∧ os.realloc = false

section
variable {os : Os} {c : Call} {s s' : Sys} {act : Act} {a : SlAlloc} {t id size n : Nat}

/-! ## one growth -/

/-- what is left behind -/
theorem slGrow_of_fails (h : GrowFails os c) :
    slGrow os c =
      { c with
        a := { c.a with centralFree :=
          (linkLoop os.mem c.a.objSize c.a.slotsPerSlab (c.heap, c.a.centralFree)).2 }
        heap := (linkLoop os.mem c.a.objSize c.a.slotsPerSlab (c.heap, c.a.centralFree)).1 } := by
  obtain ⟨h1, h2, h3⟩ := h
  rw [slGrow, if_neg h1]
  dsimp only
  split
  · rw [if_neg (by rw [h3]; decide)]
  · next hroom => exact absurd h2 hroom

/-- a growth that does not fail so gives nothing, or is recorded -/
theorem slGrow_of_not_fails (h : ¬ GrowFails os c) :
    (os.mem = 0 ∧ slGrow os c = c) ∨ (slGrow os c).a.slabs = c.a.slabs ++ [os.mem] := by
  by_cases hmem : os.mem = 0
  · rw [slGrow, if_pos hmem]
    exact Or.inl ⟨hmem, rfl⟩
  · obtain ⟨cap, e⟩ := slGrow_eq (c := c) hmem fun hfull => by
      by_contra hno
      exact h ⟨hmem, hfull, Bool.eq_false_of_not_eq_true hno⟩
    rw [e]
    exact Or.inr rfl

/-- **A growth that is not recorded changes nothing, exactly if it did not fail for lack of room in
the array.**  `sl_refill` calls `sl_grow` only with an empty list. -/
theorem slGrow_kept_iff (hcf : c.a.centralFree = 0) (hpos : 0 < c.a.slotsPerSlab)
    (hlt : os.mem < 2 ^ 64) :
    ((slGrow os c).a.slabs = c.a.slabs → slGrow os c = c) ↔ ¬ GrowFails os c := by
  constructor
  · intro hkept hfail
    have hc := slGrow_of_fails hfail
    have hsame : slGrow os c = c := hkept (by rw [hc])
    have hhead : (slGrow os c).a.centralFree = os.mem := by
      rw [hc]
      exact linkLoop_head hlt hpos
    rw [hsame, hcf] at hhead
    exact hfail.1 hhead.symm
  · intro hno hslabs
    rcases slGrow_of_not_fails hno with ⟨-, e⟩ | e
    · exact e
    · rw [e] at hslabs
      exact absurd hslabs (by simp)

/-! ## slabs have slots -/

theorem slGrow_slotsPerSlab (os : Os) (c : Call) :
    (slGrow os c).a.slotsPerSlab = c.a.slotsPerSlab := by
  rw [slGrow]
  dsimp only
  split
  · rfl
  · split
    · split <;> rfl
    · rfl

theorem slAllocate_slotsPerSlab (os : Os) (c : Call) (size : Nat) :
    (slAllocate os c size).2.a.slotsPerSlab = c.a.slotsPerSlab := by
  have hpop : ∀ c : Call, (popMagazine c).2.a.slotsPerSlab = c.a.slotsPerSlab := by
    intro c
    rw [popMagazine]
    split <;> rfl
  have hrefill : ∀ c : Call, (slRefill os c).a.slotsPerSlab = c.a.slotsPerSlab := by
    intro c
    have hgrow : (if c.a.centralFree = 0 then slGrow os c else c).a.slotsPerSlab
        = c.a.slotsPerSlab := by
      split
      · exact slGrow_slotsPerSlab os c
      · rfl
    unfold slRefill
    generalize (if c.a.centralFree = 0 then slGrow os c else c) = d at hgrow ⊢
    by_cases hd : d.a.centralFree = 0
    · rw [if_pos hd]
      exact hgrow
    · rw [if_neg hd]
      dsimp only [takeBatch]
      exact hgrow
  rw [slAllocate]
  dsimp only
  split
  · rfl
  · rw [hpop]
    split
    · exact hrefill _
    · rfl

def SlotsPos (s : Sys) : Prop := ∀ id a, s.sl id = some a → 0 < a.slotsPerSlab

/-- an allocator is put in the place of another -/
theorem SlotsPos.put (h : SlotsPos s) (hsl : s'.sl = update s.sl id (some a))
    (ha : 0 < a.slotsPerSlab) :
    SlotsPos s' := by
  intro j b hb
  rw [hsl] at hb
  by_cases hj : j = id
  · rw [hj, update_self] at hb
    exact Option.some.inj hb ▸ ha
  · rw [update_of_ne hj] at hb
    exact h j b hb

theorem SlotsPos.step (h : SlotsPos s) (hs : Step s act s') : SlotsPos s' := by
  cases hs with
  | create hcr => exact h.put rfl (hfSlabCreate_spec hcr).1.slots_pos
  | alloc ha _ =>
    refine h.put rfl ?_
    rw [slAllocate_slotsPerSlab]
    exact h _ _ ha
  | @free t id x a ha _ =>
    refine h.put rfl ?_
    rw [slDeallocate]
    split <;> exact h id a ha
  | @destroy id a ha =>
    intro j b hb
    have hb' : update s.sl id none j = some b := hb
    by_cases hj : j = id
    · rw [hj, update_self] at hb'
      exact absurd hb' (by simp)
    · rw [update_of_ne hj] at hb'
      exact h j b hb'
  | write _ _ _ => exact h

theorem slots_pos_of_run {acts : List Act} (hrun : Steps Step Sys.init acts s)
    (ha : s.sl id = some a) :
    0 < a.slotsPerSlab := by
  have h : SlotsPos s := hrun.invariant (I := SlotsPos) (fun _ _ h => absurd h (by simp [Sys.init]))
    fun _ _ _ h hs => h.step hs
  exact h id a ha

/-! ## a request after it -/

/-- with empty lists a growth that is not recorded leaves nothing to give -/
theorem slAllocate_no_slot (hmag : c.mag = 0) (hcf : c.a.centralFree = 0)
    (hkept : (slGrow os c).a.slabs = c.a.slabs) (hno : size ≤ c.a.objSize → ¬ GrowFails os c) :
    slAllocate os c size = (0, { c with a := countFailed (countAlloc c.a) }) := by
  rw [slAllocate]
  dsimp only
  by_cases hsize : size > (countAlloc c.a).objSize
  · rw [if_pos hsize]
  · -- no memory was given, so the refill finds the lists as they were
    have hmem : os.mem = 0 := by
      rcases slGrow_of_not_fails (hno (Nat.le_of_not_lt hsize)) with ⟨h0, -⟩ | e
      · exact h0
      · rw [e] at hkept
        exact absurd hkept (by simp)
    have hrefill : slRefill os { c with a := countAlloc c.a } = { c with a := countAlloc c.a } := by
      rw [slRefill, slGrow, if_pos hmem]
      dsimp only
      rw [ite_self, if_pos (show (countAlloc c.a).centralFree = 0 from hcf)]
    rw [if_neg hsize, if_pos hmag, hrefill, popMagazine, if_pos hmag]

end

/-- **Growing is all or nothing, unless the array of slabs cannot be enlarged.**  In every state of
every run, a growth that is not recorded leaves everything as it was exactly if it did not fail in
that way, and a request that finds no slot and no memory returns `NULL` and changes the two counters
only.  In a run of calls that are careful about it, a pointer returned is a slot of a slab that is
recorded. -/
theorem failed_growth_iff {acts : List Act} {s : Sys} {t id : Nat} {a : SlAlloc} {os : Os}
    (hrun : Steps Step Sys.init acts s) (ha : s.sl id = some a)
    (hos : os.mem ≠ 0 → Fresh s.shape os.mem a.slabBytes) :
    (a.centralFree = 0 →
      (((slGrow os (s.call t a)).a.slabs = a.slabs → slGrow os (s.call t a) = s.call t a)
        ↔ ¬ GrowFails os (s.call t a)))
    ∧ (∀ size, s.mag t = 0 → a.centralFree = 0 → (slGrow os (s.call t a)).a.slabs = a.slabs →
      (size ≤ a.objSize → ¬ GrowFails os (s.call t a)) →
      slAllocate os (s.call t a) size = (0, { s.call t a with a := countFailed (countAlloc a) }))
    ∧ (Steps CarefulStep Sys.init acts s → ∀ size, Careful s (.alloc t id size os) →
      (s.mag t = 0 → a.centralFree = 0 → size ≤ a.objSize → ¬ GrowFails os (s.call t a))
      ∧ ((slAllocate os (s.call t a) size).1 ≠ 0 →
        ∃ b ∈ (slAllocate os (s.call t a) size).2.a.slabs, b ≤ (slAllocate os (s.call t a) size).1
          ∧ (slAllocate os (s.call t a) size).1 + a.objSize ≤ b + a.slabBytes)) := by
  refine ⟨fun hcf => ?_, fun size hmag hcf hkept hno => ?_, fun hcareful size hc => ⟨?_, ?_⟩⟩
  · have hlt : os.mem < 2 ^ 64 := by
      by_cases hmem : os.mem = 0
      · omega
      · have := (hos hmem).base.2.2
        omega
    exact slGrow_kept_iff (c := s.call t a) hcf (slots_pos_of_run hrun ha) hlt
  · exact slAllocate_no_slot (c := s.call t a) hmag hcf hkept hno
  · rintro hmag hcf hsize ⟨hmem, hfull, hre⟩
    rw [(hc a ha hsize).2 hmag hcf hmem hfull] at hre
    exact absurd hre (by simp)
  · intro hp
    obtain ⟨L, hL⟩ := SysInv.of_run hcareful
    obtain ⟨⟨b, hb, i, -, hi, hend⟩, -⟩ := hL.returned ha hos hc hp
    exact ⟨b, hb, by omega, hend⟩

theorem failed_growth_no_memory :
    slGrow noOs (sampleOne.call 0 sampleSlab) = sampleOne.call 0 sampleSlab
      ∧ slAllocate noOs (sampleOne.call 0 sampleSlab) 100
        = (0, { sampleOne.call 0 sampleSlab with a := countFailed (countAlloc sampleSlab) }) := by
  have hrun : Steps Step Sys.init [.create sampleVm true 2048 4096] sampleOne :=
    (Steps.nil _).snoc (.create sampleSlab_create)
  have hos : noOs.mem ≠ 0 → Fresh sampleOne.shape noOs.mem sampleSlab.slabBytes :=
    fun h => absurd rfl h
  have hkept : (slGrow noOs (sampleOne.call 0 sampleSlab)).a.slabs = sampleSlab.slabs := by
    decide +kernel
  obtain ⟨h1, h2, -⟩ := failed_growth_iff (t := 0) hrun
    (show sampleOne.sl 0 = some sampleSlab from rfl) hos
  exact ⟨(h1 rfl).mpr (fun h => h.1 rfl) hkept, h2 100 rfl rfl hkept fun _ h => h.1 rfl⟩

/-- a slab at address 2^20, but no memory for the array -/
def shortOs : Os := ⟨2 ^ 20, false⟩

/-- **The slots of memory that was given back stay in the list**, and a request takes one of
them. -/
theorem released_slot :
    Steps Step Sys.init [.create sampleVm true 2048 4096] sampleOne
      ∧ Fresh sampleOne.shape shortOs.mem sampleSlab.slabBytes
      ∧ (slGrow shortOs (sampleOne.call 0 sampleSlab)).a.slabs = sampleSlab.slabs
      ∧ sampleSlab.centralFree = 0
      ∧ (slGrow shortOs (sampleOne.call 0 sampleSlab)).a.centralFree = 2 ^ 20
      ∧ (slAllocate shortOs (sampleOne.call 0 sampleSlab) 100).1 = 2 ^ 20
      ∧ (slAllocate shortOs (sampleOne.call 0 sampleSlab) 100).2.a.slabs = [] :=
  ⟨(Steps.nil _).snoc (.create sampleSlab_create),
  sampleOne_fresh, by decide +kernel, rfl, by decide +kernel,
    by decide +kernel, by decide +kernel⟩

end HeapForge.Slab
