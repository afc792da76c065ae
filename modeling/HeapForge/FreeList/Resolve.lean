import HeapForge.FreeList.Walk

/-!
# Finding the header of a pointer

`fl_deallocate` takes the sixteen bytes in front of a pointer for its header if they look like
one, and otherwise follows the distance stored in the last eight of them.  For a pointer with an
alignment above 16 those bytes are payload of earlier owners of the memory.

* `header_recovery`         in every state reached, a free of a live pointer finds the header that
                            was reserved for it exactly if its alignment is at most 16 or the
                            bytes in front of it do not look like a used header;
* `header_recovery_fooled`  a run in which an earlier owner has left such bytes.
-/

set_option linter.unusedSectionVars false
set_option linter.unusedVariables false

namespace HeapForge.FreeList
open Lib

/-- nothing in front of the pointer is taken for a header -/
def Resolvable (a : FlAlloc) (e : Live) : Prop :=
  e.align ≤ 16 ∨ plausibleHeader a (e.ptr - 16) = false

/-- steps of a run in which every free so far found its header -/
def CarefulStep (s : Sys) (act : FlAct) (s' : Sys) : Prop :=
  FlStep s act s' ∧ act.Requests ∧ ∀ e ∈ s.live, act = .free e.ptr → Resolvable s.a e

section
variable {s s' : Sys} {act : FlAct}

theorem careful_step (h : ∃ bs ring, SysInv s bs ring ∧ s.a.stats.used ≤ s.a.stats.peakUsed)
    (hstep : CarefulStep s act s') :
    ∃ bs ring, SysInv s' bs ring ∧ s'.a.stats.used ≤ s'.a.stats.peakUsed := by
  obtain ⟨bs, ring, hsys, hle⟩ := h
  obtain ⟨hst, hreq, hres⟩ := hstep
  obtain ⟨bs', ring', hsys', -, hp, -⟩ := hsys.step hle hst hreq fun e he hact =>
    (resolveHeader_iff hsys.inv (hsys.live e he)).mpr (hres e he hact)
  have hp' : s'.a.stats.peakUsed = max s.a.stats.peakUsed s'.a.stats.used := hp
  exact ⟨bs', ring', hsys', by omega⟩

/-- the invariant along such runs -/
theorem SysInv.of_careful {vm : Vm} {handle : Bool} {m : Mem} {capacity : Nat} {policy : FitPolicy}
    {a : FlAlloc} {acts : List FlAct}
    (hcreate : hfFreeListCreate vm handle m capacity policy = some a)
    (hrun : Steps CarefulStep (Sys.start a) acts s) : ∃ bs ring, SysInv s bs ring := by
  have hinv : ∃ bs ring, SysInv s bs ring ∧ s.a.stats.used ≤ s.a.stats.peakUsed := by
    refine hrun.invariant (I := fun s => ∃ bs ring, SysInv s bs ring
      ∧ s.a.stats.used ≤ s.a.stats.peakUsed) ?_ fun _ _ _ h hs => careful_step h hs
    obtain ⟨bs, ring, hsys, hu, hp⟩ := create_inv hcreate
    exact ⟨bs, ring, hsys, by show a.stats.used ≤ a.stats.peakUsed; omega⟩
  obtain ⟨bs, ring, hsys, -⟩ := hinv
  exact ⟨bs, ring, hsys⟩

end

/-- **Header recovery.**  In every state that a run can reach, the header that `fl_deallocate`
finds for a live pointer is the one `fl_allocate` reserved if and only if the bytes in front of
the pointer are not taken for a header. -/
theorem header_recovery {vm : Vm} {handle : Bool} {m : Mem} {capacity : Nat} {policy : FitPolicy}
    {a : FlAlloc} {acts : List FlAct} {s : Sys}
    (hcreate : hfFreeListCreate vm handle m capacity policy = some a)
    (hrun : Steps CarefulStep (Sys.start a) acts s) :
    ∀ e ∈ s.live, resolveHeader s.a e.ptr = e.hdr ↔ Resolvable s.a e := by
  intro e he
  obtain ⟨bs, ring, hsys⟩ := SysInv.of_careful hcreate hrun
  exact resolveHeader_iff hsys.inv (hsys.live e he)

/-! ## a clean and a fooled run -/

theorem overAligned_sample : OverAligned 100 64 := ⟨6, by omega, by omega, rfl, by omega⟩

/-- a request for 100 bytes at a multiple of 64, in untouched memory -/
def cleanState : Sys :=
  let a := ((flAllocate sampleHeap 100 64).getD (0, sampleHeap)).2
  ⟨a, [⟨2 ^ 20 + 64, 2 ^ 20, 64⟩], [a, sampleHeap]⟩

theorem clean_alloc : CarefulStep (Sys.start sampleHeap) (.alloc 100 64) cleanState := by
  have h1 : (flAllocate sampleHeap 100 64).map Prod.fst = some (2 ^ 20 + 64) := by decide +kernel
  have h2 : (flReserve sampleHeap (flNeed 100 64)).map Prod.fst = some (2 ^ 20) := by decide +kernel
  exact ⟨FlStep.alloc (s := Sys.start sampleHeap) (by omega) (by omega)
    (eq_some_of_fst sampleHeap h1) (by omega) (eq_some_of_fst sampleHeap h2),
    Or.inr overAligned_sample, by simp [Sys.start]⟩

theorem header_recovery_clean :
    resolveHeader cleanState.a (2 ^ 20 + 64) = 2 ^ 20
      ↔ Resolvable cleanState.a ⟨2 ^ 20 + 64, 2 ^ 20, 64⟩ :=
  header_recovery sampleHeap_create (Steps.snoc (Steps.nil _) clean_alloc) ⟨2 ^ 20 + 64, 2 ^ 20, 64⟩
    (List.mem_singleton.mpr rfl)

/-- the first owner leaves the byte `0x21` at offset 48: the size 32 with the used bit -/
def fooledWritten : FlAlloc := sampleTaken.writeByte (2 ^ 20 + 48) 0x21#8
def fooledFreed : FlAlloc := (flDeallocate fooledWritten (2 ^ 20 + 16)).getD sampleHeap
def fooledTaken : FlAlloc := ((flAllocate fooledFreed 100 64).getD (0, sampleHeap)).2

def fooledState : Sys :=
  ⟨fooledTaken, [⟨2 ^ 20 + 64, 2 ^ 20, 64⟩],
    [fooledTaken, fooledFreed, fooledWritten, sampleTaken, sampleHeap]⟩

theorem fooled_run : Steps CarefulStep (Sys.start sampleHeap)
    [.alloc 200 16, .write (2 ^ 20 + 48) 0x21#8, .free (2 ^ 20 + 16), .alloc 100 64]
    fooledState := by
  have hsz : hdrSize sampleTaken.heap (2 ^ 20) = 224 := by decide +kernel
  have h1 : (flDeallocate fooledWritten (2 ^ 20 + 16)).isSome = true := by decide +kernel
  have h2 : (flAllocate fooledFreed 100 64).map Prod.fst = some (2 ^ 20 + 64) := by decide +kernel
  have h3 : (flReserve fooledFreed (flNeed 100 64)).map Prod.fst = some (2 ^ 20) := by
    decide +kernel
  have hfreed : flDeallocate fooledWritten (2 ^ 20 + 16) = some fooledFreed := by
    obtain ⟨a, ha⟩ := Option.isSome_iff_exists.mp h1
    unfold fooledFreed
    rw [ha]
    rfl
  have s1 : CarefulStep (Sys.start sampleHeap) (.alloc 200 16) sampleState :=
    ⟨sample_alloc, Or.inl (le_refl 16), by simp [Sys.start]⟩
  have s2 : CarefulStep sampleState (.write (2 ^ 20 + 48) 0x21#8)
      ⟨fooledWritten, sampleState.live, fooledWritten :: sampleState.past⟩ := by
    refine ⟨FlStep.write (s := sampleState) (e := ⟨2 ^ 20 + 16, 2 ^ 20, 16⟩) ?_ ?_ ?_, trivial, ?_⟩
    · exact List.mem_singleton_self _
    · show 2 ^ 20 + 16 ≤ 2 ^ 20 + 48
      omega
    · show 2 ^ 20 + 48 < 2 ^ 20 + hdrSize sampleTaken.heap (2 ^ 20)
      omega
    · intro e _ h
      exact absurd h (by simp)
  have s3 : CarefulStep ⟨fooledWritten, sampleState.live, fooledWritten :: sampleState.past⟩
      (.free (2 ^ 20 + 16))
        ⟨fooledFreed, [], [fooledFreed, fooledWritten, sampleTaken, sampleHeap]⟩ := by
    refine ⟨FlStep.free (s := ⟨fooledWritten, sampleState.live, _⟩)
      (e := ⟨2 ^ 20 + 16, 2 ^ 20, 16⟩) (List.mem_singleton_self _) hfreed, trivial, ?_⟩
    intro e he _
    obtain rfl := List.mem_singleton.mp he
    exact Or.inl (le_refl 16)
  have s4 : CarefulStep ⟨fooledFreed, [], [fooledFreed, fooledWritten, sampleTaken, sampleHeap]⟩
      (.alloc 100 64) fooledState :=
    ⟨FlStep.alloc (s := ⟨fooledFreed, [], _⟩) (by omega) (by omega) (eq_some_of_fst sampleHeap h2)
      (by omega) (eq_some_of_fst sampleHeap h3), Or.inr overAligned_sample, by simp⟩
  exact (((Steps.nil _).snoc s1).snoc s2).snoc s3 |>.snoc s4

/-- **A fooled free.**  The pointer at offset 64 belongs to the block at offset 0, and its free
resolves to offset 48. -/
theorem header_recovery_fooled :
    Steps CarefulStep (Sys.start sampleHeap)
      [.alloc 200 16, .write (2 ^ 20 + 48) 0x21#8, .free (2 ^ 20 + 16), .alloc 100 64] fooledState
    ∧ (⟨2 ^ 20 + 64, 2 ^ 20, 64⟩ : Live) ∈ fooledState.live
    ∧ resolveHeader fooledState.a (2 ^ 20 + 64) = 2 ^ 20 + 48 :=
  ⟨fooled_run, List.mem_singleton_self _, by decide +kernel⟩

end HeapForge.FreeList
