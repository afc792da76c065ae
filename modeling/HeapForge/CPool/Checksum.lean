import HeapForge.CPool.Bytes

/-!
# What the checksums detect

A metadata slot and a log record are 24 bytes: sixteen that are checksummed, then the checksum.  So
one condition, `Sealed`, says of both that `recover` takes them.

* `Damaged`            one checksummed byte differs, or the stored checksum alone;
* `Damaged.unsealed`   such a place is not sealed if it was before;
* `damage_rejected`    **`recover` takes no damaged record and no damaged slot, nor a blank one.**
-/

set_option linter.unusedSectionVars false
set_option linter.unusedVariables false

namespace HeapForge.CPool
open Lib

/-- the checksum behind the sixteen bytes at `a` is theirs -/
def Sealed (f : Mem) (a : Nat) : Prop := f.load64 (a + 16) = fnv1a (f.bytes a 16)

/-- how the 24 bytes at `a` changed -/
inductive Damaged (f f' : Mem) (a : Nat) : Prop
  /-- exactly one byte, a checksummed one -/
  | byte (x : Nat) (hx : a ≤ x ∧ x < a + 16) (h : ∀ y, a ≤ y → y < a + 24 → (f' y ≠ f y ↔ y = x))
  /-- some of the bytes of the checksum, and no other -/
  | crc (x : Nat) (hx : a + 16 ≤ x ∧ x < a + 24) (hne : f' x ≠ f x)
    (h : ∀ y, a ≤ y → y < a + 16 → f' y = f y)

section
variable {f f' : Mem} {a i k : Nat} {g : Layout} {b : Fin 2}

theorem readSlot_valid_iff : (readSlot f b).Valid ↔ Sealed f (slotAt b) := by
  show f.load64 (slotAt b + 16)
    = fnv1a (leBytes 8 (f.load (slotAt b) 8) ++ leBytes 8 (f.load (slotAt b + 8) 8)) ↔ _
  rw [Mem.leBytes_load, Mem.leBytes_load, ← Mem.bytes_add]
  exact Iff.rfl

theorem readRecord_valid_iff : (readRecord g f k).Valid ↔ Sealed f (recordAt g k) := by
  show f.load64 (recordAt g k + 16)
    = fnv1a (leBytes 8 (f.load (recordAt g k) 8) ++ leBytes 4 (f.load (recordAt g k + 8) 4)
      ++ leBytes 4 (f.load (recordAt g k + 12) 4)) ↔ _
  rw [Mem.leBytes_load, Mem.leBytes_load, Mem.leBytes_load, ← Mem.bytes_add, ← Mem.bytes_add]
  exact Iff.rfl

/-- damage breaks the seal -/
theorem Damaged.unsealed (h : Damaged f f' a) (hs : Sealed f a) : ¬ Sealed f' a := by
  intro hs'
  cases h with
  | byte x hx h =>
    -- the stored checksum is the old one, the bytes are not
    have hcrc : f'.load64 (a + 16) = f.load64 (a + 16) := by
      refine Mem.load_congr fun y h1 h2 => ?_
      by_contra hne
      have := (h y (by omega) (by omega)).mp hne
      omega
    have hone : OneOff (f.bytes a 16) (f'.bytes a 16) :=
      Mem.bytes_oneOff hx fun y h1 h2 => h y h1 (by omega)
    apply fnv1a_ne_of_oneOff (f.bytes_lt a 16) (f'.bytes_lt a 16) hone
    rw [← hs, ← hs', hcrc]
  | crc x hx hne h =>
    have hload : f'.load64 (a + 16) = f.load64 (a + 16) := by
      rw [hs, hs', Mem.bytes_congr h]
    exact hne (Mem.load_inj hload x hx.1 (by omega))

theorem replayStep_of_invalid {r : Session.Replay} {s : Nat}
    (h : ¬ (readRecord r.pool.geo r.pool.file (s % WAL_ENTRIES)).Valid) :
    Session.replayStep r s = r := by
  unfold Session.replayStep
  dsimp only
  rw [if_pos (Or.inr h)]

/-- the second slot of a new file -/
theorem createdFile_blank_slot (g : Layout) :
    (image g (createdFile g)).metaSlots 1 = ⟨0, 0, 0⟩ := by
  have hload : ∀ a, 80 ≤ a → (createdFile g).load a 8 = 0 := by
    intro a ha
    rw [← Mem.load_zero a 8]
    exact Mem.load_congr fun x hx _ => Mem.storeFields_of_notMem (Or.inr (le_trans ha hx))
  show (⟨(createdFile g).load 80 8, (createdFile g).load 88 8, (createdFile g).load 96 8⟩ :
    MetaSlot) = _
  rw [hload _ (by decide), hload _ (by decide), hload _ (by decide)]

end

/-- **What the checksum detects.**  Strings of bytes that differ in one position hash differently,
and so do strings behind whose differing hashes the same bytes follow.  A damaged record is skipped
by the replay loop at every visit, a damaged slot is not taken as watermark, and neither is a blank
slot, such as the second one of a new file. -/
theorem damage_rejected :
    (∀ l l' : List Nat, (∀ b ∈ l, b < 256) → (∀ b ∈ l', b < 256) → OneOff l l' → fnv1a l ≠ fnv1a l')
      ∧ (∀ l l' s : List Nat, (∀ b ∈ s, b < 256) → fnv1a l ≠ fnv1a l' →
        fnv1a (l ++ s) ≠ fnv1a (l' ++ s))
      ∧ (∀ (f : Mem) (r : Session.Replay) (s : Nat),
          (readRecord r.pool.geo f (s % WAL_ENTRIES)).Valid →
          Damaged f r.pool.file (recordAt r.pool.geo (s % WAL_ENTRIES)) →
          Session.replayStep r s = r)
      ∧ (∀ (g : Layout) (f f' : Mem) (i : Fin 2), (readSlot f i).Valid → Damaged f f' (slotAt i) →
          ∀ best, pickMeta (image g f') best i = best)
      ∧ (∀ (img : Image) (i : Fin 2), img.metaSlots i = ⟨0, 0, 0⟩ →
        ∀ best, pickMeta img best i = best)
      ∧ ∀ g : Layout, (image g (createdFile g)).metaSlots 1 = ⟨0, 0, 0⟩ := by
  refine ⟨fun l l' h1 h2 => fnv1a_ne_of_oneOff h1 h2, fun l l' s => fnv1a_append_ne, ?_, ?_, ?_,
    createdFile_blank_slot⟩
  · intro f r s hv hd
    apply replayStep_of_invalid
    rw [readRecord_valid_iff] at hv ⊢
    exact hd.unsealed hv
  · intro g f f' i hv hd best
    apply pickMeta_of_invalid
    show ¬ (readSlot f' i).Valid
    rw [readSlot_valid_iff] at hv ⊢
    exact hd.unsealed hv
  · intro img i hz best
    apply pickMeta_of_invalid
    rw [hz]
    exact blankSlot_invalid

/-- a slot with a watermark of 7 -/
def sealedFile : Mem := Mem.zero.storeFields 56 [(8, 7), (8, 3), (8, metaCrc ⟨7, 3, 0⟩)]

/-- it is taken, but not if the fifth byte of the watermark is changed -/
theorem damage_rejected_one_byte : (readSlot sealedFile 0).Valid
    ∧ ∀ g best, pickMeta (image g (sealedFile.setByte 60 1#8)) best 0 = best := by
  have hv : (readSlot sealedFile 0).Valid := by decide +kernel
  have hold : sealedFile 60 = 0#8 := by decide +kernel
  have hdamage : Damaged sealedFile (sealedFile.setByte 60 1#8) (slotAt 0) := by
    refine Damaged.byte 60 (by decide) fun y _ _ => ?_
    show (if y = 60 then 1#8 else sealedFile y) ≠ sealedFile y ↔ y = 60
    by_cases hy : y = 60
    · rw [if_pos hy, hy, hold]
      decide
    · rw [if_neg hy]
      exact iff_of_false (fun h => h rfl) hy
  obtain ⟨-, -, -, hslot, -⟩ := damage_rejected
  exact ⟨hv, fun g best => hslot g sealedFile _ 0 hv hdamage best⟩

end HeapForge.CPool
