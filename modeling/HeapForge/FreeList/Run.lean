import HeapForge.Lib.Run
import HeapForge.FreeList.Invariant

/-!
# Runs of the free-list allocator

A state of the system is the allocator and the pointers that are live: for each of them the
header of the block that was reserved and the alignment asked for.  Users allocate, free live
pointers and write any byte of the payload of a live block.

* `Requests`       the calls the results are about: an alignment up to 16, or a larger power of
                   two with a size that does not wrap;
* `SysInv.step`    every such step keeps the invariant, provided a free finds its header;
* `representation_invariant`   the state of the heap along every run with alignments up to 16.
-/

set_option linter.unusedSectionVars false
set_option linter.unusedVariables false

namespace HeapForge.FreeList
open Lib

/-! ## the system -/

structure Live where
  ptr : Nat
  hdr : Nat
  align : Nat
  deriving DecidableEq

structure Sys where
  a : FlAlloc
  live : List Live
  /-- every allocator state so far, the present one first -/
  past : List FlAlloc

def Sys.start (a : FlAlloc) : Sys := ⟨a, [], [a]⟩

inductive FlAct
  | alloc (size alignment : Nat)
  | free (ptr : Nat)
  | write (addr : Nat) (byte : BitVec 8)

def FlAlloc.writeByte (a : FlAlloc) (x : Nat) (v : BitVec 8) : FlAlloc :=
  { a with heap := a.heap.setByte x v }

inductive FlStep : Sys → FlAct → Sys → Prop
  | fail {s : Sys} {size alignment : Nat} {a' : FlAlloc} :
      size < 2 ^ 64 → alignment < 2 ^ 64 → flAllocate s.a size alignment = some (0, a') →
      FlStep s (.alloc size alignment) ⟨a', s.live, a' :: s.past⟩
  | alloc {s : Sys} {size alignment p h : Nat} {a' a'' : FlAlloc} :
      size < 2 ^ 64 → alignment < 2 ^ 64 → flAllocate s.a size alignment = some (p, a') → p ≠ 0 →
      flReserve s.a (flNeed size alignment) = some (h, a'') →
      FlStep s (.alloc size alignment) ⟨a', ⟨p, h, alignment⟩ :: s.live, a' :: s.past⟩
  | free {s : Sys} {e : Live} {a' : FlAlloc} :
      e ∈ s.live → flDeallocate s.a e.ptr = some a' →
      FlStep s (.free e.ptr) ⟨a', s.live.erase e, a' :: s.past⟩
  | write {s : Sys} {e : Live} {x : Nat} {v : BitVec 8} :
      e ∈ s.live → e.ptr ≤ x → x < e.hdr + hdrSize s.a.heap e.hdr →
      FlStep s (.write x v) ⟨s.a.writeByte x v, s.live, s.a.writeByte x v :: s.past⟩

/-- a request for `size` bytes that asks for a larger alignment and does not wrap -/
def OverAligned (size alignment : Nat) : Prop :=
  ∃ k, 5 ≤ k ∧ k < 64 ∧ alignment = 2 ^ k ∧ size + 1 + alignment + 31 < 2 ^ 64

def FlAct.Requests : FlAct → Prop
  | .alloc size alignment => alignment ≤ 16 ∨ OverAligned size alignment
  | _ => True

/-! ## payload writes -/

section
variable {a : FlAlloc} {m : Mem} {bs act l₁ l₂ : List Blk} {ring : List Nat} {b c : Blk} {n x : Nat}

theorem Inv.not_payload_hdr (h : Inv a bs act ring) (hc : c ∈ bs) (h1 : c.addr ≤ x)
    (h2 : x < c.addr + 16) : ¬ UsedPayload act x := by
  rintro ⟨u, hu, -, h3, h4⟩
  have hge := c.size_ge
  have hug := u.size_ge
  by_cases e : u = c
  · subst e
    omega
  · have := h.heap.apart (h.sub u hu) hc e
    omega

theorem Inv.not_payload_node (h : Inv a bs act ring) (hn : n ∈ ring) (h1 : n ≤ x)
    (h2 : x < n + 16) : ¬ UsedPayload act x := by
  obtain ⟨c, hc, hf, rfl⟩ := (h.tied n).mp hn
  rintro ⟨u, hu, huu, h3, h4⟩
  have hge := c.size_ge
  have hne : u ≠ c := by
    rintro rfl
    rw [hf] at huu
    exact absurd huu (by simp)
  have := h.heap.apart (h.sub u hu) (h.sub c hc) hne
  omega

/-- whatever is written into payloads, headers and nodes stay as they are -/
theorem Inv.payload (h : Inv a bs act ring)
    (hs : Mem.SameOn (fun x => ¬ UsedPayload act x) a.heap m) :
    Inv { a with heap := m } bs act ring where
  heap := ⟨h.heap.mem_pos, h.heap.mem_mod, h.heap.bound, h.heap.seg.congr fun c hc =>
    ⟨hs.load64 fun y h1 h2 => h.not_payload_hdr hc h1 (by omega),
      hs.load64 fun y h1 h2 => h.not_payload_hdr hc (by omega) (by omega)⟩⟩
  list := h.list.congr rfl rfl fun n hn =>
    ⟨hs.load64 fun y h1 h2 => h.not_payload_node hn h1 (by omega),
      hs.load64 fun y h1 h2 => h.not_payload_node hn (by omega) (by omega)⟩
  tied := h.tied
  sub := h.sub
  used := h.used

end

/-! ## the block size and the pointer -/

section
variable {size alignment h s k : Nat}

theorem flNeed_ge (size alignment : Nat) : 32 ≤ flNeed size alignment := by
  unfold flNeed
  dsimp only
  generalize (if alignment > HF_DEFAULT_ALIGN then _ else _) = n
  split
  · exact le_refl 32
  · next hn => exact Nat.le_of_not_lt hn

theorem flNeed_mod (size alignment : Nat) : flNeed size alignment % 16 = 0 := by
  unfold flNeed
  dsimp only
  generalize (if alignment > HF_DEFAULT_ALIGN then _ else _) = n
  split
  · rfl
  · exact Nat.mod_eq_zero_of_dvd (hfAlignUp_dvd (k := 4) _ (by decide))

/-- without a wrap an over-aligned request reserves room for the header, the size and the
alignment -/
theorem flNeed_over (h5 : 5 ≤ k) (hw : max size 1 + 2 ^ k + 31 < 2 ^ 64) :
    16 + max size 1 + 2 ^ k ≤ flNeed size (2 ^ k) := by
  have h32 : 2 ^ 5 ≤ 2 ^ k := Nat.pow_le_pow_right (by norm_num) h5
  have hs : (if size = 0 then 1 else size) = max size 1 := by
    split <;> omega
  have hbig : 2 ^ k > HF_DEFAULT_ALIGN := by
    unfold HF_DEFAULT_ALIGN
    omega
  have hadd : wadd (max size 1) (2 ^ k) = max size 1 + 2 ^ k := wadd_of_lt (by omega)
  have hhdr : wadd FL_HDR (max size 1 + 2 ^ k) = 16 + (max size 1 + 2 ^ k) := by
    unfold FL_HDR
    exact wadd_of_lt (by omega)
  have hup := (hfAlignUp_bounds (n := 16 + (max size 1 + 2 ^ k)) (k := 4) (by omega) (by decide)).1
  unfold flNeed
  dsimp only
  rw [hs, if_pos hbig, hadd, hhdr]
  have hup' : 16 + (max size 1 + 2 ^ k)
    ≤ hfAlignUp (16 + (max size 1 + 2 ^ k)) HF_DEFAULT_ALIGN := hup
  rw [if_neg (by unfold FL_MIN; omega)]
  omega

/-- where the pointer of an over-aligned request for `n` bytes lies in its block of `s` bytes at
`h` -/
theorem over_place {n p : Nat} (h5 : 5 ≤ k) (h64 : k < 64) (h16 : h % 16 = 0)
    (hs : 16 + n + 2 ^ k ≤ s) (hlt : h + s < 2 ^ 64) (hp : p = hfAlignUp (h + 24) (2 ^ k)) :
    2 ^ k ∣ p ∧ p % 16 = 0 ∧ h + 32 ≤ p ∧ p + n ≤ h + s := by
  have h32 : 2 ^ 5 ∣ 2 ^ k := pow_dvd_pow 2 h5
  have h0 := Nat.two_pow_pos k
  have hup := hfAlignUp_bounds (n := h + 24) (k := k) (by omega) h64
  have hdvd := hfAlignUp_dvd (k := k) (h + 24) h64
  rw [← hp] at hup hdvd
  have hp32 : p % 32 = 0 := Nat.mod_eq_zero_of_dvd (h32.trans hdvd)
  have ha32 : 2 ^ k % 32 = 0 := Nat.mod_eq_zero_of_dvd h32
  -- what the rounding adds to `h + 16` is a multiple of 16
  exact ⟨hdvd, by omega, by omega, by omega⟩

theorem OverAligned.place (ho : OverAligned size alignment) (h16 : h % 16 = 0)
    (hs : flNeed size alignment ≤ s) (hlt : h + s < 2 ^ 64) {p : Nat}
    (hp : p = hfAlignUp (h + 24) alignment) :
    p % 16 = 0 ∧ h + 32 ≤ p ∧ p + max size 1 ≤ h + s := by
  obtain ⟨k, h5, h64, rfl, hw⟩ := ho
  have hge : 16 + max size 1 + 2 ^ k ≤ flNeed size (2 ^ k) := flNeed_over h5 (by omega)
  exact (over_place h5 h64 h16 (hge.trans hs) hlt hp).2

theorem flPlace_small {m : Mem} (ha : alignment ≤ 16) (hlt : h + 16 < 2 ^ 64) :
    flPlace m h alignment = (h + 16, m) := by
  have e : wadd h FL_HDR = h + 16 := wadd_of_lt hlt
  unfold flPlace
  rw [e]
  exact if_neg (by unfold HF_DEFAULT_ALIGN; omega)

theorem flPlace_over {m : Mem} {p : Nat} (ha : 16 < alignment) (hlt : h + 24 < 2 ^ 64)
    (hp : p = hfAlignUp (h + 24) alignment) (hp32 : h + 32 ≤ p) (hpl : p < 2 ^ 64) :
    flPlace m h alignment = (p, m.store64 (p - 8) (p - (h + 16))) := by
  have e : wadd h FL_HDR = h + 16 := wadd_of_lt (show h + 16 < 2 ^ 64 by omega)
  have e2 : wadd (h + 16) 8 = h + 24 := wadd_of_lt (by omega)
  unfold flPlace
  rw [e]
  dsimp only
  rw [if_pos (show alignment > HF_DEFAULT_ALIGN from ha), e2, ← hp, wsub_of_le (by omega) hpl,
    wsub_of_le (by omega) hpl]

end

/-! ## live pointers -/

/-- the entry's block is in the list, its pointer lies in the block and the way back is stored -/
structure LiveOk (a : FlAlloc) (bs : List Blk) (e : Live) : Prop where
  block : ∃ b ∈ bs, b.used = true ∧ b.addr = e.hdr ∧ e.ptr < e.hdr + b.size
  ge : e.hdr + 16 ≤ e.ptr
  small : e.align ≤ 16 → e.ptr = e.hdr + 16
  large : 16 < e.align → e.ptr % 16 = 0 ∧ e.hdr + 32 ≤ e.ptr
    ∧ a.heap.load64 (e.ptr - 8) = e.ptr - (e.hdr + 16)

structure SysInv (s : Sys) (bs : List Blk) (ring : List Nat) : Prop where
  inv : Inv s.a bs bs ring
  nodup : (s.live.map Live.hdr).Nodup
  live : ∀ e ∈ s.live, LiveOk s.a bs e

section
variable {a a' : FlAlloc} {bs bs' l₁ l₂ : List Blk} {ring : List Nat} {b : Blk} {e f : Live}
  {s s' : Sys} {act : FlAct}

/-- an entry survives when its block does and the payload is untouched -/
theorem LiveOk.keep (h : LiveOk a bs e) (hb : ∀ b ∈ bs, b.used = true → b.addr = e.hdr → b ∈ bs')
    (hs : ∀ b ∈ bs, b.used = true → b.addr = e.hdr → ∀ x, b.addr + 16 ≤ x → x < b.addr + b.size →
      x < e.ptr → a'.heap x = a.heap x) : LiveOk a' bs' e := by
  obtain ⟨⟨b, hbm, hu, ha, hlt⟩, hge, hsm, hov⟩ := h
  refine ⟨⟨b, hb b hbm hu ha, hu, ha, hlt⟩, hge, hsm, fun ho => ?_⟩
  obtain ⟨h1, h2, h3⟩ := hov ho
  refine ⟨h1, h2, ?_⟩
  rw [← h3]
  exact Mem.load_congr fun x h4 h5 => hs b hbm hu ha x (by omega) (by omega) (by omega)

theorem LiveOk.keep_payload (l₁ : List Blk) (h : LiveOk a bs e)
    (hb : ∀ b ∈ bs, b.used = true → b.addr = e.hdr → b ∈ l₁ ∧ b ∈ bs')
    (hs : Mem.SameOn (UsedPayload l₁) a.heap a'.heap) : LiveOk a' bs' e :=
  h.keep (fun b hbm hu ha => (hb b hbm hu ha).2) fun b hbm hu ha x h1 h2 _ =>
    hs x ⟨b, (hb b hbm hu ha).1, hu, h1, h2⟩

theorem plausible_of_used (h : Heap a bs) (hb : b ∈ bs) (hu : b.used = true) :
    plausibleHeader a b.addr = true := by
  obtain ⟨h16, hpos, hlo, hhi, hlt⟩ := h.place hb
  have hge := b.size_ge
  have hmod := b.size_mod
  unfold plausibleHeader
  rw [if_neg (by omega)]
  dsimp only
  rw [h.hdrSize hb, h.hdrUsed hb, hu, wadd_of_lt hlt]
  have h1 : FL_MIN ≤ b.size := hge
  have h2 : b.size % HF_DEFAULT_ALIGN = 0 := hmod
  simp [h1, h2, hhi]

/-- **Which header a free finds.**  With an alignment up to 16 it is the right one; above, it is
the right one exactly if the bytes in front of the pointer do not look like a used header. -/
theorem resolveHeader_iff (hi : Inv a bs bs ring) (h : LiveOk a bs e) :
    resolveHeader a e.ptr = e.hdr ↔ (e.align ≤ 16 ∨ plausibleHeader a (e.ptr - 16) = false) := by
  obtain ⟨⟨b, hbm, hu, ha, hlt⟩, hge, hsm, hov⟩ := h
  have hpl := (hi.heap.place hbm).2.2.2.2
  have e1 : wsub e.ptr FL_HDR = e.ptr - 16 := wsub_of_le (show 16 ≤ e.ptr by omega) (by omega)
  unfold resolveHeader
  rw [e1]
  dsimp only
  by_cases hal : e.align ≤ 16
  · have hp := hsm hal
    have hpb : e.ptr - 16 = b.addr := by omega
    rw [hpb, plausible_of_used hi.heap hbm hu, if_pos rfl]
    simp [hal, ha]
  · obtain ⟨h1, h2, h3⟩ := hov (by omega)
    cases hp : plausibleHeader a (e.ptr - 16) with
    | true =>
      rw [if_pos rfl]
      constructor
      · intro hcon
        omega
      · rintro (hcon | hcon)
        · exact absurd hcon hal
        · exact absurd hcon (by simp)
    | false =>
      have e2 : wsub e.ptr 8 = e.ptr - 8 := wsub_of_le (by omega) (by omega)
      have e3 : wsub e.ptr (e.ptr - (e.hdr + 16)) = e.hdr + 16 := by
        rw [wsub_of_le (by omega) (by omega)]
        omega
      have e4 : wsub (e.hdr + 16) FL_HDR = e.hdr := headerOf_add (by omega)
      simp only [Bool.false_eq_true, if_false, e2, h3, e3, e4]
      simp

/-- a free that finds its header succeeds -/
theorem flDeallocate_eq (hi : Inv a bs bs ring) (h : LiveOk a bs e)
    (hr : resolveHeader a e.ptr = e.hdr) :
    flDeallocate a e.ptr = some (flFreeBlock (countFree a) e.hdr) := by
  obtain ⟨⟨b, hbm, hu, ha, hlt⟩, hge, hsm, hov⟩ := h
  have hr' : resolveHeader (countFree a) e.ptr = e.hdr := hr
  have hused : hdrUsed (countFree a).heap e.hdr = true := by
    have := hi.heap.hdrUsed hbm
    rw [hu, ha] at this
    exact this
  unfold flDeallocate
  rw [if_neg (by omega)]
  dsimp only
  rw [hr', if_pos hused]

theorem SysInv.hdr_inj (h : SysInv s bs ring) (he : e ∈ s.live) (hf : f ∈ s.live)
    (heq : e.hdr = f.hdr) : e = f :=
  List.inj_on_of_nodup_map h.nodup he hf heq

theorem SysInv.of {live : List Live} {past : List FlAlloc} (hi : Inv a bs bs ring)
    (hn : (live.map Live.hdr).Nodup) (hl : ∀ e ∈ live, LiveOk a bs e) :
    SysInv ⟨a, live, past⟩ bs ring := ⟨hi, hn, hl⟩

/-! ## one step -/

theorem SysInv.free (h : SysInv s bs ring) (he : e ∈ s.live)
    (hr : resolveHeader s.a e.ptr = e.hdr) :
    ∃ a' bs' ring', flDeallocate s.a e.ptr = some a' ∧ a' = flFreeBlock (countFree s.a) e.hdr
      ∧ SysInv ⟨a', s.live.erase e, a' :: s.past⟩ bs' ring'
      ∧ usedSum bs' ≤ usedSum bs
      ∧ (∃ b, b.addr = e.hdr ∧ Gave bs bs' b)
      ∧ ∀ u ∈ bs', u.used = true → ∀ x, u.addr + 16 ≤ x → x < u.addr + u.size →
      a'.heap x = s.a.heap x := by
  have hok := h.live e he
  obtain ⟨b, hbm, hu, ha, hlt⟩ := hok.block
  have hcount : Inv (countFree s.a) bs bs ring := h.inv.withStats rfl
  obtain ⟨l₁, l₂, rfl⟩ := List.append_of_mem hbm
  obtain ⟨bs', ring', hinv, hgave, hkeep, hsum, hsame⟩ := hcount.freeBlock hu
  rw [ha] at hinv hsame
  have hnd : (s.live.erase e).Sublist s.live := List.erase_sublist
  refine ⟨flFreeBlock (countFree s.a) e.hdr, bs', ring', flDeallocate_eq h.inv hok hr, rfl,
    SysInv.of hinv ?_ ?_, ?_, ⟨b, ha, hgave⟩, fun u hum huu x h1 h2 => ?_⟩
  · exact h.nodup.sublist (hnd.map Live.hdr)
  · intro f hf
    have hfl : f ∈ s.live := hnd.subset hf
    have hlive : s.live.Nodup := List.Nodup.of_map _ h.nodup
    have hne : f ≠ e := fun eq => (List.Nodup.not_mem_erase hlive) (eq ▸ hf)
    refine (h.live f hfl).keep_payload (l₁ ++ l₂) (fun c hc hcu hca => ?_) hsame
    -- the block of another entry is another block
    have hcb : c ≠ b := by
      rintro rfl
      exact hne (h.hdr_inj hfl he (by omega))
    have hc' : c ∈ l₁ ++ l₂ := by
      rcases List.mem_append.mp hc with hc | hc
      · exact List.mem_append_left _ hc
      · exact List.mem_append_right _ (List.mem_of_ne_of_mem hcb hc)
    exact ⟨hc', (hkeep c hcu).mpr hc'⟩
  · rw [hsum, usedSum_middle_used hu]
    omega
  · exact hsame x ⟨u, (hkeep u huu).mp hum, huu, h1, h2⟩

theorem SysInv.write (h : SysInv s bs ring) (he : e ∈ s.live) {x : Nat} {v : BitVec 8}
    (h1 : e.ptr ≤ x) (h2 : x < e.hdr + hdrSize s.a.heap e.hdr) :
    SysInv ⟨s.a.writeByte x v, s.live, s.a.writeByte x v :: s.past⟩ bs ring := by
  obtain ⟨b, hbm, hu, ha, hlt⟩ := (h.live e he).block
  have hge := (h.live e he).ge
  have hsz := h.inv.heap.hdrSize hbm
  rw [ha] at hsz
  have hx : UsedPayload bs x := ⟨b, hbm, hu, by omega, by omega⟩
  have hsame : Mem.SameOn (fun y => ¬ UsedPayload bs y) s.a.heap (s.a.heap.setByte x v) :=
    Mem.sameOn_setByte fun y hy e => hy (e ▸ hx)
  refine ⟨h.inv.payload hsame, h.nodup, fun f hf => ?_⟩
  refine (h.live f hf).keep (fun c hc _ _ => hc) fun c hc hcu hca y h3 h4 h5 => ?_
  refine if_neg fun hyx => ?_
  subst hyx
  by_cases hcb : c = b
  · subst hcb
    have : f = e := h.hdr_inj hf he (by omega)
    subst this
    omega
  · have hcg := c.size_ge
    have := h.inv.heap.apart hc hbm hcb
    omega

/-- the pointer and the memory after a successful reservation of the block `u` -/
theorem SysInv.place {a₁ : FlAlloc} {u : Blk} {size alignment : Nat} (hi : Inv a₁ bs bs ring)
    (hu : u ∈ bs) (huu : u.used = true) (hsz : flNeed size alignment ≤ u.size)
    (hreq : alignment ≤ 16 ∨ OverAligned size alignment) :
    ∃ p m, flPlace a₁.heap u.addr alignment = (p, m) ∧ p ≠ 0
      ∧ Inv { a₁ with heap := m } bs bs ring
      ∧ LiveOk { a₁ with heap := m } bs ⟨p, u.addr, alignment⟩
      ∧ ∀ x, (x < u.addr ∨ u.addr + u.size ≤ x) → m x = a₁.heap x := by
  obtain ⟨h16, hpos, hlo, hhi, hlt⟩ := hi.heap.place hu
  have hge := u.size_ge
  by_cases hal : alignment ≤ 16
  · refine ⟨u.addr + 16, a₁.heap, flPlace_small hal (by omega), by omega, hi, ?_, fun _ _ => rfl⟩
    refine ⟨⟨u, hu, huu, rfl, ?_⟩, ?_, fun _ => rfl, ?_⟩
    · show u.addr + 16 < u.addr + u.size
      omega
    · show u.addr + 16 ≤ u.addr + 16
      omega
    · intro ho
      have ho' : 16 < alignment := ho
      omega
  · have ho := hreq.resolve_left hal
    obtain ⟨hp16, hp32, hpe⟩ := ho.place h16 hsz hlt rfl
    set p := hfAlignUp (u.addr + 24) alignment with hp
    have hpl := flPlace_over (m := a₁.heap) (by omega) (by omega) hp hp32 (by omega)
    have hout : ∀ x, (x < p - 8 ∨ p ≤ x) →
        (a₁.heap.store64 (p - 8) (p - (u.addr + 16))) x = a₁.heap x :=
      fun x hx => Mem.store64_of_notMem (by omega)
    refine ⟨p, _,
      hpl, by omega, hi.payload (fun x hx => hout x ?_), ?_, fun x hx => hout x (by omega)⟩
    · by_contra hcon
      exact hx ⟨u, hu, huu, by omega, by omega⟩
    · refine ⟨⟨u, hu, huu, rfl, ?_⟩, ?_, fun hs => ?_, fun _ => ⟨hp16, hp32, ?_⟩⟩
      · show p < u.addr + u.size
        omega
      · show u.addr + 16 ≤ p
        omega
      · have hs' : alignment ≤ 16 := hs
        omega
      · exact Mem.load64_store64_same (by omega)

/-- an allocation either fails and only counts, or it makes a new live pointer -/
theorem SysInv.alloc (h : SysInv s bs ring) (size : Nat) {alignment : Nat}
    (hreq : alignment ≤ 16 ∨ OverAligned size alignment) :
    (flAllocate s.a size alignment = some (0, countFailed (countAlloc s.a))
      ∧ ∀ b ∈ bs, b.used = false → b.size < flNeed size alignment)
    ∨ ∃ p hdr a' a'' bs' ring', flAllocate s.a size alignment = some (p, a') ∧ p ≠ 0
      ∧ flReserve s.a (flNeed size alignment) = some (hdr, a'')
      ∧ SysInv ⟨a', ⟨p, hdr, alignment⟩ :: s.live, a' :: s.past⟩ bs' ring'
      ∧ a'.stats.peakUsed = max s.a.stats.peakUsed a'.stats.used
      ∧ (∃ b u, u.addr = hdr ∧ Took bs bs' (flNeed size alignment) b u)
      ∧ Mem.SameOn (UsedPayload bs) s.a.heap a'.heap := by
  have hn1 := flNeed_ge size alignment
  have hn2 := flNeed_mod size alignment
  rcases h.inv.reserve hn1 hn2 with ⟨hr, hno⟩ |
      ⟨l₁, b, l₂, u, rest, a₁, ring', rfl, hf, hle, hcarve, huu, hua, hr, hinv, hsame, hpeak, -, -⟩
  · refine Or.inl ⟨?_, hno⟩
    unfold flAllocate
    rw [hr]
    rfl
  · have hum : u ∈ l₁ ++ u :: (rest ++ l₂) := by simp
    have hsz : flNeed size alignment ≤ u.size := by
      unfold Blk.carve at hcarve
      split at hcarve
      · rw [← (List.cons.inj hcarve).1]
        exact le_refl _
      · rw [← (List.cons.inj hcarve).1]
        exact hle
    obtain ⟨p, m, hpl, hp0, hinv', hok, hout⟩ := SysInv.place hinv hum huu hsz hreq
    have hu0 := (hinv.heap.place hum).2.1
    -- the blocks used before stay, and nothing is written into them
    have hstay : ∀ c ∈ l₁ ++ b :: l₂, c.used = true → c ∈ l₁ ++ u :: (rest ++ l₂) := fun c hc hcu =>
      List.mem_append.mpr ((List.mem_append.mp ((mem_middle_free hcu hf).mp hc)).imp_right fun hm =>
        List.mem_cons_of_mem _ (List.mem_append_right _ hm))
    have hkept : Mem.SameOn (UsedPayload (l₁ ++ b :: l₂)) s.a.heap m := by
      rintro x ⟨c, hc, hcu, h1, h2⟩
      have hcb : c ≠ b := by
        rintro rfl
        rw [hf] at hcu
        exact absurd hcu (by simp)
      have hap := h.inv.heap.apart hc (by simp) hcb
      have hcug := c.size_ge
      have hne : c ≠ u := by
        rintro rfl
        omega
      have hap' := hinv.heap.apart (hstay c hc hcu) hum hne
      exact (hout x (by omega)).trans (hsame x ⟨c, hc, hcu, h1, h2⟩)
    refine Or.inr ⟨p, u.addr, { a₁ with heap := m }, a₁, _, ring', ?_, hp0, hr,
      SysInv.of hinv' ?_ ?_, hpeak,
      ⟨b, u, rfl, l₁, l₂, rest, hn1, hn2, rfl, hf, hle, hcarve, rfl⟩, hkept⟩
    · unfold flAllocate
      rw [hr, Option.map_some]
      dsimp only
      rw [if_neg (by omega), hpl]
    · -- the block was free, so no live pointer had its header
      refine List.nodup_cons.mpr ⟨fun hm => ?_, h.nodup⟩
      obtain ⟨f, hfm, hfe⟩ := List.mem_map.mp hm
      obtain ⟨c, hc, hcu, hca, -⟩ := (h.live f hfm).block
      have hfe' : f.hdr = u.addr := hfe
      have hcb : c = b := h.inv.heap.tiles.pos_inj hc (by simp) (by omega)
      rw [hcb, hf] at hcu
      exact absurd hcu (by simp)
    · intro f hfm
      rcases List.mem_cons.mp hfm with rfl | hfm
      · exact hok
      · exact (h.live f hfm).keep (fun c hc hcu _ => hstay c hc hcu)
          fun c hc hcu _ x h1 h2 _ => hkept x ⟨c, hc, hcu, h1, h2⟩

theorem flTakeOut_stats {h : Nat} : (flTakeOut a h).stats = a.stats := by
  unfold flTakeOut
  dsimp only
  split
  · dsimp only
    rw [flUnlink_stats]
  · rw [flUnlink_stats]

theorem flAbsorb_stats {h nb : Nat} : (flAbsorb a h nb).stats = a.stats := rfl

theorem flMergeNext_stats {h : Nat} : (flMergeNext a h).stats = a.stats := by
  unfold flMergeNext
  dsimp only
  split
  · rw [flAbsorb_stats, flTakeOut_stats]
  · rfl

theorem flMergePrev_stats {h : Nat} : (flMergePrev a h).2.stats = a.stats := by
  unfold flMergePrev
  dsimp only
  split
  · rw [flAbsorb_stats, flTakeOut_stats]
  · rfl

/-- a free changes no counter but `used` -/
theorem flFreeBlock_stats {h : Nat} :
    (flFreeBlock a h).stats
      = { a.stats with used := wsub a.stats.used (hdrSize a.heap h) } := by
  unfold flFreeBlock
  dsimp only
  rw [flInsert_stats, flMergePrev_stats, flMergeNext_stats]
  rfl

/-- what one step does to the peak: it follows `used` upwards -/
def PeakStep (a a' : FlAlloc) : Prop := a'.stats.peakUsed = max a.stats.peakUsed a'.stats.used

/-- what a step does to the blocks and the live pointers -/
def LayoutStep (s : Sys) (bs : List Blk) (s' : Sys) (bs' : List Blk) : Prop :=
  (bs' = bs ∧ s'.live = s.live)
  ∨ (∃ need b u e, Took bs bs' need b u ∧ u.addr = e.hdr ∧ s'.live = e :: s.live)
  ∨ ∃ b e, Gave bs bs' b ∧ e ∈ s.live ∧ b.addr = e.hdr ∧ s'.live = s.live.erase e

/-- the payloads that belong to used blocks before and after are the same -/
def Frame (a : FlAlloc) (bs : List Blk) (a' : FlAlloc) (bs' : List Blk) : Prop :=
  ∀ u ∈ bs, u ∈ bs' → u.used = true → ∀ x, u.addr + 16 ≤ x → x < u.addr + u.size →
  a'.heap x = a.heap x

/-- **One step keeps the invariant**, if its request is one of those considered and a free finds
its header. -/
theorem SysInv.step (h : SysInv s bs ring) (hpk : s.a.stats.used ≤ s.a.stats.peakUsed)
    (hstep : FlStep s act s') (hreq : act.Requests)
    (hfree : ∀ e ∈ s.live, act = .free e.ptr → resolveHeader s.a e.ptr = e.hdr) :
    ∃ bs' ring', SysInv s' bs' ring' ∧ s'.past = s'.a :: s.past ∧ PeakStep s.a s'.a
      ∧ LayoutStep s bs s' bs' ∧ ((∀ x v, act ≠ .write x v) → Frame s.a bs s'.a bs') := by
  cases hstep with
  | @fail size alignment a' hsz hal he =>
    rcases h.alloc size hreq with ⟨hr, -⟩ | ⟨p, hdr, a₁, a₂, bs', ring', hr, hp0, -, -, -, -, -⟩
    · rw [hr] at he
      obtain rfl : countFailed (countAlloc s.a) = a' := by simpa using he
      refine ⟨bs, ring, SysInv.of (h.inv.withStats rfl) h.nodup fun e he => ?_, rfl, ?_,
        Or.inl ⟨rfl, rfl⟩, fun _ _ _ _ _ _ _ _ => rfl⟩
      · exact (h.live e he).keep (fun _ hc _ _ => hc) fun _ _ _ _ _ _ _ _ => rfl
      · exact (max_eq_left hpk).symm
    · rw [hr] at he
      exact absurd (by simpa using congrArg (Option.map Prod.fst) he) hp0
  | @alloc size alignment p hdr a' a'' hsz hal he hp hre =>
    rcases h.alloc size hreq with ⟨hr, -⟩ | ⟨p₁, hdr₁, a₁, a₂, bs', ring', hr, hp0, hr₂,
      hinv, hpeak,
        ⟨b, u, hua, htook⟩, hsame⟩
    · rw [hr] at he
      exact absurd (by simpa using (congrArg (Option.map Prod.fst) he).symm) hp
    · rw [hr] at he
      rw [hr₂] at hre
      obtain ⟨rfl, rfl⟩ : p₁ = p ∧ a₁ = a' := by simpa using he
      obtain ⟨rfl, rfl⟩ : hdr₁ = hdr ∧ a₂ = a'' := by simpa using hre
      exact ⟨bs', ring', hinv, rfl, hpeak, Or.inr (Or.inl ⟨_, b, u, _, htook, hua, rfl⟩),
        fun _ u hu _ huu x h1 h2 => hsame x ⟨u, hu, huu, h1, h2⟩⟩
  | @free e a' he hd =>
    obtain ⟨a₁, bs', ring', hd', ha, hinv, hsum, ⟨b, hb, hgave⟩, hsame⟩ :=
      h.free he (hfree e he rfl)
    obtain rfl : a₁ = a' := by
      rw [hd'] at hd
      exact Option.some.inj hd
    refine ⟨bs', ring', hinv, rfl, ?_, Or.inr (Or.inr ⟨b, e, hgave, he, hb, rfl⟩),
      fun _ u _ hu huu => hsame u hu huu⟩
    have hused : a₁.stats.used ≤ s.a.stats.used := by
      have h1 := hinv.inv.used
      have h2 := h.inv.used
      have h3 : a₁.stats.used = usedSum bs' := h1
      omega
    have hp : a₁.stats.peakUsed = s.a.stats.peakUsed := by
      rw [ha, flFreeBlock_stats]
      rfl
    exact hp.trans (max_eq_left (hused.trans hpk)).symm
  | @write e x v he h1 h2 =>
    exact ⟨bs, ring, h.write he h1 h2, rfl, (max_eq_left hpk).symm, Or.inl ⟨rfl, rfl⟩,
      fun hw => absurd rfl (hw x v)⟩

end

end HeapForge.FreeList
