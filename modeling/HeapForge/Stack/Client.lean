import HeapForge.Stack.Lifo

/-!
# The stack serves objects to clients that free the newest first

* `Paged`           alignments up to the page size, and sizes that do not wrap above the capacity;
* `Serves`          the ranges are the chain of headers under the top;
* `stack_objects`   **every run.**
-/

set_option linter.unusedSectionVars false
set_option linter.unusedVariables false

namespace HeapForge.Stack
open Lib

/-- requests on a stack of `capacity` bytes that do not wrap, whatever its top is -/
def Paged (vm : Vm) (capacity size alignment : Nat) : Prop :=
  (∃ k, k ≤ vm.pageOrder ∧ alignment = 2 ^ k) ∧ capacity + size + vm.pageSize + 24 ≤ 2 ^ 64

/-- the block at a range, by its offset -/
def blockAt (mem : Nat) (e : Extent) : StBlock := ⟨e.ptr - mem, e.size⟩

structure Serves (vm : Vm) (capacity : Nat) (a : StAlloc) (l : List Extent) : Prop where
  cap : a.capacity = capacity
  above : ∀ e ∈ l, a.mem ≤ e.ptr
  inv : LifoInv vm 0 ST_NONE ⟨a, l.map (blockAt a.mem)⟩

section
variable {vm : Vm} {a a' : StAlloc} {l : List Extent} {e : Extent}
  {size alignment p x capacity : Nat} {m : Mem}

theorem Serves.noWrap (h : Serves vm capacity a l) (hreq : Paged vm capacity size alignment) :
    NoWrap a size alignment := by
  obtain ⟨⟨k, hk, rfl⟩, hsz⟩ := hreq
  have htop : a.top ≤ a.capacity := h.inv.top_le
  have hcap := h.cap
  have hlt := vm.pageOrder_lt
  have hpk : 2 ^ k ≤ vm.pageSize := Nat.pow_le_pow_right (by norm_num) hk
  have h8 : hfAlignUp a.top 8 < a.top + 8 :=
    (hfAlignUp_bounds (k := 3) (n := a.top) (by omega) (by decide)).2
  have hhdr : wadd (hfAlignUp a.top 8) ST_HDR = hfAlignUp a.top 8 + 16 :=
    wadd_of_lt (show hfAlignUp a.top 8 + 16 < 2 ^ 64 by omega)
  have hup := (hfAlignUp_bounds (k := k) (n := hfAlignUp a.top 8 + 16) (by omega) (by omega)).2
  refine NoWrap.of_page h.inv.room h.inv.top_le hk ?_
  show stPayload a (2 ^ k) + size < 2 ^ 64
  unfold stPayload
  dsimp only
  rw [hhdr]
  omega

/-- a byte of a range lies in the payload of a block, below the top -/
theorem Serves.byte (h : Serves vm capacity a l) (hx : Held l x) :
    ∃ b ∈ l.map (blockAt a.mem), a.mem + b.payload ≤ x ∧ x < a.mem + b.payload + b.size
      ∧ x < a.mem + a.top := by
  obtain ⟨e, he, h1, h2⟩ := hx
  have hb : blockAt a.mem e ∈ l.map (blockAt a.mem) := List.mem_map_of_mem he
  have hin : 16 ≤ e.ptr - a.mem ∧ e.ptr - a.mem + e.size ≤ a.top := h.inv.inside hb
  have hab := h.above e he
  refine ⟨_, hb, ?_, ?_, by omega⟩
  · show a.mem + (e.ptr - a.mem) ≤ x
    omega
  · show x < a.mem + (e.ptr - a.mem) + e.size
    omega

theorem Serves.apart (h : Serves vm capacity a l) : l.Pairwise Extent.Apart := by
  have hbelow : l.Pairwise fun e f => Below (blockAt a.mem e) (blockAt a.mem f) :=
    List.pairwise_map.mp h.inv.chain.below
  refine hbelow.imp_of_mem fun {e f} he hf hb => ?_
  have h1 := h.above e he
  have h2 := h.above f hf
  have hb' : f.ptr - a.mem + f.size + 16 ≤ e.ptr - a.mem := hb
  exact ⟨by omega, by omega⟩

theorem Serves.alloc (h : Serves vm capacity a l) (hreq : Paged vm capacity size alignment)
    (hcall : stAllocate a size alignment = (p, a')) :
    Mem.SameOn (Held l) a.heap a'.heap ∧ (p = 0 → Serves vm capacity a' l)
      ∧ (p ≠ 0 → Serves vm capacity a' (⟨p, size⟩ :: l)) := by
  have hw := h.noWrap hreq
  by_cases hp : p = 0
  · subst hp
    obtain ⟨-, hheap, hinv⟩ := h.inv.refused hw hcall
    have hsame := (stAllocate_spec hcall).1
    have hheap' : a'.heap = a.heap := hheap
    refine ⟨fun x
      _ => by rw [hheap'], fun _ => ⟨hsame.2.trans h.cap, ?_, ?_⟩, fun h0 => absurd rfl h0⟩
    · rw [hsame.1]
      exact h.above
    · rw [hsame.1]
      exact hinv
  · obtain ⟨hsame, hge, hfit, htop, hlast, hheap⟩ := h.inv.served hw hcall hp
    have hinv := h.inv.alloc hw hcall hp
    have hge' : a.top + 16 ≤ stPayload a alignment := hge
    have hfit' : stPayload a alignment + size ≤ a.capacity := hfit
    have hbound : a.mem + a.capacity < 2 ^ 64 := h.inv.room.bound
    have hheap' : a'.heap = (a.heap.store64 (a.mem + stPayload a alignment - 16) a.top).store64
      (a.mem + stPayload a alignment - 8) a.lastPayload := hheap
    have hpe : p = a.mem + stPayload a alignment := by
      obtain ⟨-, ⟨h0, -⟩ | ⟨hpe, -⟩⟩ := stAllocate_spec hcall
      · exact absurd h0 hp
      · rw [hpe, wadd_of_lt (by omega)]
    refine ⟨fun x hx => ?_, fun h0 => absurd h0 hp, fun _ => ⟨hsame.2.trans h.cap, ?_, ?_⟩⟩
    · -- the new header lies above the top
      obtain ⟨-, -, -, -, hlt⟩ := h.byte hx
      rw [hheap', Mem.store64_of_notMem (by omega), Mem.store64_of_notMem (by omega)]
    · rw [hsame.1]
      intro e he
      rcases List.mem_cons.mp he with rfl | he
      · show a.mem ≤ p
        omega
      · exact h.above e he
    · rw [hsame.1, List.map_cons]
      have hblock : blockAt a.mem ⟨p, size⟩ = ⟨stPayload a alignment, size⟩ := by
        unfold blockAt
        rw [hpe, Nat.add_sub_cancel_left]
      show LifoInv vm 0 ST_NONE ⟨a', blockAt a.mem ⟨p, size⟩ :: _⟩
      rw [hblock]
      exact hinv

theorem Serves.free (h : Serves vm capacity a l) (hf : lastFirst l e) :
    ∃ a', stDeallocate a e.ptr = some a' ∧ Serves vm capacity a' (l.erase e)
      ∧ Mem.SameOn (Held (l.erase e)) a.heap a'.heap := by
  obtain ⟨rest, rfl⟩ : ∃ rest, l = e :: rest := List.head?_eq_some_iff.mp hf
  obtain ⟨a', hcall, hsame, hheap, hinv⟩ := h.inv.free List.map_cons
  have hab := h.above e List.mem_cons_self
  have hin : 16 ≤ e.ptr - a.mem ∧ e.ptr - a.mem + e.size ≤ a.top :=
    h.inv.inside (List.mem_map_of_mem List.mem_cons_self)
  have htop : a.top ≤ a.capacity := h.inv.top_le
  have hbound : a.mem + a.capacity < 2 ^ 64 := h.inv.room.bound
  have hptr : wadd a.mem (e.ptr - a.mem) = e.ptr := by
    rw [wadd_of_lt (by omega)]
    omega
  have hcall' : stDeallocate a (wadd a.mem (e.ptr - a.mem)) = some a' := hcall
  have hheap' : a'.heap = a.heap := hheap
  rw [hptr] at hcall'
  rw [List.erase_cons_head]
  refine ⟨a', hcall', ⟨hsame.2.trans h.cap, ?_, ?_⟩, fun x _ => by rw [hheap']⟩
  · rw [hsame.1]
    exact fun f hf => h.above f (List.mem_cons_of_mem _ hf)
  · rw [hsame.1]
    exact hinv

theorem Serves.inside (h : Serves vm capacity a l) (he : e ∈ l) : e.ptr + e.size < 2 ^ 64 := by
  have hin : 16 ≤ e.ptr - a.mem ∧ e.ptr - a.mem + e.size ≤ a.top :=
    h.inv.inside (List.mem_map_of_mem he)
  have htop : a.top ≤ a.capacity := h.inv.top_le
  have hbound : a.mem + a.capacity < 2 ^ 64 := h.inv.room.bound
  omega

theorem Serves.write (h : Serves vm capacity a l) (hs : Mem.SameOn (fun x => ¬ Held l x) a.heap m) :
    Serves vm capacity { a with heap := m } l := by
  refine ⟨h.cap, h.above, ⟨h.inv.room.bound, h.inv.room.rounding⟩, h.inv.top_le, h.inv.last_lt,
    h.inv.chain.congr fun b hb x hx hx' => hs x fun hheld => ?_⟩
  obtain ⟨c, hc, h1, h2, -⟩ := h.byte hheld
  have hmiss := h.inv.payload_misses hc h1 h2 hb
  have hx1 : a.mem + b.payload - 16 ≤ x := hx
  have hx2 : x < a.mem + b.payload := hx'
  have hmiss' : x < a.mem + b.payload - 16 ∨ a.mem + b.payload ≤ x := hmiss
  omega

end

theorem implements (vm : Vm) (capacity : Nat) :
    Implements allocator (Paged vm capacity) lastFirst (Serves vm capacity) where
  apart := Serves.apart
  inside := Serves.inside
  alloc := fun h hreq ha => h.alloc hreq (Option.some.inj ha)
  free := fun h _ hf => h.free hf
  write := fun h hs => ⟨h.write hs, rfl⟩

/-- **A client of the stack that frees the newest block first sees objects of its own**, and its
frees come back.  When all is freed, the top is where it was at the start. -/
theorem stack_objects {vm : Vm} {handle : Bool} {m : Mem} {capacity : Nat} {a : StAlloc}
    {evs : List Event} {s : Client StAlloc} (hc : hfStackCreate vm handle m capacity = some a)
    (hrun : Steps (ClientStep allocator (Paged vm a.capacity) lastFirst) ⟨a, []⟩ evs s) :
    Steps ObjStep noObjects evs (objects s.b.heap s.held)
      ∧ (∀ e rest, s.held = e :: rest → (stDeallocate s.b e.ptr).isSome = true)
      ∧ (s.held = [] → s.b.top = 0) := by
  have hstart : Serves vm a.capacity a [] :=
    ⟨rfl, fun e he => absurd he (by simp), LifoInv.create hc⟩
  have hok : Serves vm a.capacity s.b s.held := (implements vm a.capacity).of_run hstart hrun
  refine ⟨(implements vm a.capacity).refines hstart hrun, fun e rest hl => ?_, fun h0 => ?_⟩
  · exact (implements vm a.capacity).free_isSome hok (by rw [hl]; exact List.mem_cons_self)
      (by rw [lastFirst, hl]; rfl)
  · rw [h0] at hok
    exact hok.inv.chain.1

/-- a block of 24 bytes is granted, and its byte 5 is written -/
theorem stack_objects_one_block :
    ∃ s, Steps (ClientStep allocator (Paged sampleVm emptyStack.capacity) lastFirst)
    ⟨emptyStack, []⟩
      [.grant (2 ^ 20 + 16) 24, .write (2 ^ 20 + 16) 5 0x21#8] s
    ∧ Steps ObjStep noObjects [.grant (2 ^ 20 + 16) 24, .write (2 ^ 20 + 16) 5 0x21#8]
      (objects s.b.heap s.held) := by
  have hreq : Paged sampleVm emptyStack.capacity 24 16 := ⟨⟨4, by decide, rfl⟩, by decide⟩
  have s1 : ClientStep allocator (Paged sampleVm emptyStack.capacity) lastFirst ⟨emptyStack, []⟩
      (.grant (2 ^ 20 + 16) 24) ⟨oneBlock, [⟨2 ^ 20 + 16, 24⟩]⟩ :=
    @ClientStep.grant _ allocator _ lastFirst ⟨emptyStack, []⟩ 24 16 _ _ hreq
      (congrArg some oneBlock_alloc) (by omega)
  have s2 := @ClientStep.write _ allocator (Paged sampleVm emptyStack.capacity) lastFirst
    ⟨oneBlock, [⟨2 ^ 20 + 16, 24⟩]⟩ ⟨2 ^ 20 + 16, 24⟩ 5 0x21#8 List.mem_cons_self
      (by show 5 < 24; omega)
  have hrun := ((Steps.nil _).snoc s1).snoc s2
  exact ⟨_, hrun, (stack_objects emptyStack_create hrun).1⟩

end HeapForge.Stack
