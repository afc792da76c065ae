import Mathlib.Logic.Function.Basic
import HeapForge.Lib.Objects
import HeapForge.Lib.Word

/-!
# The debug decorator of `c/src/hf_debug_heap.c`

It wraps any `Allocator`: every block gets a guard in front and one behind, freed blocks are
poisoned, and an open-addressing table keyed by the user's pointer remembers what was handed out.

* `DhTable`        the table, with `dhFind`, `dhPut` and `dhRehash`;
* `dhAllocate`     `none` means that the process faults (a write outside the address space, a
                   table that cannot grow, a backend that does not return);
* `dhDeallocate`   also lists what the call does outside the table;
* `hfDebugHeapCheck`, `dhDestroy`   the sweeps over the table.
-/

set_option linter.unusedSectionVars false
set_option linter.unusedVariables false

namespace HeapForge.DebugHeap
open Lib Function

def DH_CANARY : Nat := 0xDEADBEEF
def DH_POISON : BitVec 8 := 0xCD
def DH_FILL : BitVec 8 := 0xAB

/-- in front of the user's bytes: a canary and the size -/
def DH_HEAD : Nat := 12

/-- behind them: a canary -/
def DH_TAIL : Nat := 4

/-! ## the table -/

structure DhEntry where
  user : Nat
  raw : Nat
  size : Nat
  freed : Bool
  deriving DecidableEq

/-- `table`, `cap` and `count` of `dh_heap` -/
structure DhTable where
  table : Nat → DhEntry
  cap : Nat
  count : Nat

/-- what `calloc` leaves -/
def DhEntry.blank : DhEntry := ⟨0, 0, 0, false⟩

def dhHash (p cap : Nat) : Nat :=
  let x := p ^^^ p >>> 33
  let x := wmul x 0xff51afd7ed558ccd
  let x := x ^^^ x >>> 33
  x &&& wsub cap 1

def findLoop (t : DhTable) (user : Nat) : Nat → Nat → Option Nat
  | 0, _ => none
  | n + 1, i =>
    if (t.table i).user = 0 ∧ (t.table i).freed = false then none
    else if (t.table i).user = user then some i
    else findLoop t user n ((i + 1) &&& wsub t.cap 1)

/-- the slot of the entry, if there is one -/
def dhFind (t : DhTable) (user : Nat) : Option Nat := findLoop t user t.cap (dhHash user t.cap)

/-- the loop of `dh_put`; it has seen every slot after `cap` rounds -/
def putLoop (t : DhTable) (user : Nat) : Nat → Nat → Option Nat
  | 0, _ => none
  | n + 1, i =>
    if (t.table i).user = 0 ∨ (t.table i).user = user then some i
    else putLoop t user n ((i + 1) &&& wsub t.cap 1)

/-- the body of `dh_put` behind the check for growth -/
def putEntry (t : DhTable) (user raw size : Nat) : Option DhTable :=
  (putLoop t user t.cap (dhHash user t.cap)).map fun i =>
    { t with
      count := if (t.table i).user = 0 ∧ (t.table i).freed = false then wadd t.count 1 else t.count
      table := update t.table i ⟨user, raw, size, false⟩ }

/-- `calloc(n, sizeof(dh_entry))`: which sizes it grants.  An entry has 32 bytes, and what it grants
lies in the address space. -/
structure TableCalloc where
  grants : Nat → Bool
  bound : ∀ n, grants n = true → n * 32 < 2 ^ 64

/-- the loop of `dh_rehash` over the first slots of the old table -/
def rehashLoop (put : DhTable → Nat → Nat → Nat → Option DhTable) (old : Nat → DhEntry)
    (t : DhTable) : Nat → Option DhTable
  | 0 => some t
  | i + 1 => (rehashLoop put old t i).bind fun t =>
    if (old i).user ≠ 0 then put t (old i).user (old i).raw (old i).size else some t

/-- a null table faults at the first entry -/
def dhRehash (cl : TableCalloc) (put : DhTable → Nat → Nat → Nat → Option DhTable) (t : DhTable)
    (ncap : Nat) : Option DhTable :=
  if cl.grants ncap then rehashLoop put t.table ⟨fun _ => DhEntry.blank, ncap, 0⟩ t.cap else none

/-- `dh_put` and `dh_rehash` call each other; every level doubles the table, so no call is 64 levels
deep -/
def dhPut (cl : TableCalloc) : Nat → DhTable → Nat → Nat → Nat → Option DhTable
  | 0, _, _, _, _ => none
  | depth + 1, t, user, raw, size =>
    let grown := if wmul (wadd t.count 1) 10 ≥ wmul t.cap 7
      then dhRehash cl (dhPut cl depth) t (wmul t.cap 2) else some t
    grown.bind fun t => putEntry t user raw size

/-! ## the heap -/

/-- the counters of `hf_debug_report` that the calls keep -/
structure DhReport where
  activeAllocs : Nat
  totalAllocs : Nat
  totalFrees : Nat
  canaryViolations : Nat
  doubleFrees : Nat
  invalidFrees : Nat
  deriving DecidableEq

structure DhHeap (β : Type*) where
  backend : β
  tab : DhTable
  rep : DhReport

/-- `hf_debug_heap_create` -/
def hfDebugHeapCreate {β : Type*} (cl : TableCalloc) (b : β) : Option (DhHeap β) :=
  if cl.grants 64 then some ⟨b, ⟨fun _ => DhEntry.blank, 64, 0⟩, ⟨0, 0, 0, 0, 0, 0⟩⟩ else none

def writeGuards (m : Mem) (raw size : Nat) : Mem :=
  ((m.store32 raw DH_CANARY).store64 (raw + 4) size).store32 (raw + DH_HEAD + size) DH_CANARY

section
variable {β : Type*} (B : Allocator β)

def dhAllocate (cl : TableCalloc) (h : DhHeap β) (size alignment : Nat) : Option (Nat × DhHeap β) :=
  let total := wadd (wadd DH_HEAD size) DH_TAIL
  (B.allocate h.backend total alignment).bind fun (raw, b) =>
    if raw = 0 then some (0, { h with backend := b })
    -- the guards and the fill leave the address space
    else if 2 ^ 64 ≤ raw + DH_HEAD + size + DH_TAIL then none
    else
      let user := raw + DH_HEAD
      let m := (writeGuards (B.heap b) raw size).fill user size DH_FILL
      (dhPut cl 64 h.tab user raw size).map fun t =>
        (user, { backend := B.setHeap b m
                 tab := t
                 rep := { h.rep with
                   totalAllocs := wadd h.rep.totalAllocs 1
                   activeAllocs := wadd h.rep.activeAllocs 1 } })

/-- what a call to `dh_deallocate` does outside the table and the counters -/
inductive DhEffect
  | readCanary (addr : Nat)
  | poison (addr size : Nat)
  | backendFree (raw : Nat)
  deriving DecidableEq

/-- both canaries are intact -/
def verifyBlock (m : Mem) (raw size : Nat) : Bool :=
  m.load32 raw == DH_CANARY && m.load32 (raw + DH_HEAD + size) == DH_CANARY

/-- the effects up to a fault (`none`) or up to the return -/
def dhDeallocate (h : DhHeap β) (ptr : Nat) : List DhEffect × Option (DhHeap β) :=
  let invalid : DhHeap β :=
    { h with rep := { h.rep with invalidFrees := wadd h.rep.invalidFrees 1 } }
  if ptr = 0 then ([], some h)
  else match dhFind h.tab ptr with
    | none => ([], some invalid)
    | some i =>
      let e := h.tab.table i
      if e.user ≠ ptr then ([], some invalid)
      else if e.freed then
        ([], some { h with rep := { h.rep with doubleFrees := wadd h.rep.doubleFrees 1 } })
      -- the head canary of a null block: the read faults
      else if e.raw = 0 then ([.readCanary 0], none)
      else
        let m := B.heap h.backend
        let b := B.setHeap h.backend (m.fill ptr e.size DH_POISON)
        let rep : DhReport := { h.rep with
          canaryViolations := if verifyBlock m e.raw e.size then h.rep.canaryViolations
            else wadd h.rep.canaryViolations 1
          totalFrees := wadd h.rep.totalFrees 1
          activeAllocs := wsub h.rep.activeAllocs 1 }
        let tab : DhTable :=
          { h.tab with table := update h.tab.table i { e with freed := true, raw := 0 } }
        ([.readCanary e.raw, .readCanary (e.raw + DH_HEAD + e.size), .poison ptr e.size,
            .backendFree e.raw],
          (B.deallocate b e.raw).map fun b => ⟨b, tab, rep⟩)

/-! ## the sweeps -/

/-- `e->user && !e->freed && e->raw` -/
def DhEntry.listed (e : DhEntry) : Bool := e.user != 0 && !e.freed && e.raw != 0

/-- the loop of `hf_debug_heap_check` over the first slots: the bad blocks, and the counters -/
def checkLoop (m : Mem) (t : DhTable) (rep : DhReport) : Nat → Nat × DhReport
  | 0 => (0, rep)
  | i + 1 =>
    let (bad, rep) := checkLoop m t rep i
    let e := t.table i
    if e.listed && !verifyBlock m e.raw e.size then
      (bad + 1, { rep with canaryViolations := wadd rep.canaryViolations 1 })
    else (bad, rep)

def hfDebugHeapCheck (h : DhHeap β) : Nat × DhHeap β :=
  let (bad, rep) := checkLoop (B.heap h.backend) h.tab h.rep h.tab.cap
  (bad, { h with rep := rep })

/-- the loop of `dh_destroy` over the first slots: the blocks it gives back -/
def destroyLoop (t : DhTable) : Nat → List Nat
  | 0 => []
  | i + 1 => destroyLoop t i ++ if (t.table i).listed then [(t.table i).raw] else []

def dhDestroy (t : DhTable) : List Nat := destroyLoop t t.cap

end

end HeapForge.DebugHeap
