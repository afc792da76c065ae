import Mathlib.Data.List.AList
import HeapForge.Platform
import HeapForge.Lib.Objects

/-!
# The debug heap of `rust/src/debug_heap.rs`

The decorator of the C library over a `HashMap`, in which a freed block stays with its flag set.

* `allocate`, `deallocate`   the calls, for one thread; `none` if a call of the backend does not
                             return;
* `check`, `report`          the sweep over the live blocks, and the counters;
* `drop`                     the blocks that were never freed go back, in any order of the map.

A null pointer of the backend is its `None`.  Arithmetic wraps as in a release build.
-/

set_option linter.unusedSectionVars false

namespace HeapForge.RustDebugHeap
open Lib

def CANARY : Nat := 0xDEADBEEF
def POISON : BitVec 8 := 0xCD#8
def FILL : BitVec 8 := 0xAB#8

def HEAD : Nat := 4 + 8
def TAIL : Nat := 4

structure Entry where
  raw : Nat
  size : Nat
  freed : Bool
  deriving DecidableEq, Repr

structure DebugReport where
  activeAllocs : Nat
  totalAllocs : Nat
  totalFrees : Nat
  canaryViolations : Nat
  doubleFrees : Nat
  invalidFrees : Nat
  leakedBlocks : Nat
  leakedBytes : Nat
  deriving DecidableEq, Repr

/-- what the mutex protects; the key is the user pointer -/
structure Inner where
  table : AList fun _ : Nat => Entry
  rep : DebugReport

def new : Inner := ⟨∅, ⟨0, 0, 0, 0, 0, 0, 0, 0⟩⟩

def writeGuards (m : Mem) (raw size : Nat) : Mem :=
  ((m.store32 raw CANARY).store64 (raw + 4) size).store32 (raw + HEAD + size) CANARY

def headOk (m : Mem) (raw : Nat) : Bool := m.load32 raw == CANARY

def tailOk (m : Mem) (raw size : Nat) : Bool := m.load32 (raw + HEAD + size) == CANARY

/-- the locked part of `allocate` -/
def Inner.insert (g : Inner) (raw user size : Nat) : Inner :=
  { table := g.table.insert user ⟨raw, size, false⟩
    rep := { g.rep with
      totalAllocs := wadd g.rep.totalAllocs 1
      activeAllocs := wadd g.rep.activeAllocs 1 } }

/-- a free of a pointer without a live block -/
def Inner.reject (g : Inner) (user : Nat) : Inner :=
  match g.table.lookup user with
  | none => { g with rep := { g.rep with invalidFrees := wadd g.rep.invalidFrees 1 } }
  | some _ => { g with rep := { g.rep with doubleFrees := wadd g.rep.doubleFrees 1 } }

/-- after the check of the canaries -/
def Inner.judge (g : Inner) (ok : Bool) : Inner :=
  if ok then g
    else { g with rep := { g.rep with canaryViolations := wadd g.rep.canaryViolations 1 } }

/-- the entry of a freed block stays -/
def Inner.retire (g : Inner) (user : Nat) (e : Entry) : Inner :=
  { table := g.table.insert user { e with freed := true }
    rep := { g.rep with
      totalFrees := wadd g.rep.totalFrees 1
      activeAllocs := wsub g.rep.activeAllocs 1 } }

section
variable {β : Type*} (A : Allocator β)

def allocate (b : β) (g : Inner) (size align : Nat) : Option (Option Nat × β × Inner) :=
  let total := wadd (wadd HEAD size) TAIL
  (A.allocate b total align).map fun (raw, b) =>
    if raw = 0 then (none, b, g)
    else
      let m := writeGuards (A.heap b) raw size
      let user := raw + HEAD
      let m := m.fill user size FILL
      (some user, A.setHeap b m, g.insert raw user size)

def deallocate (b : β) (g : Inner) (user : Nat) : Option (β × Inner) :=
  match g.table.lookup user with
  | none => some (b, g.reject user)
  | some e =>
    if e.freed then some (b, g.reject user)
    else
      let smashed := !headOk (A.heap b) e.raw || !tailOk (A.heap b) e.raw e.size
      let g := g.judge (!smashed)
      let m := (A.heap b).fill user e.size POISON
      let g := g.retire user e
      (A.deallocate (A.setHeap b m) e.raw).map fun b => (b, g)

/-- one entry of the sweep -/
def checkEntry (m : Mem) (acc : Nat × Inner) (e : Entry) : Nat × Inner :=
  if e.freed then acc
  else if headOk m e.raw && tailOk m e.raw e.size then acc
  else (wadd acc.1 1, acc.2.judge false)

/-- the entries of the map -/
def Inner.entries (g : Inner) : List Entry := g.table.entries.map fun e => e.2

def check (b : β) (g : Inner) : Nat × Inner := g.entries.foldl (checkEntry (A.heap b)) (0, g)

def reportEntry (rep : DebugReport) (e : Entry) : DebugReport :=
  if e.freed then rep
  else
    { rep with
      leakedBlocks := wadd rep.leakedBlocks 1
      leakedBytes := wadd rep.leakedBytes e.size }

def report (g : Inner) : DebugReport := g.entries.foldl reportEntry g.rep

/-- the live blocks go back, in the order of the walk -/
def drop (b : β) (order : List Entry) : Option β :=
  order.foldlM (fun b e => if e.freed then some b else A.deallocate b e.raw) b

end

end HeapForge.RustDebugHeap
