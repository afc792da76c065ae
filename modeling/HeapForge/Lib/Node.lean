import Mathlib.Logic.Function.Basic
import HeapForge.Lib.Mem

/-!
# Nodes of two words

A list node at `n` holds two pointers, the next one at `n` and the previous one at `n + 8`.  At
addresses that are multiples of sixteen two nodes are the same or disjoint, so a write to a field
updates the field as a function of the node and changes nothing `Outside` the nodes written.
-/

set_option linter.unusedSectionVars false

namespace HeapForge.Lib
open Function

def nodeNext (m : Mem) (n : Nat) : Nat := m.load64 n
def nodePrev (m : Mem) (n : Nat) : Nat := m.load64 (n + 8)
def setNext (m : Mem) (n v : Nat) : Mem := m.store64 n v
def setPrev (m : Mem) (n v : Nat) : Mem := m.store64 (n + 8) v

/-- the byte `x` belongs to none of the sixteen-byte nodes of `l` -/
def Outside (l : List Nat) (x : Nat) : Prop := ∀ n ∈ l, x < n ∨ n + 16 ≤ x

section
variable {m : Mem} {n v x : Nat}

theorem nodeNext_setNext (hn : n % 16 = 0) (hx : x % 16 = 0) (hv : v < 2 ^ 64) :
    nodeNext (setNext m n v) x = update (nodeNext m) n v x := by
  by_cases h : x = n
  · subst h
    rw [update_self]
    exact Mem.load64_store64_same hv
  · rw [update_of_ne h]
    exact Mem.load64_store64_of_disjoint (by omega)

theorem nodeNext_setPrev (hn : n % 16 = 0) (hx : x % 16 = 0) :
    nodeNext (setPrev m n v) x = nodeNext m x :=
  Mem.load64_store64_of_disjoint (by omega)

theorem nodePrev_setPrev (hn : n % 16 = 0) (hx : x % 16 = 0) (hv : v < 2 ^ 64) :
    nodePrev (setPrev m n v) x = update (nodePrev m) n v x := by
  by_cases h : x = n
  · subst h
    rw [update_self]
    exact Mem.load64_store64_same hv
  · rw [update_of_ne h]
    exact Mem.load64_store64_of_disjoint (by omega)

theorem nodePrev_setNext (hn : n % 16 = 0) (hx : x % 16 = 0) :
    nodePrev (setNext m n v) x = nodePrev m x :=
  Mem.load64_store64_of_disjoint (by omega)

theorem sameOn_setNext {l : List Nat} (hn : n ∈ l) : Mem.SameOn (Outside l) m (setNext m n v) :=
  Mem.sameOn_store64 (fun x hx => by
    have := hx n hn
    omega)

theorem sameOn_setPrev {l : List Nat} (hn : n ∈ l) : Mem.SameOn (Outside l) m (setPrev m n v) :=
  Mem.sameOn_store64 (fun x hx => by
    have := hx n hn
    omega)

/-- the sixteen bytes at a multiple of sixteen that is no node are outside -/
theorem outside_of_notMem {l : List Nat} (hl : ∀ n ∈ l, n % 16 = 0) (hv : v % 16 = 0)
    (hn : v ∉ l) (h1 : v ≤ x) (h2 : x < v + 16) : Outside l x := by
  intro n hm
  have h3 : n ≠ v := fun e => hn (e ▸ hm)
  have h4 := hl n hm
  omega

/-- both words at a place that was not written are as before -/
theorem words_of_sameOn {l : List Nat} {m' : Mem} (hs : Mem.SameOn (Outside l) m m')
    (hl : ∀ n ∈ l, n % 16 = 0) (hx : x % 16 = 0) (hn : x ∉ l) :
    m'.load64 x = m.load64 x ∧ m'.load64 (x + 8) = m.load64 (x + 8) :=
  ⟨hs.load64 fun y h1 h2 => outside_of_notMem hl hx hn h1 (by omega),
    hs.load64 fun y h1 h2 => outside_of_notMem hl hx hn (by omega) (by omega)⟩

theorem update_congr_at {f g : Nat → Nat} {c : Nat} (h : f x = g x) :
    update f c v x = update g c v x := by
  rw [update_apply, update_apply, h]

end

end HeapForge.Lib
