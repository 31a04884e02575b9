import Mathlib.Data.List.Basic

/-!
# Bin2llvm.Lib.Terms — terms over leaves

Trees whose inner nodes have any number of children, and maps on their leaves.

* `leaves_map`: mapping a term maps its leaves.
* `mem_leaves`: a leaf is the term itself or below a node.
-/

namespace Bin2llvm

inductive Term (α : Type*) where
  | leaf (a : α)
  | node (op : ℕ) (args : List (Term α))

namespace Term

variable {α β γ : Type*}

mutual

def leaves : Term α → List α
  | leaf a => [a]
  | node _ args => leavesArgs args

def leavesArgs : List (Term α) → List α
  | [] => []
  | t :: ts => leaves t ++ leavesArgs ts

end

mutual

def map (g : α → β) : Term α → Term β
  | leaf a => leaf (g a)
  | node op args => node op (mapArgs g args)

def mapArgs (g : α → β) : List (Term α) → List (Term β)
  | [] => []
  | t :: ts => map g t :: mapArgs g ts

end

mutual

theorem leaves_map (g : α → β) : ∀ t : Term α, (t.map g).leaves = t.leaves.map g
  | leaf _ => rfl
  | node _ args => leavesArgs_mapArgs g args

theorem leavesArgs_mapArgs (g : α → β) :
    ∀ ts : List (Term α), leavesArgs (mapArgs g ts) = (leavesArgs ts).map g
  | [] => rfl
  | t :: ts => by
    show leaves (t.map g) ++ leavesArgs (mapArgs g ts) = (leaves t ++ leavesArgs ts).map g
    rw [leaves_map g t, leavesArgs_mapArgs g ts, List.map_append]

end

/-- The leaves below a node. -/
def inner : Term α → List α
  | leaf _ => []
  | node _ args => leavesArgs args

/-- The leaf a term consists of. -/
def leaf? : Term α → Option α
  | leaf a => some a
  | node _ _ => none

theorem mem_leaves {t : Term α} {a : α} : a ∈ t.leaves ↔ t.leaf? = some a ∨ a ∈ t.inner := by
  cases t with
  | leaf b => simp [leaves, leaf?, inner, eq_comm]
  | node op args => simp [leaves, leaf?, inner]

end Term

end Bin2llvm
