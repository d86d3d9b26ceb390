import Orthtree.Tree.Refinement

/-!
# Uniform trees

A uniform tree has all its leaves at one level.  It is grown level by level: the nodes of the deepest level so far, the
frontier, are refined one after the other.
-/

namespace Orthtree.Tree

variable {n : Nat}

/-- Refines `node`, which must find room, and answers with its children. -/
def grow (node : Nat) : Edit n (List Nat) := do
  match ← refine node with
  | some _ => return (← ask (·.children node)).toList
  | none => throw (.uniformFull node)

/-- Refines the nodes of the frontier, their children, and so on for `levels` levels. -/
def growLevels : (levels : Nat) → (frontier : List Nat) → Edit n Unit
  | 0, _ => pure ()
  | levels + 1, frontier => do
    growLevels levels (← frontier.mapM grow).flatten

/-- The tree with all leaves at `level` and room for all nodes down to `capacityLevel`. -/
def uniformWithin (n level capacityLevel : Nat) : Except Fault (Tree n) := do
  if level ≤ capacityLevel then
    let t ← ofCapacity n (← Group.nodesThroughLevel n capacityLevel)
    return (← t.perform (growLevels level [0])).2
  else
    throw (.uniformLevel level capacityLevel)

/-- The tree with all leaves at `level` and room for no more. -/
def uniform (n level : Nat) : Except Fault (Tree n) := uniformWithin n level level

end Orthtree.Tree
