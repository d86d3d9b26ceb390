import Orthtree.Tree.Neighborhood
import Orthtree.Tree.Refinement

/-!
# Balance

A tree is balanced if nodes that touch differ by at most one level.  Coarsening a node removes its children and so
brings a node of one level less next to whatever touched them; it keeps the balance unless a child touches a node finer
than itself.
-/

namespace Orthtree.Tree

variable {n : Nat}

/-- No neighbor of `node` is more than one level above or below it. -/
def isBalancedAt (t : Tree n) (node : Nat) : Except Fault Bool := do
  let level ← t.level node
  (← t.allNeighbors (← t.location node)).allM fun neighbor => do
    let other ← t.level neighbor
    return other ≤ level + 1 && level ≤ other + 1

/-- No two touching nodes are more than one level apart. -/
def isBalanced (t : Tree n) : Except Fault Bool := do
  (← t.nodes).allM t.isBalancedAt

/-- No neighbor of `node` is finer than `level`. -/
def isFinestAt (t : Tree n) (level node : Nat) : Except Fault Bool := do
  (← t.allNeighbors (← t.location node)).allM fun neighbor => do
    return (← t.level neighbor) ≤ level

/-- `node` has children, all of them leaves, and none of them touches a finer node. -/
def canCoarsen (t : Tree n) (node : Nat) : Except Fault Bool := do
  if ← t.isLeaf node then
    return false
  else if ← t.hasLeavesOnly node then
    let childLevel ← Bounded.level ((← t.level node) + 1)
    (← t.children node).toList.allM (t.isFinestAt childLevel)
  else
    return false

/-- Coarsens `node` unless that would break the balance.  Answers with the children that were removed. -/
def coarsenBalancedWith (node : Nat) : Edit n (Option Span) := do
  if ← ask (·.canCoarsen node) then
    let removed ← ask (·.children node)
    coarsen node
    return some removed
  else
    return none

/-- Coarsens `node` unless that would break the balance.  Answers whether it was coarsened. -/
def coarsenBalanced (node : Nat) : Edit n Bool := do
  return (← coarsenBalancedWith node).isSome

end Orthtree.Tree
