import Orthtree.Tree.Basic

/-!
# Traversals

The nodes of a tree can be listed in two orders: as they are stored, group by group (`groups`, `nodes`, `leaves`), and
depth-first, each node before its children and these by position (`visit`, `depthFirst`).

A depth-first walk keeps the nodes still to be visited on a stack.  In a tree it visits no node twice, so the number of
places for nodes bounds its steps; links that lead in a circle are reported as `endless`.  There are two such walks:
`visit` runs to its end by itself and may pass over descendants, `depthFirst` collects what one step after the other
yields (`nextNode`).
-/

namespace Orthtree.Tree

variable {n : Nat}

/-! ## Storage order -/

/-- The groups in use, in ascending order. -/
def groups (t : Tree n) : Except Fault (List Nat) :=
  (List.range t.groupEnd).filterM t.isInUse

/-- The nodes in use, in ascending order. -/
def nodes (t : Tree n) : Except Fault (List Nat) := do
  return (← (← t.groups).mapM (Group.members n)).flatMap Span.toList

/-- The leaves in use, in ascending order. -/
def leaves (t : Tree n) : Except Fault (List Nat) := do
  (← t.nodes).filterM t.isLeaf

/-! ## Depth-first order -/

/-- Visits the nodes of the stack, the first of them first, each followed by what lies below it unless `skip` says that
it is to be passed over.  At most `steps` nodes are visited. -/
def visitStack (t : Tree n) (skip : Nat → Bool) : (steps : Nat) → (stack : List Nat) →
    Except Fault (List Nat)
  | _, [] => .ok []
  | 0, _ :: _ => .error .endless
  | steps + 1, node :: stack => do
    let below ← if skip node then pure [] else Span.toList <$> t.children node
    return node :: (← visitStack t skip steps (below ++ stack))

/-- `ancestor` and all nodes below it, depth-first, without the descendants of the nodes that `skip` names. -/
def visit (t : Tree n) (ancestor : Nat) (skip : Nat → Bool) : Except Fault (List Nat) :=
  t.visitStack skip t.capacity [ancestor]

/-- What is yielded when `stack` is still to be visited, which is its first node if it has one, and what is to be
visited then, the children of this node before the others. -/
def nextNode (t : Tree n) : (stack : List Nat) → Except Fault (Option Nat × List Nat)
  | [] => .ok (none, [])
  | node :: stack => do return (some node, (← t.children node).toList ++ stack)

/-- The nodes that are yielded, one after the other, when `stack` is still to be visited.  At most `steps` nodes are. -/
def yielded (t : Tree n) : (steps : Nat) → (stack : List Nat) → Except Fault (List Nat)
  | 0, stack => if stack = [] then .ok [] else .error .endless
  | steps + 1, stack => do
    match ← t.nextNode stack with
    | (none, _) => return []
    | (some node, stack) => return node :: (← t.yielded steps stack)

/-- All nodes, depth-first. -/
def depthFirst (t : Tree n) : Except Fault (List Nat) :=
  t.yielded t.capacity [0]

/-- The groups of the children of all branches, by the depth-first order of the branches. -/
def branchGroups (t : Tree n) : Except Fault (List Nat) := do
  return (← (← t.depthFirst).mapM t.childrenGroup).filterMap id

/-- The children of the `k`-th branch, in depth-first order, are stored in group `k`. -/
def isSorted (t : Tree n) : Except Fault Bool := do
  let groups ← t.branchGroups
  return groups = List.range' 1 groups.length

/-- Two trees agree if they have equally many nodes and the nodes that they visit at the same step of a depth-first walk
have the same parent and the same children. -/
def agrees (t u : Tree n) : Except Fault Bool := do
  if t.size = u.size then
    ((← t.depthFirst).zip (← u.depthFirst)).allM fun (a, b) => do
      return (← t.parent a) = (← u.parent b) && (← t.children a) = (← u.children b)
  else
    return false

end Orthtree.Tree
