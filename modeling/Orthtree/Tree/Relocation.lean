import Orthtree.Tree.Refinement

/-!
# Moving groups

`swap` exchanges the places of two sibling groups without changing the graph, and `sortWith` uses it to store the groups
in depth-first order.  `sortWith` lists the pairs of nodes whose places were exchanged; whoever keeps data by node number
exchanges the same entries in the same order and stays in step.
-/

namespace Orthtree.Tree

variable {n : Nat}

/-! ## Exchanging two groups -/

/-- Lets the children of `node` point back at it. -/
def readopt (node : Nat) : Edit n Unit := do
  match ← ask (·.firstChildAt node) with
  | none => pure ()
  | some first => setOwner (Group.ofNode n first) (some node)

/-- The pairs of nodes at the same position of two groups. -/
def memberPairs (n a b : Nat) : Except Fault (List (Nat × Nat)) := do
  let as ← Group.members n a
  let bs ← Group.members n b
  return as.toList.zip bs.toList

/-- Exchanges the children of two nodes. -/
def exchangeNodes (pair : Nat × Nat) : Edit n Unit := do
  exchangeChildren pair.1 pair.2
  readopt pair.1
  readopt pair.2

/-- Lets `owner`, if there is one, own `group`, and `group` be owned by it. -/
def handOver (group : Nat) (owner : Option Nat) : Edit n Unit := do
  match owner with
  | none => pure ()
  | some node =>
    let first ← ask fun _ => Group.first n group
    setFirstChild node (some first)
  setOwner group owner

/-- Records that group `freed` became free and group `taken` came into use. -/
def moveUse (freed taken : Nat) : Edit n Unit := do
  let next ← ask fun _ => Bounded.index (taken + 1)
  let firstFree ← ask fun t =>
    let lowest := min t.firstFree freed
    if lowest = taken then t.nextFree next else .ok lowest
  modify fun t => { t with firstFree, groupEnd := max t.groupEnd next }
  lowerGroupEnd

/-- Exchanges the places of two groups, of which at least one is in use. -/
def exchangeGroups (a b : Nat) (aInUse bInUse : Bool) : Edit n Unit := do
  (← ask fun _ => memberPairs n a b).forM exchangeNodes
  -- One group may hold the owner of the other, so the owners are read only now.
  let aOwner ← ask (·.ownerAt a)
  let bOwner ← ask (·.ownerAt b)
  handOver b aOwner
  handOver a bOwner
  if aInUse && !bInUse then
    moveUse a b
  else if bInUse && !aInUse then
    moveUse b a

/-- Exchanges the places of two groups other than the root's.  Either of them may be free. -/
def swap (a b : Nat) : Edit n Unit := do
  if a = 0 ∨ b = 0 then
    throw .swapRoot
  else if a = b then
    throw (.swapSelf a)
  else
    let aInUse ← ask (·.isInUse a)
    let bInUse ← ask (·.isInUse b)
    if aInUse || bInUse then
      exchangeGroups a b aInUse bInUse

/-! ## Depth-first order -/

/-- Brings the children stored in `group` to `target`, and lists the exchanged nodes. -/
def place (group target : Nat) : Edit n (List (Nat × Nat)) := do
  if group = target then
    return []
  else
    swap group target
    ask fun _ => memberPairs n group target

/-- Sorts what lies below the nodes of the stack into the groups after `last`.  At most `steps` nodes are taken up. -/
def sortStack : (steps : Nat) → (stack : List Nat) → (last : Nat) → Edit n (List (Nat × Nat))
  | _, [], _ => pure []
  | 0, _ :: _, _ => throw .endless
  | steps + 1, node :: stack, last => do
    match ← ask (·.childrenGroup node) with
    | none => sortStack steps stack last
    | some group =>
      let target ← ask fun _ => Bounded.index (last + 1)
      let exchanged ← place group target
      let below ← ask fun _ => Group.members n target
      return exchanged ++ (← sortStack steps (below.toList ++ stack) target)

/-- Stores the groups in depth-first order, without gaps, and lists the exchanged nodes. -/
def sortWith : Edit n (List (Nat × Nat)) := do
  let exchanged ← sortStack (← get).capacity [0] 0
  if (← get).isCompact && (← ask (·.isSorted)) then
    return exchanged
  else
    throw .unsorted

/-- Stores the groups in depth-first order, without gaps. -/
def sort : Edit n Unit := do
  let _ ← sortWith

end Orthtree.Tree
