import Orthtree.Location.Frame
import Orthtree.Tree.Traversal

/-!
# Places of nodes

A node and its location are two names for one place.  `location` walks up from a node to the root and packs the
positions it passes; `deepestAt` walks down along a location as far as the tree is refined.
-/

namespace Orthtree.Tree

variable {n : Nat}

/-! ## From nodes to locations -/

/-- The number of steps from `node` up to the root, which must not be more than `budget`. -/
def stepsUp (t : Tree n) : (budget : Nat) → (node : Nat) → Except Fault Nat
  | 0, node => do
    match ← t.parent node with
    | none => return 0
    | some _ => throw .overflow
  | budget + 1, node => do
    match ← t.parent node with
    | none => return 0
    | some p => return (← stepsUp t budget p) + 1

/-- The number of steps from the root to `node`, as an 8-bit level. -/
def level (t : Tree n) (node : Nat) : Except Fault Nat := do
  if ← t.contains node then t.stepsUp 255 node else throw (.levelOfFree node)

/-- The positions from the root down to `node`, followed by `below`.  At most `steps` of them are looked up. -/
def positionsTo (t : Tree n) : (steps : Nat) → (node : Nat) → (below : List Nat) →
    Except Fault (List Nat)
  | 0, _, _ => .error .endless
  | steps + 1, node, below => do
    match ← t.parent node with
    | none => return below
    | some p =>
      let position ← t.positionInParent node
      positionsTo t steps p (position.toList ++ below)

/-- The child positions from the root down to `node`. -/
def pathTo (t : Tree n) (node : Nat) : Except Fault (List Nat) := do
  if ← t.contains node then t.positionsTo t.capacity node [] else throw (.locationOfFree node)

/-- The location of `node`. -/
def location (t : Tree n) (node : Nat) : Except Fault (Location n) := do
  Location.ofPath n (← t.pathTo node)

/-- The center of `node` in the unit frame. -/
def center (t : Tree n) (node : Nat) : Except Fault (Vector Float n) := do
  (← t.location node).center

/-! ## From locations to nodes -/

/-- A node together with its level. -/
structure Found where
  /-- The node. -/
  node : Nat
  /-- The number of steps from the root to the node. -/
  level : Nat
deriving DecidableEq, Repr

/-- Goes down from a node along `path` as far as there are children. -/
def descend (t : Tree n) (found : Found) : (path : List Nat) → Except Fault Found
  | [] => .ok found
  | position :: path => do
    match ← t.child found.node position with
    | none => return found
    | some c => descend t ⟨c, ← Bounded.level (found.level + 1)⟩ path

/-- The deepest node on the way to `l`: the node at `l`, or the leaf that contains it. -/
def deepestAt (t : Tree n) (l : Location n) : Except Fault Found :=
  t.descend ⟨0, 0⟩ l.path

/-- The node at `l`, if the tree is refined that deep. -/
def nodeAt (t : Tree n) (l : Location n) : Except Fault (Option Nat) := do
  let found ← t.deepestAt l
  return if found.level = l.level then some found.node else none

/-- The deepest node, on the levels that locations have, that contains `point`, if the point lies in the unit frame. -/
def leafAt (t : Tree n) (point : Vector Float n) : Except Fault (Option Nat) := do
  match ← Location.ofPoint? point (maxLevel n) with
  | none => return none
  | some l => return some (← t.deepestAt l).node

end Orthtree.Tree
