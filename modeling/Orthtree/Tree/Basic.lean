import Orthtree.Corner
import Orthtree.Tree.Group
import Orthtree.Tree.Links

/-!
# Trees

A tree along `n` axes holds the graph of a hierarchical grid: nodes in sibling groups, and the links between them.  Room
for nodes is fixed when the tree is made; a group that no node owns is free, except group 0, which holds the root.  The
tree also keeps the number of its nodes, the lowest free group and one past the highest group in use.

Queries look at one tree and may be refused (`Except Fault`).  Edits change a tree (`Edit`); a refused edit keeps the
tree as it was when the refusal came.
-/

namespace Orthtree

/-- A hierarchical grid along `n` axes. -/
structure Tree (n : Nat) where
  /-- The links between nodes and groups. -/
  links : Links
  /-- The number of nodes in use, the root included. -/
  size : Nat
  /-- The lowest free group, or the number of groups if none is free. -/
  firstFree : Nat
  /-- One past the highest group in use. -/
  groupEnd : Nat
deriving DecidableEq

/-- A change of a tree that may be refused. -/
abbrev Edit (n : Nat) := EStateM Fault (Tree n)

namespace Tree

variable {n : Nat}

/-! ## Making trees -/

/-- Node indices lie below this number, which itself stands for no node. -/
def nodeLimit : Nat := Bounded.indexLimit - 1

theorem lt_indexLimit {x : Nat} (h : x < nodeLimit) : x < Bounded.indexLimit :=
  Nat.lt_of_lt_of_le h (Nat.sub_le _ _)

theorem lt_countLimit {x : Nat} (h : x < nodeLimit) : x < Bounded.countLimit :=
  Nat.lt_trans (lt_indexLimit h) (by decide)

/-- The tree that holds the root alone, in the given number of groups. -/
def rootOnly (n groups : Nat) : Tree n where
  links := .empty groups (Group.nodeCount n groups)
  size := 1
  firstFree := 1
  groupEnd := 1

/-- A tree that holds the root alone, with room for `capacity` nodes, rounded up to whole groups. -/
def ofCapacity (n capacity : Nat) : Except Fault (Tree n) := do
  if Corner.supported n then
    if capacity = 0 then
      throw .noRoom
    else
      let groups ← Group.covering? n capacity
      let nodes ← Group.nodeCount? n groups
      if nodes < nodeLimit then
        if groups ≤ nodes then return rootOnly n groups else throw .groupLimit
      else
        throw (.capacityLimit nodes nodeLimit)
  else
    throw (.dimension n)

/-! ## Capacity -/

/-- The greatest number of nodes. -/
def capacity (t : Tree n) : Nat := t.links.nodeCapacity

/-- The greatest number of groups. -/
def groupCapacity (t : Tree n) : Nat := t.links.groupCapacity

/-- The nodes in use fill exactly the lowest groups. -/
def isCompact (t : Tree n) : Bool := t.firstFree = Group.covering n t.size

/-! ## Links -/

/-- The node that owns `group`, whose link must have a place in the tables. -/
def ownerAt (t : Tree n) (group : Nat) : Except Fault (Option Nat) :=
  if group < t.groupCapacity then .ok (t.links.owner group) else .error .outOfRange

/-- The first child of `node`, whose link must have a place in the tables. -/
def firstChildAt (t : Tree n) (node : Nat) : Except Fault (Option Nat) :=
  if node < t.capacity then .ok (t.links.firstChild node) else .error .outOfRange

/-- Refuses nodes past the capacity. -/
def checkNode (t : Tree n) (node : Nat) : Except Fault Unit :=
  if node < t.capacity then .ok () else .error (.nodeRange node t.capacity)

/-- Refuses groups past the capacity. -/
def checkGroup (t : Tree n) (group : Nat) : Except Fault Unit :=
  if group < t.groupCapacity then .ok () else .error (.groupRange group t.groupCapacity)

/-! ## Queries about one node or group -/

/-- `group` holds nodes of the tree. -/
def isInUse (t : Tree n) (group : Nat) : Except Fault Bool := do
  t.checkGroup group
  if group = 0 then return true else return (← t.ownerAt group).isSome

/-- `node` is a node of the tree. -/
def contains (t : Tree n) (node : Nat) : Except Fault Bool :=
  if node < t.capacity then t.isInUse (Group.ofNode n node) else .ok false

/-- The first child of `node`, which a leaf does not have. -/
def firstChild (t : Tree n) (node : Nat) : Except Fault (Option Nat) := do
  t.checkNode node
  t.firstChildAt node

/-- `node` has no children. -/
def isLeaf (t : Tree n) (node : Nat) : Except Fault Bool := do
  return (← t.firstChild node).isNone

/-- The parent of `node`, which the root does not have. -/
def parent (t : Tree n) (node : Nat) : Except Fault (Option Nat) := do
  t.checkNode node
  if node = 0 then return none else t.ownerAt (Group.ofNode n node)

/-- The children of `node`, none for a leaf. -/
def children (t : Tree n) (node : Nat) : Except Fault Span := do
  match ← t.firstChild node with
  | none => return .empty
  | some first => Group.run first (2 ^ n)

/-- The child of `node` at `position`, which a leaf does not have. -/
def child (t : Tree n) (node position : Nat) : Except Fault (Option Nat) := do
  if position < 2 ^ n then
    match ← t.firstChild node with
    | none => return none
    | some first => return some (← Bounded.index (first + position))
  else
    throw (.childPosition position (2 ^ n))

/-- The group that holds the children of `node`, which a leaf does not have. -/
def childrenGroup (t : Tree n) (node : Nat) : Except Fault (Option Nat) := do
  return (← t.firstChild node).map (Group.ofNode n)

/-- The number of children of `node`. -/
def childCount (t : Tree n) (node : Nat) : Except Fault Nat := do
  if ← t.isLeaf node then return 0 else return 2 ^ n

/-- The position of `node` among its siblings, which the root does not have. -/
def positionInParent (t : Tree n) (node : Nat) : Except Fault (Option Nat) := do
  t.checkNode node
  return if node = 0 then none else some ((node - 1) % 2 ^ n)

/-- `node` and its siblings. -/
def siblings (t : Tree n) (node : Nat) : Except Fault Span := do
  t.checkNode node
  Group.members n (Group.ofNode n node)

/-! ## Steps of an edit -/

/-- Asks the tree that is being edited. -/
def ask {α : Type} (query : Tree n → Except Fault α) : Edit n α := fun t =>
  match query t with
  | .ok a => .ok a t
  | .error e => .error e t

/-- Makes `owner` the node that owns `group`. -/
def setOwner (group : Nat) (owner : Option Nat) : Edit n Unit := fun t =>
  if group < t.groupCapacity then
    .ok () { t with links := t.links.setOwner group owner }
  else
    .error .outOfRange t

/-- Makes `child` the first child of `node`. -/
def setFirstChild (node : Nat) (child : Option Nat) : Edit n Unit := fun t =>
  if node < t.capacity then
    .ok () { t with links := t.links.setFirstChild node child }
  else
    .error .outOfRange t

/-- Exchanges the links down from two nodes. -/
def exchangeChildren (a b : Nat) : Edit n Unit := fun t =>
  if a < t.capacity ∧ b < t.capacity then
    .ok () { t with links := t.links.exchangeChildren a b }
  else
    .error .outOfRange t

/-- The answer of an edit and the tree it leaves, or the fault that refused it. -/
def perform {α : Type} (t : Tree n) (edit : Edit n α) : Except Fault (α × Tree n) :=
  match edit t with
  | .ok a t => .ok (a, t)
  | .error e _ => .error e

end Tree

end Orthtree
