import Orthtree.Bounded

/-!
# Snapshots

A snapshot is a record of the links of a compact tree, without the room that the tree had for more nodes.  It may come
from anywhere, so nothing is promised about its contents but the widths of its numbers.
-/

namespace Orthtree

/-- A record of the links of a tree. -/
structure Snapshot where
  /-- The number of axes. -/
  dimension : Nat
  /-- The number of nodes. -/
  size : Nat
  /-- The node that owns each group; none for the root group. -/
  parents : Array (Option Nat)
  /-- The first child of each node; none for leaves. -/
  firstChildren : Array (Option Nat)
deriving DecidableEq, Repr

namespace Snapshot

/-- The natural number that is equal to `x` and lies below `limit`. -/
def natBelow? (limit : Nat) (x : Int) : Option Nat :=
  if 0 ≤ x ∧ x < limit then some x.toNat else none

/-- A link given as an integer, which must fit an index; an absent link stays absent. -/
def link? : Option Int → Option (Option Nat)
  | none => some none
  | some x => (natBelow? Bounded.indexLimit x).map some

/-- The snapshot with the given numbers, if the dimension fits 8 bits, the size 64 and every link 32. -/
def ofInts? (dimension size : Int) (parents firstChildren : List (Option Int)) :
    Option Snapshot := do
  return {
    dimension := ← natBelow? Bounded.byteLimit dimension
    size := ← natBelow? Bounded.countLimit size
    parents := (← parents.mapM link?).toArray
    firstChildren := (← firstChildren.mapM link?).toArray }

end Snapshot

/-! ## Errors -/

/-- What is wrong with the links of a snapshot. -/
inductive Corruption
  /-- The size is not the number of first children. -/
  | sizeMismatch (size entries : Nat)
  /-- There are more nodes than indices. -/
  | tooManyNodes (size : Nat)
  /-- The nodes do not fill whole groups. -/
  | partialGroup (size : Nat)
  /-- The number of groups is not the number of parents. -/
  | parentCount (expected found : Nat)
  /-- The root group has a parent. -/
  | rootOwned (parent : Nat)
  /-- A group has no parent. -/
  | orphan (group : Nat)
  /-- The first child of a group's parent is not the group's first node. -/
  | strayParent (parent group first : Nat)
  /-- A first child does not begin a group whose parent is the node. -/
  | strayChild (first node : Nat)
  /-- Some nodes cannot be reached from the root. -/
  | unreachable (reachable size : Nat)
deriving DecidableEq, Repr

/-- The text that reports what is wrong. -/
def Corruption.message : Corruption → String
  | sizeMismatch size entries => s!"size {size} disagrees with {entries} first children"
  | tooManyNodes size => s!"{size} nodes exceed the arena's index range"
  | partialGroup size => s!"{size} is not a whole number of sibling groups"
  | parentCount expected found => s!"expected {expected} group parents, found {found}"
  | rootOwned parent => s!"root group has parent {nodeText parent}"
  | orphan group => s!"group {groupText group} has no parent"
  | strayParent parent group first =>
      s!"parent {nodeText parent} of group {groupText group} does not point back at {nodeText first}"
  | strayChild first node =>
      s!"first child {nodeText first} of node {node} is not the first node of a group owned by it"
  | unreachable reachable size => s!"only {reachable} of {size} nodes are reachable from the root"

/-- Why a tree has no snapshot, or a snapshot no tree. -/
inductive SnapshotError
  /-- The snapshot is of another dimension. -/
  | dimensionMismatch (expected found : Nat)
  /-- The nodes do not fit the capacity asked for. -/
  | insufficientCapacity (nodes capacity : Nat)
  /-- The tree has free groups below its highest group in use. -/
  | notCompact
  /-- The links are not those of a tree. -/
  | corrupt (what : Corruption)
deriving DecidableEq, Repr

/-- The text that reports the error. -/
def SnapshotError.message : SnapshotError → String
  | dimensionMismatch expected found =>
      s!"cannot restore a {found}-dimensional snapshot into a {expected}-dimensional tree"
  | insufficientCapacity nodes capacity =>
      s!"{nodes} nodes do not fit in a tree with capacity {capacity}"
  | notCompact => "tree has free sibling groups below its last used group; sort it first"
  | corrupt what => s!"corrupt snapshot: {what.message}"

end Orthtree
