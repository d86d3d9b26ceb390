import Orthtree.Snapshot.Basic
import Orthtree.Tree.Traversal

/-!
# Taking and restoring snapshots

`snapshot` records a compact tree, and `restore` makes a tree of a record.  A record is accepted if every group but the
root's is owned by a node whose first child begins the group, every first child begins a group owned by its node, and
every node is reached from the root.  The last of these is decided by writing the links into a tree and walking it:
since they are mutual, the walk meets no node twice, though it may miss circles that hang together by themselves.
-/

namespace Orthtree

/-- Restoring may be refused by a fault or end in an error. -/
abbrev Restore := ExceptT SnapshotError (Except Fault)

namespace Snapshot

/-- The error for links that are not those of a tree. -/
def reject {α : Type} (what : Corruption) : Restore α := throw (.corrupt what)

/-! ## Checks -/

/-- The number of groups of the snapshot, if its dimension is `n` and its sizes belong together. -/
def checkSizes (n : Nat) (s : Snapshot) : Restore Nat := do
  if s.dimension ≠ n then
    throw (.dimensionMismatch n s.dimension)
  else if s.firstChildren.size ≠ s.size then
    reject (.sizeMismatch s.size s.firstChildren.size)
  else if Tree.nodeLimit ≤ s.size then
    reject (.tooManyNodes s.size)
  else
    -- From here on the size is that of a table, so counting in groups stays within 64 bits.
    let groups ← Group.covering? n s.size
    if s.size = 0 ∨ (← Group.nodeCount? n groups) ≠ s.size then
      reject (.partialGroup s.size)
    else if s.parents.size ≠ groups then
      reject (.parentCount groups s.parents.size)
    else
      return groups

/-- The root group has no parent.  It must have a place in the table of parents. -/
def checkRoot (s : Snapshot) : Restore Unit :=
  match s.parents[0]? with
  | none => throwThe Fault .outOfRange
  | some (some parent) => reject (.rootOwned parent)
  | some none => pure ()

/-- `group` is owned by a node whose first child begins the group. -/
def checkGroup (n : Nat) (s : Snapshot) (group : Nat) : Restore Unit := do
  match s.parents.getD group none with
  | none => reject (.orphan group)
  | some parent =>
    let first ← Group.first n group
    if s.firstChildren.getD parent none = some first then
      pure ()
    else
      reject (.strayParent parent group first)

/-- `node` is a leaf, or its first child begins a group owned by it. -/
def checkNode (n : Nat) (s : Snapshot) (node : Nat) : Restore Unit := do
  match s.firstChildren.getD node none with
  | none => pure ()
  | some first =>
    let group := Group.ofNode n first
    if group ≠ 0 ∧ (← Group.first n group) = first ∧ s.parents.getD group none = some node then
      pure ()
    else
      reject (.strayChild first node)

/-- Every recorded group and node passes its checks. -/
def checkLinks (n : Nat) (s : Snapshot) : Restore Unit := do
  checkRoot s
  (List.range' 1 (s.parents.size - 1)).forM (checkGroup n s)
  (List.range s.firstChildren.size).forM (checkNode n s)

/-! ## Restoring -/

/-- Writes the links of the snapshot into a tree that holds the root alone.  They fill its lowest `groups` groups. -/
def load {n : Nat} (s : Snapshot) (groups : Nat) : Edit n Unit := do
  (List.range s.parents.size).forM fun group =>
    Tree.setOwner group (s.parents.getD group none)
  (List.range s.firstChildren.size).forM fun node =>
    Tree.setFirstChild node (s.firstChildren.getD node none)
  modify fun t => { t with size := s.size, firstFree := groups, groupEnd := groups }

/-- The tree that `s` records, with room for `capacity` nodes, or for just its own. -/
def restore (n : Nat) (s : Snapshot) (capacity : Option Nat) : Restore (Tree n) := do
  let groups ← checkSizes n s
  let capacity := capacity.getD s.size
  if capacity < s.size then
    throw (.insufficientCapacity s.size capacity)
  else
    checkLinks n s
    let ((), t) ← (← Tree.ofCapacity n capacity).perform (load s groups)
    let reachable := (← t.depthFirst).length
    if reachable = s.size then
      return t
    else
      reject (.unreachable reachable s.size)

end Snapshot

namespace Tree

variable {n : Nat}

/-- The links of the lowest groups, as many as the nodes in use would fill. -/
def record (t : Tree n) : Except Fault Snapshot := do
  let parents ← (List.range (Group.covering n t.size)).mapM t.ownerAt
  let firstChildren ← (List.range t.size).mapM t.firstChildAt
  return ⟨n, t.size, parents.toArray, firstChildren.toArray⟩

/-- The links of a compact tree. -/
def snapshot (t : Tree n) : Restore Snapshot := do
  if t.isCompact then t.record else throw .notCompact

end Tree

end Orthtree
