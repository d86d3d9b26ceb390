/-!
# Faults

Every operation of the library that can be refused is refused for one of the causes listed here.  A fault carries the
numbers that its text mentions, and `Fault.message` is the only place where that text is written.
-/

namespace Orthtree

/-- A cause for which an operation is refused. -/
inductive Fault
  /-- A number leaves the range of its type. -/
  | overflow
  /-- An index lies past the end of its table. -/
  | outOfRange
  /-- A walk along links takes more steps than there are nodes. -/
  | endless
  /-- The groups are not in depth-first order after sorting. -/
  | unsorted
  /-- A child number has more bits than there are axes. -/
  | cornerNumber
  /-- Trees and packed numbers exist along 1, 2 or 3 axes. -/
  | dimension (axes : Nat)
  /-- Corners exist along 1, 2 or 3 axes. -/
  | cornerDimension (axes : Nat)
  /-- A component of a corner is neither 0 nor 1. -/
  | notCorner (offset : List Nat)
  /-- A step down names a child that does not exist. -/
  | stepPosition (position count axes : Nat)
  /-- A location already has the deepest level. -/
  | locationFull (location : String) (deepest : Nat)
  /-- The root has no parent to go to. -/
  | popRoot
  /-- A location has no step at this level. -/
  | stepLevel (level deepest : Nat)
  /-- Locations do not go this deep. -/
  | levelTooDeep (level deepest : Nat)
  /-- A coordinate lies outside the grid of its level. -/
  | coordinates (coordinates : List Nat) (extent level : Nat)
  /-- Stencils exist along 1, 2 or 3 axes. -/
  | stencilDimension (dimension : Nat)
  /-- The rank of a stencil is at least 1. -/
  | stencilRankZero
  /-- The rank of a stencil is at most its dimension. -/
  | stencilRank (rank dimension : Nat)
  /-- A stencil has no neighbor at this position. -/
  | stencilPosition (position count dimension rank : Nat)
  /-- A stencil is used along the wrong number of axes. -/
  | stencilAxes (axes dimension : Nat)
  /-- A tree without room for its root. -/
  | noRoom
  /-- A tree with more nodes than there are indices. -/
  | capacityLimit (capacity limit : Nat)
  /-- A tree with more groups than nodes. -/
  | groupLimit
  /-- A uniform tree deeper than its capacity. -/
  | uniformLevel (level capacityLevel : Nat)
  /-- A uniform tree found no free group for the children of a node. -/
  | uniformFull (node : Nat)
  /-- No such node is stored. -/
  | nodeRange (node capacity : Nat)
  /-- No such sibling group is stored. -/
  | groupRange (group capacity : Nat)
  /-- A node has no child at this position. -/
  | childPosition (position count : Nat)
  /-- A free node cannot be refined. -/
  | refineFree (node : Nat)
  /-- A node with children cannot be refined. -/
  | refineBranch (node : Nat)
  /-- A free node cannot be coarsened. -/
  | coarsenFree (node : Nat)
  /-- A leaf cannot be coarsened. -/
  | coarsenLeaf (node : Nat)
  /-- A node with grandchildren cannot be coarsened. -/
  | coarsenDeep (node : Nat)
  /-- The root group keeps its place. -/
  | swapRoot
  /-- A group is not exchanged with itself. -/
  | swapSelf (group : Nat)
  /-- A free node has no level. -/
  | levelOfFree (node : Nat)
  /-- A free node has no location. -/
  | locationOfFree (node : Nat)
deriving DecidableEq, Repr

/-- The text of a node's index. -/
def nodeText (node : Nat) : String := s!"NodeIdx({node})"

/-- The text of a sibling group's index. -/
def groupText (group : Nat) : String := s!"SiblingGroupIdx({group})"

/-- The text of a list of numbers: in brackets, separated by a comma and a blank. -/
def listText (numbers : List Nat) : String :=
  "[" ++ ", ".intercalate (numbers.map fun x => s!"{x}") ++ "]"

namespace Fault

/-- The text that reports a fault. -/
def message : Fault → String
  | overflow => "a number exceeds its range"
  | outOfRange => "an index lies past the end of its table"
  | endless => "the links of the tree do not end"
  | unsorted => "the groups are not in depth-first order"
  | cornerNumber => "the child number has more bits than there are axes"
  | dimension axes => s!"ambient dimension {axes} is not supported (expected 1, 2 or 3)"
  | cornerDimension axes => s!"ambient dimension {axes} is not supported"
  | notCorner offset => s!"child offset {listText offset} is not a corner"
  | stepPosition position count axes =>
      s!"position in parent {position} out of bounds [0, {count}) (N = {axes})"
  | locationFull location deepest =>
      s!"location {location} is full: level equals max level {deepest}"
  | popRoot => "cannot pop the root from a location code"
  | stepLevel level deepest => s!"level {level} out of bounds [1, {deepest}]"
  | levelTooDeep level deepest => s!"level {level} exceeds max level {deepest}"
  | coordinates xs extent level =>
      s!"coordinates {listText xs} out of bounds [0, {extent}) at level {level}"
  | stencilDimension d => s!"dimension {d} out of bounds [1, 3]"
  | stencilRankZero => "manifold rank must be at least 1"
  | stencilRank rank d => s!"manifold rank {rank} exceeds dimension {d}"
  | stencilPosition position count d rank =>
      s!"neighbor position {position} out of bounds [0, {count}) for manifold ({d}, {rank})"
  | stencilAxes axes d => s!"offset requested in {axes} dimensions for a {d}-dimensional manifold"
  | noRoom => "a tree needs room for at least the root"
  | capacityLimit capacity limit => s!"node capacity {capacity} exceeds the arena limit {limit}"
  | groupLimit => "assertion failed: group_capacity <= node_capacity"
  | uniformLevel level capacityLevel => s!"level {level} exceeds capacity level {capacityLevel}"
  | uniformFull node => s!"uniform tree ran out of capacity refining {nodeText node}"
  | nodeRange node capacity => s!"node {nodeText node} out of bounds [0, {capacity})"
  | groupRange group capacity => s!"sibling group {groupText group} out of bounds [0, {capacity})"
  | childPosition position count => s!"position in parent {position} out of bounds [0, {count})"
  | refineFree node => s!"cannot refine free node {nodeText node}"
  | refineBranch node => s!"cannot refine node {nodeText node}: it already has children"
  | coarsenFree node => s!"cannot coarsen free node {nodeText node}"
  | coarsenLeaf node => s!"cannot coarsen leaf {nodeText node}"
  | coarsenDeep node => s!"cannot coarsen node {nodeText node}: its children have children"
  | swapRoot => "the root group cannot be swapped"
  | swapSelf group => s!"cannot swap group {groupText group} with itself"
  | levelOfFree node => s!"free node {nodeText node} has no level"
  | locationOfFree node => s!"free node {nodeText node} has no location"

end Fault

/-- A query that goes on with another one is answered iff both are. -/
theorem bind_eq_ok_iff {α β : Type} {query : Except Fault α} {next : α → Except Fault β} {b : β} :
    query >>= next = .ok b ↔ ∃ a, query = .ok a ∧ next a = .ok b := by
  cases query with
  | error e => simp [bind, Except.bind]
  | ok a => simp [bind, Except.bind]

end Orthtree
