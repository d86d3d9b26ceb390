import Orthtree.Corner
import Orthtree.Stencil.Count

/-!
# Stencils

A stencil of rank `r` lists the neighbors that a node shares an element with: a face for rank 1, an edge for rank 2, a
corner for the highest rank.  The neighbors are numbered by positions, and each position stands for an offset of -1, 0
or 1 node lengths along each axis.

The offsets are a table, and so are the children of the neighbor that touch the node, which are those on the side from
which the offset points back.  The opposite position is the one with the negated offset.
-/

namespace Orthtree

/-- A kind of element that neighbors share. -/
structure Stencil where
  /-- The number of axes. -/
  dimension : Nat
  /-- The number of axes along which the neighbors lie to one side. -/
  rank : Nat
  dimension_le : dimension ≤ 3
  one_le_rank : 1 ≤ rank
  rank_le : rank ≤ dimension
deriving DecidableEq, Repr

namespace Stencil

/-! ## Tables -/

/-- The offsets of the neighbors, by position.  Axes past the dimension have offset 0. -/
def offsets : (dimension rank : Nat) → List (Vector Int 3)
  | 1, 1 => [#v[-1, 0, 0], #v[1, 0, 0]]
  | 2, 1 => [#v[-1, 0, 0], #v[1, 0, 0], #v[0, -1, 0], #v[0, 1, 0]]
  | 2, 2 => [#v[-1, -1, 0], #v[1, -1, 0], #v[-1, 1, 0], #v[1, 1, 0]]
  | 3, 1 => [#v[-1, 0, 0], #v[1, 0, 0], #v[0, -1, 0], #v[0, 1, 0], #v[0, 0, -1], #v[0, 0, 1]]
  | 3, 2 =>
    [#v[-1, -1, 0], #v[1, -1, 0], #v[-1, 1, 0], #v[1, 1, 0],
     #v[-1, 0, -1], #v[1, 0, -1], #v[0, -1, -1], #v[0, 1, -1],
     #v[-1, 0, 1], #v[1, 0, 1], #v[0, -1, 1], #v[0, 1, 1]]
  | 3, 3 =>
    [#v[-1, -1, -1], #v[1, -1, -1], #v[-1, 1, -1], #v[1, 1, -1],
     #v[-1, -1, 1], #v[1, -1, 1], #v[-1, 1, 1], #v[1, 1, 1]]
  | _, _ => []

/-- The children of the neighbors that touch the node, by position, in ascending order. -/
def facingRows : (dimension rank : Nat) → List (List Nat)
  | 1, 1 => [[1], [0]]
  | 2, 1 => [[1, 3], [0, 2], [2, 3], [0, 1]]
  | 2, 2 => [[3], [2], [1], [0]]
  | 3, 1 => [[1, 3, 5, 7], [0, 2, 4, 6], [2, 3, 6, 7], [0, 1, 4, 5], [4, 5, 6, 7], [0, 1, 2, 3]]
  | 3, 2 =>
    [[3, 7], [2, 6], [1, 5], [0, 4],
     [5, 7], [4, 6], [6, 7], [4, 5],
     [1, 3], [0, 2], [2, 3], [0, 1]]
  | 3, 3 => [[7], [6], [5], [4], [3], [2], [1], [0]]
  | _, _ => []

/-- Refuses dimensions other than 1, 2 and 3, and rank 0. -/
def check (dimension rank : Nat) : Except Fault Unit :=
  if ¬(1 ≤ dimension ∧ dimension ≤ 3) then .error (.stencilDimension dimension)
  else if rank = 0 then .error .stencilRankZero
  else .ok ()

/-- The offsets of the neighbors, by position; none if the rank exceeds the dimension. -/
def offsetTable (dimension rank : Nat) : Except Fault (List (Vector Int 3)) := do
  check dimension rank
  return offsets dimension rank

/-- The positions of the negated offsets for edges of a cube. -/
def oppositeEdge : List Nat := [3, 2, 1, 0, 9, 8, 11, 10, 5, 4, 7, 6]

/-- The position of the neighbor on the other side of the node. -/
def oppositePosition (dimension rank position : Nat) : Except Fault Nat := do
  check dimension rank
  let count ← sameLevelCount dimension rank
  if position < count then
    match rank with
    | 1 => return position ^^^ 1
    | 2 => (oppositeEdge[position]?).elim (.error .outOfRange) .ok
    | _ => return 2 ^ dimension - 1 - position
  else
    throw (.stencilPosition position count dimension rank)

/-- The children of the neighbor at `position` that touch the node, in ascending order. -/
def facingTable (dimension rank position : Nat) : Except Fault (List Nat) := do
  check dimension rank
  if dimension < rank then
    throw (.stencilRank rank dimension)
  else
    match (facingRows dimension rank)[position]? with
    | some children => return children
    | none => throw .outOfRange

/-! ## Stencils of nodes -/

/-- The stencil of the given rank. -/
def ofRank (dimension rank : Nat) : Except Fault Stencil :=
  if hd : 1 ≤ dimension ∧ dimension ≤ 3 then
    if hz : rank = 0 then .error .stencilRankZero
    else if hr : rank ≤ dimension then
      .ok ⟨dimension, rank, hd.2, Nat.one_le_iff_ne_zero.2 hz, hr⟩
    else .error (.stencilRank rank dimension)
  else .error (.stencilDimension dimension)

/-- Neighbors across faces. -/
def face (dimension : Nat) : Except Fault Stencil := ofRank dimension 1

/-- Neighbors across edges; in the plane these are the corners. -/
def edge (dimension : Nat) : Except Fault Stencil := ofRank dimension 2

/-- Neighbors across corners. -/
def corner (dimension : Nat) : Except Fault Stencil := ofRank dimension dimension

/-- All stencils of a dimension, faces first. -/
def all (dimension : Nat) : Except Fault (List Stencil) :=
  if dimension ≤ 3 then (List.range dimension).mapM fun r => ofRank dimension (r + 1)
  else .error (.stencilDimension dimension)

/-- The offsets of the neighbors, by position. -/
def table (s : Stencil) : List (Vector Int 3) := offsets s.dimension s.rank

/-- The number of neighbors of the same size. -/
def size (s : Stencil) : Nat := s.table.length

/-- The positions of the neighbors. -/
def positions (s : Stencil) : List Nat := List.range s.size

/-- The offset of the neighbor at `position`. -/
def offset (s : Stencil) (position : Nat) : Except Fault (Vector Int 3) :=
  (s.table[position]?).elim (.error .outOfRange) .ok

/-- The offset of the neighbor at `position` along `n` axes, which must be those of the stencil. -/
def offsetAlong (s : Stencil) (n position : Nat) : Except Fault (Vector Int n) := do
  if n = s.dimension then
    let offset ← s.offset position
    return Vector.ofFn fun d => offset[d.val]?.getD 0
  else
    throw (.stencilAxes n s.dimension)

/-- The position of the neighbor on the other side of the node. -/
def opposite (s : Stencil) (position : Nat) : Except Fault Nat :=
  oppositePosition s.dimension s.rank position

/-- The children of the neighbor at `position` that touch the node, in ascending order. -/
def facingAt (s : Stencil) (position : Nat) : Except Fault (List Nat) :=
  facingTable s.dimension s.rank position

/-- Stencils are ordered by dimension, then by rank. -/
def compare (s t : Stencil) : Ordering :=
  (Ord.compare s.dimension t.dimension).then (Ord.compare s.rank t.rank)

end Stencil

end Orthtree
