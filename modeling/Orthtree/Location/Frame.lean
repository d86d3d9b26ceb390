import Orthtree.Location.Grid

/-!
# The unit frame

The root covers the interval from 0 to 1 along each axis, and a node of level `k` a part of length `1 / 2 ^ k`.  Points
and centers are given in this frame.
-/

namespace Orthtree

/-- The length of a node of `level`, where the root has length 1. -/
def unitLength (level : Nat) : Float := 1.0 / (UInt64.ofNat (2 ^ level)).toFloat

/-- The length of a node of `level`, for levels that a 64-bit word can count. -/
def nodeLength (level : Nat) : Except Fault Float := do
  return 1.0 / (UInt64.ofNat (← Bounded.bit level)).toFloat

namespace Location

variable {n : Nat}

/-- The length of the node, where the root has length 1. -/
def length (l : Location n) : Float := unitLength l.level

/-- The center of the node. -/
def center (l : Location n) : Except Fault (Vector Float n) := do
  let cell ← l.coordinates
  return cell.map fun x => ((UInt64.ofNat x).toFloat + 0.5) * l.length

/-- The number of the cell, out of `extent` along one axis, that holds `p`.  The upper end belongs to the last cell. -/
def cellOf (extent : Nat) (p : Float) : Nat :=
  min (p * (UInt64.ofNat extent).toFloat).toUInt64.toNat (extent - 1)

/-- The location at `level` of the node that holds `point`, if the point lies in the frame. -/
def ofPoint? (point : Vector Float n) (level : Nat) : Except Fault (Option (Location n)) :=
  if maxLevel n < level then
    .error (.levelTooDeep level (maxLevel n))
  else if point.all fun p => 0.0 ≤ p && p ≤ 1.0 then do
    return some (← ofCoordinates (point.map (cellOf (2 ^ level))) level)
  else
    .ok none

end Location

end Orthtree
