import Orthtree.Bounded
import Orthtree.Location.Descent

/-!
# The grid of a level

The nodes of level `k` form a grid of `2 ^ k` cells along each axis.  `ofCoordinates` finds the location of a cell by
going down, from the highest digit of the coordinates to the lowest, to the child on the side that the digits name.
`shift` moves a cell along the grid; what leaves the grid has no location.
-/

namespace Orthtree.Location

variable {n : Nat}

/-- Digit `k` of every coordinate. -/
def digits (xs : Vector Nat n) (k : Nat) : Vector Nat n := xs.map fun x => x / 2 ^ k % 2

/-- Goes down to the child that digit `k` of the coordinates names. -/
def pushDigits (xs : Vector Nat n) (l : Location n) (k : Nat) : Except Fault (Location n) := do
  l.push (← Corner.toChild (digits xs k))

/-- The location of a cell in the grid of `level`. -/
def ofCoordinates (xs : Vector Nat n) (level : Nat) : Except Fault (Location n) :=
  if maxLevel n < level then
    .error (.levelTooDeep level (maxLevel n))
  else if xs.all (· < 2 ^ level) then
    (List.range level).reverse.foldlM (pushDigits xs) (root n)
  else
    .error (.coordinates xs.toList (2 ^ level) level)

/-- The coordinate `x` moved by `dx`, if it stays below `extent`. -/
def moveCoordinate (extent x : Nat) (dx : Int) : Option Nat :=
  (if 0 ≤ dx then Bounded.add? x dx.toNat else Bounded.sub? x dx.natAbs).filter (· < extent)

/-- Moves a cell along one axis, if it stays in the grid of `extent` cells along each axis. -/
def moveAlong (extent : Nat) (offset : Vector Int n) (cell : Vector Nat n) :
    Fin n → Option (Vector Nat n)
  | ⟨d, hd⟩ => (moveCoordinate extent cell[d] offset[d]).map fun x => cell.set d x hd

/-- The cell `offset` cells away, axis after axis, if it lies in the grid of `extent` cells along each axis. -/
def moveCell (extent : Nat) (cell : Vector Nat n) (offset : Vector Int n) : Option (Vector Nat n) :=
  (List.finRange n).foldlM (moveAlong extent offset) cell

/-- The location `offset` cells away on the grid of the same level, if it lies in the grid. -/
def shift (l : Location n) (offset : Vector Int n) : Except Fault (Option (Location n)) := do
  let extent ← Bounded.bit l.level
  match moveCell extent (← l.coordinates) offset with
  | none => return none
  | some cell => return some (← ofCoordinates cell l.level)

/-! ## Coordinates in 32 bits -/

/-- The cell of a location in 32-bit numbers.  Along two axes or more no level needs more bits. -/
def coordinates32 (l : Location n) : Except Fault (Vector UInt32 n) := do
  return (← l.coordinates).map UInt32.ofNat

/-- The location of a cell, given in 32-bit numbers, in the grid of `level`. -/
def ofCoordinates32 (xs : Vector UInt32 n) (level : Nat) : Except Fault (Location n) :=
  ofCoordinates (xs.map UInt32.toNat) level

/-! ## Cells -/

theorem coordinates_of_supported (h : Corner.supported n = true) (l : Location n) :
    l.coordinates = .ok l.cell := by
  simp [coordinates, h]

/-! ## Moving -/

/-- The grid of a level has a 64-bit number of cells along each axis. -/
theorem two_pow_level_le (l : Location n) : 2 ^ l.level ≤ Bounded.countLimit :=
  Nat.pow_le_pow_right Nat.two_pos (Nat.le_of_lt l.level_lt)

/-- Moving a coordinate in 64-bit numbers is exact: only the end of the grid stops it. -/
theorem moveCoordinate_eq_some_iff {extent x y : Nat} {dx : Int}
    (h : extent ≤ Bounded.countLimit) :
    moveCoordinate extent x dx = some y ↔ (y : Int) = x + dx ∧ y < extent := by
  rw [moveCoordinate, Option.filter_eq_some_iff, decide_eq_true_iff]
  apply and_congr_left
  intro hy
  split
  · next hdx =>
    rw [Bounded.add?_eq_some_iff]
    omega
  · next hdx =>
    rw [Bounded.sub?_eq_some_iff]
    omega

/-- Moving along one axis is exact, and changes the coordinate of that axis alone. -/
theorem moveAlong_eq_some_iff {extent d : Nat} {offset : Vector Int n} {cell ys : Vector Nat n}
    (h : extent ≤ Bounded.countLimit) (hd : d < n) :
    moveAlong extent offset cell ⟨d, hd⟩ = some ys ↔
      ∃ y : Nat, ((y : Int) = cell[d] + offset[d] ∧ y < extent) ∧ cell.set d y hd = ys := by
  simp only [moveAlong, Option.map_eq_some_iff, moveCoordinate_eq_some_iff h]

end Orthtree.Location
