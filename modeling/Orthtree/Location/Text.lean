import Orthtree.Location.Basic

/-!
# The text of a location

A location is written with its number, its level, its cell and its path, as in `[id: 22, lvl: 2, xs: {2, 1}, pip: {1,2}]`.
-/

namespace Orthtree.Location

variable {n : Nat}

/-- The cell of a location.  Below the root it is read off corners, so the axes must be ones that corners have. -/
def coordinates (l : Location n) : Except Fault (Vector Nat n) :=
  if l.isRoot || Corner.supported n then .ok l.cell else .error (.cornerDimension n)

/-- Numbers in braces, separated by `separator`. -/
def bracedText (separator : String) (numbers : List Nat) : String :=
  "\x7b" ++ separator.intercalate (numbers.map fun x => s!"{x}") ++ "\x7d"

/-- The text of a location. -/
def text (l : Location n) : Except Fault String := do
  let cell ← l.coordinates
  return s!"[id: {l.raw}, lvl: {l.level}, xs: " ++ bracedText ", " cell.toList
    ++ ", pip: " ++ bracedText "," l.path ++ "]"

/-- The text of a location as a record of one number. -/
def recordText (l : Location n) : String :=
  "LocationCode \x7b value: " ++ s!"{l.raw}" ++ " \x7d"

end Orthtree.Location
