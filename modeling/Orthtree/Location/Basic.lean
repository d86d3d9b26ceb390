import Orthtree.Corner
import Orthtree.Span

/-!
# Locations

A location names a node by the path that leads to it from the root, packed into one number.  The root is 1, and going
down to child `p` along `n` axes appends the `n` bits of `p`.  The highest set bit therefore marks the level, and two
locations of one level are ordered along the Z-curve by their numbers.

The invariant `IsCode` is part of the type: every `Location n` is a packed path that fits a 64-bit word.  Two views
describe a location: `path`, the child positions from the root down, and `cell`, its place in the grid of its level.
-/

namespace Orthtree

/-- The deepest level that a packed path along `n` axes can have. -/
def maxLevel (n : Nat) : Nat := (64 - n) / n - 1

/-- No level is as deep as a word has bits. -/
theorem maxLevel_lt (n : Nat) : maxLevel n < 64 := by
  have h := Nat.div_le_self (64 - n) n
  rw [maxLevel]
  omega

/-- The levels of packed paths are counted in 8 bits. -/
theorem boundedLevel_eq {n level : Nat} (h : level ≤ maxLevel n) :
    Bounded.level level = .ok level := by
  have hmax := maxLevel_lt n
  apply Bounded.below_of_lt
  rw [Bounded.byteLimit]
  omega

/-- Without axes nothing lies below the root. -/
theorem pos_of_maxLevel_pos {n : Nat} (h : 0 < maxLevel n) : 0 < n := by
  rcases Nat.eq_zero_or_pos n with rfl | hpos
  · simp [maxLevel] at h
  · exact hpos

/-- The number is a packed path along `n` axes: its highest bit stands on the boundary of a level that fits. -/
def IsCode (n raw : Nat) : Prop :=
  raw ≠ 0 ∧ raw.log2 % n = 0 ∧ raw.log2 / n ≤ maxLevel n

instance (n raw : Nat) : Decidable (IsCode n raw) :=
  inferInstanceAs (Decidable (_ ∧ _ ∧ _))

/-- The path from the root to a node along `n` axes, packed into one number. -/
structure Location (n : Nat) where
  /-- The packed path. -/
  raw : Nat
  /-- The number is a packed path. -/
  isCode : IsCode n raw
deriving DecidableEq

namespace Location

variable {n : Nat}

@[ext]
theorem ext {l k : Location n} (h : l.raw = k.raw) : l = k := by
  cases l; cases k; simp_all

/-- The location of the root. -/
def root (n : Nat) : Location n :=
  ⟨1, by simp [IsCode, Nat.log2_def]⟩

instance : Inhabited (Location n) := ⟨root n⟩

/-- The number of steps from the root. -/
def level (l : Location n) : Nat := l.raw.log2 / n

/-- The location is the root. -/
def isRoot (l : Location n) : Bool := l.raw = 1

/-- The child position entered with the step to `level`. -/
def step (l : Location n) (level : Nat) : Nat :=
  l.raw / 2 ^ (n * (l.level - level)) % 2 ^ n

/-- The child positions from the root down. -/
def path (l : Location n) : List Nat :=
  (List.range l.level).map fun i => l.step (i + 1)

/-- The cell reached from `cell` by going down to child `c`. -/
def cellStep (cell : Vector Nat n) (c : Nat) : Vector Nat n :=
  Vector.ofFn fun d => 2 * cell[d] + (Corner.bits n c)[d]

/-- The place of the node in the grid of its level. -/
def cell (l : Location n) : Vector Nat n :=
  l.path.foldl cellStep (Vector.replicate n 0)

/-- The child position entered with the step to `level`, which must be one of the location's steps. -/
def positionAt (l : Location n) (level : Nat) : Except Fault Nat :=
  if 0 < level ∧ level ≤ l.level then .ok (l.step level) else .error (.stepLevel level l.level)

/-- The order of locations: the order of their numbers. -/
def compare (l k : Location n) : Ordering := Ord.compare l.raw k.raw

theorem raw_ne_zero (l : Location n) : l.raw ≠ 0 := l.isCode.1

theorem level_le (l : Location n) : l.level ≤ maxLevel n := l.isCode.2.2

theorem level_lt (l : Location n) : l.level < 64 := Nat.lt_of_le_of_lt l.level_le (maxLevel_lt n)

/-- The highest bit of a location stands on the boundary of its level. -/
theorem log2_raw (l : Location n) : l.raw.log2 = n * l.level := by
  have h := Nat.div_add_mod l.raw.log2 n
  rw [l.isCode.2.1] at h
  exact h.symm

theorem step_lt (l : Location n) (level : Nat) : l.step level < 2 ^ n :=
  Nat.mod_lt _ (Nat.two_pow_pos n)

@[simp]
theorem length_path (l : Location n) : l.path.length = l.level := by
  simp [path]

theorem lt_of_mem_path {l : Location n} {p : Nat} (h : p ∈ l.path) : p < 2 ^ n := by
  obtain ⟨i, -, rfl⟩ := List.mem_map.1 h
  exact l.step_lt (i + 1)

@[simp]
theorem level_root : (root n).level = 0 := by
  simp [level, root, Nat.log2_def]

@[simp]
theorem path_root : (root n).path = [] := by
  simp [path]

theorem isRoot_iff {l : Location n} : l.isRoot = true ↔ l = root n := by
  simp [isRoot, Location.ext_iff, root]

/-! ## Walking the path from both ends -/

/-- A walk along the steps of a location from both ends. -/
structure PathWalk (n : Nat) where
  /-- The location whose steps are walked. -/
  location : Location n
  /-- The levels whose steps have not been taken. -/
  levels : Span

/-- The walk along all steps. -/
def walk (l : Location n) : PathWalk n := ⟨l, ⟨1, l.level + 1⟩⟩

namespace PathWalk

/-- The number of steps not yet taken. -/
def length (w : PathWalk n) : Nat := w.levels.length

/-- The position for a level that was taken from the walk. -/
def position (w : PathWalk n) : Option Nat → Except Fault (Option Nat)
  | none => .ok none
  | some level => do return some (← w.location.positionAt level)

/-- Takes the step nearest to the root. -/
def popFront (w : PathWalk n) : Except Fault (Option Nat × PathWalk n) := do
  let (level, levels) := w.levels.popFront
  return (← w.position level, { w with levels })

/-- Takes the step farthest from the root. -/
def popBack (w : PathWalk n) : Except Fault (Option Nat × PathWalk n) := do
  let (level, levels) := w.levels.popBack
  return (← w.position level, { w with levels })

end PathWalk

end Location

end Orthtree
