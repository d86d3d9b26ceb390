import Orthtree.Bounded

/-!
# Counting neighbors

Around a node along `axes` axes, the neighbors of rank `r` are the nodes of the same size that lie to one side of it on
exactly `r` axes.  There are `2 ^ r` times `axes` choose `r` of them, and each has `2 ^ (axes - r)` children on the
shared element.  All counts are 64-bit numbers.
-/

namespace Orthtree.Stencil

/-- The number of ways to choose `k` out of `n` axes.  Each division leaves no remainder. -/
def choose (n : Nat) : Nat → Except Fault Nat
  | 0 => .ok 1
  | k + 1 => do
    let ways ← choose n k
    return (← Bounded.count (ways * (n - k))) / (k + 1)

/-- The number of neighbors of rank `rank` of the same size; none if the rank exceeds the axes. -/
def sameLevelCount (axes rank : Nat) : Except Fault Nat := do
  if axes < rank then
    return 0
  else
    let sides ← Bounded.bit rank
    Bounded.count (sides * (← choose axes rank))

/-- The number of nodes of half the size that touch a node across elements of rank `rank`. -/
def finerLevelCount (axes rank : Nat) : Except Fault Nat := do
  if axes < rank then
    return 0
  else
    Bounded.shiftLeft (← sameLevelCount axes rank) (axes - rank)

/-- Adds the counts of `more` ranks, starting at `rank`, to `total`. -/
def addRanks (axes : Nat) : (more rank total : Nat) → Except Fault Nat
  | 0, _, total => .ok total
  | more + 1, rank, total => do
    let finer ← finerLevelCount axes rank
    addRanks axes more (rank + 1) (← Bounded.count (total + finer))

/-- The greatest number of neighbors of a node in a balanced tree: those of half the size, over all ranks. -/
def neighborBound (axes : Nat) : Except Fault Nat := addRanks axes axes 1 0

end Orthtree.Stencil
