import Orthtree.Bounded
import Orthtree.Span

/-!
# Sibling groups

Nodes are stored in groups: group 0 holds the root alone, and every other group the `2 ^ n` children of one node.  Node
and group numbers follow from each other by `Group.ofNode` and `Group.start`.  Counting up to whole groups is
`Group.covering`, whose results are tight (`covering_le_iff`): a number of groups covers a count iff it holds that many
nodes.
-/

namespace Orthtree.Group

/-! ## Node and group numbers -/

/-- The group that stores `node`. -/
def ofNode (n node : Nat) : Nat :=
  if node = 0 then 0 else (node - 1) / 2 ^ n + 1

/-- The number of nodes in `group`. -/
def width (n group : Nat) : Nat := if group = 0 then 1 else 2 ^ n

/-- The first node stored in `group`. -/
def start (n group : Nat) : Nat :=
  if group = 0 then 0 else 1 + 2 ^ n * (group - 1)

/-- The first node stored in `group`, for groups whose nodes have an index. -/
def first (n group : Nat) : Except Fault Nat := Bounded.index (start n group)

/-- The `count` nodes from `node` on. -/
def run (node count : Nat) : Except Fault Span := do
  return ⟨node, ← Bounded.index (node + count)⟩

/-- The nodes stored in `group`, whether or not it is in use. -/
def members (n group : Nat) : Except Fault Span := do
  run (← first n group) (width n group)

@[simp]
theorem ofNode_zero (n : Nat) : ofNode n 0 = 0 := rfl

@[simp]
theorem start_zero (n : Nat) : start n 0 = 0 := rfl

/-- A node lies in its group at the position that is left over. -/
theorem start_ofNode {n node : Nat} (h : node ≠ 0) :
    start n (ofNode n node) + (node - 1) % 2 ^ n = node := by
  have hdiv := Nat.div_add_mod (node - 1) (2 ^ n)
  simp only [ofNode, h, if_false, start, Nat.add_sub_cancel, Nat.succ_ne_zero]
  omega

/-- The nodes of a group are the ones from its first node on. -/
theorem ofNode_start_add {n group position : Nat} (hg : group ≠ 0) (hp : position < 2 ^ n) :
    ofNode n (start n group + position) = group := by
  have hne : start n group + position ≠ 0 := by simp [start, hg]
  rw [ofNode, if_neg hne, start, if_neg hg,
    show 1 + 2 ^ n * (group - 1) + position - 1 = 2 ^ n * (group - 1) + position by omega,
    Nat.mul_add_div (Nat.two_pow_pos n), Nat.div_eq_of_lt hp]
  omega

/-- The first member of a group lies in it. -/
theorem ofNode_start (n group : Nat) : ofNode n (start n group) = group := by
  by_cases hg : group = 0
  · simp [hg]
  · simpa using ofNode_start_add hg (Nat.two_pow_pos n)

/-! ## Counting in groups -/

/-- The number of groups that `count` nodes need. -/
def covering (n count : Nat) : Nat :=
  if count ≤ 1 then count else (count - 2) / 2 ^ n + 2

/-- The number of nodes in `groups` groups. -/
def nodeCount (n groups : Nat) : Nat :=
  if groups = 0 then 0 else (groups - 1) * 2 ^ n + 1

/-- The number of groups that `count` nodes with `axes` axes need, as a 64-bit count. -/
def covering? (axes count : Nat) : Except Fault Nat := do
  if count ≤ 1 then
    return count
  else
    Bounded.count ((count - 2) / (← Bounded.bit axes) + 2)

/-- The number of nodes with `axes` axes in `groups` groups, as a 64-bit count. -/
def nodeCount? (axes groups : Nat) : Except Fault Nat := do
  if groups = 0 then
    return 0
  else
    let inner ← Bounded.count ((groups - 1) * (← Bounded.bit axes))
    Bounded.count (inner + 1)

/-- A number of groups covers a count iff it holds that many nodes. -/
theorem covering_le_iff {n count groups : Nat} :
    covering n count ≤ groups ↔ count ≤ nodeCount n groups := by
  have hpow := Nat.two_pow_pos n
  unfold covering nodeCount
  rcases Nat.lt_or_ge count 2 with hc | hc
  · rw [if_pos (by omega)]
    split
    · omega
    · constructor
      · intro _
        exact Nat.le_trans (Nat.le_of_lt_succ hc) (Nat.le_add_left 1 _)
      · omega
  · have hiff : (count - 2) / 2 ^ n < groups - 1 ↔ count - 2 < (groups - 1) * 2 ^ n :=
      Nat.div_lt_iff_lt_mul hpow
    generalize (count - 2) / 2 ^ n = full at hiff
    rw [if_neg (by omega)]
    split <;> omega

/-- Whole groups are covered by just as many. -/
theorem covering_nodeCount (n groups : Nat) : covering n (nodeCount n groups) = groups := by
  have hpow := Nat.two_pow_pos n
  refine Nat.le_antisymm (covering_le_iff.2 (Nat.le_refl _)) ?_
  have h : nodeCount n groups ≤ nodeCount n (covering n (nodeCount n groups)) :=
    covering_le_iff.1 (Nat.le_refl _)
  generalize covering n (nodeCount n groups) = k at h
  unfold nodeCount at h
  rcases Nat.eq_zero_or_pos groups with hg | hg
  · omega
  · rw [if_neg (by omega)] at h
    split at h
    · omega
    · have : groups - 1 ≤ k - 1 := Nat.le_of_mul_le_mul_right (by omega) hpow
      omega

/-! ## Uniform trees -/

/-- The number of nodes at `level` of a uniform tree. -/
def nodesAtLevel (axes level : Nat) : Except Fault Nat := do
  Bounded.bit (← Bounded.count (axes * level))

/-- The number of nodes of a uniform tree from the root down to `level`, counting levels in 8 bits. -/
def nodesThroughLevel (axes level : Nat) : Except Fault Nat := do
  let total ← (List.range (level + 1)).foldlM
    (fun total l => do Bounded.count (total + (← nodesAtLevel axes l))) 0
  let _ ← Bounded.level (level + 1)
  return total

end Orthtree.Group
