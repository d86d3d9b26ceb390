import Orthtree.Stencil.Basic
import Orthtree.Tree.Place

/-!
# Neighborhoods

The nodes that touch a location across the elements of a stencil are found position by position.  Where the tree is not
refined as deep as the location, the neighbor is the leaf that contains the place; where it is refined deeper, the
neighbors are the children that touch the location.
-/

namespace Orthtree.Tree

variable {n : Nat}

/-! ## Neighbors of the same size -/

/-- The location of the same size at `position` of the stencil, if it lies in the root. -/
def neighborLocation (l : Location n) (s : Stencil) (position : Nat) :
    Except Fault (Option (Location n)) := do
  l.shift (← s.offsetAlong n position)

/-- The node of the same size at `position` of the stencil, if the tree has it. -/
def neighbor (t : Tree n) (l : Location n) (s : Stencil) (position : Nat) :
    Except Fault (Option Nat) := do
  match ← neighborLocation l s position with
  | none => return none
  | some k => t.nodeAt k

/-- The node of the same size as `node` at `position` of the stencil, if the tree has it. -/
def neighborOf (t : Tree n) (node : Nat) (s : Stencil) (position : Nat) :
    Except Fault (Option Nat) := do
  t.neighbor (← t.location node) s position

/-! ## Neighbors of any size -/

/-- `k` is at most as refined as its own size: the node found there is coarser than `k` or a leaf. -/
def isCoarseAt (t : Tree n) (k : Location n) (found : Found) : Except Fault Bool :=
  if found.level < k.level then .ok true else t.isLeaf found.node

/-- Adds the nodes that touch `l` at `position` of the stencil to those that were found before. -/
def addNeighbors (t : Tree n) (l : Location n) (s : Stencil) (before : List Nat)
    (position : Nat) : Except Fault (List Nat) := do
  match ← neighborLocation l s position with
  | none => return before
  | some k =>
    let found ← t.deepestAt k
    if ← t.isCoarseAt k found then
      return if found.node ∈ before then before else before ++ [found.node]
    else
      let finer ← (← s.facingAt position).mapM (t.child found.node)
      return before ++ finer.filterMap id

/-- The nodes that touch `l` across the elements of the stencil, by position. -/
def neighborsAcross (t : Tree n) (l : Location n) (s : Stencil) : Except Fault (List Nat) :=
  s.positions.foldlM (t.addNeighbors l s) []

/-- Puts `x` into an ascending list, unless it is there. -/
def insertAscending (x : Nat) : List Nat → List Nat
  | [] => [x]
  | y :: ys =>
    if x < y then x :: y :: ys
    else if x = y then y :: ys
    else y :: insertAscending x ys

/-- The members of a list in ascending order, each once. -/
def ascending (xs : List Nat) : List Nat := xs.foldr insertAscending []

/-- The nodes that touch `l` across any element, in ascending order. -/
def allNeighbors (t : Tree n) (l : Location n) : Except Fault (List Nat) := do
  return ascending (← (← Stencil.all n).mapM (t.neighborsAcross l)).flatten

/-! ## Ascending lists -/

/-- Inserting adds one member. -/
theorem mem_insertAscending {x y : Nat} {xs : List Nat} :
    y ∈ insertAscending x xs ↔ y = x ∨ y ∈ xs := by
  induction xs with
  | nil => simp [insertAscending]
  | cons z zs ih =>
    unfold insertAscending
    split
    · simp
    · split
      · next h => simp [h]
      · simp only [List.mem_cons, ih]
        exact or_left_comm

/-- Inserting keeps the order, strictly, since what is there already is not put in again. -/
theorem pairwise_insertAscending {x : Nat} {xs : List Nat} (h : xs.Pairwise (· < ·)) :
    (insertAscending x xs).Pairwise (· < ·) := by
  induction xs with
  | nil => simp [insertAscending]
  | cons z zs ih =>
    obtain ⟨hz, hzs⟩ := List.pairwise_cons.1 h
    unfold insertAscending
    split
    · next hlt =>
      refine List.pairwise_cons.2 ⟨fun y hy => ?_, h⟩
      rcases List.mem_cons.1 hy with rfl | hy
      · exact hlt
      · exact Nat.lt_trans hlt (hz y hy)
    · split
      · exact h
      · refine List.pairwise_cons.2 ⟨fun y hy => ?_, ih hzs⟩
        rcases mem_insertAscending.1 hy with rfl | hy
        · omega
        · exact hz y hy

/-- Ordering a list loses and adds nothing. -/
theorem mem_ascending {x : Nat} {xs : List Nat} : x ∈ ascending xs ↔ x ∈ xs := by
  induction xs with
  | nil => simp [ascending]
  | cons y ys ih =>
    rw [ascending, List.foldr_cons, mem_insertAscending, ← ascending, ih, List.mem_cons]

/-- An ordered list ascends and holds nothing twice. -/
theorem pairwise_ascending (xs : List Nat) : (ascending xs).Pairwise (· < ·) := by
  induction xs with
  | nil => simp [ascending]
  | cons y ys ih => exact pairwise_insertAscending ih

/-- Inserting adds at most one entry. -/
theorem length_insertAscending_le (x : Nat) (xs : List Nat) :
    (insertAscending x xs).length ≤ xs.length + 1 := by
  induction xs with
  | nil => exact Nat.le_refl _
  | cons y ys ih =>
    unfold insertAscending
    split
    · exact Nat.le_refl _
    · split
      · exact Nat.le_succ _
      · exact Nat.succ_le_succ ih

/-- Ordering a list makes it no longer. -/
theorem length_ascending_le (xs : List Nat) : (ascending xs).length ≤ xs.length := by
  induction xs with
  | nil => exact Nat.le_refl _
  | cons y ys ih =>
    exact Nat.le_trans (length_insertAscending_le y (ascending ys)) (Nat.succ_le_succ ih)

end Orthtree.Tree
