import Mathlib.Algebra.BigOperators.Group.List.Basic
import Mathlib.Algebra.Group.End
import Orthtree.Proofs.Queries
import Orthtree.Tree.Relocation

/-!
# Exchanging pairs one after the other

A list of pairs stands for exchanges made in its order: of the entries of a table, or of the children of nodes.  Both
do the same to the numbers, `Group.exchanged`: what is found at a number afterwards stood at its image before.  The
pairs of members of two groups exchange the groups (`exchanged_groups`).
-/

namespace Orthtree

namespace Group

variable {n a b i x y k node group : Nat}

/-! ## The permutation of a list of pairs -/

/-- The place before all the exchanges of what stands at a place after them. -/
def exchanged (pairs : List (Nat × Nat)) : Equiv.Perm Nat :=
  (pairs.map fun pair => Equiv.swap pair.1 pair.2).prod

@[simp]
theorem exchanged_nil : exchanged [] = 1 := rfl

theorem exchanged_cons (pair : Nat × Nat) (pairs : List (Nat × Nat)) :
    exchanged (pair :: pairs) = Equiv.swap pair.1 pair.2 * exchanged pairs := by
  rw [exchanged, List.map_cons, List.prod_cons, exchanged]

theorem exchanged_append (pairs pairs' : List (Nat × Nat)) :
    exchanged (pairs ++ pairs') = exchanged pairs * exchanged pairs' := by
  rw [exchanged, List.map_append, List.prod_append, exchanged, exchanged]

/-! ## Exchanging two groups -/

/-- Two runs of `k` numbers, exchanged position by position. -/
def runPairs (x y k : Nat) : List (Nat × Nat) := (List.range k).map fun i => (x + i, y + i)

/-- Exchanging disjoint runs moves each number by the distance of the runs. -/
theorem exchanged_runPairs (hdisjoint : x + k ≤ y ∨ y + k ≤ x) (node : Nat) :
    exchanged (runPairs x y k) node =
      if x ≤ node ∧ node < x + k then y + (node - x)
      else if y ≤ node ∧ node < y + k then x + (node - y) else node := by
  induction k generalizing node with
  | zero =>
      have hnone : ¬(x ≤ node ∧ node < x + 0) := by omega
      have hnone' : ¬(y ≤ node ∧ node < y + 0) := by omega
      rw [if_neg hnone, if_neg hnone']
      rfl
  | succ k ih =>
      -- The last pair lies outside the runs of the others.
      have hlast : runPairs x y (k + 1) = runPairs x y k ++ [(x + k, y + k)] := by
        rw [runPairs, List.range_succ, List.map_append]
        rfl
      rw [hlast, exchanged_append, Equiv.Perm.mul_apply, ih (by omega)]
      rw [exchanged_cons, exchanged_nil, mul_one, Equiv.swap_apply_def]
      split_ifs <;> omega

/-- Different groups have no member in common, so that exchanging two of them moves no node twice. -/
theorem start_disjoint (ha : a ≠ 0) (hb : b ≠ 0) (hab : a ≠ b) :
    start n a + 2 ^ n ≤ start n b ∨ start n b + 2 ^ n ≤ start n a := by
  rcases Nat.lt_or_gt_of_ne hab with hlt | hlt
  · exact Or.inl (start_eq_nodeCount hb ▸ start_add_le ha hlt)
  · exact Or.inr (start_eq_nodeCount ha ▸ start_add_le hb hlt)

/-- Exchanging two groups position by position carries each node along with its group. -/
theorem exchanged_groups (ha : a ≠ 0) (hb : b ≠ 0) (hab : a ≠ b) (node : Nat) :
    exchanged (runPairs (start n a) (start n b) (2 ^ n)) node =
      renumber n (Equiv.swap a b) node := by
  rw [exchanged_runPairs (start_disjoint ha hb hab)]
  simp only [← ofNode_eq_iff ha, ← ofNode_eq_iff hb]
  have hnode := start_add_position n node
  split_ifs with hna hnb
  · rw [renumber, hna, Equiv.swap_apply_left]
    rw [hna] at hnode
    omega
  · rw [renumber, hnb, Equiv.swap_apply_right]
    rw [hnb] at hnode
    omega
  · exact (renumber_of_fixed (Equiv.swap_apply_of_ne_of_ne hna hnb)).symm

/-! ## Exchanging the entries of a table -/

variable {α : Type}

/-- Exchanges two entries of a table, which must both be there. -/
def exchangeEntries (data : Array α) (pair : Nat × Nat) : Except Fault (Array α) :=
  if pair.1 < data.size ∧ pair.2 < data.size then .ok (data.swapIfInBounds pair.1 pair.2)
  else .error .outOfRange

/-- Exchanges the entries of a table that the pairs name, in their order. -/
def replay (data : Array α) (pairs : List (Nat × Nat)) : Except Fault (Array α) :=
  pairs.foldlM exchangeEntries data

/-- One exchange of two entries, read at any place. -/
theorem getElem?_swapIfInBounds {data : Array α} (hx : x < data.size) (hy : y < data.size) (i : Nat) :
    (data.swapIfInBounds x y)[i]? = data[Equiv.swap x y i]? := by
  rw [Array.swapIfInBounds, dif_pos hx, dif_pos hy, Array.getElem?_swap, Equiv.swap_apply_def]
  rcases eq_or_ne i y with rfl | hiy
  · rw [if_pos rfl]
    split
    · next h => rw [h, Array.getElem?_eq_getElem hx]
    · rw [if_pos rfl, Array.getElem?_eq_getElem hx]
  · rw [if_neg hiy.symm, if_neg hiy]
    rcases eq_or_ne i x with rfl | hix
    · rw [if_pos rfl, if_pos rfl, Array.getElem?_eq_getElem hy]
    · rw [if_neg hix.symm, if_neg hix]

/-- Pairs inside the table are exchanged, and the table is permuted by them. -/
theorem replay_eq {data : Array α} {pairs : List (Nat × Nat)}
    (h : ∀ pair ∈ pairs, pair.1 < data.size ∧ pair.2 < data.size) :
    ∃ moved : Array α, replay data pairs = .ok moved ∧ moved.size = data.size ∧
      ∀ i, moved[i]? = data[exchanged pairs i]? := by
  induction pairs generalizing data with
  | nil => exact ⟨data, rfl, rfl, fun _ => rfl⟩
  | cons pair pairs ih =>
      obtain ⟨hfst, hsnd⟩ := h pair List.mem_cons_self
      have hsize : (data.swapIfInBounds pair.1 pair.2).size = data.size := by simp
      have hrest : ∀ p ∈ pairs, p.1 < (data.swapIfInBounds pair.1 pair.2).size ∧
          p.2 < (data.swapIfInBounds pair.1 pair.2).size := by
        intro p hp
        rw [hsize]
        exact h p (List.mem_cons_of_mem pair hp)
      obtain ⟨moved, hmoved, hmsize, hlook⟩ := ih hrest
      refine ⟨moved, ?_, hmsize.trans hsize, ?_⟩
      · rw [replay, List.foldlM_cons, exchangeEntries, if_pos ⟨hfst, hsnd⟩]
        exact hmoved
      · intro i
        -- Traced back from the end, the first exchange comes last.
        rw [hlook, getElem?_swapIfInBounds hfst hsnd, exchanged_cons, Equiv.Perm.mul_apply]

example : replay #[10, 11, 12] [(0, 1), (1, 2)] = .ok #[11, 12, 10] := by decide

end Group

end Orthtree
