import Orthtree.Proofs.Listing
import Orthtree.Proofs.Resorting

/-!
# Compact and sorted trees

A tree is compact if the groups in use are the lowest ones.  The check for this compares one counter with another, and
it is exact because the counters are: the lowest free group lies below the end of the groups in use as long as there is
a hole (`isCompact_iff_eq_groupEnd`).  The check for sortedness looks at links only.  It compares the groups of the
branches with their ranks in the depth-first walk, and since every group in use but the root's belongs to one branch, a
sorted tree has no hole either (`Reachable.checks_exact`).
-/

namespace Orthtree.Tree

variable {n : Nat} {t : Tree n} {nodes : List Nat}

/-! ## Compact trees -/

/-- The groups in use of a compact tree are an initial segment. -/
theorem isCompact_iff_lowest (ht : t.Valid) :
    t.isCompact = true ↔ ∃ groups, ∀ g, t.InUse g ↔ g < groups := by
  constructor
  · intro h
    exact ⟨_, ht.inUse_iff_lt h⟩
  · rintro ⟨groups, hused⟩
    exact ht.isCompact_of_lowest hused

/-- The lowest free group is past all groups in use iff there is no hole. -/
theorem isCompact_iff_eq_groupEnd (ht : t.Valid) :
    t.isCompact = true ↔ t.firstFree = t.groupEnd := by
  rw [isCompact_iff_lowest ht]
  constructor
  · rintro ⟨groups, hused⟩
    have hfree : t.firstFree = groups :=
      ht.lowest.unique (isLowestFree_of_lowest hused) fun _ => Iff.rfl
    have hend : t.groupEnd = groups := ht.last.unique (isEnd_of_lowest hused) fun _ => Iff.rfl
    rw [hfree, hend]
  · intro heq
    refine ⟨t.groupEnd, fun g => ⟨ht.last.2 g, fun hlt => ?_⟩⟩
    rw [← heq] at hlt
    exact ht.lowest.2 g hlt

/-! ## Sorted trees -/

/-- Those of the nodes that have children. -/
def branches (t : Tree n) (nodes : List Nat) : List Nat :=
  nodes.filter fun node => (t.links.firstChild node).isSome

/-- The groups of the children are those of the branches, one after the other. -/
theorem map_branches (t : Tree n) (nodes : List Nat) :
    (t.branches nodes).map (fun node => (t.links.firstChild node).map (Group.ofNode n)) =
      (t.childrenGroups nodes).map some := by
  induction nodes with
  | nil => rfl
  | cons node nodes ih =>
      cases hfirst : t.links.firstChild node with
      | none => simpa [branches, childrenGroups, hfirst] using ih
      | some first => simpa [branches, childrenGroups, hfirst] using ih

/-- The groups are numbered in order iff every branch has the group of its rank. -/
theorem childrenGroups_eq_range'_iff (t : Tree n) (nodes : List Nat) :
    t.childrenGroups nodes = List.range' 1 (t.childrenGroups nodes).length ↔
      ∀ k (hk : k < (t.branches nodes).length),
        (t.links.firstChild (t.branches nodes)[k]).map (Group.ofNode n) = some (k + 1) := by
  have hmap := t.map_branches nodes
  have hlength : (t.branches nodes).length = (t.childrenGroups nodes).length := by
    simpa using congrArg List.length hmap
  rw [← (List.map_injective_iff.2 (Option.some_injective Nat)).eq_iff, ← hmap, ← hlength,
    List.ext_getElem_iff]
  simp [Nat.add_comm]

/-- The check finds a tree sorted iff the branch of every rank has the group of that number. -/
theorem exists_isSorted_iff (ht : t.Valid) {order : List Nat} (hwalk : t.Walk order []) :
    ∃ sorted, t.isSorted = .ok sorted ∧ (sorted = true ↔
      ∀ k (hk : k < (t.branches order).length),
        t.childrenGroup (t.branches order)[k] = .ok (some (k + 1))) := by
  refine ⟨_, isSorted_eq ht.toLinked hwalk, ?_⟩
  rw [decide_eq_true_iff, childrenGroups_eq_range'_iff]
  apply forall₂_congr
  intro k hk
  have hlive := (hwalk.mem_iff_live ht).1 (List.mem_of_mem_filter (List.getElem_mem hk))
  rw [childrenGroup_of_lt (hlive.lt_capacity ht.toSized), Except.ok.injEq]

theorem mem_branches_iff {node : Nat} :
    node ∈ t.branches nodes ↔ node ∈ nodes ∧ t.isLeaf node = .ok false := by
  rw [branches, List.mem_filter, Option.isSome_iff_ne_none, isLeaf_eq_false_iff]

/-- **What the checks mean.**  A tree is compact iff the groups in use are an initial segment of all groups, and iff the
lowest free group is the end of the groups in use.  It is sorted iff in depth-first order the branch of every rank,
counted from 1, has the group of that number for its children, and then it is compact. -/
theorem Reachable.checks_exact (h : t.Reachable) :
    (t.isCompact = true ↔ ∃ k, ∀ g, t.isInUse g = .ok true ↔ g < k) ∧
    (t.isCompact = true ↔ t.firstFree = t.groupEnd) ∧
    ∃ (order : List Nat) (paths : List (List Nat)) (branches : List Nat) (sorted : Bool),
      t.depthFirst = .ok order ∧ t.Lists order ∧ order.mapM t.pathTo = .ok paths ∧
      paths.Pairwise (· < ·) ∧ branches.Sublist order ∧
      (∀ x, x ∈ branches ↔ x ∈ order ∧ t.isLeaf x = .ok false) ∧ t.isSorted = .ok sorted ∧
      (sorted = true ↔
        ∀ k (hk : k < branches.length), t.childrenGroup branches[k] = .ok (some (k + 1))) ∧
      (sorted = true → t.isCompact = true) := by
  have ht := h.valid
  simp only [isInUse_eq_true_iff ht.toSized]
  refine ⟨isCompact_iff_lowest ht, isCompact_iff_eq_groupEnd ht, ?_⟩
  obtain ⟨order, hwalk⟩ := exists_walk ht.toLinked
  obtain ⟨order', horder, hbefore, hmem⟩ := exists_depthFirst ht
  obtain rfl := Except.ok.inj (horder.symm.trans (hwalk.depthFirst_eq ht.toLinked))
  obtain ⟨paths, hpaths, hlex⟩ :=
    pathsTo_sorted ht.toLinked hbefore fun x hx => ht.rooted ((hmem x).1 hx)
  obtain ⟨nodes, -, hlists, -⟩ := exists_lists_nodes ht
  obtain ⟨sorted, hanswer, hiff⟩ := exists_isSorted_iff ht hwalk
  refine ⟨order', paths, t.branches order', sorted, horder,
    hlists.of_mem_iff ht (nodup_of_pairwise_lt ht.toLinked hbefore) hmem, hpaths, hlex,
    List.filter_sublist, fun x => mem_branches_iff, hanswer, hiff, ?_⟩
  -- The other account of the same answer tells what being sorted means for the groups.
  intro htrue
  obtain ⟨sorted', hanswer', hsettled⟩ := exists_isSorted ht
  obtain rfl := Except.ok.inj (hanswer.symm.trans hanswer')
  obtain ⟨last, order, hsorted⟩ := hsettled.1 htrue
  exact hsorted.isCompact ht

/-- A full tree, with no free group, whose branches have been refined out of order. -/
theorem Reachable.checks_exact_full :
    ((rootOnly 2 4).afterCalls [.refine 0, .refine 2, .refine 1]).isCompact = true ∧
    (∃ k, ∀ g,
      ((rootOnly 2 4).afterCalls [.refine 0, .refine 2, .refine 1]).isInUse g = .ok true ↔ g < k) ∧
    ((rootOnly 2 4).afterCalls [.refine 0, .refine 2, .refine 1]).firstFree =
      ((rootOnly 2 4).afterCalls [.refine 0, .refine 2, .refine 1]).groupEnd ∧
    ((rootOnly 2 4).afterCalls [.refine 0, .refine 2, .refine 1]).isSorted = .ok false := by
  obtain ⟨hlowest, hend, -⟩ := Reachable.checks_exact
    ((Reachable.new (t := rootOnly 2 4) 13 rfl).afterCalls [.refine 0, .refine 2, .refine 1])
  have hcompact :
      ((rootOnly 2 4).afterCalls [.refine 0, .refine 2, .refine 1]).isCompact = true := by
    decide +kernel
  exact ⟨hcompact, hlowest.1 hcompact, hend.1 hcompact, by decide +kernel⟩

end Orthtree.Tree
