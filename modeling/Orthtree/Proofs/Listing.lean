import Orthtree.Proofs.Visiting

/-!
# Listings of all nodes

The depth-first walk follows links from the root, and `nodes` looks through the tables for groups in use.  In a reachable
tree both list exactly the live nodes, the one in the order of paths, the other in ascending order
(`Reachable.traversals_exact`).  The leaves are counted by their counterpart: every group in use but the root's belongs
to one branch.
-/

namespace Orthtree.Group

/-- The nodes of the root's group and of other groups are counted together. -/
theorem sum_width {n : Nat} {groups : List Nat} (h : ∀ g ∈ groups, g ≠ 0) :
    ((0 :: groups).map (width n)).sum = nodeCount n (groups.length + 1) := by
  have hwidth : groups.map (width n) = List.replicate groups.length (2 ^ n) := by
    rw [← List.map_const', List.map_congr_left]
    exact fun g hg => if_neg (h g hg)
  rw [List.map_cons, List.sum_cons, hwidth, List.sum_replicate_nat, nodeCount,
    if_neg (Nat.succ_ne_zero _), Nat.add_sub_cancel, Nat.add_comm]
  rfl

end Orthtree.Group

namespace Orthtree.Tree

variable {n : Nat} {t : Tree n} {nodes groups rest order : List Nat}

/-- The list names exactly the nodes of the tree, each once. -/
structure Lists (t : Tree n) (nodes : List Nat) : Prop where
  nodup : nodes.Nodup
  mem_iff (x : Nat) : x ∈ nodes ↔ t.contains x = .ok true
  length_eq : nodes.length = t.size

/-- The groups listed begin with the root's. -/
theorem exists_groups_cons (ht : t.Valid) :
    ∃ rest, t.groups = .ok (0 :: rest) ∧ rest.Pairwise (· < ·) ∧
      ∀ g, g ∈ rest ↔ g ≠ 0 ∧ t.InUse g := by
  obtain ⟨groups, hgroups, hsorted, hmem⟩ := exists_groups ht
  cases groups with
  | nil => exact absurd ((hmem 0).2 t.inUse_zero) List.not_mem_nil
  | cons g rest =>
      obtain ⟨hfirst, hrest⟩ := List.pairwise_cons.1 hsorted
      have hg : g = 0 := by
        rcases List.mem_cons.1 ((hmem 0).2 t.inUse_zero) with h | h
        · exact h.symm
        · exact absurd (hfirst 0 h) (Nat.not_lt_zero g)
      subst hg
      refine ⟨rest, hgroups, hrest, ?_⟩
      intro h
      constructor
      · intro hh
        exact ⟨Nat.ne_of_gt (hfirst h hh), (hmem h).1 (List.mem_cons_of_mem 0 hh)⟩
      · rintro ⟨hne, hinuse⟩
        exact (List.mem_cons.1 ((hmem h).2 hinuse)).resolve_left hne

/-- Storage order lists all nodes, in ascending order. -/
theorem exists_lists_nodes (ht : t.Valid) :
    ∃ nodes, t.nodes = .ok nodes ∧ t.Lists nodes ∧ nodes.Pairwise (· < ·) := by
  obtain ⟨nodes, hnodes, hsorted, hmem⟩ := exists_nodes ht
  refine ⟨nodes, hnodes, ⟨hsorted.imp Nat.ne_of_lt, ?_, ?_⟩, hsorted⟩
  · intro x
    rw [hmem, contains_eq_true_iff ht.toSized]
  · obtain ⟨rest, hgroups, -, hrest⟩ := exists_groups_cons ht
    obtain rfl := Except.ok.inj ((nodes_eq ht hgroups).symm.trans hnodes)
    rw [ht.size_eq, ← length_groups ht hgroups, List.length_cons,
      ← Group.sum_width fun g hg => ((hrest g).1 hg).1, List.length_flatMap]
    simp only [Group.length_memberList]

/-- Lists of all nodes are equally long. -/
theorem Lists.of_mem_iff (ht : t.Valid) (h : t.Lists nodes) (hnodup : order.Nodup)
    (hmem : ∀ x, x ∈ order ↔ t.Live x) : t.Lists order := by
  have hiff : ∀ x, x ∈ order ↔ t.contains x = .ok true := fun x => by
    rw [hmem, contains_eq_true_iff ht.toSized]
  refine ⟨hnodup, hiff, ?_⟩
  rw [← h.length_eq]
  exact ((List.perm_ext_iff_of_nodup hnodup h.nodup).2 fun x =>
    (hiff x).trans (h.mem_iff x).symm).length_eq

/-- Depth-first order lists the nodes by their paths. -/
theorem pathsTo_sorted (ht : t.Linked) (h : order.Pairwise (t.Along (· < ·)))
    (hlive : ∀ x ∈ order, ∃ p, t.follow p = some x) :
    ∃ paths, order.mapM t.pathTo = .ok paths ∧ paths.Pairwise (· < ·) := by
  choose! path hpath using hlive
  refine ⟨order.map path, mapM_eq fun x hx => pathTo_eq ht (hpath x hx), ?_⟩
  rw [List.pairwise_map]
  refine h.imp_of_mem ?_
  rintro x y hx hy ⟨p, q, hp, hq, hlt⟩
  rwa [follow_injective ht (hpath x hx) hp, follow_injective ht (hpath y hy) hq]

/-! ## Leaves and branches -/

/-- Every node of a list is a leaf or owns a group. -/
theorem length_leaves_add (t : Tree n) (nodes : List Nat) :
    (nodes.filter fun x => (t.links.firstChild x).isNone).length +
      (t.childrenGroups nodes).length = nodes.length := by
  induction nodes with
  | nil => rfl
  | cons x nodes ih =>
      rw [childrenGroups] at ih ⊢
      cases hfirst : t.links.firstChild x <;> simp [hfirst] <;> omega

/-- Different nodes own different groups. -/
theorem nodup_childrenGroups (ht : t.Linked) (h : nodes.Nodup) : (t.childrenGroups nodes).Nodup := by
  refine h.filterMap ?_
  intro x y group hx hy
  have howner : ∀ {z}, group ∈ (t.links.firstChild z).map (Group.ofNode n) →
      t.links.owner group = some z := by
    intro z hz
    have hmem : group ∈ t.childrenGroups [z] := by
      rw [childrenGroups, List.mem_filterMap]
      exact ⟨z, List.mem_singleton_self z, hz⟩
    obtain ⟨z', hz', h⟩ := (mem_childrenGroups_iff ht).1 hmem
    rwa [List.mem_singleton.1 hz'] at h
  exact Option.some_injective _ ((howner hx).symm.trans (howner hy))

/-- The branches own exactly the groups in use other than the root's. -/
theorem length_childrenGroups (ht : t.Valid) (h : t.Lists nodes) (hgroups : t.groups = .ok groups) :
    (t.childrenGroups nodes).length = groups.length - 1 := by
  obtain ⟨rest, heq, hsorted, hrest⟩ := exists_groups_cons ht
  obtain rfl := Except.ok.inj (heq.symm.trans hgroups)
  have hmem : ∀ g, g ∈ t.childrenGroups nodes ↔ g ∈ rest := by
    intro g
    rw [mem_childrenGroups_iff ht.toLinked, hrest]
    constructor
    · rintro ⟨node, -, howner⟩
      exact ⟨((ht.paired.owner_iff g node).1 howner).1, inUse_of_owner howner⟩
    · rintro ⟨hg, hinuse⟩
      obtain ⟨node, howner⟩ := (inUse_iff_exists_owner hg).1 hinuse
      refine ⟨node, ?_, howner⟩
      rw [h.mem_iff, contains_eq_true_iff ht.toSized]
      exact live_of_owner ht.toLinked howner
  exact ((List.perm_ext_iff_of_nodup (nodup_childrenGroups ht.toLinked h.nodup)
    (hsorted.imp Nat.ne_of_lt)).2 hmem).length_eq

/-- The leaves among the nodes, as many as the groups in use require. -/
theorem exists_leaves (ht : t.Valid) (hnodes : t.nodes = .ok nodes) (h : t.Lists nodes)
    (hgroups : t.groups = .ok groups) :
    ∃ leaves, t.leaves = .ok leaves ∧ leaves.Sublist nodes ∧
      (∀ x, x ∈ leaves ↔ x ∈ nodes ∧ t.isLeaf x = .ok true) ∧
      leaves.length = 1 + (2 ^ n - 1) * (groups.length - 1) := by
  have hlt : ∀ x ∈ nodes, x < t.capacity := by
    intro x hx
    rw [h.mem_iff, contains_eq_true_iff ht.toSized] at hx
    exact hx.lt_capacity ht.toSized
  refine ⟨nodes.filter fun x => (t.links.firstChild x).isNone, ?_, List.filter_sublist, ?_, ?_⟩
  · rw [leaves, hnodes]
    exact filterM_eq fun x hx => isLeaf_of_lt (hlt x hx)
  · intro x
    rw [List.mem_filter]
    apply and_congr_right
    intro hx
    rw [isLeaf_of_lt (hlt x hx), Except.ok.injEq]
  · -- Leaves and branches together fill all groups in use.
    have hsum := t.length_leaves_add nodes
    have hpos : groups.length ≠ 0 := by
      rw [length_groups ht hgroups]
      exact Nat.ne_of_gt (usedGroups_nonempty ht.toSized)
    obtain ⟨k, hk⟩ := Nat.exists_eq_succ_of_ne_zero (Nat.ne_of_gt (Nat.two_pow_pos n))
    rw [length_childrenGroups ht h hgroups, h.length_eq, ht.size_eq, ← length_groups ht hgroups,
      Group.nodeCount, if_neg hpos, hk, Nat.mul_succ] at hsum
    rw [hk, Nat.succ_sub_one, Nat.mul_comm]
    omega

/-- **Listings.**  The depth-first walk ends, and it lists exactly the nodes of the tree, by their paths.  Storage order
lists the same nodes in ascending order, and its leaves are one more than `2 ^ n - 1` for every group in use but the
root's. -/
theorem Reachable.traversals_exact (h : t.Reachable) :
    ∃ order paths nodes groups leaves,
      t.depthFirst = .ok order ∧ t.Lists order ∧
      order.mapM t.pathTo = .ok paths ∧ paths.Pairwise (· < ·) ∧
      t.nodes = .ok nodes ∧ t.Lists nodes ∧ nodes.Pairwise (· < ·) ∧
      t.groups = .ok groups ∧ groups.Nodup ∧ (∀ g, g ∈ groups ↔ t.isInUse g = .ok true) ∧
      t.leaves = .ok leaves ∧ leaves.Sublist nodes ∧
      (∀ x, x ∈ leaves ↔ x ∈ nodes ∧ t.isLeaf x = .ok true) ∧
      leaves.length = 1 + (2 ^ n - 1) * (groups.length - 1) := by
  have ht := h.valid
  obtain ⟨nodes, hnodes, hlists, hascending⟩ := exists_lists_nodes ht
  obtain ⟨order, horder, hsorted, hmem⟩ := exists_depthFirst ht
  obtain ⟨paths, hpaths, hlex⟩ :=
    pathsTo_sorted ht.toLinked hsorted fun x hx => ht.rooted ((hmem x).1 hx)
  obtain ⟨groups, hgroups, hgsorted, hused⟩ := exists_groups ht
  obtain ⟨leaves, hleaves, hsub, hleaf, hcount⟩ := exists_leaves ht hnodes hlists hgroups
  have hinuse : ∀ g, g ∈ groups ↔ t.isInUse g = .ok true := fun g => by
    rw [hused, isInUse_eq_true_iff ht.toSized]
  exact ⟨order, paths, nodes, groups, leaves, horder,
    hlists.of_mem_iff ht (nodup_of_pairwise_lt ht.toLinked hsorted) hmem, hpaths, hlex, hnodes,
    hlists, hascending, hgroups, hgsorted.imp Nat.ne_of_lt, hinuse, hleaves, hsub, hleaf, hcount⟩

/-- A tree with a hole: group 2 has become free, and node 2 has its children in group 3. -/
theorem Reachable.traversals_exact_hole :
    ((rootOnly 2 6).afterCalls [.refine 0, .refine 1, .refine 2, .coarsen 1]).depthFirst =
      .ok [0, 1, 2, 9, 10, 11, 12, 3, 4] ∧
    ((rootOnly 2 6).afterCalls [.refine 0, .refine 1, .refine 2, .coarsen 1]).nodes =
      .ok [0, 1, 2, 3, 4, 9, 10, 11, 12] ∧
    ((rootOnly 2 6).afterCalls [.refine 0, .refine 1, .refine 2, .coarsen 1]).Lists
      [0, 1, 2, 9, 10, 11, 12, 3, 4] ∧
    ((rootOnly 2 6).afterCalls [.refine 0, .refine 1, .refine 2, .coarsen 1]).Lists
      [0, 1, 2, 3, 4, 9, 10, 11, 12] := by
  obtain ⟨order, _, nodes, _, _, horder, hlists, -, -, hnodes, hlists', -⟩ :=
    Reachable.traversals_exact
      ((Reachable.new (t := rootOnly 2 6) 21 rfl).afterCalls [.refine 0, .refine 1, .refine 2, .coarsen 1])
  have hfirst : ((rootOnly 2 6).afterCalls [.refine 0, .refine 1, .refine 2, .coarsen 1]).depthFirst =
      .ok [0, 1, 2, 9, 10, 11, 12, 3, 4] := by decide +kernel
  have hstored : ((rootOnly 2 6).afterCalls [.refine 0, .refine 1, .refine 2, .coarsen 1]).nodes =
      .ok [0, 1, 2, 3, 4, 9, 10, 11, 12] := by decide +kernel
  obtain rfl := Except.ok.inj (hfirst.symm.trans horder)
  obtain rfl := Except.ok.inj (hstored.symm.trans hnodes)
  exact ⟨hfirst, hstored, hlists, hlists'⟩

end Orthtree.Tree
