import Orthtree.Proofs.Relocating

/-!
# Sorting what is sorted

`sortWith` exchanges two groups only where a group is not in its place yet.  A tree that is sorted already is walked
through without any exchange (`SortedTo.sortStack_eq_nil`), so an empty report says that the tree was sorted.  In any
case each group in use other than the root's is placed once, and each placing exchanges the nodes of at most one pair
of groups (`length_placings_le`).
-/

namespace Orthtree.Tree

variable {n : Nat} {t u : Tree n} {σ : Equiv.Perm Nat} {visited stack order sources : List Nat}
  {pair : Nat × Nat} {group target last last' steps : Nat}

/-! ## The pairs reported -/

/-- Bringing a group to its place exchanges at most all its nodes. -/
theorem length_placing_le (n group target : Nat) : (placing n group target).length ≤ 2 ^ n := by
  rw [placing]
  split_ifs
  · exact Nat.zero_le _
  · rw [Group.runPairs, List.length_map, List.length_range]

/-- Each placing reports at most one pair for each position. -/
theorem length_placings_le (n last : Nat) (sources : List Nat) :
    (placings n last sources).length ≤ 2 ^ n * sources.length := by
  induction sources generalizing last with
  | nil => exact Nat.zero_le _
  | cons group sources ih =>
      rw [placings, List.length_append, List.length_cons, Nat.mul_succ, Nat.add_comm]
      exact Nat.add_le_add (ih (last + 1)) (length_placing_le n group (last + 1))

/-- The nodes of a pair lie in different groups. -/
theorem ne_of_mem_placing (h : pair ∈ placing n group target) : pair.1 ≠ pair.2 := by
  rw [placing] at h
  split_ifs at h with hne
  · cases h
  · obtain ⟨i, -, rfl⟩ := List.mem_map.1 h
    exact fun heq => hne (Group.start_injective n (Nat.add_right_cancel heq))

/-- No node is ever exchanged with itself. -/
theorem ne_of_mem_placings (h : pair ∈ placings n last sources) : pair.1 ≠ pair.2 := by
  induction sources generalizing last with
  | nil => cases h
  | cons group sources ih =>
      rcases List.mem_append.1 h with h | h
      · exact ne_of_mem_placing h
      · exact ih h

/-! ## Trees that are sorted already -/

/-- A tree is found sorted iff everything is settled in it. -/
theorem exists_isSorted (ht : t.Valid) :
    ∃ sorted, t.isSorted = .ok sorted ∧
      (sorted = true ↔ ∃ last order, SortedTo last order [] t) := by
  obtain ⟨order, hwalk⟩ := exists_walk ht.toLinked
  refine ⟨_, isSorted_eq ht.toLinked hwalk, ?_⟩
  rw [decide_eq_true_iff]
  constructor
  · intro hgroups
    exact ⟨_, order, hwalk, hgroups⟩
  · rintro ⟨last, order', hsorted⟩
    obtain rfl := hsorted.walk.unique ht.toLinked hwalk
    rw [hsorted.groups, List.length_range']

/-- What has been reported without exchanges is the tree as it was. -/
theorem Moved.eq_of_nil (h : Moved [] σ t u) (ht : t.Valid) : u = t := by
  have hσ : σ = Equiv.refl Nat := by
    ext group
    have hstart := h.exchanged_renumber (Group.start n group)
    rw [Group.exchanged_nil, Equiv.Perm.one_apply, Group.renumber_start h.renumbers.root] at hstart
    exact Group.start_injective n hstart
  have hrenumbers := h.renumbers
  rw [hσ] at hrenumbers
  exact hrenumbers.eq_of_refl ht h.valid

/-- In a sorted tree the walk finds every group in its place. -/
theorem SortedTo.sortStack_eq_nil (ht : t.Valid) (hsorted : SortedTo last' order [] t)
    (h : SortedTo last visited stack t) (hsteps : t.capacity ≤ visited.length + steps) :
    sortStack steps stack last t = .ok [] t := by
  induction steps generalizing visited stack last with
  | zero =>
      have hlength := h.walk.length_le ht.toLinked
      obtain rfl : stack = [] := List.eq_nil_of_length_eq_zero (by omega)
      exact sortStack_nil 0 last t
  | succ steps ih =>
      cases stack with
      | nil => exact sortStack_nil _ last t
      | cons node stack =>
          have hlive : t.Live node := h.walk.live ht.toLinked (by simp)
          cases hfirst : t.links.firstChild node with
          | none =>
              rw [sortStack_leaf (hlive.lt_capacity ht.toSized) hfirst]
              exact ih (h.step_leaf hfirst) (by simp; omega)
          | some first =>
              obtain ⟨group, -, rfl, howner⟩ := ht.paired.exists_owner hfirst
              have hlast : last < t.groupCapacity :=
                (h.lt_group ht.toLinked howner).trans (Links.lt_groupCapacity_of_owner howner)
              -- The visited branches have the groups up to `last`, so the next one has the next group.
              have hgroup : group = last + 1 := by
                rw [hsorted.group_eq ht.toLinked h.walk hfirst, h.groups, List.length_range']
              subst hgroup
              have hplace : place (last + 1) (last + 1) t = .ok [] t := by
                rw [place, if_pos rfl]
                rfl
              exact sortStack_branch ht ht howner hlast hplace howner
                (ih (h.step_branch hfirst) (by simp; omega))

/-- Sorting a sorted tree reports nothing and changes nothing. -/
theorem SortedTo.sortWith_eq_nil (ht : t.Valid) (h : SortedTo last order [] t) :
    sortWith t = .ok [] t := by
  have hsteps : t.capacity ≤ ([] : List Nat).length + t.capacity := Nat.le_add_left _ _
  exact sortWith_of_sortStack (h.sortStack_eq_nil ht (.start t) hsteps) ht h

/-! ## Sorting anything -/

/-- As many groups are placed as are in use besides the root's. -/
theorem Moved.length_groups {pairs : List (Nat × Nat)} {groups : List Nat} (h : Moved pairs σ t u)
    (hsorted : SortedTo last order [] u) (ht : t.Valid) (hgroups : t.groups = .ok groups) :
    groups.length = last + 1 := by
  have hlowest : ∀ g, u.InUse g ↔ g < last + 1 := by
    intro g
    rw [hsorted.inUse_iff h.valid, Nat.lt_succ_iff]
  rw [Tree.length_groups ht hgroups, ← h.renumbers.card_usedGroups ht.toSized]
  exact card_usedGroups_of_lowest hlowest h.valid.toSized

/-- **Sorting moves what is out of place.**  In a reachable tree `sortWith` reports no exchange iff the tree is sorted
already.  It exchanges different nodes inside the tables, and no more than the nodes of the groups in use other than the
root's.  Sorting again then reports nothing and leaves the very same tree. -/
theorem Reachable.sortWith_moves_unsorted (h : t.Reachable) :
    ∃ pairs groups, ∃ u : Tree n, sortWith t = .ok pairs u ∧ t.groups = .ok groups ∧
      (∃ sorted, t.isSorted = .ok sorted ∧ (pairs = [] ↔ sorted = true)) ∧
      (∀ pair ∈ pairs, pair.1 ≠ pair.2 ∧ pair.1 < t.capacity ∧ pair.2 < t.capacity) ∧
      pairs.length ≤ 2 ^ n * (groups.length - 1) ∧
      sort t = .ok () u ∧ sortWith u = .ok [] u ∧ sort u = .ok () u := by
  have ht := h.valid
  obtain ⟨sources, σ, order, u, hrun, hmoved, hsorted⟩ := sortWith_placings ht
  obtain ⟨groups, hgroups, -⟩ := exists_groups ht
  have hagain := hsorted.sortWith_eq_nil hmoved.valid
  refine ⟨_, groups, u, hrun, hgroups, ?_, ?_, ?_, sort_eq hrun, hagain, sort_eq hagain⟩
  · obtain ⟨sorted, hanswer, hiff⟩ := exists_isSorted ht
    refine ⟨sorted, hanswer, ?_⟩
    rw [hiff]
    constructor
    · intro hnil
      rw [hnil] at hmoved
      rw [hmoved.eq_of_nil ht] at hsorted
      exact ⟨_, order, hsorted⟩
    · rintro ⟨last, order', hsorted'⟩
      have hnil := hsorted'.sortWith_eq_nil ht
      rw [hrun] at hnil
      exact (EStateM.Result.ok.inj hnil).1
  · intro pair hpair
    exact ⟨ne_of_mem_placings hpair, hmoved.inside pair hpair⟩
  · rw [hmoved.length_groups hsorted ht hgroups, Nat.add_sub_cancel]
    exact length_placings_le n 0 sources

/-- The children of the root are in group 3, so they change places with the nodes of group 1. -/
theorem Reachable.sortWith_moves_unsorted_scattered :
    ∃ pairs groups, ∃ u : Tree 2,
      sortWith ((rootOnly 2 4).afterCalls [.refine 0, .swap 1 3]) = .ok pairs u ∧
      ((rootOnly 2 4).afterCalls [.refine 0, .swap 1 3]).groups = .ok groups ∧
      (∃ sorted, ((rootOnly 2 4).afterCalls [.refine 0, .swap 1 3]).isSorted = .ok sorted ∧
        (pairs = [] ↔ sorted = true)) ∧
      (∀ pair ∈ pairs, pair.1 ≠ pair.2 ∧ pair.1 < 13 ∧ pair.2 < 13) ∧
      pairs.length ≤ 4 * (groups.length - 1) ∧
      sort ((rootOnly 2 4).afterCalls [.refine 0, .swap 1 3]) = .ok () u ∧
      sortWith u = .ok [] u ∧ sort u = .ok () u :=
  Reachable.sortWith_moves_unsorted ((Reachable.new 13 rfl).afterCalls [.refine 0, .swap 1 3])

end Orthtree.Tree
