import Orthtree.Proofs.DepthFirst
import Orthtree.Proofs.Swapping

/-!
# Sorting into depth-first order

`sortStack` walks the tree while it moves groups about.  The invariant is that the nodes visited so far own exactly
the groups `1, …, last`, in this order (`SortedTo`).  Then all nodes that the walk has met lie in groups up to `last`,
and the next group to be placed comes from behind them, so exchanging it with group `last + 1` touches nothing that
has been settled.  The group that had this place is not lost: it has moved to where its exchange partner was, and the
walk will meet its owner later.  What is reported is told by the places from which the groups are taken (`placings`).
-/

namespace Orthtree.Tree

variable {n : Nat} {t u v : Tree n} {σ τ : Equiv.Perm Nat} {pairs pairs' : List (Nat × Nat)}
  {visited stack order : List Nat} {node group last steps : Nat}

/-! ## Moves that are reported -/

/-- `u` is `t` renumbered by `σ`, and `pairs` reports to which places the nodes have gone. -/
structure Moved (pairs : List (Nat × Nat)) (σ : Equiv.Perm Nat) (t u : Tree n) : Prop where
  renumbers : Renumbers σ t u
  valid : u.Valid
  size_eq : u.size = t.size
  /-- Exchanges inside the tables. -/
  inside : ∀ pair ∈ pairs, pair.1 < t.capacity ∧ pair.2 < t.capacity
  /-- What is at the new number of a node after the exchanges was at its old number before them. -/
  exchanged_renumber (node : Nat) : Group.exchanged pairs (Group.renumber n σ node) = node

namespace Moved

theorem refl (ht : t.Valid) : Moved [] (Equiv.refl Nat) t t where
  renumbers := .refl t
  valid := ht
  size_eq := rfl
  inside _ hpair := absurd hpair List.not_mem_nil
  exchanged_renumber node := by simp

/-- Moves come one after the other; the reports are appended, the renumberings composed. -/
theorem trans (h : Moved pairs σ t u) (h' : Moved pairs' τ u v) :
    Moved (pairs ++ pairs') (σ.trans τ) t v where
  renumbers := h.renumbers.trans h'.renumbers
  valid := h'.valid
  size_eq := h'.size_eq.trans h.size_eq
  inside pair hpair := by
    rcases List.mem_append.1 hpair with hpair | hpair
    · exact h.inside pair hpair
    · rw [← h.renumbers.capacity_eq]
      exact h'.inside pair hpair
  exchanged_renumber node := by
    rw [Group.exchanged_append, Equiv.Perm.mul_apply, Group.renumber_trans h.renumbers.root,
      h'.exchanged_renumber, h.exchanged_renumber]

end Moved

/-! ## The invariant of sorting -/

/-- The walk has visited `visited`, and the children of these nodes fill the groups from 1 to `last` in their order. -/
structure SortedTo (last : Nat) (visited stack : List Nat) (t : Tree n) : Prop where
  walk : t.Walk visited stack
  groups : t.childrenGroups visited = List.range' 1 last

namespace SortedTo

/-- Before the walk nothing has been placed. -/
theorem start (t : Tree n) : SortedTo 0 [] [0] t where
  walk := .start
  groups := rfl

/-- The settled groups are those of the visited nodes. -/
theorem owner_mem_iff (h : SortedTo last visited stack t) (ht : t.Linked) (group : Nat) :
    (∃ p ∈ visited, t.links.owner group = some p) ↔ 1 ≤ group ∧ group ≤ last := by
  rw [← mem_childrenGroups_iff ht, h.groups, List.mem_range'_1]
  omega

/-- All nodes met lie in settled groups. -/
theorem ofNode_le (h : SortedTo last visited stack t) (ht : t.Linked) {x : Nat}
    (hx : x ∈ visited ++ stack) : Group.ofNode n x ≤ last := by
  rcases h.walk.owner_mem ht hx with rfl | howner
  · exact Nat.zero_le _
  · exact ((h.owner_mem_iff ht _).1 howner).2

/-- The next group to be placed is not settled. -/
theorem lt_group (h : SortedTo last visited (node :: stack) t) (ht : t.Linked)
    (howner : t.links.owner group = some node) : last < group := by
  by_contra hle
  have hgroup : group ≠ 0 := ((ht.paired.owner_iff group node).1 howner).1
  obtain ⟨p, hp, howner'⟩ := (h.owner_mem_iff ht group).2 (by omega)
  obtain rfl : p = node := Option.some_injective _ (howner'.symm.trans howner)
  exact (List.nodup_append.1 (h.walk.nodup ht)).2.2 p hp p List.mem_cons_self rfl

/-- A visited leaf adds nothing. -/
theorem step_leaf (h : SortedTo last visited (node :: stack) t)
    (hleaf : t.links.firstChild node = none) : SortedTo last (visited ++ [node]) stack t where
  walk := by
    have hstep := h.walk.step
    rwa [below_of_leaf hleaf] at hstep
  groups := by rw [childrenGroups_concat_leaf hleaf, h.groups]

/-- A visited branch adds the group that was placed for it. -/
theorem step_branch (h : SortedTo last visited (node :: stack) t)
    (hfirst : t.links.firstChild node = some (Group.start n (last + 1))) :
    SortedTo (last + 1) (visited ++ [node])
      (List.range' (Group.start n (last + 1)) (2 ^ n) ++ stack) t where
  walk := by
    have hstep := h.walk.step
    rwa [below_of_branch hfirst] at hstep
  groups := by
    rw [childrenGroups_concat_branch hfirst, h.groups, List.range'_1_concat, Nat.add_comm]

/-- Renumbering the groups that are not settled keeps the walk and what it has settled. -/
theorem renumber (h : SortedTo last visited stack t) (ht : t.Linked) (hσ : Renumbers σ t u)
    (hfix : ∀ g, g ≤ last → σ g = g) : SortedTo last visited stack u := by
  -- All nodes met so far lie in groups that stay.
  have hkeep : ∀ x ∈ visited ++ stack, Group.renumber n σ x = x := fun x hx =>
    Group.renumber_of_fixed (hfix _ (h.ofNode_le ht hx))
  have hvisited : visited.map (Group.renumber n σ) = visited := by
    rw [List.map_congr_left fun x hx => hkeep x (List.mem_append_left _ hx), List.map_id']
  have hstack : stack.map (Group.renumber n σ) = stack := by
    rw [List.map_congr_left fun x hx => hkeep x (List.mem_append_right _ hx), List.map_id']
  constructor
  · have hwalk := hσ.walk ht h.walk
    rwa [hvisited, hstack] at hwalk
  · have hgroups := hσ.childrenGroups_map visited
    rw [hvisited, h.groups] at hgroups
    have hsettled : ∀ g ∈ List.range' 1 last, σ g = g := by
      intro g hg
      have hle := (List.mem_range'_1.1 hg).2
      exact hfix g (by omega)
    rw [hgroups, List.map_congr_left hsettled, List.map_id']

end SortedTo

/-! ## Placing one group -/

/-- The pairs of nodes exchanged when the children stored in `group` are brought to `target`. -/
def placing (n group target : Nat) : List (Nat × Nat) :=
  if group = target then [] else Group.runPairs (Group.start n group) (Group.start n target) (2 ^ n)

theorem placing_self (n group : Nat) : placing n group group = [] := if_pos rfl

theorem placing_of_ne {target : Nat} (h : group ≠ target) : placing n group target =
    Group.runPairs (Group.start n group) (Group.start n target) (2 ^ n) := if_neg h

/-- `place` brings the children of the next node to the first place that is not settled. -/
theorem place_eq (ht : t.Valid) (h : SortedTo last visited (node :: stack) t)
    (howner : t.links.owner group = some node) :
    ∃ σ, ∃ u : Tree n, place group (last + 1) t = .ok (placing n group (last + 1)) u ∧
      Moved (placing n group (last + 1)) σ t u ∧ SortedTo last visited (node :: stack) u ∧
      u.links.owner (last + 1) = some node := by
  rcases eq_or_ne group (last + 1) with rfl | hne
  · refine ⟨Equiv.refl Nat, t, ?_, ?_, h, howner⟩
    · rw [place, if_pos rfl, placing_self]
      rfl
    · rw [placing_self]
      exact .refl ht
  · have hlast : last < group := h.lt_group ht.toLinked howner
    have hgroup : group ≠ 0 := by omega
    have hlt : group < t.groupCapacity := Links.lt_groupCapacity_of_owner howner
    -- The group comes from behind its target, so the target is inside the tables.
    have htarget : last + 1 < t.groupCapacity := by omega
    obtain ⟨u, hswap, hσ, hsize, hu⟩ := swap_eq ht hgroup (Nat.succ_ne_zero last) hne hlt htarget
    have hpairs := memberPairs_eq ht.toSized hgroup (Nat.succ_ne_zero last) hlt htarget
    have hfix : ∀ g, g ≤ last → Equiv.swap group (last + 1) g = g := fun g hg =>
      Equiv.swap_apply_of_ne_of_ne (by omega) (by omega)
    rw [placing_of_ne hne]
    refine ⟨Equiv.swap group (last + 1), u, ?_, ⟨hσ, hu, hsize, ?_, ?_⟩,
      h.renumber ht.toLinked hσ hfix, ?_⟩
    · rw [place, if_neg hne, bind_of_ok hswap]
      exact ask_of_ok hpairs
    · intro pair hpair
      exact mem_runPairs_lt ht.toSized hgroup (Nat.succ_ne_zero last) hlt htarget hpair
    · intro x
      rw [Group.exchanged_groups hgroup (Nat.succ_ne_zero last) hne,
        Group.renumber_swap_renumber_swap hgroup (Nat.succ_ne_zero last)]
    · have hnode : Group.ofNode n node ≤ last := h.ofNode_le ht.toLinked (by simp)
      have hmoved := hσ.owner_apply group
      rwa [Equiv.swap_apply_left, howner, Option.map_some,
        Group.renumber_of_fixed (hfix _ hnode)] at hmoved

/-! ## Sorting everything -/

/-- The pairs of nodes exchanged when groups are brought to the places after `last`, one after the other, each from the
place where it is found then. -/
def placings (n : Nat) : (last : Nat) → (sources : List Nat) → List (Nat × Nat)
  | _, [] => []
  | last, group :: sources => placing n group (last + 1) ++ placings n (last + 1) sources

/-- One visit of a branch: its group is placed, and the walk goes on below it. -/
theorem sortStack_branch (ht : t.Valid) (hu : u.Valid) (howner : t.links.owner group = some node)
    (hlast : last < t.groupCapacity) (hplace : place group (last + 1) t = .ok pairs u)
    (howner' : u.links.owner (last + 1) = some node)
    (hrest : sortStack steps (List.range' (Group.start n (last + 1)) (2 ^ n) ++ stack) (last + 1) u =
      .ok pairs' v) :
    sortStack (steps + 1) (node :: stack) last t = .ok (pairs ++ pairs') v := by
  have hgroup := childrenGroup_of_owner ht.toLinked howner
  have hlt : last + 1 < u.groupCapacity := Links.lt_groupCapacity_of_owner howner'
  have hmembers := hu.members_eq (Nat.succ_ne_zero last) hlt
  rw [sortStack, bind_of_ok (ask_of_ok hgroup)]
  dsimp only
  rw [bind_of_ok (ask_of_ok (ht.index_succ_eq hlast)), bind_of_ok hplace,
    bind_of_ok (ask_of_ok hmembers), Span.toList, Nat.add_sub_cancel_left, bind_of_ok hrest]
  rfl

/-- One visit of a leaf, which is passed over. -/
theorem sortStack_leaf (hnode : node < t.capacity) (hleaf : t.links.firstChild node = none)
    (steps last : Nat) (stack : List Nat) :
    sortStack (steps + 1) (node :: stack) last t = sortStack steps stack last t := by
  have hgroup := childrenGroup_of_lt hnode
  rw [hleaf] at hgroup
  rw [sortStack, bind_of_ok (ask_of_ok hgroup)]
  rfl

theorem sortStack_nil (steps last : Nat) (t : Tree n) : sortStack steps [] last t = .ok [] t := by
  cases steps <;> rfl

/-- Sorting settles one branch after the other and never runs out of steps. -/
theorem sortStack_eq (ht : t.Valid) (h : SortedTo last visited stack t)
    (hsteps : t.capacity ≤ visited.length + steps) :
    ∃ sources σ order, ∃ u : Tree n, sortStack steps stack last t = .ok (placings n last sources) u ∧
      Moved (placings n last sources) σ t u ∧ SortedTo (last + sources.length) order [] u := by
  induction steps generalizing t visited stack last with
  | zero =>
      -- All nodes there is room for have been visited.
      have hlength := h.walk.length_le ht.toLinked
      obtain rfl : stack = [] := List.eq_nil_of_length_eq_zero (by omega)
      exact ⟨[], _, visited, t, sortStack_nil 0 last t, .refl ht, h⟩
  | succ steps ih =>
      cases stack with
      | nil => exact ⟨[], _, visited, t, sortStack_nil _ last t, .refl ht, h⟩
      | cons node stack =>
          have hlive : t.Live node := h.walk.live ht.toLinked (by simp)
          cases hfirst : t.links.firstChild node with
          | none =>
              rw [sortStack_leaf (hlive.lt_capacity ht.toSized) hfirst]
              exact ih ht (h.step_leaf hfirst) (by simp; omega)
          | some first =>
              obtain ⟨group, -, rfl, howner⟩ := ht.paired.exists_owner hfirst
              have hlast : last < t.groupCapacity :=
                (h.lt_group ht.toLinked howner).trans (Links.lt_groupCapacity_of_owner howner)
              obtain ⟨σ, u, hplace, hmoved, hu, howner'⟩ := place_eq ht h howner
              obtain ⟨-, hfirst'⟩ := (hmoved.valid.paired.owner_iff _ _).1 howner'
              -- The walk goes on in the renumbered tree, where `node` has not moved.
              obtain ⟨sources, τ, order, w, hrun, hmoved', hw⟩ :=
                ih hmoved.valid (hu.step_branch hfirst')
                  (by rw [hmoved.renumbers.capacity_eq]; simp; omega)
              refine ⟨group :: sources, _, order, w, ?_, hmoved.trans hmoved', ?_⟩
              · exact sortStack_branch ht hmoved.valid howner hlast hplace howner' hrun
              · rwa [List.length_cons, Nat.add_comm sources.length, ← Nat.add_assoc]

namespace SortedTo

/-- When all is settled, the groups in use are those up to the last one placed. -/
theorem inUse_iff (h : SortedTo last order [] t) (ht : t.Valid) (g : Nat) :
    t.InUse g ↔ g ≤ last := by
  rcases eq_or_ne g 0 with rfl | hg
  · simp [t.inUse_zero]
  · have hmem := h.owner_mem_iff ht.toLinked g
    rw [inUse_iff_exists_owner hg]
    constructor
    · rintro ⟨p, howner⟩
      have hp := (h.walk.mem_iff_live ht).2 (live_of_owner ht.toLinked howner)
      exact (hmem.1 ⟨p, hp, howner⟩).2
    · intro hle
      obtain ⟨p, -, howner⟩ := hmem.2 ⟨Nat.pos_of_ne_zero hg, hle⟩
      exact ⟨p, howner⟩

/-- When all is settled, the tree is compact. -/
theorem isCompact (h : SortedTo last order [] t) (ht : t.Valid) : t.isCompact = true := by
  apply ht.isCompact_of_lowest
  intro g
  rw [h.inUse_iff ht, Nat.lt_succ_iff]

/-- When all is settled, the tree is sorted. -/
theorem isSorted (h : SortedTo last order [] t) (ht : t.Valid) : t.isSorted = .ok true := by
  rw [isSorted_eq ht.toLinked h.walk, h.groups, List.length_range', decide_eq_true rfl]

end SortedTo

/-- What `sortWith` does after the walk: it finds the tree compact and sorted. -/
theorem sortWith_of_sortStack {last' : Nat} (hrun : sortStack t.capacity [0] 0 t = .ok pairs u)
    (hu : u.Valid) (h : SortedTo last' order [] u) : sortWith t = .ok pairs u := by
  rw [sortWith, bind_get, bind_of_ok hrun, bind_get, bind_of_ok (ask_of_ok (h.isSorted hu)),
    h.isCompact hu]
  rfl

/-- **Sorting.**  Every valid tree is sorted without a fault: the result is a renumbered tree whose groups are settled,
and the exchanges reported, which place one group after the other, lead from the one to the other. -/
theorem sortWith_placings (ht : t.Valid) :
    ∃ sources σ order, ∃ u : Tree n, sortWith t = .ok (placings n 0 sources) u ∧
      Moved (placings n 0 sources) σ t u ∧ SortedTo sources.length order [] u := by
  have hsteps : t.capacity ≤ ([] : List Nat).length + t.capacity := Nat.le_add_left _ _
  obtain ⟨sources, σ, order, u, hrun, hmoved, hu⟩ := sortStack_eq ht (.start t) hsteps
  rw [Nat.zero_add] at hu
  exact ⟨sources, σ, order, u, sortWith_of_sortStack hrun hmoved.valid hu, hmoved, hu⟩

/-- Sorting a valid tree is not refused, moves it, and leaves it sorted. -/
theorem sortWith_eq (ht : t.Valid) :
    ∃ pairs σ order last, ∃ u : Tree n, sortWith t = .ok pairs u ∧ Moved pairs σ t u ∧
      SortedTo last order [] u := by
  obtain ⟨sources, σ, order, u, h⟩ := sortWith_placings ht
  exact ⟨placings n 0 sources, σ, order, sources.length, u, h⟩

/-- `sort` leaves what `sortWith` leaves. -/
theorem sort_eq {pairs : List (Nat × Nat)} {u : Tree n} (h : sortWith t = .ok pairs u) :
    sort t = .ok () u := by
  rw [sort, bind_of_ok h]
  rfl

end Orthtree.Tree
