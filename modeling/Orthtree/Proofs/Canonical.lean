import Orthtree.Proofs.Sorting
import Orthtree.Snapshot.Conversion

/-!
# The sorted tree as a canonical form

Two trees that are both sorted and have the same paths have the same links, whatever room they have
(`sameLinks_iff_paths`).  The walks of both go side by side: as long as they have met nodes with the same links, the
next node has the same path in both, so it is a branch in both or in neither, and the group of its children is the
next one in both.  What can be seen of a tree without knowing its room, `agrees` and `snapshot`, is then the same.
-/

namespace Orthtree.Tree

variable {n : Nat} {t u : Tree n} {visited stack order order' : List Nat}
  {node group last last' : Nat}

/-! ## Trees with the same links -/

/-- All links of the two trees are the same.  One of them may have more room than the other. -/
structure SameLinks (t u : Tree n) : Prop where
  owner_eq (group : Nat) : t.links.owner group = u.links.owner group
  firstChild_eq (node : Nat) : t.links.firstChild node = u.links.firstChild node

namespace SameLinks

theorem symm (h : SameLinks t u) : SameLinks u t where
  owner_eq group := (h.owner_eq group).symm
  firstChild_eq node := (h.firstChild_eq node).symm

/-- Links down determine links up. -/
theorem of_firstChild (ht : t.Linked) (hu : u.Linked)
    (h : ∀ node, t.links.firstChild node = u.links.firstChild node) : SameLinks t u where
  owner_eq group := by
    ext node
    rw [ht.paired.owner_iff, hu.paired.owner_iff, h]
  firstChild_eq := h

theorem inUse_iff (h : SameLinks t u) (group : Nat) : t.InUse group ↔ u.InUse group := by
  rw [InUse, InUse, h.owner_eq]

/-- Paths lead to the same nodes in trees with the same links. -/
theorem follow_eq (h : SameLinks t u) (path : List Nat) : t.follow path = u.follow path := by
  have hchild : t.childAt? = u.childAt? := by
    funext node position
    rw [childAt?, childAt?, h.firstChild_eq]
  rw [follow, follow, hchild]

theorem paths_eq (h : SameLinks t u) : t.paths = u.paths := by
  ext path
  rw [mem_paths_iff, mem_paths_iff, h.follow_eq]

/-- The depth-first walk is the same in trees with the same links. -/
theorem walk (h : SameLinks t u) (hwalk : t.Walk visited stack) : u.Walk visited stack := by
  apply hwalk.of_firstChild
  intro x _
  exact h.firstChild_eq x

/-- Trees with the same links have equal counters. -/
theorem counters_eq (h : SameLinks t u) (ht : t.Valid) (hu : u.Valid) :
    t.size = u.size ∧ t.firstFree = u.firstFree ∧ t.groupEnd = u.groupEnd :=
  ht.toCounted.eq_of_inUse hu.toCounted ht.toSized hu.toSized h.inUse_iff

/-- Trees with the same links and the same room are the same. -/
theorem eq_of_capacity (h : SameLinks t u) (ht : t.Valid) (hu : u.Valid)
    (hcapacity : t.capacity = u.capacity) : t = u := by
  apply ht.eq_of_links hu
  apply Links.eq_of_lookups
  · have hgroups : Group.covering n t.capacity = Group.covering n u.capacity := by rw [hcapacity]
    rwa [ht.capacity_eq, hu.capacity_eq, Group.covering_nodeCount, Group.covering_nodeCount]
      at hgroups
  · exact hcapacity
  · exact h.owner_eq
  · exact h.firstChild_eq

end SameLinks

/-- Trees that agree on the nodes of a finished walk have the same links. -/
theorem sameLinks_of_walk (ht : t.Valid) (hu : u.Valid) (h : t.Walk order [])
    (hagree : ∀ x ∈ order, t.links.firstChild x = u.links.firstChild x) : SameLinks t u := by
  apply SameLinks.of_firstChild ht.toLinked hu.toLinked
  intro node
  by_cases hnode : node ∈ order
  · exact hagree node hnode
  · -- A node that is not visited is free in both trees.
    have hut : ¬t.Live node := mt (h.mem_iff_live ht).2 hnode
    have huu : ¬u.Live node := mt ((h.of_firstChild hagree).mem_iff_live hu).2 hnode
    rw [firstChild_of_not_live ht.toLinked hut, firstChild_of_not_live hu.toLinked huu]

/-! ## Comparing trees -/

/-- The comparison of `agrees` at two nodes. -/
def agreesAt (t u : Tree n) (pair : Nat × Nat) : Bool :=
  decide (t.links.owner (Group.ofNode n pair.1) = u.links.owner (Group.ofNode n pair.2)) &&
    decide (t.childSpan pair.1 = u.childSpan pair.2)

/-- Two trees of one size are compared at the nodes that the walks visit at the same step. -/
theorem agrees_of_walk (ht : t.Linked) (hu : u.Linked) (h : t.Walk order [])
    (h' : u.Walk order' []) (hsize : t.size = u.size) :
    t.agrees u = .ok ((order.zip order').all (agreesAt t u)) := by
  rw [agrees, if_pos hsize, h.depthFirst_eq ht, h'.depthFirst_eq hu]
  apply allM_eq
  rintro ⟨a, b⟩ hpair
  obtain ⟨ha, hb⟩ := List.of_mem_zip hpair
  have hat : a < t.capacity := (h.live ht (by simpa using ha)).lt_capacity ht.toSized
  have hbu : b < u.capacity := (h'.live hu (by simpa using hb)).lt_capacity hu.toSized
  simp only [parent_eq ht hat, parent_eq hu hbu, children_eq ht hat, children_eq hu hbu]
  rfl

/-- Walks that agree step by step visit nodes with the same children. -/
theorem Walk.firstChild_eq_of_agree (ht : t.Linked) (hu : u.Linked) (h : t.Walk visited stack)
    (horder : t.Walk order []) (horder' : u.Walk order' [])
    (hagree : ∀ pair ∈ order.zip order', agreesAt t u pair = true) :
    ∀ x ∈ visited, t.links.firstChild x = u.links.firstChild x := by
  induction h with
  | start => exact fun x hx => absurd hx List.not_mem_nil
  | @step visited stack node h ih =>
      intro x hx
      rcases List.mem_append.1 hx with hx | hx
      · exact ih x hx
      · obtain rfl := List.mem_singleton.1 hx
        -- Both walks visit `x` after `visited`, so it is compared with itself.
        obtain ⟨rest, hrest⟩ := h.step.exists_rest ht horder
        obtain ⟨rest', hrest'⟩ := (h.of_firstChild ih).step.exists_rest hu horder'
        have hmem : (x, x) ∈ order.zip order' := by
          rw [hrest, hrest', List.append_assoc, List.append_assoc, List.zip_append rfl]
          simp
        have hpair := hagree _ hmem
        rw [agreesAt, Bool.and_eq_true, decide_eq_true_iff, decide_eq_true_iff] at hpair
        exact childSpan_eq_iff.1 hpair.2

/-- **Comparing.**  Two valid trees agree iff they have the same links. -/
theorem agrees_eq (ht : t.Valid) (hu : u.Valid) :
    ∃ b, t.agrees u = .ok b ∧ (b = true ↔ SameLinks t u) := by
  by_cases hsize : t.size = u.size
  · obtain ⟨order, h⟩ := exists_walk ht.toLinked
    obtain ⟨order', h'⟩ := exists_walk hu.toLinked
    refine ⟨_, agrees_of_walk ht.toLinked hu.toLinked h h' hsize, ?_⟩
    rw [List.all_eq_true]
    constructor
    · intro hagree
      exact sameLinks_of_walk ht hu h (h.firstChild_eq_of_agree ht.toLinked hu.toLinked h h' hagree)
    · rintro hsame ⟨a, b⟩ hpair
      -- The walk of one tree is the walk of the other, so every node is compared with itself.
      obtain rfl := h'.unique hu.toLinked (hsame.walk h)
      rw [List.zip, List.zipWith_self, List.mem_map] at hpair
      obtain ⟨x, -, hx⟩ := hpair
      obtain ⟨rfl, rfl⟩ := Prod.mk.inj hx
      rw [agreesAt, Bool.and_eq_true, decide_eq_true_iff, decide_eq_true_iff, childSpan_eq_iff]
      exact ⟨hsame.owner_eq _, hsame.firstChild_eq _⟩
  · refine ⟨false, ?_, ?_⟩
    · rw [agrees, if_neg hsize]
      rfl
    · simp only [Bool.false_eq_true, false_iff]
      intro hsame
      exact hsize (hsame.counters_eq ht hu).1

/-! ## Sorted trees with the same paths -/

namespace SortedTo

/-- In a sorted tree the group of the next branch is the one after those of the branches visited. -/
theorem group_eq (h : SortedTo last order [] t) (ht : t.Linked)
    (hwalk : t.Walk visited (node :: stack))
    (hfirst : t.links.firstChild node = some (Group.start n group)) :
    group = (t.childrenGroups visited).length + 1 := by
  obtain ⟨rest, rfl⟩ := hwalk.step.exists_rest ht h.walk
  have hgroups := h.groups
  rw [childrenGroups_append, childrenGroups_concat_branch hfirst] at hgroups
  obtain ⟨k, -, hprefix, -⟩ := List.range'_eq_append_iff.1 hgroups.symm
  have hlength := congrArg List.length hprefix
  rw [List.length_append, List.length_singleton, List.length_range'] at hlength
  rw [← hlength, List.range'_1_concat] at hprefix
  obtain ⟨-, hgroup⟩ := List.append_inj' hprefix rfl
  rw [List.singleton_inj.1 hgroup, Nat.add_comm]

end SortedTo

/-- The nodes that two trees reach along one path are branches in both or in neither. -/
theorem isSome_firstChild_iff (hpaths : t.paths = u.paths) {path : List Nat} {a b : Nat}
    (ht : t.follow path = some a) (hu : u.follow path = some b) :
    (t.links.firstChild a).isSome ↔ (u.links.firstChild b).isSome := by
  have hbranch : ∀ (v : Tree n) (x : Nat), v.follow path = some x →
      ((v.links.firstChild x).isSome ↔ path ++ [0] ∈ v.paths) := by
    intro v x hx
    rw [mem_paths_iff, follow_concat, hx, Option.bind_some, childAt?]
    cases v.links.firstChild x with
    | none => simp
    | some first => simp [Nat.two_pow_pos n]
  rw [hbranch t a ht, hbranch u b hu, hpaths]

/-- Sorted trees with the same paths agree on all nodes of a walk. -/
theorem SortedTo.firstChild_eq (ht : t.Linked) (hu : u.Linked) (hst : SortedTo last order [] t)
    (hsu : SortedTo last' order' [] u) (hpaths : t.paths = u.paths) (h : t.Walk visited stack) :
    ∀ x ∈ visited, t.links.firstChild x = u.links.firstChild x := by
  induction h with
  | start => exact fun x hx => absurd hx List.not_mem_nil
  | @step visited stack node h ih =>
      intro x hx
      rcases List.mem_append.1 hx with hx | hx
      · exact ih x hx
      · obtain rfl := List.mem_singleton.1 hx
        have hwalk := h.of_firstChild ih
        -- The walks have visited the same branches, so the next group has the same number in both.
        have hgroups : t.childrenGroups visited = u.childrenGroups visited := by
          apply List.filterMap_congr
          intro y hy
          rw [ih y hy]
        obtain ⟨path, hpt, hpu⟩ := h.exists_common_path ih (x := x) (by simp)
        have hbranch := isSome_firstChild_iff hpaths hpt hpu
        cases hft : t.links.firstChild x with
        | none =>
            rw [hft, Option.isSome_none, Bool.false_eq_true, false_iff,
              Option.not_isSome_iff_eq_none] at hbranch
            exact hbranch.symm
        | some first =>
            obtain ⟨first', hfu⟩ := Option.isSome_iff_exists.1 (hbranch.1 (by rw [hft]; rfl))
            obtain ⟨group, -, rfl, -⟩ := ht.paired.exists_owner hft
            obtain ⟨group', -, rfl, -⟩ := hu.paired.exists_owner hfu
            rw [hfu, hst.group_eq ht h hft, hsu.group_eq hu hwalk hfu, hgroups]

/-- **Canonical form.**  Sorted trees have the same links iff they have the same paths. -/
theorem sameLinks_iff_paths (ht : t.Valid) (hu : u.Valid) (hst : SortedTo last order [] t)
    (hsu : SortedTo last' order' [] u) : SameLinks t u ↔ t.paths = u.paths := by
  constructor
  · exact SameLinks.paths_eq
  · intro hpaths
    exact sameLinks_of_walk ht hu hst.walk
      (hst.firstChild_eq ht.toLinked hu.toLinked hsu hpaths hst.walk)

/-! ## Snapshots -/

/-- The groups that the nodes of a tree fill are inside the tables. -/
theorem Valid.covering_le (ht : t.Valid) : Group.covering n t.size ≤ t.groupCapacity := by
  rw [ht.size_eq, Group.covering_nodeCount]
  exact t.card_usedGroups_le

/-- A record is made of look-ups. -/
theorem record_eq (ht : t.Valid) : t.record = .ok {
    dimension := n
    size := t.size
    parents := ((List.range (Group.covering n t.size)).map t.links.owner).toArray
    firstChildren := ((List.range t.size).map t.links.firstChild).toArray } := by
  have hparents : (List.range (Group.covering n t.size)).mapM t.ownerAt =
      .ok ((List.range (Group.covering n t.size)).map t.links.owner) := by
    apply mapM_eq
    intro group hgroup
    exact ownerAt_of_lt ((List.mem_range.1 hgroup).trans_le ht.covering_le)
  have hchildren : (List.range t.size).mapM t.firstChildAt =
      .ok ((List.range t.size).map t.links.firstChild) := by
    apply mapM_eq
    intro node hnode
    exact firstChildAt_of_lt ((List.mem_range.1 hnode).trans_le ht.size_le_capacity)
  rw [record, hparents, hchildren]
  rfl

/-- The record does not tell how much room the tree has. -/
theorem SameLinks.record_eq (h : SameLinks t u) (ht : t.Valid) (hu : u.Valid) :
    t.record = u.record := by
  have howner : t.links.owner = u.links.owner := funext h.owner_eq
  have hfirst : t.links.firstChild = u.links.firstChild := funext h.firstChild_eq
  rw [Tree.record_eq ht, Tree.record_eq hu, (h.counters_eq ht hu).1, howner, hfirst]

/-- The snapshot of a compact tree is its record. -/
theorem snapshot_of_isCompact (ht : t.Valid) (h : t.isCompact = true) :
    ∃ s, t.record = .ok s ∧ t.snapshot = .ok (.ok s) := by
  refine ⟨_, record_eq ht, ?_⟩
  rw [snapshot, if_pos h, record_eq ht]
  rfl

end Orthtree.Tree
