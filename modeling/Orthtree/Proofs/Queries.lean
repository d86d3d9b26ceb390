import Orthtree.Proofs.Invariant
import Orthtree.Tree.Traversal

/-!
# What queries answer in a linked tree

In a tree whose tables have the right size no query overflows, and every answer is a look-up of links.  The nodes
`below` a node, its children by position, are the view of `children` that walks are stated with.
-/

namespace Orthtree.Tree

variable {n : Nat} {t u : Tree n} {node group first position c : Nat}

/-! ## Numbers that fit -/

/-- Numbers up to the capacity fit an index. -/
theorem Sized.index_eq (ht : t.Sized) {x : Nat} (h : x ≤ t.capacity) : Bounded.index x = .ok x :=
  Bounded.below_of_lt (lt_indexLimit (Nat.lt_of_le_of_lt h ht.capacity_lt))

/-- Numbers up to the capacity fit a count. -/
theorem Sized.count_eq (ht : t.Sized) {x : Nat} (h : x ≤ t.capacity) : Bounded.count x = .ok x :=
  Bounded.below_of_lt (lt_countLimit (Nat.lt_of_le_of_lt h ht.capacity_lt))

theorem Sized.first_eq (ht : t.Sized) (hgroup : group ≠ 0) (hlt : group < t.groupCapacity) :
    Group.first n group = .ok (Group.start n group) :=
  ht.index_eq (Nat.le_of_add_right_le (ht.start_add_le hgroup hlt))

theorem Sized.index_succ_eq (ht : t.Sized) (hlt : group < t.groupCapacity) :
    Bounded.index (group + 1) = .ok (group + 1) :=
  ht.index_eq (Nat.le_trans hlt ht.groupCapacity_le)

/-- A run of nodes inside the tables has an index for each of them and for its end. -/
theorem Sized.run_eq (ht : t.Sized) {count : Nat} (h : first + count ≤ t.capacity) :
    Group.run first count = .ok ⟨first, first + count⟩ := by
  rw [Group.run, ht.index_eq h]
  rfl

/-- The members of a group inside the tables. -/
theorem Sized.members_eq (ht : t.Sized) (hgroup : group ≠ 0) (hlt : group < t.groupCapacity) :
    Group.members n group = .ok ⟨Group.start n group, Group.start n group + 2 ^ n⟩ := by
  rw [Group.members, ht.first_eq hgroup hlt, Group.width, if_neg hgroup]
  exact ht.run_eq (ht.start_add_le hgroup hlt)

/-! ## Queries about one node or group -/

/-- Inside the tables the query is answered with what the links say. -/
theorem isInUse_eq (hlt : group < t.groupCapacity) :
    t.isInUse group = .ok (decide (t.InUse group)) := by
  have h : decide (t.InUse group) = (decide (group = 0) || (t.links.owner group).isSome) := by
    rw [Bool.eq_iff_iff, decide_eq_true_iff, Bool.or_eq_true, decide_eq_true_iff, InUse]
  rw [isInUse_of_lt hlt, h]

/-- A node is in the tree iff it is live. -/
theorem contains_eq (ht : t.Sized) (node : Nat) : t.contains node = .ok (decide (t.Live node)) := by
  rcases Nat.lt_or_ge node t.capacity with hlt | hge
  · have hgroup : Group.ofNode n node < t.groupCapacity := by
      rwa [Group.ofNode_lt_iff, ← ht.capacity_eq]
    rw [contains_of_lt hlt, isInUse_eq hgroup]
    rfl
  · have hfree : ¬t.Live node := fun h => Nat.not_lt.2 hge (h.lt_capacity ht)
    rw [contains_of_le hge, decide_eq_false hfree]

theorem contains_eq_true_iff (ht : t.Sized) (node : Nat) :
    t.contains node = .ok true ↔ t.Live node := by
  rw [contains_eq ht, Except.ok.injEq, decide_eq_true_iff]

theorem contains_eq_false_iff (ht : t.Sized) (node : Nat) :
    t.contains node = .ok false ↔ ¬t.Live node := by
  rw [contains_eq ht, Except.ok.injEq, decide_eq_false_iff_not]

/-- A node is a leaf iff it has no first child. -/
theorem isLeaf_eq_true_iff (hlt : node < t.capacity) :
    t.isLeaf node = .ok true ↔ t.links.firstChild node = none := by
  rw [isLeaf_of_lt hlt, Except.ok.injEq, Option.isNone_iff_eq_none]

/-- A node is a branch iff it has a first child; past the tables there are none. -/
theorem isLeaf_eq_false_iff : t.isLeaf node = .ok false ↔ t.links.firstChild node ≠ none := by
  rcases Nat.lt_or_ge node t.capacity with hlt | hge
  · rw [isLeaf_of_lt hlt, Except.ok.injEq, Option.isNone_eq_false_iff, Option.isSome_iff_ne_none]
  · rw [isLeaf_of_le hge]
    exact iff_of_false nofun (not_not.2 (Links.firstChild_of_le hge))

/-- The parent of a node is the owner of its group; the root group has none. -/
theorem parent_eq (ht : t.Linked) (hlt : node < t.capacity) :
    t.parent node = .ok (t.links.owner (Group.ofNode n node)) := by
  rcases eq_or_ne node 0 with rfl | hnode
  · rw [parent_root hlt, Group.ofNode_zero, ht.paired.owner_root]
  · refine parent_of_lt hlt hnode ?_
    rwa [Group.ofNode_lt_iff, ← ht.capacity_eq]

/-- The children of a node are in the group that it owns. -/
theorem childrenGroup_of_owner (ht : t.Linked) (howner : t.links.owner group = some node) :
    t.childrenGroup node = .ok (some group) := by
  rw [childrenGroup_of_lt ((live_of_owner ht howner).lt_capacity ht.toSized),
    ((ht.paired.owner_iff group node).1 howner).2, Option.map_some, Group.ofNode_start]

/-- The children that a first child begins are inside the tables. -/
theorem Linked.firstChild_add_le (ht : t.Linked) (h : t.links.firstChild node = some first) :
    first + 2 ^ n ≤ t.capacity := by
  obtain ⟨group, hgroup, rfl, howner⟩ := ht.paired.exists_owner h
  exact ht.start_add_le hgroup (Links.lt_groupCapacity_of_owner howner)

theorem child_eq (ht : t.Linked) (hlt : node < t.capacity) (hposition : position < 2 ^ n) :
    t.child node position = .ok (t.childAt? node position) := by
  rw [child, if_pos hposition, firstChild_of_lt hlt, childAt?]
  cases hfirst : t.links.firstChild node with
  | none => rfl
  | some first =>
      have hle := ht.firstChild_add_le hfirst
      simp only [bind, Except.bind, ht.index_eq (show first + position ≤ t.capacity by omega),
        if_pos hposition]
      rfl

/-! ## Children as a list -/

/-- The children of `node` by position, none for a leaf. -/
def below (t : Tree n) (node : Nat) : List Nat :=
  match t.links.firstChild node with
  | none => []
  | some first => List.range' first (2 ^ n)

theorem below_of_leaf (h : t.links.firstChild node = none) : t.below node = [] := by
  rw [below, h]

theorem below_of_branch (h : t.links.firstChild node = some first) :
    t.below node = List.range' first (2 ^ n) := by
  rw [below, h]

/-- The children of `node` as a span. -/
def childSpan (t : Tree n) (node : Nat) : Span :=
  match t.links.firstChild node with
  | none => .empty
  | some first => ⟨first, first + 2 ^ n⟩

/-- The span of the children lists them by position. -/
theorem toList_childSpan (t : Tree n) (node : Nat) : (t.childSpan node).toList = t.below node := by
  rw [childSpan, below]
  split
  · exact Span.toList_empty
  · rw [Span.toList, Nat.add_sub_cancel_left]

/-- The span tells the first child, since no group is empty. -/
theorem childSpan_eq_iff {x y : Nat} :
    t.childSpan x = u.childSpan y ↔ t.links.firstChild x = u.links.firstChild y := by
  have hpos := Nat.two_pow_pos n
  rw [childSpan, childSpan]
  cases t.links.firstChild x <;> cases u.links.firstChild y <;>
    simp only [Span.empty, Span.mk.injEq, Option.some.injEq, reduceCtorEq, iff_false] <;> omega

theorem children_eq (ht : t.Linked) (hlt : node < t.capacity) :
    t.children node = .ok (t.childSpan node) := by
  rw [children, firstChild_of_lt hlt, childSpan]
  cases hfirst : t.links.firstChild node with
  | none => rfl
  | some first => exact ht.run_eq (ht.firstChild_add_le hfirst)

/-- The nodes below a node are its children. -/
theorem mem_below_iff : c ∈ t.below node ↔ ∃ position, t.childAt? node position = some c := by
  simp only [childAt?_eq_some_iff, below]
  cases hfirst : t.links.firstChild node with
  | none => simp
  | some first =>
      simp only [List.mem_range'_1, Option.some.injEq, exists_eq_left']
      constructor
      · rintro ⟨hle, hlt⟩
        exact ⟨c - first, by omega, by omega⟩
      · rintro ⟨position, hlt, rfl⟩
        omega

theorem mem_below_iff_owner (ht : t.Linked) :
    c ∈ t.below node ↔ t.links.owner (Group.ofNode n c) = some node := by
  simp only [mem_below_iff, childAt?_eq_some_iff_owner ht, exists_and_left, exists_eq', and_true]

/-- Different positions have different children. -/
theorem nodup_below (t : Tree n) (node : Nat) : (t.below node).Nodup := by
  rw [below]
  split
  · exact List.nodup_nil
  · exact List.nodup_range'

theorem lt_capacity_of_mem_below (ht : t.Linked) (h : c ∈ t.below node) : c < t.capacity := by
  obtain ⟨position, hchild⟩ := mem_below_iff.1 h
  exact (live_of_childAt? ht hchild).lt_capacity ht.toSized

/-! ## Queries of a whole list -/

section Lists

variable {α β : Type} {xs : List α}

/-- A test that answers on every item answers on the list. -/
theorem allM_eq {test : α → Except Fault Bool} {p : α → Bool}
    (h : ∀ x ∈ xs, test x = .ok (p x)) : xs.allM test = .ok (xs.all p) := by
  induction xs with
  | nil => rfl
  | cons x xs ih =>
      rw [List.allM, h x List.mem_cons_self, List.all_cons]
      cases p x with
      | false => rfl
      | true => exact ih fun y hy => h y (List.mem_cons_of_mem x hy)

/-- A query that answers on every item answers on the list. -/
theorem mapM_eq {query : α → Except Fault β} {f : α → β}
    (h : ∀ x ∈ xs, query x = .ok (f x)) : xs.mapM query = .ok (xs.map f) := by
  induction xs with
  | nil => rfl
  | cons x xs ih =>
      rw [List.mapM_cons, h x List.mem_cons_self, ih fun y hy => h y (List.mem_cons_of_mem x hy)]
      rfl

/-- A test that answers on every item holds on the list iff it holds on every item. -/
theorem exists_allM {test : α → Except Fault Bool} (h : ∀ x ∈ xs, ∃ b, test x = .ok b) :
    ∃ b, xs.allM test = .ok b ∧ (b = true ↔ ∀ x ∈ xs, test x = .ok true) := by
  induction xs with
  | nil => exact ⟨true, rfl, by simp⟩
  | cons x xs ih =>
      obtain ⟨b, hb⟩ := h x List.mem_cons_self
      rw [List.allM, hb]
      cases b with
      | false => exact ⟨false, rfl, by simp [hb]⟩
      | true =>
          obtain ⟨b, hall, hiff⟩ := ih fun y hy => h y (List.mem_cons_of_mem x hy)
          exact ⟨b, hall, by simp [hiff, hb]⟩

/-- A query that answers on every item gives the list of the answers. -/
theorem exists_mapM {query : α → Except Fault β} (h : ∀ x ∈ xs, ∃ y, query x = .ok y) :
    ∃ ys, xs.mapM query = .ok ys ∧ ∀ y, y ∈ ys ↔ ∃ x ∈ xs, query x = .ok y := by
  induction xs with
  | nil => exact ⟨[], rfl, by simp⟩
  | cons x xs ih =>
      obtain ⟨y, hy⟩ := h x List.mem_cons_self
      obtain ⟨ys, hys, hmem⟩ := ih fun z hz => h z (List.mem_cons_of_mem x hz)
      refine ⟨y :: ys, ?_, ?_⟩
      · rw [List.mapM_cons, hy, hys]
        rfl
      · intro z
        rw [List.mem_cons, hmem, List.exists_mem_cons_iff, hy, Except.ok.injEq, eq_comm]

/-- A pass that adds to a list what it finds at each item collects what it finds at all items.  It lists nothing twice
if each step keeps apart what has been found at other items. -/
theorem exists_foldlM {step : List β → α → Except Fault (List β)} {found : α → β → Prop}
    (hxs : xs.Nodup)
    (h : ∀ x ∈ xs, ∀ before, ∃ after, step before x = .ok after ∧
      (∀ y, y ∈ after ↔ y ∈ before ∨ found x y) ∧
      (before.Nodup → (∀ y ∈ before, ∃ other ∈ xs, other ≠ x ∧ found other y) → after.Nodup)) :
    ∃ after, xs.foldlM step [] = .ok after ∧ after.Nodup ∧
      ∀ y, y ∈ after ↔ ∃ x ∈ xs, found x y := by
  -- The last item is the one whose step has seen what was found at all others.
  induction xs using List.reverseRecOn with
  | nil => exact ⟨[], rfl, List.nodup_nil, by simp⟩
  | append_singleton xs x ih =>
      obtain ⟨hxs, -, hnew⟩ := List.nodup_append.1 hxs
      have hrest : ∀ z ∈ xs, ∀ before, ∃ after, step before z = .ok after ∧
          (∀ y, y ∈ after ↔ y ∈ before ∨ found z y) ∧
          (before.Nodup → (∀ y ∈ before, ∃ other ∈ xs, other ≠ z ∧ found other y) →
            after.Nodup) := by
        intro z hz before
        obtain ⟨after, hstep, hmem, hkeep⟩ := h z (List.mem_append_left _ hz) before
        refine ⟨after, hstep, hmem, fun hnodup hbefore => hkeep hnodup ?_⟩
        intro y hy
        obtain ⟨other, hother, hfound⟩ := hbefore y hy
        exact ⟨other, List.mem_append_left _ hother, hfound⟩
      obtain ⟨before, hfold, hnodup, hbefore⟩ := ih hxs hrest
      obtain ⟨after, hstep, hafter, hkeep⟩ := h x (by simp) before
      refine ⟨after, ?_, hkeep hnodup ?_, ?_⟩
      · rw [List.foldlM_append, hfold]
        exact (bind_pure _).trans hstep
      · intro y hy
        obtain ⟨other, hother, hfound⟩ := (hbefore y).1 hy
        exact ⟨other, List.mem_append_left _ hother, hnew other hother x (by simp), hfound⟩
      · intro y
        rw [hafter, hbefore]
        simp only [List.mem_append, List.mem_singleton, or_and_right, exists_or, exists_eq_left]

/-- A test that answers on every item selects the items on which it holds. -/
theorem filterM_eq {test : α → Except Fault Bool} {p : α → Bool}
    (h : ∀ x ∈ xs, test x = .ok (p x)) : xs.filterM test = .ok (xs.filter p) := by
  have haux : ∀ kept, xs.filterAuxM test kept = .ok ((xs.filter p).reverse ++ kept) := by
    induction xs with
    | nil => exact fun kept => rfl
    | cons x xs ih =>
        intro kept
        rw [List.filterAuxM, h x List.mem_cons_self]
        refine (ih (fun y hy => h y (List.mem_cons_of_mem x hy)) _).trans ?_
        cases hx : p x <;> simp [hx]
  rw [List.filterM, haux]
  simp [bind, Except.bind, pure, Except.pure]

end Lists

/-! ## Nodes in storage order -/

/-- The members listed for any group inside the tables, the root's included. -/
theorem Sized.members_of_lt (ht : t.Sized) (hlt : group < t.groupCapacity) :
    Group.members n group =
      .ok ⟨Group.start n group, Group.start n group + Group.width n group⟩ := by
  rcases eq_or_ne group 0 with rfl | hgroup
  · have hroom : 0 + 1 ≤ t.capacity := ht.room.trans_le ht.groupCapacity_le
    rw [Group.members, Group.first, Group.start_zero, ht.index_eq (Nat.zero_le _)]
    exact ht.run_eq hroom
  · rw [ht.members_eq hgroup hlt, Group.width, if_neg hgroup]

/-- The groups listed are those in use, in ascending order. -/
theorem exists_groups (ht : t.Valid) :
    ∃ groups, t.groups = .ok groups ∧ groups.Pairwise (· < ·) ∧ ∀ g, g ∈ groups ↔ t.InUse g := by
  have hinside : ∀ g ∈ List.range t.groupEnd, g < t.groupCapacity := by
    intro g hg
    exact (List.mem_range.1 hg).trans_le (ht.last.le_groupCapacity ht.toSized)
  refine ⟨_, filterM_eq fun g hg => isInUse_eq (hinside g hg), List.pairwise_lt_range.filter _, ?_⟩
  intro g
  rw [List.mem_filter, List.mem_range, decide_eq_true_iff, and_iff_right_iff_imp]
  exact ht.last.2 g

/-- As many groups are listed as are in use. -/
theorem length_groups (ht : t.Valid) {groups : List Nat} (hgroups : t.groups = .ok groups) :
    groups.length = t.usedGroups.card := by
  obtain ⟨groups', heq, hsorted, hmem⟩ := exists_groups ht
  obtain rfl := Except.ok.inj (heq.symm.trans hgroups)
  have hused : t.usedGroups = groups'.toFinset := by
    ext g
    rw [mem_usedGroups ht.toSized, List.mem_toFinset, hmem]
  rw [hused, List.toFinset_card_of_nodup (hsorted.imp Nat.ne_of_lt)]

/-- The nodes listed are the members of the groups listed. -/
theorem nodes_eq (ht : t.Valid) {groups : List Nat} (hgroups : t.groups = .ok groups) :
    t.nodes = .ok (groups.flatMap (Group.memberList n)) := by
  obtain ⟨groups', heq, -, hmem⟩ := exists_groups ht
  obtain rfl := Except.ok.inj (heq.symm.trans hgroups)
  have hmembers := mapM_eq fun g hg =>
    ht.members_of_lt (((hmem g).1 hg).lt_groupCapacity ht.toSized)
  rw [nodes, hgroups]
  simp only [bind, Except.bind, hmembers, pure, Except.pure, List.flatMap_map, Span.toList,
    Nat.add_sub_cancel_left]
  rfl

/-- The nodes listed are the live ones, in ascending order. -/
theorem exists_nodes (ht : t.Valid) :
    ∃ nodes, t.nodes = .ok nodes ∧ nodes.Pairwise (· < ·) ∧ ∀ x, x ∈ nodes ↔ t.Live x := by
  obtain ⟨groups, hgroups, hsorted, hmem⟩ := exists_groups ht
  refine ⟨_, nodes_eq ht hgroups, ?_, ?_⟩
  · rw [List.pairwise_flatMap]
    refine ⟨fun g _ => List.pairwise_lt_range', hsorted.imp ?_⟩
    intro g h hlt x hx y hy
    rw [Group.mem_memberList_iff] at hx hy
    exact Group.lt_of_ofNode_lt (n := n) (by rwa [hx, hy])
  · intro x
    simp only [List.mem_flatMap, Group.mem_memberList_iff, exists_eq_right', hmem]
    exact Iff.rfl

end Orthtree.Tree
