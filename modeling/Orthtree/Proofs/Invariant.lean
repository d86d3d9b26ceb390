import Mathlib.Data.Finset.Card
import Orthtree.Proofs.Numbering
import Orthtree.Tree.Lemmas

/-!
# The representation invariant

A tree is `Valid` if its tables represent a rooted tree and its counters agree with the tables.  The invariant has
three layers.  `Sized` fixes the room of the tables.  `Linked` adds that every edge is recorded at both of its ends
and that only live nodes have children.  `Valid` adds that every live node is reached from the root and that the
counters are exact; since the links determine the counters, a valid tree is determined by its links
(`Valid.eq_of_links`).
-/

namespace Orthtree

/-! ## Links that agree with each other -/

namespace Links

variable {n : Nat} {l m : Links} {group node first : Nat}

/-- Links up and links down record the same edges: a node owns a group iff its first child begins the group. -/
structure Paired (n : Nat) (l : Links) : Prop where
  /-- The two records of an edge. -/
  owner_iff (group node : Nat) :
    l.owner group = some node ↔ group ≠ 0 ∧ l.firstChild node = some (Group.start n group)
  /-- First children begin groups. -/
  begins {node first : Nat} : l.firstChild node = some first →
    ∃ group, group ≠ 0 ∧ Group.start n group = first

/-- The root group has no owner. -/
theorem Paired.owner_root (h : l.Paired n) : l.owner 0 = none := by
  by_contra hne
  obtain ⟨node, hnode⟩ := Option.ne_none_iff_exists'.1 hne
  exact ((h.owner_iff 0 node).1 hnode).1 rfl

/-- A node with a first child owns the group that begins there. -/
theorem Paired.exists_owner (h : l.Paired n) (hfirst : l.firstChild node = some first) :
    ∃ group, group ≠ 0 ∧ first = Group.start n group ∧ l.owner group = some node := by
  obtain ⟨group, hgroup, rfl⟩ := h.begins hfirst
  exact ⟨group, hgroup, rfl, (h.owner_iff group node).2 ⟨hgroup, hfirst⟩⟩

/-- A node owns at most one group. -/
theorem Paired.owner_injective (h : l.Paired n) {a b : Nat} (ha : l.owner a = some node)
    (hb : l.owner b = some node) : a = b := by
  have hfirst := ((h.owner_iff a node).1 ha).2.symm.trans ((h.owner_iff b node).1 hb).2
  exact Group.start_injective n (Option.some_injective _ hfirst)

/-- Only groups inside the table have owners. -/
theorem lt_groupCapacity_of_owner (h : l.owner group = some node) : group < l.groupCapacity := by
  by_contra hge
  rw [owner_of_le (Nat.not_lt.1 hge)] at h
  cases h

/-- Only nodes inside the table have children. -/
theorem lt_nodeCapacity_of_firstChild (h : l.firstChild node = some first) :
    node < l.nodeCapacity := by
  by_contra hge
  rw [firstChild_of_le (Nat.not_lt.1 hge)] at h
  cases h

/-- Tables of one size are equal if every look-up gives the same in both. -/
theorem eq_of_lookups (hg : l.groupCapacity = m.groupCapacity)
    (hn : l.nodeCapacity = m.nodeCapacity) (ho : ∀ group, l.owner group = m.owner group)
    (hf : ∀ node, l.firstChild node = m.firstChild node) : l = m := by
  obtain ⟨owners, children⟩ := l
  obtain ⟨owners', children'⟩ := m
  congr
  · apply Array.ext hg
    intro i hi hi'
    simpa [owner, hi, hi'] using ho i
  · apply Array.ext hn
    intro i hi hi'
    simpa [firstChild, hi, hi'] using hf i

end Links

namespace Tree

variable {n : Nat} {t u : Tree n} {node group first position c : Nat}

/-! ## Groups and nodes in use -/

/-- `group` holds nodes of the tree. -/
def InUse (t : Tree n) (group : Nat) : Prop := group = 0 ∨ (t.links.owner group).isSome

instance (t : Tree n) : DecidablePred t.InUse := fun group =>
  inferInstanceAs (Decidable (group = 0 ∨ (t.links.owner group).isSome))

/-- `node` is a node of the tree. -/
def Live (t : Tree n) (node : Nat) : Prop := t.InUse (Group.ofNode n node)

instance (t : Tree n) : DecidablePred t.Live := fun node =>
  inferInstanceAs (Decidable (t.InUse (Group.ofNode n node)))

/-- The groups in use. -/
def usedGroups (t : Tree n) : Finset Nat := {group ∈ Finset.range t.groupCapacity | t.InUse group}

theorem inUse_zero (t : Tree n) : t.InUse 0 := Or.inl rfl

theorem live_zero (t : Tree n) : t.Live 0 := t.inUse_zero

theorem inUse_of_owner (h : t.links.owner group = some node) : t.InUse group :=
  Or.inr (by rw [h]; rfl)

/-- A group other than the root's is in use iff some node owns it. -/
theorem inUse_iff_exists_owner (hgroup : group ≠ 0) :
    t.InUse group ↔ ∃ node, t.links.owner group = some node := by
  rw [InUse, or_iff_right hgroup, Option.isSome_iff_exists]

theorem owner_of_not_inUse (h : ¬t.InUse group) : t.links.owner group = none := by
  rw [← Option.not_isSome_iff_eq_none]
  exact fun hsome => h (Or.inr hsome)

/-! ## Paths -/

/-- The child of `node` at `position`. -/
def childAt? (t : Tree n) (node position : Nat) : Option Nat :=
  (t.links.firstChild node).bind fun first =>
    if position < 2 ^ n then some (first + position) else none

/-- The node that the child positions `path` lead to from the root. -/
def follow (t : Tree n) (path : List Nat) : Option Nat := path.foldlM t.childAt? 0

/-- The paths that lead from the root to a node. -/
def paths (t : Tree n) : Set (List Nat) := {path | (t.follow path).isSome}

theorem mem_paths_iff {path : List Nat} : path ∈ t.paths ↔ (t.follow path).isSome := Iff.rfl

@[simp]
theorem follow_nil (t : Tree n) : t.follow [] = some 0 := rfl

/-- The last step of a path goes from a node to one of its children. -/
theorem follow_concat (t : Tree n) (path : List Nat) (position : Nat) :
    t.follow (path ++ [position]) = (t.follow path).bind (t.childAt? · position) := by
  simp only [follow, List.foldlM_append, List.foldlM_cons, List.foldlM_nil, bind_pure]
  rfl

/-- The children of a node follow its first child in the order of their positions. -/
theorem childAt?_eq_some_iff : t.childAt? node position = some c ↔
    ∃ first, t.links.firstChild node = some first ∧ position < 2 ^ n ∧ first + position = c := by
  rw [childAt?, Option.bind_eq_some_iff]
  apply exists_congr
  intro first
  apply and_congr_right
  intro _
  rw [Option.ite_none_right_eq_some, Option.some_inj]

/-! ## The layers of the invariant -/

/-- The tables have room for whole groups, at least the root's, and every node has an index. -/
structure Sized (t : Tree n) : Prop where
  /-- The number of axes is 1, 2 or 3. -/
  supported : Corner.supported n
  /-- The root group has a place. -/
  room : 0 < t.groupCapacity
  /-- The nodes that have a place are those of the groups that have one. -/
  capacity_eq : t.capacity = Group.nodeCount n t.groupCapacity
  /-- Node numbers fit an index. -/
  capacity_lt : t.capacity < nodeLimit

/-- Every edge is recorded at both ends, and no free node has children. -/
structure Linked (t : Tree n) : Prop extends Sized t where
  /-- Links up and links down agree. -/
  paired : t.links.Paired n
  /-- Only live nodes have children. -/
  live_of_firstChild {node first : Nat} : t.links.firstChild node = some first → t.Live node

/-- `group` is not in use, and all groups below it are.  It is past the tables if no group is free. -/
def IsLowestFree (t : Tree n) (group : Nat) : Prop :=
  ¬t.InUse group ∧ ∀ g, g < group → t.InUse g

/-- `stop` is one past the highest group in use. -/
def IsEnd (t : Tree n) (stop : Nat) : Prop :=
  t.InUse (stop - 1) ∧ ∀ g, t.InUse g → g < stop

/-- The counters of the tree agree with its links. -/
structure Counted (t : Tree n) : Prop where
  /-- The size is the number of nodes in the groups in use. -/
  size_eq : t.size = Group.nodeCount n t.usedGroups.card
  lowest : t.IsLowestFree t.firstFree
  last : t.IsEnd t.groupEnd

/-- The tables hold a rooted tree, and the counters agree with them. -/
structure Valid (t : Tree n) : Prop extends Linked t, Counted t where
  /-- Every live node is reached from the root. -/
  rooted {node : Nat} : t.Live node → ∃ path, t.follow path = some node

/-! ## Room -/

/-- Groups in use have a place in the tables. -/
theorem InUse.lt_groupCapacity (h : t.InUse group) (ht : t.Sized) : group < t.groupCapacity := by
  rcases h with rfl | h
  · exact ht.room
  · obtain ⟨node, hnode⟩ := Option.isSome_iff_exists.1 h
    exact Links.lt_groupCapacity_of_owner hnode

theorem Live.lt_capacity (h : t.Live node) (ht : t.Sized) : node < t.capacity := by
  rw [ht.capacity_eq, ← Group.ofNode_lt_iff]
  exact InUse.lt_groupCapacity h ht

theorem mem_usedGroups (ht : t.Sized) : group ∈ t.usedGroups ↔ t.InUse group := by
  rw [usedGroups, Finset.mem_filter, Finset.mem_range, and_iff_right_iff_imp]
  exact fun h => h.lt_groupCapacity ht

theorem card_usedGroups_le (t : Tree n) : t.usedGroups.card ≤ t.groupCapacity := by
  rw [← Finset.card_range t.groupCapacity]
  exact Finset.card_filter_le _ _

/-- Room is a matter of the two capacities. -/
theorem Sized.congr (ht : t.Sized) (hg : u.groupCapacity = t.groupCapacity)
    (hn : u.capacity = t.capacity) : u.Sized where
  supported := ht.supported
  room := hg ▸ ht.room
  capacity_eq := by rw [hn, hg, ht.capacity_eq]
  capacity_lt := hn ▸ ht.capacity_lt

/-- The nodes of a group inside the tables are inside the tables. -/
theorem Sized.start_add_le (ht : t.Sized) (hgroup : group ≠ 0) (hlt : group < t.groupCapacity) :
    Group.start n group + 2 ^ n ≤ t.capacity := by
  rw [ht.capacity_eq]
  exact Group.start_add_le hgroup hlt

/-- There are no more groups than nodes. -/
theorem Sized.groupCapacity_le (ht : t.Sized) : t.groupCapacity ≤ t.capacity := by
  rw [ht.capacity_eq]
  exact Group.le_nodeCount n _

/-! ## Edges of a linked tree -/

theorem live_of_owner (ht : t.Linked) (h : t.links.owner group = some node) : t.Live node :=
  ht.live_of_firstChild ((ht.paired.owner_iff group node).1 h).2

/-- A free node has no children. -/
theorem firstChild_of_not_live (ht : t.Linked) (h : ¬t.Live node) :
    t.links.firstChild node = none := by
  by_contra hne
  obtain ⟨first, hfirst⟩ := Option.ne_none_iff_exists'.1 hne
  exact h (ht.live_of_firstChild hfirst)

/-- A node is a child iff its parent owns its group. -/
theorem childAt?_eq_some_iff_owner (ht : t.Linked) : t.childAt? node position = some c ↔
    t.links.owner (Group.ofNode n c) = some node ∧ Group.position n c = position := by
  rw [childAt?_eq_some_iff]
  constructor
  · rintro ⟨first, hfirst, hlt, rfl⟩
    obtain ⟨group, hgroup, rfl, howner⟩ := ht.paired.exists_owner hfirst
    rw [Group.ofNode_start_add hgroup hlt, Group.position_start_add hgroup hlt]
    exact ⟨howner, rfl⟩
  · rintro ⟨howner, rfl⟩
    obtain ⟨-, hfirst⟩ := (ht.paired.owner_iff _ _).1 howner
    exact ⟨_, hfirst, Group.position_lt n c, Group.start_add_position n c⟩

theorem live_of_childAt? (ht : t.Linked) (h : t.childAt? node position = some c) : t.Live c :=
  inUse_of_owner ((childAt?_eq_some_iff_owner ht).1 h).1

/-! ## Paths of a linked tree -/

/-- A path leads to a child of the node that the path without its last step leads to. -/
theorem follow_concat_eq_some_iff {path : List Nat} :
    t.follow (path ++ [position]) = some c ↔
      ∃ node, t.follow path = some node ∧ t.childAt? node position = some c := by
  rw [follow_concat, Option.bind_eq_some_iff]

/-- Paths lead to live nodes. -/
theorem live_of_follow (ht : t.Linked) {path : List Nat} (h : t.follow path = some node) :
    t.Live node := by
  induction path using List.reverseRecOn generalizing node with
  | nil =>
    cases h
    exact t.live_zero
  | append_singleton path position _ =>
    obtain ⟨parent, -, hchild⟩ := follow_concat_eq_some_iff.1 h
    exact live_of_childAt? ht hchild

theorem lt_capacity_of_follow (ht : t.Linked) {path : List Nat} (h : t.follow path = some node) :
    node < t.capacity := (live_of_follow ht h).lt_capacity ht.toSized

/-- No step leads back to the root. -/
theorem childAt?_ne_zero (ht : t.Linked) : t.childAt? node position ≠ some 0 := by
  intro h
  have howner := ((childAt?_eq_some_iff_owner ht).1 h).1
  rw [Group.ofNode_zero, ht.paired.owner_root] at howner
  cases howner

/-- One node is reached along one path only. -/
theorem follow_injective (ht : t.Linked) {path path' : List Nat} (h : t.follow path = some node)
    (h' : t.follow path' = some node) : path = path' := by
  induction path using List.reverseRecOn generalizing node path' with
  | nil =>
    cases h
    rcases List.eq_nil_or_concat' path' with rfl | ⟨_, _, rfl⟩
    · rfl
    · rw [follow_concat_eq_some_iff] at h'
      obtain ⟨_, -, hchild⟩ := h'
      exact absurd hchild (childAt?_ne_zero ht)
  | append_singleton path position ih =>
    obtain ⟨parent, hparent, hchild⟩ := follow_concat_eq_some_iff.1 h
    rcases List.eq_nil_or_concat' path' with rfl | ⟨path', position', rfl⟩
    · cases h'
      exact absurd hchild (childAt?_ne_zero ht)
    · rw [follow_concat_eq_some_iff] at h'
      obtain ⟨parent', hparent', hchild'⟩ := h'
      -- The node tells its parent and its position there, so the last steps agree.
      rw [childAt?_eq_some_iff_owner ht] at hchild hchild'
      obtain rfl : parent = parent' := Option.some_injective _ (hchild.1.symm.trans hchild'.1)
      rw [ih hparent hparent', ← hchild.2, hchild'.2]

/-! ## Counters -/

theorem usedGroups_nonempty (ht : t.Sized) : 0 < t.usedGroups.card :=
  Finset.card_pos.2 ⟨0, (mem_usedGroups ht).2 t.inUse_zero⟩

theorem IsLowestFree.ne_zero (h : t.IsLowestFree group) : group ≠ 0 := by
  rintro rfl
  exact h.1 t.inUse_zero

/-- Past the tables all groups are free, so the lowest free one is not further away. -/
theorem IsLowestFree.le_groupCapacity (h : t.IsLowestFree group) (ht : t.Sized) :
    group ≤ t.groupCapacity := by
  by_contra hlt
  exact Nat.lt_irrefl _ ((h.2 _ (Nat.not_le.1 hlt)).lt_groupCapacity ht)

/-- Trees with the same groups in use have the same lowest free group. -/
theorem IsLowestFree.unique {g h : Nat} (hg : t.IsLowestFree g) (hh : u.IsLowestFree h)
    (heq : ∀ group, t.InUse group ↔ u.InUse group) : g = h := by
  refine Nat.le_antisymm (Nat.not_lt.1 ?_) (Nat.not_lt.1 ?_)
  · intro hlt
    exact hh.1 ((heq h).1 (hg.2 h hlt))
  · intro hlt
    exact hg.1 ((heq g).2 (hh.2 g hlt))

theorem IsEnd.pos (h : t.IsEnd group) : 0 < group := h.2 0 t.inUse_zero

theorem IsEnd.le_groupCapacity (h : t.IsEnd group) (ht : t.Sized) : group ≤ t.groupCapacity := by
  have hlast := h.1.lt_groupCapacity ht
  omega

/-- Trees with the same groups in use end in the same place. -/
theorem IsEnd.unique {g h : Nat} (hg : t.IsEnd g) (hh : u.IsEnd h)
    (heq : ∀ group, t.InUse group ↔ u.InUse group) : g = h := by
  have hle := hh.2 _ ((heq _).1 hg.1)
  have hge := hg.2 _ ((heq _).2 hh.1)
  have hpos := hg.pos
  omega

/-- The set of groups in use is determined by the predicate, whatever the room. -/
theorem usedGroups_eq_of_inUse (hst : t.Sized) (hsu : u.Sized)
    (h : ∀ group, t.InUse group ↔ u.InUse group) : t.usedGroups = u.usedGroups := by
  ext group
  rw [mem_usedGroups hst, mem_usedGroups hsu, h]

/-- Trees with the same groups in use and the same counters are counted alike. -/
theorem Counted.congr (ht : t.Counted) (hst : t.Sized) (hsu : u.Sized)
    (h : ∀ group, t.InUse group ↔ u.InUse group) (hsize : u.size = t.size)
    (hfree : u.firstFree = t.firstFree) (hend : u.groupEnd = t.groupEnd) : u.Counted where
  size_eq := by rw [hsize, ht.size_eq, usedGroups_eq_of_inUse hst hsu h]
  lowest := by
    rw [hfree]
    exact ⟨fun hu => ht.lowest.1 ((h _).2 hu), fun g hg => (h g).1 (ht.lowest.2 g hg)⟩
  last := by
    rw [hend]
    exact ⟨(h _).1 ht.last.1, fun g hg => ht.last.2 g ((h g).2 hg)⟩

/-- The counters are determined by the groups in use. -/
theorem Counted.eq_of_inUse (ht : t.Counted) (hu : u.Counted) (hst : t.Sized) (hsu : u.Sized)
    (h : ∀ group, t.InUse group ↔ u.InUse group) :
    t.size = u.size ∧ t.firstFree = u.firstFree ∧ t.groupEnd = u.groupEnd := by
  refine ⟨?_, ht.lowest.unique hu.lowest h, ht.last.unique hu.last h⟩
  rw [ht.size_eq, hu.size_eq, usedGroups_eq_of_inUse hst hsu h]

/-! ### Trees whose groups in use are the lowest ones -/

section Lowest

variable {groups : Nat} (h : ∀ g, t.InUse g ↔ g < groups)

include h

/-- If the lowest groups are those in use, their number is the bound. -/
theorem card_usedGroups_of_lowest (ht : t.Sized) : t.usedGroups.card = groups := by
  have hused : t.usedGroups = Finset.range groups := by
    ext g
    rw [mem_usedGroups ht, h, Finset.mem_range]
  rw [hused, Finset.card_range]

theorem isLowestFree_of_lowest : t.IsLowestFree groups :=
  ⟨mt (h groups).1 (Nat.lt_irrefl groups), fun g hg => (h g).2 hg⟩

theorem isEnd_of_lowest : t.IsEnd groups := by
  have hpos : 0 < groups := (h 0).1 t.inUse_zero
  exact ⟨(h _).2 (Nat.sub_lt hpos Nat.one_pos), fun g hg => (h g).1 hg⟩

/-- The counters of a tree whose groups in use are the lowest ones. -/
theorem counted_of_lowest (ht : t.Sized) (hsize : t.size = Group.nodeCount n groups)
    (hfree : t.firstFree = groups) (hend : t.groupEnd = groups) : t.Counted where
  size_eq := by rw [card_usedGroups_of_lowest h ht, hsize]
  lowest := by
    rw [hfree]
    exact isLowestFree_of_lowest h
  last := by
    rw [hend]
    exact isEnd_of_lowest h

/-- A valid tree whose groups in use are the lowest ones is compact. -/
theorem Valid.isCompact_of_lowest (ht : t.Valid) : t.isCompact = true := by
  have hfree := ht.lowest.unique (isLowestFree_of_lowest h) fun _ => Iff.rfl
  rw [isCompact, ht.size_eq, card_usedGroups_of_lowest h ht.toSized, hfree,
    Group.covering_nodeCount, decide_eq_true rfl]

end Lowest

/-- The nodes of a valid tree fill whole groups. -/
theorem Valid.nodeCount_covering (ht : t.Valid) :
    Group.nodeCount n (Group.covering n t.size) = t.size := by
  rw [ht.size_eq, Group.covering_nodeCount]

/-- The groups in use of a compact tree are the lowest ones. -/
theorem Valid.inUse_iff_lt (ht : t.Valid) (h : t.isCompact = true) (group : Nat) :
    t.InUse group ↔ group < Group.covering n t.size := by
  have hfree : t.firstFree = t.usedGroups.card := by
    rw [isCompact, decide_eq_true_iff] at h
    rw [h, ht.size_eq, Group.covering_nodeCount]
  have hsub : Finset.range t.firstFree ⊆ t.usedGroups := by
    intro g hg
    exact (mem_usedGroups ht.toSized).2 (ht.lowest.2 g (Finset.mem_range.1 hg))
  -- There are no more groups in use than those below the lowest free one.
  have hall : Finset.range t.firstFree = t.usedGroups := by
    apply Finset.eq_of_subset_of_card_le hsub
    rw [Finset.card_range, hfree]
  rw [← mem_usedGroups ht.toSized, ← hall, Finset.mem_range, hfree, ht.size_eq,
    Group.covering_nodeCount]

theorem Valid.live_iff_lt (ht : t.Valid) (h : t.isCompact = true) (node : Nat) :
    t.Live node ↔ node < t.size := by
  rw [Live, ht.inUse_iff_lt h, Group.ofNode_lt_iff, ht.nodeCount_covering]

/-- A valid tree is determined by its links. -/
theorem Valid.eq_of_links (ht : t.Valid) (hu : u.Valid) (h : t.links = u.links) : t = u := by
  have hused : ∀ group, t.InUse group ↔ u.InUse group := by
    intro group
    rw [InUse, InUse, h]
  obtain ⟨hsize, hfree, hend⟩ :=
    ht.toCounted.eq_of_inUse hu.toCounted ht.toSized hu.toSized hused
  obtain ⟨links, size, firstFree, groupEnd⟩ := t
  cases u
  simp_all

/-- A tree fills its room iff no group is free. -/
theorem Valid.size_eq_capacity_iff (ht : t.Valid) :
    t.size = t.capacity ↔ ∀ group, group < t.groupCapacity → t.InUse group := by
  constructor
  · intro hfull group hgroup
    have hle : t.groupCapacity ≤ t.usedGroups.card := by
      rw [← Group.nodeCount_le_iff (n := n), ← ht.capacity_eq, ← hfull, ht.size_eq]
    have hall : t.usedGroups = Finset.range t.groupCapacity :=
      Finset.eq_of_subset_of_card_le (Finset.filter_subset _ _) (by rwa [Finset.card_range])
    rwa [← mem_usedGroups ht.toSized, hall, Finset.mem_range]
  · intro hused
    have hall : t.usedGroups = Finset.range t.groupCapacity :=
      Finset.filter_true_of_mem fun group hgroup => hused group (Finset.mem_range.1 hgroup)
    rw [ht.size_eq, hall, Finset.card_range, ← ht.capacity_eq]

/-- A tree that does not fill its room has a free group. -/
theorem Valid.firstFree_lt (ht : t.Valid) (h : t.size < t.capacity) :
    t.firstFree < t.groupCapacity := by
  by_contra hge
  refine h.ne (ht.size_eq_capacity_iff.2 ?_)
  intro group hgroup
  exact ht.lowest.2 group (hgroup.trans_le (Nat.not_lt.1 hge))

theorem Valid.size_le_capacity (ht : t.Valid) : t.size ≤ t.capacity := by
  rw [ht.size_eq, ht.capacity_eq, Group.nodeCount_le_iff]
  exact t.card_usedGroups_le

end Tree

end Orthtree
