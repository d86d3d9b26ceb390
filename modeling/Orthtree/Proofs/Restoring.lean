import Orthtree.Proofs.Canonical
import Orthtree.Proofs.Making

/-!
# Snapshots that are accepted

`restore` decides whether a snapshot `RecordsTree`: whether its links are mutual, name whole groups and lead every group
up to the root's (`restore_exact`).  The last of these is not looked at but counted, by walking down from the root.  A
restored tree holds the links of its snapshot and no others, so its own snapshot is the one that it was made of
(`snapshot_of_restore`).
-/

namespace Orthtree.Snapshot

variable {n : Nat} {s : Snapshot} {t made : Tree n} {group groups node : Nat} {asked : Option Nat}

/-! ## Snapshots of trees -/

/-- The parent of `group` is a node of the group `above`. -/
def StepsUp (n : Nat) (s : Snapshot) (group above : Nat) : Prop :=
  ∃ parent, s.parents[group]? = some (some parent) ∧ above = Group.ofNode n parent

/-- The snapshot records the links of a tree along `n` axes that fills whole groups. -/
structure RecordsTree (n : Nat) (s : Snapshot) : Prop where
  dimension_eq : s.dimension = n
  entries : s.firstChildren.size = s.size
  size_pos : 1 ≤ s.size
  size_lt : s.size < Tree.nodeLimit
  /-- The nodes fill the groups that have a parent entry. -/
  whole : s.size = Group.nodeCount n s.parents.size
  /-- The root group has no parent. -/
  root : s.parents[0]? = some none
  /-- Every other group has a parent, whose first child is the first node of the group. -/
  owned (group : Nat) : 1 ≤ group → group < s.parents.size → ∃ parent,
    s.parents[group]? = some (some parent) ∧
      s.firstChildren[parent]? = some (some (Group.start n group))
  /-- Every first child is the first node of a group whose parent has that child. -/
  begins (node first : Nat) : s.firstChildren[node]? = some (some first) →
    ∃ group, 1 ≤ group ∧ group < s.parents.size ∧ first = Group.start n group ∧
      s.parents[group]? = some (some node)
  /-- Every group leads up to the root's. -/
  rooted (group : Nat) : group < s.parents.size → Relation.ReflTransGen (StepsUp n s) group 0

/-- Looking an entry up with a default finds what is there. -/
theorem getD_eq_some_iff {xs : Array (Option Nat)} {i x : Nat} :
    xs.getD i none = some x ↔ xs[i]? = some (some x) := by
  rw [Array.getD_eq_getD_getElem?]
  cases xs[i]? <;> simp

namespace RecordsTree

/-- A snapshot of a tree passes all checks of single links. -/
theorem checked (h : s.RecordsTree n) : Checked n s s.parents.size where
  dimension_eq := h.dimension_eq
  size_ne := Nat.ne_of_gt h.size_pos
  size_lt := h.size_lt
  entries := h.entries
  groups_eq := by rw [h.whole, Group.covering_nodeCount]
  whole := h.whole.symm
  parents_size := rfl
  root := by rw [Array.getD_eq_getD_getElem?, h.root, Option.getD_some]
  owned group hone hlt := by
    obtain ⟨parent, hparent, hfirst⟩ := h.owned group hone hlt
    exact ⟨parent, getD_eq_some_iff.2 hparent, getD_eq_some_iff.2 hfirst⟩
  begins node first _ hfirst := by
    obtain ⟨group, hone, -, hstart, howner⟩ := h.begins node first (getD_eq_some_iff.1 hfirst)
    exact ⟨group, Nat.ne_of_gt hone, hstart.symm, getD_eq_some_iff.2 howner⟩

/-! ### Steps of restoring -/

/-- A record of a tree has sizes that belong together. -/
theorem checkSizes_eq (h : s.RecordsTree n) (hn : Corner.supported n = true) :
    checkSizes n s = .ok (.ok s.parents.size) := by
  have hcovering : Group.covering n s.size = s.parents.size := by
    rw [h.whole, Group.covering_nodeCount]
  have hwhole : ¬(s.size = 0 ∨ Group.nodeCount n s.parents.size ≠ s.size) := by
    rw [not_or, not_not]
    exact ⟨Nat.ne_of_gt h.size_pos, h.whole.symm⟩
  have hlt : Group.nodeCount n (Group.covering n s.size) < Bounded.countLimit := by
    rw [hcovering, ← h.whole]
    exact Tree.lt_countLimit h.size_lt
  obtain ⟨hgroups, hnodes⟩ := Group.counts_eq hn hlt
  rw [hcovering] at hgroups hnodes
  rw [checkSizes, if_neg (not_not.2 h.dimension_eq), if_neg (not_not.2 h.entries),
    if_neg (Nat.not_le.2 h.size_lt), bind_of_query hgroups, bind_of_query hnodes, if_neg hwhole,
    if_neg (not_not.2 rfl)]
  rfl

theorem checkRoot_eq (h : s.RecordsTree n) : checkRoot s = .ok (.ok ()) := by
  rw [checkRoot, h.root]
  rfl

/-- The first node of a group that is recorded has an index. -/
theorem first_eq (h : s.RecordsTree n) (hlt : group < s.parents.size) :
    Group.first n group = .ok (Group.start n group) :=
  Group.first_eq hlt (h.whole ▸ h.size_lt)

/-- A record of a tree passes the check of each group. -/
theorem checkGroup_eq (h : s.RecordsTree n) (hone : 1 ≤ group) (hlt : group < s.parents.size) :
    checkGroup n s group = .ok (.ok ()) := by
  obtain ⟨parent, hparent, hfirst⟩ := h.checked.owned group hone hlt
  rw [checkGroup, hparent]
  dsimp only
  rw [bind_of_query (h.first_eq hlt), if_pos hfirst]
  rfl

theorem checkNode_eq (h : s.RecordsTree n) (node : Nat) : checkNode n s node = .ok (.ok ()) := by
  rw [checkNode]
  cases hfirst : s.firstChildren.getD node none with
  | none => rfl
  | some first =>
      obtain ⟨group, hone, hlt, rfl, howner⟩ := h.begins node first (getD_eq_some_iff.1 hfirst)
      dsimp only
      rw [Group.ofNode_start, bind_of_query (h.first_eq hlt),
        if_pos ⟨Nat.ne_of_gt hone, rfl, getD_eq_some_iff.2 howner⟩]
      rfl

/-- Where the groups lead up to the root's, the nodes are reached from the root. -/
theorem exists_follow (hlinked : (fill s groups made).Linked)
    (h : Relation.ReflTransGen (StepsUp n s) group 0) (hnode : Group.ofNode n node = group) :
    ∃ path, (fill s groups made).follow path = some node := by
  induction h using Relation.ReflTransGen.head_induction_on generalizing node with
  | refl =>
      obtain rfl := Group.ofNode_eq_zero_iff.1 hnode
      exact ⟨[], rfl⟩
  | head hstep _ ih =>
      obtain ⟨parent, hparent, habove⟩ := hstep
      obtain ⟨path, hpath⟩ := ih habove.symm
      refine ⟨path ++ [Group.position n node], Tree.follow_concat_eq_some_iff.2 ⟨parent, hpath, ?_⟩⟩
      refine (Tree.childAt?_eq_some_iff_owner hlinked).2 ⟨?_, rfl⟩
      rw [owner_fill, hnode, getD_eq_some_iff.2 hparent]

/-- The links of a record, with their counters, make a valid tree. -/
theorem valid_fill (h : s.RecordsTree n) (hsized : (fill s s.parents.size made).Sized) :
    (fill s s.parents.size made).Valid := by
  have hlinked := h.checked.linked hsized
  refine ⟨hlinked, h.checked.counted hsized, ?_⟩
  intro node hlive
  rw [Tree.Live, h.checked.inUse_iff] at hlive
  exact exists_follow hlinked (h.rooted _ hlive) rfl

/-- A record of a tree passes all checks of its links. -/
theorem checkLinks_eq (h : s.RecordsTree n) : checkLinks n s = .ok (.ok ()) := by
  have hgroups : (List.range' 1 (s.parents.size - 1)).forM (checkGroup n s) = .ok (.ok ()) := by
    rw [forM_accepted_iff]
    intro group hgroup
    obtain ⟨hone, hlt⟩ := List.mem_range'_1.1 hgroup
    exact h.checkGroup_eq hone (by omega)
  rw [checkLinks, bind_of_accepted h.checkRoot_eq, bind_of_accepted hgroups]
  exact forM_accepted_iff.2 fun node _ => h.checkNode_eq node

/-- The snapshot of a tree is restored in any room that it fits. -/
theorem restore_eq (h : s.RecordsTree n) (hn : Corner.supported n = true)
    (hroom : s.size ≤ asked.getD s.size)
    (hlt : Group.nodeCount n (Group.covering n (asked.getD s.size)) < Tree.nodeLimit) :
    restore n s asked = .ok (.ok
      (fill s s.parents.size (Tree.rootOnly n (Group.covering n (asked.getD s.size))))) := by
  have hpos : asked.getD s.size ≠ 0 := Nat.ne_of_gt (Nat.lt_of_lt_of_le h.size_pos hroom)
  have hmade := Tree.ofCapacity_eq hn hpos hlt
  have hvalid := h.valid_fill (h.checked.sized hroom hmade)
  obtain ⟨order, hwalk⟩ := Tree.exists_walk hvalid.toLinked
  -- The walk visits every recorded node once, so that none is reported as unreachable.
  have hlength : order.length = s.size := by
    have hnodup : order.Nodup := by simpa using hwalk.nodup hvalid.toLinked
    have hall : order.toFinset = Finset.range s.size := by
      ext x
      rw [List.mem_toFinset, hwalk.mem_iff_live hvalid, h.checked.live_iff, Finset.mem_range]
    rw [← List.toFinset_card_of_nodup hnodup, hall, Finset.card_range]
  rw [restore, bind_of_accepted (h.checkSizes_eq hn)]
  dsimp only
  rw [if_neg (Nat.not_lt.2 hroom), bind_of_accepted h.checkLinks_eq, bind_of_query hmade,
    bind_of_query (h.checked.load_eq hroom hmade),
    bind_of_query (hwalk.depthFirst_eq hvalid.toLinked), if_pos hlength]
  rfl

/-- Less room than the nodes need is refused. -/
theorem restore_of_less (h : s.RecordsTree n) (hn : Corner.supported n = true) {room : Nat}
    (hroom : room < s.size) :
    restore n s (some room) = .ok (.error (.insufficientCapacity s.size room)) := by
  rw [restore, bind_of_accepted (h.checkSizes_eq hn)]
  dsimp only [Option.getD_some]
  rw [if_pos hroom]
  rfl

/-- The snapshot of a tree is accepted. -/
theorem exists_restore (h : s.RecordsTree n) (hn : Corner.supported n = true) :
    ∃ t : Tree n, restore n s none = .ok (.ok t) := by
  refine ⟨_, h.restore_eq hn (Nat.le_refl _) ?_⟩
  rw [Option.getD_none, h.checked.groups_eq.symm, h.checked.whole]
  exact h.size_lt

end RecordsTree

/-! ## Records of compact trees -/

/-- The way down to a node is a way up between groups, where the snapshot has the owners of the tree. -/
theorem reflTransGen_stepsUp (ht : t.Linked)
    (howner : ∀ group, s.parents.getD group none = t.links.owner group) {path : List Nat}
    (hpath : t.follow path = some node) :
    Relation.ReflTransGen (StepsUp n s) (Group.ofNode n node) 0 := by
  induction path using List.reverseRecOn generalizing node with
  | nil =>
      obtain rfl : 0 = node := Option.some_injective _ hpath
      exact .refl
  | append_singleton path position ih =>
      obtain ⟨parent, hparent, hchild⟩ := Tree.follow_concat_eq_some_iff.1 hpath
      obtain ⟨hup, -⟩ := (Tree.childAt?_eq_some_iff_owner ht).1 hchild
      rw [← howner] at hup
      exact .head ⟨parent, getD_eq_some_iff.1 hup, rfl⟩ (ih hparent)

/-- The snapshot has the links of `t` and as many entries as the nodes of `t` need. -/
structure Records (s : Snapshot) (t : Tree n) : Prop where
  dimension_eq : s.dimension = n
  size_eq : s.size = t.size
  parents_size : s.parents.size = Group.covering n t.size
  firstChildren_size : s.firstChildren.size = t.size
  owner_eq (group : Nat) : s.parents.getD group none = t.links.owner group
  firstChild_eq (node : Nat) : s.firstChildren.getD node none = t.links.firstChild node

/-- A list of all look-ups is the table itself. -/
theorem toArray_map_range {xs : Array (Option Nat)} {count : Nat} {f : Nat → Option Nat}
    (hcount : xs.size = count) (hf : ∀ i, xs.getD i none = f i) :
    ((List.range count).map f).toArray = xs := by
  subst hcount
  apply Array.ext
  · simp
  · intro i hi hi'
    simp [← hf, Array.getD_eq_getD_getElem?, Array.getElem?_eq_getElem hi']

/-- A table cut off where nothing more is stored has the same look-ups. -/
theorem getD_toArray_map_range {count : Nat} {f : Nat → Option Nat}
    (h : ∀ i, count ≤ i → f i = none) (i : Nat) :
    ((List.range count).map f).toArray.getD i none = f i := by
  rw [Array.getD_eq_getD_getElem?]
  rcases Nat.lt_or_ge i count with hlt | hge
  · simp [hlt]
  · simp [h i hge, Nat.not_lt.2 hge]

/-- No link of a compact tree lies beyond the entries that its nodes need. -/
theorem exists_records (ht : t.Valid) (h : t.isCompact = true) : ∃ s : Snapshot, s.Records t := by
  refine ⟨{
    dimension := n
    size := t.size
    parents := ((List.range (Group.covering n t.size)).map t.links.owner).toArray
    firstChildren := ((List.range t.size).map t.links.firstChild).toArray }, rfl, rfl, ?_, ?_, ?_, ?_⟩
  · simp
  · simp
  · apply getD_toArray_map_range
    intro group hle
    apply Tree.owner_of_not_inUse
    rw [ht.inUse_iff_lt h]
    exact Nat.not_lt.2 hle
  · apply getD_toArray_map_range
    intro node hle
    apply Tree.firstChild_of_not_live ht.toLinked
    rw [ht.live_iff_lt h]
    exact Nat.not_lt.2 hle

namespace Records

/-- The snapshot of a compact tree is its record. -/
theorem snapshot_eq (h : s.Records t) (ht : t.Valid) (hcompact : t.isCompact = true) :
    t.snapshot = .ok (.ok s) := by
  have hrecord : t.record = .ok s := by
    rw [Tree.record_eq ht, toArray_map_range h.parents_size h.owner_eq,
      toArray_map_range h.firstChildren_size h.firstChild_eq, ← h.size_eq, ← h.dimension_eq]
  rw [Tree.snapshot, if_pos hcompact, hrecord]
  rfl

/-- The record of a compact tree is accepted. -/
theorem recordsTree (h : s.Records t) (ht : t.Valid) (hcompact : t.isCompact = true) :
    s.RecordsTree n := by
  have hused : ∀ group, group < s.parents.size ↔ t.InUse group := by
    intro group
    rw [h.parents_size, ht.inUse_iff_lt hcompact]
  have howner : ∀ {group node}, s.parents[group]? = some (some node) ↔
      t.links.owner group = some node := by
    intro group node
    rw [← getD_eq_some_iff, h.owner_eq]
  have hfirst : ∀ {node first}, s.firstChildren[node]? = some (some first) ↔
      t.links.firstChild node = some first := by
    intro node first
    rw [← getD_eq_some_iff, h.firstChild_eq]
  refine ⟨h.dimension_eq, ?_, ?_, ?_, ?_, ?_, ?_, ?_, ?_⟩
  · rw [h.firstChildren_size, h.size_eq]
  · rw [h.size_eq]
    exact (ht.live_iff_lt hcompact 0).1 t.live_zero
  · rw [h.size_eq]
    exact ht.size_le_capacity.trans_lt ht.capacity_lt
  · rw [h.size_eq, h.parents_size, ht.nodeCount_covering]
  · have hroot := h.owner_eq 0
    rw [ht.paired.owner_root, Array.getD_eq_getD_getElem?] at hroot
    rw [Array.getElem?_eq_getElem ((hused 0).2 t.inUse_zero)] at hroot ⊢
    rw [← hroot, Option.getD_some]
  · intro group hone hlt
    obtain ⟨node, hnode⟩ :=
      (Tree.inUse_iff_exists_owner (Nat.ne_of_gt hone)).1 ((hused group).1 hlt)
    exact ⟨node, howner.2 hnode, hfirst.2 ((ht.paired.owner_iff group node).1 hnode).2⟩
  · intro node first hnode
    obtain ⟨group, hgroup, hstart, hup⟩ := ht.paired.exists_owner (hfirst.1 hnode)
    exact ⟨group, Nat.pos_of_ne_zero hgroup, (hused group).2 (Tree.inUse_of_owner hup), hstart,
      howner.2 hup⟩
  · intro group hlt
    -- The path to a member leads up through the owners.
    have hlive : t.Live (Group.start n group) := by
      rw [Tree.Live, Group.ofNode_start]
      exact (hused group).1 hlt
    obtain ⟨path, hpath⟩ := ht.rooted hlive
    have hup := reflTransGen_stepsUp ht.toLinked h.owner_eq hpath
    rwa [Group.ofNode_start] at hup

end Records

/-! ## Restored trees -/

/-- What the checks have accepted is the record of the tree that is filled with it. -/
theorem Checked.records (h : Checked n s groups) (made : Tree n) :
    s.Records (fill s groups made) where
  dimension_eq := h.dimension_eq
  size_eq := rfl
  parents_size := h.parents_size.trans h.groups_eq
  firstChildren_size := h.entries
  owner_eq group := (owner_fill s groups made group).symm
  firstChild_eq node := (firstChild_fill s groups made node).symm

/-- A restored tree is compact, and it is recorded by what it was made of. -/
theorem records_of_restore (h : restore n s asked = .ok (.ok t)) :
    t.isCompact = true ∧ s.Records t := by
  have hvalid := valid_of_restore h
  obtain ⟨groups, room, made, order, hchecked, hroom, hmade, rfl, -, -⟩ := restore_accepted h
  exact ⟨hvalid.isCompact_of_lowest hchecked.inUse_iff, hchecked.records made⟩

/-- What is accepted records a tree. -/
theorem recordsTree_of_restore (h : restore n s asked = .ok (.ok t)) : s.RecordsTree n := by
  obtain ⟨hcompact, hrecords⟩ := records_of_restore h
  exact hrecords.recordsTree (valid_of_restore h) hcompact

/-- A restored tree is compact, and its snapshot is the one that it was made of. -/
theorem snapshot_of_restore (h : restore n s asked = .ok (.ok t)) :
    t.isCompact = true ∧ t.snapshot = .ok (.ok s) := by
  obtain ⟨hcompact, hrecords⟩ := records_of_restore h
  exact ⟨hcompact, hrecords.snapshot_eq (valid_of_restore h) hcompact⟩

/-- **Exactness of restoring.**  A snapshot is accepted iff it records a tree.  Whatever tree is made of it, with more
room or without, is valid and compact, and its snapshot is the same again. -/
theorem restore_exact (hn : Corner.supported n = true) (s : Snapshot) :
    ((∃ t : Tree n, restore n s none = .ok (.ok t)) ↔ s.RecordsTree n) ∧
    ∀ (capacity : Option Nat) (t : Tree n), restore n s capacity = .ok (.ok t) →
      t.Valid ∧ t.isCompact = true ∧ t.snapshot = .ok (.ok s) := by
  refine ⟨⟨?_, fun h => h.exists_restore hn⟩, ?_⟩
  · rintro ⟨t, h⟩
    exact recordsTree_of_restore h
  · intro capacity t h
    exact ⟨valid_of_restore h, snapshot_of_restore h⟩

/-- A square divided into four. -/
theorem restore_exact_divided :
    ((∃ t : Tree 2, restore 2 ⟨2, 5, #[none, some 0], #[some 1, none, none, none, none]⟩ none =
        .ok (.ok t)) ↔
      RecordsTree 2 ⟨2, 5, #[none, some 0], #[some 1, none, none, none, none]⟩) ∧
    ∀ (capacity : Option Nat) (t : Tree 2),
      restore 2 ⟨2, 5, #[none, some 0], #[some 1, none, none, none, none]⟩ capacity =
        .ok (.ok t) →
      t.Valid ∧ t.isCompact = true ∧
        t.snapshot = .ok (.ok ⟨2, 5, #[none, some 0], #[some 1, none, none, none, none]⟩) :=
  restore_exact (by decide) _

/-- Two groups that own each other do not lead up to the root. -/
example : restore 1 ⟨1, 5, #[none, some 3, some 1], #[none, some 3, none, some 1, none]⟩ none =
    .ok (.error (.corrupt (.unreachable 1 5))) :=
  rfl

end Orthtree.Snapshot
