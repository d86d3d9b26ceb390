import Orthtree.Proofs.DepthFirst
import Orthtree.Proofs.Loading

/-!
# New and restored trees

A new tree is valid (`valid_of_ofCapacity`), and so is a tree made of a snapshot (`valid_of_restore`).  The checks of
`restore` say that the links are paired, but they look at one edge at a time and so cannot exclude circles that hang
together by themselves.  That every node is rooted follows from the last check by counting: the walk from the root
meets no node twice, and it has met as many nodes as there are.
-/

namespace Orthtree

variable {α β : Type} {n groups room : Nat}

/-! ## Parts of accepted results -/

/-- If a query that goes on with another one is answered, both are. -/
theorem exists_of_bind_ok {query : Except Fault α} {next : α → Except Fault β} {b : β}
    (h : (query >>= next) = .ok b) : ∃ a, query = .ok a ∧ next a = .ok b :=
  bind_eq_ok_iff.1 h

/-- If a step of restoring that goes on with another one is accepted, both are. -/
theorem exists_of_bind_accepted {step : Restore α} {next : α → Restore β} {b : β}
    (h : (step >>= next) = .ok (.ok b)) : ∃ a, step = .ok (.ok a) ∧ next a = .ok (.ok b) := by
  match step with
  | .error _ => cases h
  | .ok (.error _) => cases h
  | .ok (.ok a) => exact ⟨a, rfl, h⟩

/-- A query asked while restoring must be answered. -/
theorem exists_of_bind_query {query : Except Fault α} {next : α → Restore β} {b : β}
    (h : ((liftM query : Restore α) >>= next) = .ok (.ok b)) :
    ∃ a, query = .ok a ∧ next a = .ok (.ok b) := by
  cases query with
  | error e => cases h
  | ok a => exact ⟨a, rfl, h⟩

/-- Restoring goes on with what an accepted step gives. -/
theorem bind_of_accepted {step : Restore α} {next : α → Restore β} {a : α}
    (h : step = .ok (.ok a)) : step >>= next = next a := by
  rw [h]
  rfl

/-- Restoring goes on with the answer of a query. -/
theorem bind_of_query {query : Except Fault α} {next : α → Restore β} {a : α}
    (h : query = .ok a) : (liftM query : Restore α) >>= next = next a := by
  rw [h]
  rfl

/-- Checking a list is accepted iff every check is. -/
theorem forM_accepted_iff {check : α → Restore Unit} {xs : List α} :
    xs.forM check = .ok (.ok ()) ↔ ∀ x ∈ xs, check x = .ok (.ok ()) := by
  induction xs with
  | nil => exact ⟨fun _ x hx => absurd hx List.not_mem_nil, fun _ => rfl⟩
  | cons x xs ih =>
      rw [List.forM, List.forall_mem_cons, ← ih]
      constructor
      · intro h
        obtain ⟨_, hx, hxs⟩ := exists_of_bind_accepted h
        exact ⟨hx, hxs⟩
      · rintro ⟨hx, hxs⟩
        rw [bind_of_accepted hx]
        exact hxs

/-! ## Counts that fit -/

/-- A number that is accepted is not changed. -/
theorem Bounded.eq_of_below {limit x y : Nat} (h : Bounded.below limit x = .ok y) : y = x :=
  (Bounded.below_eq_ok_iff.1 h).2

theorem Bounded.eq_of_bit {k x : Nat} (h : Bounded.bit k = .ok x) : x = 2 ^ k :=
  (Bounded.bit_eq_ok_iff.1 h).2

namespace Group

/-- A number of groups that fits is the exact one, and it fits unless there are too many children or too many groups. -/
theorem covering?_eq_ok_iff : covering? n room = .ok groups ↔
    (room ≤ 1 ∨ n < 64 ∧ covering n room < Bounded.countLimit) ∧ groups = covering n room := by
  unfold covering? covering
  by_cases hle : room ≤ 1
  · simp [hle, pure, Except.pure, eq_comm]
  · rw [if_neg hle, if_neg hle]
    simp only [bind_eq_ok_iff, Bounded.bit_eq_ok_iff, Bounded.count, Bounded.below_eq_ok_iff, hle,
      false_or]
    constructor
    · rintro ⟨_, ⟨hbits, rfl⟩, hlt, rfl⟩
      exact ⟨⟨hbits, hlt⟩, rfl⟩
    · rintro ⟨⟨hbits, hlt⟩, rfl⟩
      exact ⟨_, ⟨hbits, rfl⟩, hlt, rfl⟩

/-- A number of nodes that fits is the exact one, and it fits unless there are too many children or too many nodes. -/
theorem nodeCount?_eq_ok_iff {nodes : Nat} : nodeCount? n groups = .ok nodes ↔
    (groups = 0 ∨ n < 64 ∧ nodeCount n groups < Bounded.countLimit) ∧
      nodes = nodeCount n groups := by
  unfold nodeCount? nodeCount
  by_cases hzero : groups = 0
  · simp [hzero, pure, Except.pure, eq_comm]
  · rw [if_neg hzero, if_neg hzero]
    simp only [bind_eq_ok_iff, Bounded.bit_eq_ok_iff, Bounded.count, Bounded.below_eq_ok_iff, hzero,
      false_or]
    constructor
    · rintro ⟨_, ⟨hbits, rfl⟩, _, ⟨-, rfl⟩, hlt, rfl⟩
      exact ⟨⟨hbits, hlt⟩, rfl⟩
    · rintro ⟨⟨hbits, hlt⟩, rfl⟩
      exact ⟨_, ⟨hbits, rfl⟩, _, ⟨Nat.lt_of_succ_lt hlt, rfl⟩, hlt, rfl⟩

theorem eq_of_covering? (h : covering? n room = .ok groups) : groups = covering n room :=
  (covering?_eq_ok_iff.1 h).2

theorem eq_of_nodeCount? {nodes : Nat} (h : nodeCount? n groups = .ok nodes) :
    nodes = nodeCount n groups :=
  (nodeCount?_eq_ok_iff.1 h).2

theorem covering?_eq {count : Nat} (hn : Corner.supported n = true)
    (h : covering n count < Bounded.countLimit) : covering? n count = .ok (covering n count) :=
  covering?_eq_ok_iff.2 ⟨Or.inr ⟨Corner.lt_of_supported hn, h⟩, rfl⟩

theorem nodeCount?_eq (hn : Corner.supported n = true) (h : nodeCount n groups < Bounded.countLimit) :
    nodeCount? n groups = .ok (nodeCount n groups) :=
  nodeCount?_eq_ok_iff.2 ⟨Or.inr ⟨Corner.lt_of_supported hn, h⟩, rfl⟩

/-- Whole groups are counted without leaving 64 bits if the nodes in them can be. -/
theorem counts_eq {count : Nat} (hn : Corner.supported n = true)
    (h : nodeCount n (covering n count) < Bounded.countLimit) :
    covering? n count = .ok (covering n count) ∧
      nodeCount? n (covering n count) = .ok (nodeCount n (covering n count)) :=
  ⟨covering?_eq hn ((le_nodeCount n _).trans_lt h), nodeCount?_eq hn h⟩

/-- The first node of a group has an index if the groups up to it hold few enough nodes. -/
theorem first_eq {group : Nat} (hlt : group < groups) (h : nodeCount n groups < Tree.nodeLimit) :
    first n group = .ok (start n group) :=
  Bounded.below_of_lt (Tree.lt_indexLimit ((start_lt_nodeCount hlt).trans h))

/-- Some nodes need some group. -/
theorem covering_ne_zero {count : Nat} (h : count ≠ 0) : covering n count ≠ 0 := by
  intro hzero
  have hle := covering_le_iff.1 (Nat.le_of_eq hzero)
  rw [nodeCount, if_pos rfl] at hle
  exact h (Nat.eq_zero_of_le_zero hle)

theorem covering_le_covering {a b : Nat} (h : a ≤ b) : covering n a ≤ covering n b :=
  covering_le_iff.2 (h.trans (covering_le_iff.1 (Nat.le_refl _)))

/-- Rounding up to whole groups adds less than one group. -/
theorem nodeCount_covering_lt (n count : Nat) : nodeCount n (covering n count) < count + 2 ^ n := by
  have hpos := Nat.two_pow_pos n
  cases hgroups : covering n count with
  | zero =>
      rw [nodeCount, if_pos rfl]
      omega
  | succ groups =>
      -- One group less does not hold the nodes.
      have hless : nodeCount n groups < count := by
        rw [← Nat.not_le, ← covering_le_iff, hgroups]
        exact Nat.not_succ_le_self groups
      rcases eq_or_ne groups 0 with rfl | hne
      · rw [nodeCount, if_neg Nat.one_ne_zero]
        omega
      · rw [nodeCount_succ hne]
        omega

end Group

namespace Tree

variable {t : Tree n}

/-! ## New trees -/

/-- A new tree has room for whole groups. -/
theorem eq_rootOnly_of_ofCapacity (h : ofCapacity n room = .ok t) :
    t = rootOnly n (Group.covering n room) ∧ t.Sized := by
  unfold ofCapacity at h
  split at h
  · next hsupported =>
    split at h
    · cases h
    · next hroom =>
      obtain ⟨groups, hgroups, h⟩ := exists_of_bind_ok h
      obtain ⟨nodes, hnodes, h⟩ := exists_of_bind_ok h
      obtain rfl := Group.eq_of_covering? hgroups
      obtain rfl := Group.eq_of_nodeCount? hnodes
      split at h
      · next hlimit =>
        rw [if_pos (Group.le_nodeCount n _)] at h
        obtain rfl := Except.ok.inj h
        refine ⟨rfl, hsupported, ?_, ?_, ?_⟩
        · rw [groupCapacity, rootOnly, Links.groupCapacity_empty]
          exact Nat.pos_of_ne_zero (Group.covering_ne_zero hroom)
        · simp [capacity, groupCapacity, rootOnly]
        · simpa [capacity, rootOnly] using hlimit
      · cases h
  · cases h

/-- Room that fits an index is rounded up to whole groups. -/
theorem ofCapacity_eq (hn : Corner.supported n = true) (hroom : room ≠ 0)
    (hlt : Group.nodeCount n (Group.covering n room) < nodeLimit) :
    ofCapacity n room = .ok (rootOnly n (Group.covering n room)) := by
  obtain ⟨hcovering, hnodes⟩ := Group.counts_eq hn (lt_countLimit hlt)
  rw [ofCapacity, if_pos hn, if_neg hroom, hcovering]
  simp only [bind, Except.bind, hnodes, if_pos hlt, if_pos (Group.le_nodeCount n _)]
  rfl

theorem inUse_rootOnly_iff (n groups group : Nat) : (rootOnly n groups).InUse group ↔ group < 1 := by
  simp [InUse, rootOnly]

/-- **New trees are valid.** -/
theorem valid_of_ofCapacity (h : ofCapacity n room = .ok t) : t.Valid := by
  obtain ⟨rfl, hsized⟩ := eq_rootOnly_of_ofCapacity h
  have hlinked : (rootOnly n (Group.covering n room)).Linked := by
    refine ⟨hsized, ⟨?_, ?_⟩, ?_⟩
    · intro group node
      simp [rootOnly]
    · intro node first hfirst
      simp [rootOnly] at hfirst
    · intro node first hfirst
      simp [rootOnly] at hfirst
  have hused := inUse_rootOnly_iff n (Group.covering n room)
  refine ⟨hlinked, counted_of_lowest hused hsized ?_ rfl rfl, ?_⟩
  · simp [rootOnly, Group.nodeCount]
  · intro node hlive
    rw [Live, hused, Nat.lt_one_iff, Group.ofNode_eq_zero_iff] at hlive
    exact ⟨[], by rw [hlive, follow_nil]⟩

end Tree

/-! ## Restored trees -/

namespace Snapshot

variable {s : Snapshot} {t : Tree n} {asked : Option Nat}

/-- What the checks of `restore` make sure of, one edge at a time. -/
structure Checked (n : Nat) (s : Snapshot) (groups : Nat) : Prop where
  dimension_eq : s.dimension = n
  size_ne : s.size ≠ 0
  size_lt : s.size < Tree.nodeLimit
  entries : s.firstChildren.size = s.size
  groups_eq : groups = Group.covering n s.size
  /-- The nodes fill whole groups. -/
  whole : Group.nodeCount n groups = s.size
  parents_size : s.parents.size = groups
  root : s.parents.getD 0 none = none
  /-- Every group but the root's has an owner whose first child begins it. -/
  owned (group : Nat) : 1 ≤ group → group < groups → ∃ parent,
    s.parents.getD group none = some parent ∧
      s.firstChildren.getD parent none = some (Group.start n group)
  /-- Every first child begins a group that its parent owns. -/
  begins (node first : Nat) : node < s.size → s.firstChildren.getD node none = some first →
    ∃ group, group ≠ 0 ∧ Group.start n group = first ∧ s.parents.getD group none = some node

/-- Accepted sizes belong together: there is a node, every node has an index, and the nodes fill whole groups, each with
an entry for its parent. -/
theorem checkSizes_accepted (h : checkSizes n s = .ok (.ok groups)) :
    s.dimension = n ∧ s.size ≠ 0 ∧ s.size < Tree.nodeLimit ∧ s.firstChildren.size = s.size ∧
      groups = Group.covering n s.size ∧ Group.nodeCount n groups = s.size ∧
      s.parents.size = groups := by
  unfold checkSizes at h
  split at h
  · cases h
  next hdimension =>
  split at h
  · cases h
  next hentries =>
  split at h
  · cases h
  next hlimit =>
  -- The last two checks compare with numbers that are computed only now.
  obtain ⟨covering, hcovering, h⟩ := exists_of_bind_query h
  obtain ⟨nodes, hnodes, h⟩ := exists_of_bind_query h
  obtain rfl := Group.eq_of_covering? hcovering
  obtain rfl := Group.eq_of_nodeCount? hnodes
  split at h
  · cases h
  next hwhole =>
  split at h
  · cases h
  next hparents =>
  obtain rfl := Except.ok.inj (Except.ok.inj h)
  rw [not_or, not_not] at hwhole
  exact ⟨not_not.1 hdimension, hwhole.1, Nat.not_le.1 hlimit, not_not.1 hentries, rfl, hwhole.2,
    not_not.1 hparents⟩

/-- If the root group is accepted, it has no parent. -/
theorem checkRoot_accepted (h : checkRoot s = .ok (.ok ())) : s.parents.getD 0 none = none := by
  unfold checkRoot at h
  split at h
  · cases h
  · cases h
  · next hroot => rw [Array.getD_eq_getD_getElem?, hroot, Option.getD_some]

/-- An accepted group has a parent whose first child begins it. -/
theorem checkGroup_accepted {group : Nat} (h : checkGroup n s group = .ok (.ok ())) :
    ∃ parent, s.parents.getD group none = some parent ∧
      s.firstChildren.getD parent none = some (Group.start n group) := by
  unfold checkGroup at h
  split at h
  · cases h
  · next parent hparent =>
    obtain ⟨first, hfirst, h⟩ := exists_of_bind_query h
    obtain rfl := Bounded.eq_of_below hfirst
    split at h
    · next hback => exact ⟨parent, hparent, hback⟩
    · cases h

/-- The first child of an accepted branch begins a group that the branch owns. -/
theorem checkNode_accepted {node first : Nat} (h : checkNode n s node = .ok (.ok ()))
    (hfirst : s.firstChildren.getD node none = some first) :
    ∃ group, group ≠ 0 ∧ Group.start n group = first ∧ s.parents.getD group none = some node := by
  unfold checkNode at h
  rw [hfirst] at h
  dsimp only at h
  obtain ⟨begin, hbegin, h⟩ := exists_of_bind_query h
  obtain rfl := Bounded.eq_of_below hbegin
  split at h
  · next hback => exact ⟨_, hback⟩
  · cases h

/-- A snapshot that passes the checks of its sizes and of its links has passed all checks. -/
theorem checked_of_accepted (hsizes : checkSizes n s = .ok (.ok groups))
    (hlinks : checkLinks n s = .ok (.ok ())) : Checked n s groups := by
  obtain ⟨hdimension, hsize, hlimit, hentries, heq, hwhole, hparents⟩ := checkSizes_accepted hsizes
  obtain ⟨_, hroot, hlinks⟩ := exists_of_bind_accepted hlinks
  obtain ⟨_, hgroups, hnodes⟩ := exists_of_bind_accepted hlinks
  refine ⟨hdimension, hsize, hlimit, hentries, heq, hwhole, hparents, checkRoot_accepted hroot,
    ?_, ?_⟩
  · intro group hone hlt
    apply checkGroup_accepted
    apply forM_accepted_iff.1 hgroups
    rw [List.mem_range'_1]
    omega
  · intro node first hlt hfirst
    refine checkNode_accepted ?_ hfirst
    exact forM_accepted_iff.1 hnodes node (List.mem_range.2 (hlt.trans_eq hentries.symm))

variable {made : Tree n} {order : List Nat}

namespace Checked

theorem groups_ne_zero (h : Checked n s groups) : groups ≠ 0 := by
  rw [h.groups_eq]
  exact Group.covering_ne_zero h.size_ne

/-- The groups of the snapshot are in use. -/
theorem inUse_iff (h : Checked n s groups) (group : Nat) :
    (fill s groups made).InUse group ↔ group < groups := by
  rw [Tree.InUse, owner_fill]
  constructor
  · rintro (rfl | hsome)
    · exact Nat.pos_of_ne_zero h.groups_ne_zero
    · obtain ⟨parent, hparent⟩ := Option.isSome_iff_exists.1 hsome
      exact (lt_of_getD_eq_some hparent).trans_eq h.parents_size
  · intro hlt
    rcases Nat.eq_zero_or_pos group with rfl | hpos
    · exact Or.inl rfl
    · obtain ⟨parent, hparent, -⟩ := h.owned group hpos hlt
      exact Or.inr (by rw [hparent]; rfl)

/-- The nodes of the snapshot are live. -/
theorem live_iff (h : Checked n s groups) (node : Nat) :
    (fill s groups made).Live node ↔ node < s.size := by
  rw [Tree.Live, h.inUse_iff, Group.ofNode_lt_iff, h.whole]

/-- The tables of a new tree with enough room have a place for every entry. -/
theorem entries_le (h : Checked n s groups) (hroom : s.size ≤ room)
    (hmade : Tree.ofCapacity n room = .ok made) :
    s.parents.size ≤ made.groupCapacity ∧ s.firstChildren.size ≤ made.capacity := by
  obtain ⟨rfl, -⟩ := Tree.eq_rootOnly_of_ofCapacity hmade
  have hgroups : s.parents.size ≤ Group.covering n room := by
    rw [h.parents_size, h.groups_eq]
    exact Group.covering_le_covering hroom
  constructor
  · simpa [Tree.groupCapacity, Tree.rootOnly] using hgroups
  · rw [h.entries, ← h.whole, ← h.parents_size]
    simpa [Tree.capacity, Tree.rootOnly, Group.nodeCount_le_iff] using hgroups

/-- The tables of a new tree with enough room keep their sizes. -/
theorem sized (h : Checked n s groups) (hroom : s.size ≤ room)
    (hmade : Tree.ofCapacity n room = .ok made) : (fill s groups made).Sized := by
  obtain ⟨hgroups, hnodes⟩ := h.entries_le hroom hmade
  obtain ⟨-, hsized⟩ := Tree.eq_rootOnly_of_ofCapacity hmade
  exact hsized.congr (groupCapacity_fill groups hgroups) (capacity_fill groups hnodes)

/-- The links of the snapshot are loaded into a new tree with enough room. -/
theorem load_eq (h : Checked n s groups) (hroom : s.size ≤ room)
    (hmade : Tree.ofCapacity n room = .ok made) :
    made.perform (load s groups) = .ok ((), fill s groups made) := by
  obtain ⟨hgroups, hnodes⟩ := h.entries_le hroom hmade
  obtain ⟨hnew, -⟩ := Tree.eq_rootOnly_of_ofCapacity hmade
  exact Snapshot.load_eq groups hnew hgroups hnodes

/-- The checks make the links those of a linked tree. -/
theorem linked (h : Checked n s groups) (hsized : (fill s groups made).Sized) :
    (fill s groups made).Linked := by
  -- A node with a first child has an entry, so it was checked.
  have hbegins : ∀ {node first : Nat}, s.firstChildren.getD node none = some first →
      node < s.size ∧ ∃ group, group ≠ 0 ∧ Group.start n group = first ∧
        s.parents.getD group none = some node := by
    intro node first hfirst
    have hlt := (lt_of_getD_eq_some hfirst).trans_eq h.entries
    exact ⟨hlt, h.begins node first hlt hfirst⟩
  refine ⟨hsized, ⟨?_, ?_⟩, ?_⟩
  · intro group node
    rw [owner_fill, firstChild_fill]
    constructor
    · intro howner
      have hlt := (lt_of_getD_eq_some howner).trans_eq h.parents_size
      have hgroup : group ≠ 0 := by
        rintro rfl
        rw [h.root] at howner
        cases howner
      obtain ⟨parent, hparent, hfirst⟩ := h.owned group (Nat.pos_of_ne_zero hgroup) hlt
      obtain rfl := Option.some_injective _ (hparent.symm.trans howner)
      exact ⟨hgroup, hfirst⟩
    · rintro ⟨-, hfirst⟩
      obtain ⟨-, group', -, hstart, howner⟩ := hbegins hfirst
      rwa [← Group.start_injective n hstart]
  · intro node first hfirst
    rw [firstChild_fill] at hfirst
    obtain ⟨-, group, hgroup, hstart, -⟩ := hbegins hfirst
    exact ⟨group, hgroup, hstart⟩
  · intro node first hfirst
    rw [firstChild_fill] at hfirst
    rw [h.live_iff]
    exact (hbegins hfirst).1

/-- The counters of a restored tree agree with its links. -/
theorem counted (h : Checked n s groups) (hsized : (fill s groups made).Sized) :
    (fill s groups made).Counted := by
  apply Tree.counted_of_lowest h.inUse_iff hsized
  · exact h.whole.symm
  · rfl
  · rfl

/-- The walk meets nodes of the snapshot only, and none of them twice. -/
theorem nodup_subset (h : Checked n s groups) (hlinked : (fill s groups made).Linked)
    (hwalk : (fill s groups made).Walk order []) :
    order.Nodup ∧ order.toFinset ⊆ Finset.range s.size := by
  refine ⟨by simpa using hwalk.nodup hlinked, ?_⟩
  intro x hx
  rw [Finset.mem_range, ← h.live_iff]
  exact hwalk.live hlinked (by simpa using hx)

/-- A walk that has met as many nodes as the snapshot has reaches all of them. -/
theorem rooted (h : Checked n s groups) (hlinked : (fill s groups made).Linked)
    (hwalk : (fill s groups made).Walk order []) (hlength : order.length = s.size) {node : Nat}
    (hlive : (fill s groups made).Live node) :
    ∃ path, (fill s groups made).follow path = some node := by
  obtain ⟨hnodup, hsub⟩ := h.nodup_subset hlinked hwalk
  -- No node is met twice, so as many nodes as there are means all of them.
  have hall : order.toFinset = Finset.range s.size := by
    apply Finset.eq_of_subset_of_card_le hsub
    rw [Finset.card_range, List.toFinset_card_of_nodup hnodup, hlength]
  have hmem : node ∈ order := by
    rw [← List.mem_toFinset, hall, Finset.mem_range, ← h.live_iff]
    exact hlive
  exact hwalk.exists_path (by simpa using hmem)

end Checked

/-- An accepted snapshot has passed all checks, and the walk of its tree has met as many nodes as it has. -/
theorem restore_accepted (h : restore n s asked = .ok (.ok t)) :
    ∃ groups room made order, Checked n s groups ∧ s.size ≤ room ∧
      Tree.ofCapacity n room = .ok made ∧ t = fill s groups made ∧
      t.depthFirst = .ok order ∧ order.length = s.size := by
  unfold restore at h
  obtain ⟨groups, hsizes, h⟩ := exists_of_bind_accepted h
  dsimp only at h
  split at h
  · cases h
  next hroom =>
  rw [Nat.not_lt] at hroom
  obtain ⟨_, hlinks, h⟩ := exists_of_bind_accepted h
  have hchecked := checked_of_accepted hsizes hlinks
  obtain ⟨made, hmade, h⟩ := exists_of_bind_query h
  rw [bind_of_query (hchecked.load_eq hroom hmade)] at h
  obtain ⟨order, horder, h⟩ := exists_of_bind_query h
  split at h
  · next hlength =>
    obtain rfl := Except.ok.inj (Except.ok.inj h)
    exact ⟨groups, _, made, order, hchecked, hroom, hmade, rfl, horder, hlength⟩
  · cases h

/-- **Restored trees are valid.** -/
theorem valid_of_restore (h : restore n s asked = .ok (.ok t)) : t.Valid := by
  obtain ⟨groups, room, made, order, hchecked, hroom, hmade, rfl, horder, hlength⟩ :=
    restore_accepted h
  have hsized := hchecked.sized hroom hmade
  have hlinked := hchecked.linked hsized
  obtain ⟨order', hwalk⟩ := Tree.exists_walk hlinked
  obtain rfl := Except.ok.inj (horder.symm.trans (hwalk.depthFirst_eq hlinked))
  exact ⟨hlinked, hchecked.counted hsized, hchecked.rooted hlinked hwalk hlength⟩

end Snapshot

end Orthtree
