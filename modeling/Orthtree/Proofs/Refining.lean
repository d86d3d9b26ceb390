import Orthtree.Proofs.Counters
import Orthtree.Proofs.Queries

/-!
# Refining and coarsening

`Attached node group t u` says that `u` is `t` with one more edge: the leaf `node` of `t` owns the free group `group`
in `u`.  Refining goes from `t` to `u` (`refine_eq`) and coarsening from `u` to `t` (`coarsen_eq`), so one relation
says what both do to the links, and each fact about it serves both.
-/

namespace Orthtree.Tree

variable {n : Nat} {t u : Tree n} {node group c g : Nat} {path : List Nat}

/-! ## One more edge -/

/-- `u` is `t` with the free group `group` attached to the leaf `node`. -/
structure Attached (node group : Nat) (t u : Tree n) : Prop where
  groupCapacity_eq : u.groupCapacity = t.groupCapacity
  capacity_eq : u.capacity = t.capacity
  group_ne_zero : group ≠ 0
  group_lt : group < t.groupCapacity
  /-- The owner is a node of `t`. -/
  live : t.Live node
  /-- The owner has no children in `t`. -/
  leaf : t.links.firstChild node = none
  /-- The group has no owner in `t`. -/
  free : t.links.owner group = none
  owner_eq (g : Nat) : u.links.owner g = if g = group then some node else t.links.owner g
  firstChild_eq (v : Nat) : u.links.firstChild v =
    if v = node then some (Group.start n group) else t.links.firstChild v

namespace Attached

/-- The attached group was free before. -/
theorem not_inUse (h : Attached node group t u) : ¬t.InUse group := by
  intro hused
  rw [InUse, h.free] at hused
  simp [h.group_ne_zero] at hused

/-- The groups in use are those of `t` and the attached one. -/
theorem inUse_iff (h : Attached node group t u) (g : Nat) : u.InUse g ↔ t.InUse g ∨ g = group := by
  rw [InUse, InUse, h.owner_eq]
  split_ifs with hg
  · simp [hg]
  · simp [hg]

theorem live_iff (h : Attached node group t u) (v : Nat) :
    u.Live v ↔ t.Live v ∨ Group.ofNode n v = group := h.inUse_iff _

/-- Attaching puts one more group to use. -/
theorem card_usedGroups (h : Attached node group t u) (ht : t.Sized) :
    u.usedGroups.card = t.usedGroups.card + 1 := by
  have hu : u.Sized := ht.congr h.groupCapacity_eq h.capacity_eq
  have hnew : group ∉ t.usedGroups := fun hmem => h.not_inUse ((mem_usedGroups ht).1 hmem)
  have hinsert : u.usedGroups = insert group t.usedGroups := by
    ext g
    rw [mem_usedGroups hu, Finset.mem_insert, mem_usedGroups ht, h.inUse_iff, or_comm]
  rw [hinsert, Finset.card_insert_of_notMem hnew]

/-- The attached group holds `2 ^ n` more nodes. -/
theorem nodeCount_eq (h : Attached node group t u) (ht : t.Sized) :
    Group.nodeCount n u.usedGroups.card = Group.nodeCount n t.usedGroups.card + 2 ^ n := by
  rw [h.card_usedGroups ht, Group.nodeCount_succ (usedGroups_nonempty ht).ne']

/-- The nodes of `t` and of the attached group have room. -/
theorem size_add_le (h : Attached node group t u) (ht : t.Valid) : t.size + 2 ^ n ≤ t.capacity := by
  rw [ht.size_eq, ← h.nodeCount_eq ht.toSized, ← h.capacity_eq,
    (ht.toSized.congr h.groupCapacity_eq h.capacity_eq).capacity_eq, Group.nodeCount_le_iff]
  exact u.card_usedGroups_le

/-! ### Links of the two trees -/

/-- No node loses its children. -/
theorem firstChild_of_firstChild (h : Attached node group t u) {v first : Nat}
    (hfirst : t.links.firstChild v = some first) : u.links.firstChild v = some first := by
  have hne : v ≠ node := by
    rintro rfl
    rw [h.leaf] at hfirst
    cases hfirst
  rw [h.firstChild_eq, if_neg hne, hfirst]

/-- Attaching a group keeps a tree linked. -/
theorem linked (h : Attached node group t u) (ht : t.Linked) : u.Linked where
  toSized := ht.toSized.congr h.groupCapacity_eq h.capacity_eq
  paired := by
    constructor
    · intro g v
      -- No node of `t` has the new group's first node as its child, and the new owner owned nothing.
      have hgroup : t.links.firstChild v ≠ some (Group.start n group) := by
        intro hfirst
        have howner := (ht.paired.owner_iff group v).2 ⟨h.group_ne_zero, hfirst⟩
        rw [h.free] at howner
        cases howner
      have hnode : t.links.owner g ≠ some node := by
        intro howner
        have hfirst := ((ht.paired.owner_iff g node).1 howner).2
        rw [h.leaf] at hfirst
        cases hfirst
      rw [h.owner_eq, h.firstChild_eq]
      split_ifs with hg hv hv
      · simp [hg, hv, h.group_ne_zero]
      · simp [hg, Ne.symm hv, hgroup]
      · simp [hv, hnode, (Group.start_injective n).eq_iff, Ne.symm hg]
      · exact ht.paired.owner_iff g v
    · intro v first hfirst
      rw [h.firstChild_eq] at hfirst
      split_ifs at hfirst
      · exact ⟨group, h.group_ne_zero, Option.some_injective _ hfirst⟩
      · exact ht.paired.begins hfirst
  live_of_firstChild {v first} hfirst := by
    rw [h.live_iff]
    left
    rw [h.firstChild_eq] at hfirst
    split_ifs at hfirst with hv
    · exact hv ▸ h.live
    · exact ht.live_of_firstChild hfirst

/-- Detaching a group of leaves keeps a tree linked. -/
theorem linked_of_linked (h : Attached node group t u) (hu : u.Linked)
    (hleaves : ∀ v, Group.ofNode n v = group → u.links.firstChild v = none) : t.Linked where
  toSized := hu.toSized.congr h.groupCapacity_eq.symm h.capacity_eq.symm
  paired := by
    constructor
    · intro g v
      have hiff := hu.paired.owner_iff g v
      rw [h.owner_eq, h.firstChild_eq] at hiff
      split_ifs at hiff with hg hv hv
      · simp [hg, hv, h.free, h.leaf]
      · rw [← hiff, hg, h.free]
        simp [Ne.symm hv]
      · rw [hiff, hv, h.leaf]
        simp [(Group.start_injective n).eq_iff, Ne.symm hg]
      · exact hiff
    · intro v first hfirst
      exact hu.paired.begins (h.firstChild_of_firstChild hfirst)
  live_of_firstChild {v first} hfirst := by
    have hfirst' := h.firstChild_of_firstChild hfirst
    rcases (h.live_iff v).1 (hu.live_of_firstChild hfirst') with hlive | hgroup
    · exact hlive
    · rw [hleaves v hgroup] at hfirst'
      cases hfirst'

/-! ### Paths of the two trees -/

/-- Paths of `t` lead to the same nodes of `u`. -/
theorem follow_of_follow (h : Attached node group t u) (hpath : t.follow path = some c) :
    u.follow path = some c := by
  induction path using List.reverseRecOn generalizing c with
  | nil => exact hpath
  | append_singleton path position ih =>
      obtain ⟨parent, hparent, hchild⟩ := follow_concat_eq_some_iff.1 hpath
      obtain ⟨first, hfirst, hlt, rfl⟩ := childAt?_eq_some_iff.1 hchild
      refine follow_concat_eq_some_iff.2 ⟨parent, ih hparent, ?_⟩
      exact childAt?_eq_some_iff.2 ⟨first, h.firstChild_of_firstChild hfirst, hlt, rfl⟩

/-- Paths of `u` to nodes of `t` are paths of `t`. -/
theorem follow_of_live (h : Attached node group t u) (ht : t.Linked) (hc : t.Live c)
    (hpath : u.follow path = some c) : t.follow path = some c := by
  induction path using List.reverseRecOn generalizing c with
  | nil => exact hpath
  | append_singleton path position ih =>
      obtain ⟨parent, hparent, hchild⟩ := follow_concat_eq_some_iff.1 hpath
      obtain ⟨howner, hposition⟩ := (childAt?_eq_some_iff_owner (h.linked ht)).1 hchild
      have hne : Group.ofNode n c ≠ group := fun heq => h.not_inUse (heq ▸ hc)
      rw [h.owner_eq, if_neg hne] at howner
      refine follow_concat_eq_some_iff.2 ⟨parent, ih (live_of_owner ht howner) hparent, ?_⟩
      exact (childAt?_eq_some_iff_owner ht).2 ⟨howner, hposition⟩

/-- The nodes of the attached group are reached through their owner. -/
theorem follow_concat_of_follow (h : Attached node group t u) (hpath : t.follow path = some node)
    {position : Nat} (hlt : position < 2 ^ n) :
    u.follow (path ++ [position]) = some (Group.start n group + position) := by
  refine follow_concat_eq_some_iff.2 ⟨node, h.follow_of_follow hpath, ?_⟩
  refine childAt?_eq_some_iff.2 ⟨Group.start n group, ?_, hlt, rfl⟩
  rw [h.firstChild_eq, if_pos rfl]

/-- Attaching a group to a valid tree leaves it valid if the counters are corrected. -/
theorem valid (h : Attached node group t u) (ht : t.Valid) (hu : u.Counted) : u.Valid where
  toLinked := h.linked ht.toLinked
  toCounted := hu
  rooted {c} hc := by
    rcases (h.live_iff c).1 hc with hlive | hgroup
    · obtain ⟨path, hpath⟩ := ht.rooted hlive
      exact ⟨path, h.follow_of_follow hpath⟩
    · obtain ⟨path, hpath⟩ := ht.rooted h.live
      refine ⟨path ++ [Group.position n c], ?_⟩
      rw [h.follow_concat_of_follow hpath (Group.position_lt n c), ← hgroup,
        Group.start_add_position]

/-- Detaching a group from a valid tree leaves it valid if the counters are corrected. -/
theorem valid_of_valid (h : Attached node group t u) (hu : u.Valid)
    (hleaves : ∀ v, Group.ofNode n v = group → u.links.firstChild v = none)
    (ht : t.Counted) : t.Valid where
  toLinked := h.linked_of_linked hu.toLinked hleaves
  toCounted := ht
  rooted {c} hc := by
    obtain ⟨path, hpath⟩ := hu.rooted ((h.live_iff c).2 (Or.inl hc))
    exact ⟨path, h.follow_of_live (h.linked_of_linked hu.toLinked hleaves) hc hpath⟩

end Attached

/-! ## Writing and erasing an edge -/

/-- The links after both ends of an edge have been written. -/
def edgeLinks (l : Links) (node group : Nat) (owner first : Option Nat) : Links :=
  (l.setOwner group owner).setFirstChild node first

section EdgeLinks

variable {l : Links} {owner first : Option Nat}

theorem owner_edgeLinks (hlt : group < l.groupCapacity) (g : Nat) :
    (edgeLinks l node group owner first).owner g = if g = group then owner else l.owner g :=
  Links.owner_setOwner hlt owner g

/-- Of the links down only that of `node` is written. -/
theorem firstChild_edgeLinks (hlt : node < l.nodeCapacity) (v : Nat) :
    (edgeLinks l node group owner first).firstChild v =
      if v = node then first else l.firstChild v := by
  rw [edgeLinks, Links.firstChild_setFirstChild (by rwa [Links.nodeCapacity_setOwner]),
    Links.firstChild_setOwner]

end EdgeLinks

/-- Writing an edge from a leaf to a free group attaches the group. -/
theorem attached_of_leaf (hst : t.Sized) (hgroup : group ≠ 0) (hlt : group < t.groupCapacity)
    (hfree : ¬t.InUse group) (hlive : t.Live node) (hleaf : t.links.firstChild node = none)
    (hu : u.links = edgeLinks t.links node group (some node) (some (Group.start n group))) :
    Attached node group t u where
  groupCapacity_eq := by rw [groupCapacity, hu]; simp [edgeLinks, groupCapacity]
  capacity_eq := by rw [capacity, hu]; simp [edgeLinks, capacity]
  group_ne_zero := hgroup
  group_lt := hlt
  live := hlive
  leaf := hleaf
  free := owner_of_not_inUse hfree
  owner_eq g := by rw [hu, owner_edgeLinks hlt]
  firstChild_eq v := by rw [hu, firstChild_edgeLinks (hlive.lt_capacity hst)]

/-- Erasing the edge to a group of leaves detaches the group. -/
theorem attached_of_owner (ht : t.Linked) (howner : t.links.owner group = some node)
    (hleaves : ∀ v, Group.ofNode n v = group → t.links.firstChild v = none)
    (hu : u.links = edgeLinks t.links node group none none) : Attached node group u t := by
  obtain ⟨hgroup, hfirst⟩ := (ht.paired.owner_iff group node).1 howner
  have hlt : group < t.groupCapacity := Links.lt_groupCapacity_of_owner howner
  have hlive := live_of_owner ht howner
  have howner_eq : ∀ g, u.links.owner g = if g = group then none else t.links.owner g := by
    intro g
    rw [hu, owner_edgeLinks hlt]
  have hfirst_eq : ∀ v, u.links.firstChild v = if v = node then none else t.links.firstChild v := by
    intro v
    rw [hu, firstChild_edgeLinks (hlive.lt_capacity ht.toSized)]
  -- The owner is not a member of its own group, whose members are leaves.
  have hne : Group.ofNode n node ≠ group := by
    intro heq
    rw [hleaves node heq] at hfirst
    cases hfirst
  have hug : u.groupCapacity = t.groupCapacity := by
    rw [groupCapacity, hu]
    simp [edgeLinks, groupCapacity]
  refine ⟨hug.symm, ?_, hgroup, hlt.trans_eq hug.symm, ?_, ?_, ?_, ?_, ?_⟩
  · rw [capacity, capacity, hu]
    simp [edgeLinks]
  · rw [Live, InUse, howner_eq, if_neg hne]
    exact hlive
  · rw [hfirst_eq, if_pos rfl]
  · rw [howner_eq, if_pos rfl]
  · intro g
    rw [howner_eq]
    split_ifs with hg
    · rw [hg, howner]
    · rfl
  · intro v
    rw [hfirst_eq]
    split_ifs with hv
    · rw [hv, hfirst]
    · rfl

/-! ## Refining -/

/-- `attach` writes an edge and counts it. -/
theorem attach_eq (ht : t.Valid) (hlt : t.firstFree < t.groupCapacity) (hlive : t.Live node)
    (hleaf : t.links.firstChild node = none) :
    ∃ u : Tree n, attach node t.firstFree t = .ok () u ∧ Attached node t.firstFree t u ∧
      u.size = t.size + 2 ^ n ∧ u.Valid := by
  have hgroup := ht.lowest.ne_zero
  let l := edgeLinks t.links node t.firstFree (some node) (some (Group.start n t.firstFree))
  have hattached : ∀ v : Tree n, v.links = l → Attached node t.firstFree t v := fun v hv =>
    attached_of_leaf ht.toSized hgroup hlt ht.lowest.1 hlive hleaf hv
  let t₁ : Tree n := { t with size := t.size + 2 ^ n }
  let t₂ : Tree n := { t₁ with links := t.links.setOwner t.firstFree (some node) }
  let t₃ : Tree n := { t₂ with links := l }
  -- The search for the next free group comes after both links are written.
  have ht₃ := hattached t₃ rfl
  obtain ⟨free, hfound, hlowest⟩ :=
    ht.lowest.nextFree_succ (hlt.trans_eq ht₃.groupCapacity_eq.symm) ht₃.inUse_iff
  let u : Tree n := { t₃ with firstFree := free, groupEnd := max t.groupEnd (t.firstFree + 1) }
  have hu := hattached u rfl
  refine ⟨u, ?_, hu, rfl, hu.valid ht ⟨?_, hlowest, ?_⟩⟩
  · have hnode : node < t₂.capacity := hlive.lt_capacity ht.toSized
    have hsize : Bounded.count (t.size + 2 ^ n) = .ok (t.size + 2 ^ n) :=
      ht.count_eq (hu.size_add_le ht)
    rw [attach, bind_of_ok (ask_of_ok hsize), bind_modify,
      bind_of_ok (setOwner_of_lt (t := t₁) hlt _),
      bind_of_ok (ask_of_ok (ht.first_eq hgroup hlt)),
      bind_of_ok (setFirstChild_of_lt (t := t₂) hnode _),
      bind_of_ok (ask_of_ok (ht.index_succ_eq hlt))]
    exact bind_of_ok (ask_of_ok (t := t₃) hfound)
  · rw [hu.nodeCount_eq ht.toSized, ← ht.size_eq]
  · exact ht.last.max_succ hu.inUse_iff

/-- **Refining.**  A leaf of a tree that is not full is refined into the lowest free group. -/
theorem refine_eq (ht : t.Valid) (hlive : t.Live node) (hleaf : t.links.firstChild node = none)
    (hsize : t.size < t.capacity) :
    ∃ u : Tree n, refine node t = .ok (some t.firstFree) u ∧ Attached node t.firstFree t u ∧
      u.size = t.size + 2 ^ n ∧ u.Valid := by
  obtain ⟨u, hattach, hu⟩ := attach_eq ht (ht.firstFree_lt hsize) hlive hleaf
  have hcontains := (contains_eq_true_iff ht.toSized node).2 hlive
  have hisLeaf := (isLeaf_eq_true_iff (hlive.lt_capacity ht.toSized)).2 hleaf
  refine ⟨u, ?_, hu⟩
  rw [refine, bind_of_ok (ask_of_ok hcontains), if_pos rfl, bind_of_ok (ask_of_ok hisLeaf),
    if_pos rfl, bind_get, if_neg hsize.ne, bind_of_ok hattach]
  rfl

/-- All that `refine` can do: it refuses free nodes and branches, and a full tree stays as it is. -/
theorem refine_cases (ht : t.Valid) (node : Nat) :
    ¬t.Live node ∧ refine node t = .error (.refineFree node) t ∨
    t.Live node ∧ t.links.firstChild node ≠ none ∧ refine node t = .error (.refineBranch node) t ∨
    t.Live node ∧ t.links.firstChild node = none ∧ t.size = t.capacity ∧
      refine node t = .ok none t ∨
    t.Live node ∧ t.links.firstChild node = none ∧ t.size < t.capacity ∧
      ∃ u : Tree n, refine node t = .ok (some t.firstFree) u ∧ Attached node t.firstFree t u ∧
        u.size = t.size + 2 ^ n ∧ u.Valid := by
  by_cases hlive : t.Live node
  · have hcontains := (contains_eq_true_iff ht.toSized node).2 hlive
    rcases eq_or_ne (t.links.firstChild node) none with hleaf | hbranch
    · have hisLeaf := (isLeaf_eq_true_iff (hlive.lt_capacity ht.toSized)).2 hleaf
      rcases Nat.eq_or_lt_of_le ht.size_le_capacity with hfull | hsize
      · exact Or.inr (Or.inr (Or.inl ⟨hlive, hleaf, hfull, refine_of_full hcontains hisLeaf hfull⟩))
      · exact Or.inr (Or.inr (Or.inr ⟨hlive, hleaf, hsize, refine_eq ht hlive hleaf hsize⟩))
    · have hisBranch := isLeaf_eq_false_iff.2 hbranch
      exact Or.inr (Or.inl ⟨hlive, hbranch, refine_of_branch hcontains hisBranch⟩)
  · have hcontains := (contains_eq_false_iff ht.toSized node).2 hlive
    exact Or.inl ⟨hlive, refine_of_free hcontains⟩

/-! ## Coarsening -/

/-- The check before coarsening is about the links of the children. -/
theorem hasLeavesOnly_eq (ht : t.Linked) (hlt : node < t.capacity) :
    t.hasLeavesOnly node =
      .ok ((t.below node).all fun c => (t.links.firstChild c).isNone) := by
  rw [hasLeavesOnly, children_eq ht hlt, ← toList_childSpan]
  apply allM_eq
  intro c hc
  rw [toList_childSpan] at hc
  exact isLeaf_of_lt (lt_capacity_of_mem_below ht hc)

/-- `detach` erases an edge and counts it. -/
theorem detach_eq (ht : t.Valid) (howner : t.links.owner group = some node)
    (hleaves : ∀ v, Group.ofNode n v = group → t.links.firstChild v = none) :
    ∃ u : Tree n, detach node group t = .ok () u ∧ Attached node group u t ∧
      u.size + 2 ^ n = t.size ∧ u.Valid := by
  have hlt : group < t.groupCapacity := Links.lt_groupCapacity_of_owner howner
  let l := edgeLinks t.links node group none none
  let u : Tree n := {
    links := l
    size := t.size - 2 ^ n
    firstFree := min t.firstFree group
    groupEnd := if t.groupEnd = group + 1 then usedEnd l t.groupEnd else t.groupEnd }
  have hu : Attached node group u t := attached_of_owner ht.toLinked howner hleaves rfl
  have hsized : u.Sized := ht.toSized.congr hu.groupCapacity_eq.symm hu.capacity_eq.symm
  have hsize : Group.nodeCount n u.usedGroups.card + 2 ^ n = t.size := by
    rw [ht.size_eq, hu.nodeCount_eq hsized]
  have hused : ∀ g, u.InUse g ↔ t.InUse g ∧ g ≠ group := by
    intro g
    rw [hu.inUse_iff g, or_and_right, and_not_self_iff, or_false, iff_self_and]
    exact fun hg heq => hu.not_inUse (heq ▸ hg)
  refine ⟨u, ?_, hu, Nat.sub_add_cancel (by omega), hu.valid_of_valid ht hleaves ⟨?_, ?_, ?_⟩⟩
  · let t₁ : Tree n := { t with size := t.size - 2 ^ n, firstFree := min t.firstFree group }
    let t₂ : Tree n := { t₁ with links := t.links.setOwner group none }
    let t₃ : Tree n := { t₂ with links := l }
    have hnode : node < t₂.capacity := (live_of_owner ht.toLinked howner).lt_capacity ht.toSized
    rw [detach, bind_of_ok (ask_of_ok (Bounded.sub_of_le (by omega))), bind_modify,
      bind_of_ok (setOwner_of_lt (t := t₁) hlt _),
      bind_of_ok (setFirstChild_of_lt (t := t₂) hnode _),
      bind_of_ok (ask_of_ok (ht.index_succ_eq hlt)), bind_get]
    -- Only the highest group in use moves the end when it becomes free.
    show (if t.groupEnd = group + 1 then lowerGroupEnd else pure ()) t₃ = .ok () u
    by_cases hend : t.groupEnd = group + 1
    · have hinside : t₃.groupEnd ≤ t₃.groupCapacity :=
        (ht.last.le_groupCapacity ht.toSized).trans_eq hu.groupCapacity_eq
      rw [if_pos hend, lowerGroupEnd_of_le hinside]
      simp only [u, if_pos hend]
      rfl
    · rw [if_neg hend]
      simp only [u, if_neg hend]
      rfl
  · exact Nat.sub_eq_of_eq_add hsize.symm
  · exact ht.lowest.min_freed hused
  · have hbelow : ∀ g, u.InUse g → g < t.groupEnd := fun g hg => ht.last.2 g ((hused g).1 hg).1
    have hpos := ht.last.pos
    by_cases hend : t.groupEnd = group + 1
    · simp only [u, if_pos hend]
      exact isEnd_usedEnd hbelow
    · simp only [u, if_neg hend]
      exact ⟨(hused _).2 ⟨ht.last.1, by omega⟩, hbelow⟩

/-- The children of a node are all leaves iff the members of the group it owns are. -/
theorem hasLeavesOnly_eq_of_owner (ht : t.Linked) (howner : t.links.owner group = some node) :
    ∃ b, t.hasLeavesOnly node = .ok b ∧
      (b = true ↔ ∀ v, Group.ofNode n v = group → t.links.firstChild v = none) := by
  have hnode := (live_of_owner ht howner).lt_capacity ht.toSized
  have hmember : ∀ v, v ∈ t.below node ↔ Group.ofNode n v = group := by
    intro v
    rw [mem_below_iff_owner ht]
    constructor
    · intro hv
      exact ht.paired.owner_injective hv howner
    · rintro rfl
      exact howner
  refine ⟨_, hasLeavesOnly_eq ht hnode, ?_⟩
  simp only [List.all_eq_true, Option.isNone_iff_eq_none, hmember]

/-- An owner of a group is no leaf. -/
theorem isLeaf_of_owner (ht : t.Linked) (howner : t.links.owner group = some node) :
    t.isLeaf node = .ok false := by
  rw [isLeaf_eq_false_iff, ((ht.paired.owner_iff group node).1 howner).2]
  exact Option.some_ne_none _

/-- **Coarsening.**  A node whose children are all leaves loses them, and their group is freed. -/
theorem coarsen_eq (ht : t.Valid) (howner : t.links.owner group = some node)
    (hleaves : ∀ v, Group.ofNode n v = group → t.links.firstChild v = none) :
    ∃ u : Tree n, coarsen node t = .ok () u ∧ Attached node group u t ∧
      u.size + 2 ^ n = t.size ∧ u.Valid := by
  obtain ⟨u, hdetach, hu⟩ := detach_eq ht howner hleaves
  have hcontains :=
    (contains_eq_true_iff ht.toSized node).2 (live_of_owner ht.toLinked howner)
  obtain ⟨b, hall, hb⟩ := hasLeavesOnly_eq_of_owner ht.toLinked howner
  obtain rfl : b = true := hb.2 hleaves
  refine ⟨u, ?_, hu⟩
  rw [coarsen, bind_of_ok (ask_of_ok hcontains), if_pos rfl,
    bind_of_ok (ask_of_ok (childrenGroup_of_owner ht.toLinked howner))]
  dsimp only
  rw [bind_of_ok (ask_of_ok hall), if_pos rfl, hdetach]

/-- A free node is not coarsened. -/
theorem coarsen_of_free (hnode : t.contains node = .ok false) :
    coarsen node t = .error (.coarsenFree node) t := by
  rw [coarsen, bind_of_ok (ask_of_ok hnode)]
  rfl

/-- A leaf is not coarsened. -/
theorem coarsen_of_leaf (hnode : t.contains node = .ok true)
    (hgroup : t.childrenGroup node = .ok none) :
    coarsen node t = .error (.coarsenLeaf node) t := by
  rw [coarsen, bind_of_ok (ask_of_ok hnode), if_pos rfl, bind_of_ok (ask_of_ok hgroup)]
  rfl

/-- A node with grandchildren is not coarsened. -/
theorem coarsen_of_deep (hnode : t.contains node = .ok true)
    (hgroup : t.childrenGroup node = .ok (some group)) (hdeep : t.hasLeavesOnly node = .ok false) :
    coarsen node t = .error (.coarsenDeep node) t := by
  rw [coarsen, bind_of_ok (ask_of_ok hnode), if_pos rfl, bind_of_ok (ask_of_ok hgroup)]
  dsimp only
  rw [bind_of_ok (ask_of_ok hdeep)]
  rfl

/-- All that `coarsen` can do: it refuses free nodes, leaves and nodes with grandchildren. -/
theorem coarsen_cases (ht : t.Valid) (node : Nat) :
    ¬t.Live node ∧ coarsen node t = .error (.coarsenFree node) t ∨
    t.Live node ∧ t.links.firstChild node = none ∧
      coarsen node t = .error (.coarsenLeaf node) t ∨
    ∃ group, t.links.owner group = some node ∧
      ((∃ v, Group.ofNode n v = group ∧ t.links.firstChild v ≠ none) ∧
          coarsen node t = .error (.coarsenDeep node) t ∨
        (∀ v, Group.ofNode n v = group → t.links.firstChild v = none) ∧
          ∃ u : Tree n, coarsen node t = .ok () u ∧ Attached node group u t ∧
            u.size + 2 ^ n = t.size ∧ u.Valid) := by
  by_cases hlive : t.Live node
  · have hcontains := (contains_eq_true_iff ht.toSized node).2 hlive
    cases hfirst : t.links.firstChild node with
    | none =>
        have hgroup := childrenGroup_of_lt (hlive.lt_capacity ht.toSized)
        rw [hfirst] at hgroup
        exact Or.inr (Or.inl ⟨hlive, rfl, coarsen_of_leaf hcontains hgroup⟩)
    | some first =>
        obtain ⟨group, -, -, howner⟩ := ht.paired.exists_owner hfirst
        have hgroup := childrenGroup_of_owner ht.toLinked howner
        obtain ⟨b, hall, hb⟩ := hasLeavesOnly_eq_of_owner ht.toLinked howner
        refine Or.inr (Or.inr ⟨group, howner, ?_⟩)
        cases b with
        | true =>
            have hleaves := hb.1 rfl
            exact Or.inr ⟨hleaves, coarsen_eq ht howner hleaves⟩
        | false =>
            refine Or.inl ⟨?_, coarsen_of_deep hcontains hgroup hall⟩
            by_contra hnone
            have hleaves : ∀ v, Group.ofNode n v = group → t.links.firstChild v = none := by
              intro v hv
              by_contra hne
              exact hnone ⟨v, hv, hne⟩
            cases hb.2 hleaves
  · have hcontains := (contains_eq_false_iff ht.toSized node).2 hlive
    exact Or.inl ⟨hlive, coarsen_of_free hcontains⟩

end Orthtree.Tree
