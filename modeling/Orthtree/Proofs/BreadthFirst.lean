import Mathlib.Algebra.Ring.GeomSum
import Orthtree.Proofs.Balancing
import Orthtree.Proofs.Growing
import Orthtree.Tree.Uniform

/-!
# Uniform trees

A refinement takes the lowest free group.  So if the nodes are refined in ascending order, from the root on, node `x`
gets group `x + 1`, and this says everything about the tree: after `refined` refinements the branches are the nodes
below `refined` (`BreadthFirst`).  The nodes of one level are then a run of numbers that begins at the number of nodes
above that level, `Group.above`, which is a geometric sum; both the growth of the tree and the paths of its nodes are
followed level by level.
-/

namespace Orthtree

variable {n level levels room refined : Nat}

/-! ## Nodes above a level -/

namespace Group

/-- The number of nodes above `level` in a tree that has all nodes down to there. -/
def above (n level : Nat) : Nat := ∑ l ∈ Finset.range level, (2 ^ n) ^ l

/-- The last level that is counted holds `(2 ^ n) ^ level` nodes. -/
theorem above_succ (n level : Nat) : above n (level + 1) = above n level + (2 ^ n) ^ level :=
  Finset.sum_range_succ _ _

/-- All nodes but the root are children of the nodes one level further up. -/
theorem above_succ' (n level : Nat) : above n (level + 1) = 2 ^ n * above n level + 1 :=
  geom_sum_succ

/-- Every level has nodes. -/
theorem above_strictMono (n : Nat) : StrictMono (above n) := by
  apply strictMono_nat_of_lt_succ
  intro level
  rw [above_succ]
  exact Nat.lt_add_of_pos_right (Nat.pow_pos (Nat.two_pow_pos n))

theorem above_eq (hn : n ≠ 0) : above n level = (2 ^ (n * level) - 1) / (2 ^ n - 1) := by
  rw [Nat.pow_mul]
  exact Nat.geomSum_eq (Nat.le_self_pow hn 2) level

/-- The nodes above a level fill whole groups, the children of all nodes above the level before. -/
theorem nodeCount_above_succ (n level : Nat) :
    nodeCount n (above n level + 1) = above n (level + 1) := by
  rw [nodeCount, if_neg (Nat.succ_ne_zero _), Nat.add_sub_cancel, above_succ', Nat.mul_comm]

/-- The nodes of a level begin with the children of the first node of the level before. -/
theorem start_above_succ (n level : Nat) : start n (above n level + 1) = above n (level + 1) := by
  rw [start_eq_nodeCount (Nat.succ_ne_zero _), nodeCount_above_succ]

/-- Few enough nodes lie on few levels. -/
theorem mul_lt_of_above_lt (h : above n (level + 1) < Tree.nodeLimit) : n * level < 32 := by
  have hlast : 2 ^ (n * level) ≤ above n (level + 1) := by
    rw [above_succ, Nat.pow_mul]
    exact Nat.le_add_left _ _
  have hlimit : Tree.nodeLimit < 2 ^ (32 : Nat) := by decide
  exact (Nat.pow_lt_pow_iff_right Nat.one_lt_two).1 ((hlast.trans_lt h).trans hlimit)

/-- Counting the nodes of one level after the other counts those above a level. -/
theorem foldlM_nodesAtLevel_eq (h : above n levels < Tree.nodeLimit) :
    (List.range levels).foldlM
      (fun total l => do Bounded.count (total + (← nodesAtLevel n l))) 0 = .ok (above n levels) := by
  induction levels with
  | zero => rfl
  | succ level ih =>
      have hbits : n * level < 64 := (mul_lt_of_above_lt h).trans (by decide)
      have hcount : Bounded.count (n * level) = .ok (n * level) :=
        Bounded.below_of_lt (hbits.trans (by decide))
      have hlevel : nodesAtLevel n level = .ok ((2 ^ n) ^ level) := by
        rw [nodesAtLevel, hcount, ← Nat.pow_mul]
        exact Bounded.bit_of_lt hbits
      rw [List.range_succ, List.foldlM_append,
        ih ((above_strictMono n level.lt_succ_self).trans h)]
      have hsum : Bounded.count (above n level + (2 ^ n) ^ level) = .ok (above n (level + 1)) := by
        rw [← above_succ]
        exact Bounded.below_of_lt (Tree.lt_countLimit h)
      simp only [List.foldlM_cons, List.foldlM_nil, hlevel, bind, Except.bind, hsum]
      rfl

/-- If the loop over the levels stays in range, it has added up all of them. -/
theorem eq_of_foldlM_nodesAtLevel
    (h : (List.range levels).foldlM
      (fun total l => do Bounded.count (total + (← nodesAtLevel n l))) 0 = .ok room) :
    room = above n levels := by
  induction levels generalizing room with
  | zero => exact (Except.ok.inj h).symm
  | succ level ih =>
      rw [List.range_succ, List.foldlM_append] at h
      obtain ⟨total, htotal, h⟩ := exists_of_bind_ok h
      rw [List.foldlM_cons] at h
      obtain ⟨sum, hsum, h⟩ := exists_of_bind_ok h
      obtain ⟨nodes, hnodes, hsum⟩ := exists_of_bind_ok hsum
      obtain ⟨bits, hbits, hnodes⟩ := exists_of_bind_ok hnodes
      obtain rfl := Except.ok.inj h
      rw [Bounded.eq_of_below hsum, ih htotal, Bounded.eq_of_bit hnodes, Bounded.eq_of_below hbits,
        above_succ, Nat.pow_mul]

/-- Numbers of nodes that have an index are counted exactly. -/
theorem nodesThroughLevel_eq_ok_iff (hn : Corner.supported n = true) (hroom : room < Tree.nodeLimit) :
    nodesThroughLevel n level = .ok room ↔ room = above n (level + 1) := by
  constructor
  · intro h
    obtain ⟨total, htotal, h⟩ := exists_of_bind_ok h
    obtain ⟨_, -, h⟩ := exists_of_bind_ok h
    obtain rfl := Except.ok.inj h
    exact eq_of_foldlM_nodesAtLevel htotal
  · rintro rfl
    have hlevels : level ≤ n * level :=
      Nat.le_mul_of_pos_left level (Corner.supported_iff.1 hn).1
    have hbits := mul_lt_of_above_lt hroom
    have hlevel : Bounded.level (level + 1) = .ok (level + 1) := by
      apply Bounded.below_of_lt
      unfold Bounded.byteLimit
      omega
    rw [nodesThroughLevel, foldlM_nodesAtLevel_eq hroom]
    simp only [bind, Except.bind, hlevel]
    rfl

end Group

namespace Tree

variable {t u : Tree n} {node count : Nat} {path : List Nat}

/-! ## Refining in ascending order -/

/-- The nodes below `refined` have been refined in ascending order, and no others. -/
structure BreadthFirst (t : Tree n) (refined : Nat) : Prop extends Valid t where
  firstChild_eq (node : Nat) : t.links.firstChild node =
    if node < refined then some (Group.start n (node + 1)) else none

namespace BreadthFirst

/-- The leaves are the nodes that have not been refined yet, and the numbers past them. -/
theorem firstChild_eq_none_iff (h : t.BreadthFirst refined) :
    t.links.firstChild node = none ↔ refined ≤ node := by
  rw [h.firstChild_eq, ite_eq_right_iff]
  simp

/-- Every node below `refined` owns the group after its own number. -/
theorem owner_iff (h : t.BreadthFirst refined) {group : Nat} :
    t.links.owner group = some node ↔ group = node + 1 ∧ node < refined := by
  rw [h.paired.owner_iff, h.firstChild_eq]
  split
  · next hlt =>
    rw [Option.some_inj, (Group.start_injective n).eq_iff]
    omega
  · next hge => simp [hge]

/-- The groups in use are the root's and those of the refined nodes, without gaps. -/
theorem inUse_iff (h : t.BreadthFirst refined) (group : Nat) :
    t.InUse group ↔ group < refined + 1 := by
  rcases Nat.eq_zero_or_pos group with rfl | hpos
  · simp [InUse]
  · rw [inUse_iff_exists_owner hpos.ne']
    simp only [h.owner_iff]
    constructor
    · rintro ⟨node, rfl, hlt⟩
      omega
    · intro hlt
      exact ⟨group - 1, by omega, by omega⟩

theorem live_iff (h : t.BreadthFirst refined) (node : Nat) :
    t.Live node ↔ node < Group.nodeCount n (refined + 1) := by
  rw [Live, h.inUse_iff, Group.ofNode_lt_iff]

theorem size_eq_nodeCount (h : t.BreadthFirst refined) :
    t.size = Group.nodeCount n (refined + 1) := by
  rw [h.size_eq, card_usedGroups_of_lowest h.inUse_iff h.toSized]

theorem firstFree_eq (h : t.BreadthFirst refined) : t.firstFree = refined + 1 :=
  h.lowest.unique (isLowestFree_of_lowest h.inUse_iff) fun _ => Iff.rfl

/-- A tree with nothing but the root is where refining begins. -/
theorem of_ofCapacity (h : ofCapacity n room = .ok t) : t.BreadthFirst 0 where
  toValid := valid_of_ofCapacity h
  firstChild_eq node := by
    obtain ⟨rfl, -⟩ := eq_rootOnly_of_ofCapacity h
    simp [rootOnly]

/-- The next node is a leaf and can be refined while there is another group. -/
theorem exists_refine (h : t.BreadthFirst refined) (hroom : refined + 1 < t.groupCapacity) :
    ∃ u : Tree n, refine refined t = .ok (some (refined + 1)) u ∧ u.BreadthFirst (refined + 1) ∧
      u.groupCapacity = t.groupCapacity := by
  have hlive : t.Live refined := (h.live_iff refined).2 (Group.le_nodeCount n (refined + 1))
  have hleaf : t.links.firstChild refined = none := h.firstChild_eq_none_iff.2 (Nat.le_refl refined)
  have hsize : t.size < t.capacity := by
    rw [h.size_eq_nodeCount, h.capacity_eq, ← Nat.not_le, Group.nodeCount_le_iff]
    exact Nat.not_le.2 hroom
  obtain ⟨u, hrefine, hattached, -, hu⟩ := refine_eq h.toValid hlive hleaf hsize
  rw [h.firstFree_eq] at hrefine hattached
  refine ⟨u, hrefine, ⟨hu, ?_⟩, hattached.groupCapacity_eq⟩
  intro node
  rw [hattached.firstChild_eq, h.firstChild_eq]
  by_cases hnode : node = refined
  · rw [if_pos hnode, if_pos (by omega), hnode]
  · rw [if_neg hnode]
    exact if_congr (by omega) rfl rfl

/-- Growing the next node gives it the nodes after all others as children. -/
theorem exists_grow (h : t.BreadthFirst refined) (hroom : refined + 1 < t.groupCapacity) :
    ∃ u : Tree n, grow refined t = .ok (List.range' (Group.start n (refined + 1)) (2 ^ n)) u ∧
      u.BreadthFirst (refined + 1) ∧ u.groupCapacity = t.groupCapacity := by
  obtain ⟨u, hrefine, hu, hcapacity⟩ := h.exists_refine hroom
  have hfirst : u.links.firstChild refined = some (Group.start n (refined + 1)) := by
    rw [hu.firstChild_eq, if_pos (Nat.lt_succ_self refined)]
  have hlt : refined < u.capacity :=
    (hu.live_of_firstChild hfirst).lt_capacity hu.toSized
  refine ⟨u, ?_, hu, hcapacity⟩
  rw [grow, bind_of_ok hrefine, ← below_of_branch hfirst, ← toList_childSpan]
  exact bind_of_ok (ask_of_ok (children_eq hu.toLinked hlt))

/-- Growing a run of nodes gives them a run of children. -/
theorem exists_mapM_grow (h : t.BreadthFirst refined) (hroom : refined + count < t.groupCapacity) :
    ∃ (children : List (List Nat)) (u : Tree n),
      (List.range' refined count).mapM grow t = .ok children u ∧
      children.flatten = List.range' (Group.start n (refined + 1)) (2 ^ n * count) ∧
      u.BreadthFirst (refined + count) ∧ u.groupCapacity = t.groupCapacity := by
  -- The first node of the run is the next in ascending order, and the groups of a run follow each other.
  induction count generalizing refined t with
  | zero => exact ⟨[], t, rfl, rfl, h, rfl⟩
  | succ count ih =>
      obtain ⟨u, hgrow, hu, hcapacity⟩ := h.exists_grow (by omega)
      obtain ⟨children, v, hrun, hflat, hv, hcapacity'⟩ := ih hu (by omega)
      have hnext : Group.start n (refined + 1 + 1) = Group.start n (refined + 1) + 2 ^ n := by
        rw [Group.start_eq_nodeCount (Nat.succ_ne_zero _), Group.nodeCount_succ (Nat.succ_ne_zero _),
          Group.start_eq_nodeCount (Nat.succ_ne_zero _)]
      refine ⟨List.range' (Group.start n (refined + 1)) (2 ^ n) :: children, v, ?_, ?_, ?_,
        hcapacity'.trans hcapacity⟩
      · rw [List.range'_succ, List.mapM_cons, bind_of_ok hgrow, bind_of_ok hrun]
        rfl
      · rw [List.flatten_cons, hflat, hnext, List.range'_append_1, Nat.mul_succ,
          Nat.add_comm (2 ^ n)]
      · rwa [Nat.add_assoc, Nat.add_comm 1] at hv

/-- Growing the nodes of a level, their children, and so on completes one level after the other. -/
theorem exists_growLevels (h : t.BreadthFirst (Group.above n level))
    (hroom : Group.above n (level + levels) < t.groupCapacity) :
    ∃ u : Tree n, growLevels levels (List.range' (Group.above n level) ((2 ^ n) ^ level)) t = .ok () u ∧
      u.BreadthFirst (Group.above n (level + levels)) ∧ u.groupCapacity = t.groupCapacity := by
  -- The children of a whole level are the whole next level, so the frontier is a level again.
  induction levels generalizing level t with
  | zero => exact ⟨t, rfl, h, rfl⟩
  | succ levels ih =>
      rw [← Nat.add_assoc, Nat.add_right_comm] at hroom ⊢
      have hlevel : Group.above n level + (2 ^ n) ^ level < t.groupCapacity := by
        rw [← Group.above_succ]
        exact ((Group.above_strictMono n).monotone (Nat.le_add_right _ levels)).trans_lt hroom
      obtain ⟨children, u, hrun, hflat, hu, hcapacity⟩ := h.exists_mapM_grow hlevel
      rw [← Group.above_succ] at hu
      rw [Group.start_above_succ, ← Nat.pow_succ'] at hflat
      obtain ⟨v, hgrow, hv, hcapacity'⟩ := ih hu (hroom.trans_eq hcapacity.symm)
      refine ⟨v, ?_, hv, hcapacity'.trans hcapacity⟩
      rw [growLevels, bind_of_ok hrun, hflat]
      exact hgrow

/-! ## Paths -/

/-- The nodes at the ends of the paths of one length are those of one level. -/
theorem mem_level_of_follow (h : t.BreadthFirst refined) (hpath : t.follow path = some node) :
    Group.above n path.length ≤ node ∧ node < Group.above n (path.length + 1) := by
  induction path using List.reverseRecOn generalizing node with
  | nil =>
      obtain rfl := Option.some_injective _ hpath
      exact ⟨Nat.le_refl 0, Group.above_strictMono n Nat.one_pos⟩
  | append_singleton path position ih =>
      obtain ⟨parent, hparent, hchild⟩ := follow_concat_eq_some_iff.1 hpath
      obtain ⟨first, hfirst, hposition, rfl⟩ := childAt?_eq_some_iff.1 hchild
      rw [h.firstChild_eq, Option.ite_none_right_eq_some, Option.some_inj] at hfirst
      obtain ⟨-, rfl⟩ := hfirst
      obtain ⟨hge, hlt⟩ := ih hparent
      have hlow := Nat.mul_le_mul_left (2 ^ n) hge
      have hhigh := Nat.mul_le_mul_left (2 ^ n) (Nat.succ_le_of_lt hlt)
      rw [Nat.mul_succ] at hhigh
      rw [List.length_append, List.length_singleton, Group.above_succ', Group.above_succ' n (_ + 1),
        Group.start, if_neg (Nat.succ_ne_zero parent), Nat.add_sub_cancel]
      omega

/-- In a tree with all nodes down to a level, all paths down to there lead to a node. -/
theorem exists_follow (h : t.BreadthFirst (Group.above n level)) (hpath : ∀ c ∈ path, c < 2 ^ n)
    (hlength : path.length ≤ level) : ∃ node, t.follow path = some node := by
  induction path using List.reverseRecOn with
  | nil => exact ⟨0, t.follow_nil⟩
  | append_singleton path position ih =>
      rw [List.length_append, List.length_singleton] at hlength
      obtain ⟨parent, hparent⟩ :=
        ih (fun c hc => hpath c (List.mem_append_left _ hc)) (Nat.le_of_succ_le hlength)
      have hlt : parent < Group.above n level :=
        (h.mem_level_of_follow hparent).2.trans_le ((Group.above_strictMono n).monotone hlength)
      have hbranch : t.links.firstChild parent = some (Group.start n (parent + 1)) := by
        rw [h.firstChild_eq, if_pos hlt]
      have hposition : position < 2 ^ n := hpath position (by simp)
      exact ⟨_, follow_concat_eq_some_iff.2
        ⟨parent, hparent, childAt?_eq_some_iff.2 ⟨_, hbranch, hposition, rfl⟩⟩⟩

/-- If just the nodes above `level` have been refined, no path goes below it. -/
theorem length_le_of_follow (h : t.BreadthFirst (Group.above n level))
    (hpath : t.follow path = some node) : path.length ≤ level := by
  have hlive := (h.live_iff node).1 (live_of_follow h.toLinked hpath)
  rw [Group.nodeCount_above_succ] at hlive
  have hlt := (h.mem_level_of_follow hpath).1.trans_lt hlive
  exact Nat.le_of_lt_succ ((Group.above_strictMono n).lt_iff_lt.1 hlt)

/-- The leaves of such a tree are the nodes of its last level. -/
theorem leaf_iff_of_follow (h : t.BreadthFirst (Group.above n level))
    (hpath : t.follow path = some node) :
    t.links.firstChild node = none ↔ path.length = level := by
  obtain ⟨hge, hlt⟩ := h.mem_level_of_follow hpath
  rw [h.firstChild_eq_none_iff]
  constructor
  · intro hnode
    have hle := (Group.above_strictMono n).lt_iff_lt.1 (hnode.trans_lt hlt)
    exact Nat.le_antisymm (h.length_le_of_follow hpath) (Nat.le_of_lt_succ hle)
  · rintro rfl
    exact hge

/-- The paths to the leaves are all paths of one length. -/
theorem mem_leafPaths_iff (h : t.BreadthFirst (Group.above n level)) :
    path ∈ t.leafPaths ↔ path.length = level ∧ ∀ c ∈ path, c < 2 ^ n := by
  constructor
  · rintro ⟨node, hpath, hleaf⟩
    exact ⟨(h.leaf_iff_of_follow hpath).1 hleaf, lt_of_mem_of_follow hpath⟩
  · rintro ⟨hlength, hpositions⟩
    obtain ⟨node, hpath⟩ := h.exists_follow hpositions hlength.le
    exact ⟨node, hpath, (h.leaf_iff_of_follow hpath).2 hlength⟩

/-! ## Leaves and balance -/

/-- The nodes of the last level are the live nodes without children. -/
theorem mem_lastLevel_iff (h : t.BreadthFirst (Group.above n level)) :
    node ∈ List.range' (Group.above n level) ((2 ^ n) ^ level) ↔
      t.Live node ∧ t.links.firstChild node = none := by
  rw [List.mem_range'_1, ← Group.above_succ, ← Group.nodeCount_above_succ, ← h.live_iff,
    ← h.firstChild_eq_none_iff, and_comm]

/-- The leaves are listed as one run. -/
theorem leaves_eq (h : t.BreadthFirst (Group.above n level)) :
    t.leaves = .ok (List.range' (Group.above n level) ((2 ^ n) ^ level)) := by
  obtain ⟨nodes, hnodes, hsorted, hmem⟩ := exists_nodes h.toValid
  have hleaves : nodes.filter (fun x => (t.links.firstChild x).isNone) =
      List.range' (Group.above n level) ((2 ^ n) ^ level) := by
    apply (hsorted.filter _).eq_of_mem_iff List.pairwise_lt_range'
    intro x
    rw [List.mem_filter, hmem, Option.isNone_iff_eq_none, h.mem_lastLevel_iff]
  rw [leaves, hnodes, ← hleaves]
  exact filterM_eq fun x hx =>
    isLeaf_of_lt (((hmem x).1 hx).lt_capacity h.toSized)

/-- The leaves lie at the ends of all paths of one length. -/
theorem exists_leaves (h : t.BreadthFirst (Group.above n level)) :
    ∃ leaves paths, t.leaves = .ok leaves ∧ leaves.Nodup ∧ leaves.length = 2 ^ (n * level) ∧
      leaves.mapM t.pathTo = .ok paths ∧
      ∀ path, path ∈ paths ↔ path.length = level ∧ ∀ c ∈ path, c < 2 ^ n := by
  have hanswers : ∀ x ∈ List.range' (Group.above n level) ((2 ^ n) ^ level),
      ∃ path, t.pathTo x = .ok path := by
    intro x hx
    obtain ⟨path, hpath⟩ := h.rooted (h.mem_lastLevel_iff.1 hx).1
    exact ⟨path, pathTo_eq h.toLinked hpath⟩
  obtain ⟨paths, hpaths, hmem⟩ := exists_mapM hanswers
  refine ⟨_, paths, h.leaves_eq, List.nodup_range', ?_, hpaths, ?_⟩
  · rw [List.length_range', Nat.pow_mul]
  · intro path
    rw [hmem, ← h.mem_leafPaths_iff]
    apply exists_congr
    intro x
    rw [pathTo_eq_ok_iff h.toValid, h.mem_lastLevel_iff, and_comm]
    apply and_congr_right
    intro hpath
    exact and_iff_right (live_of_follow h.toLinked hpath)

/-- All leaves lie on one level, so none is much finer than another. -/
theorem isBalanced_eq (h : t.BreadthFirst (Group.above n level))
    (hlevel : level ≤ maxLevel n) : t.isBalanced = .ok true := by
  have hlevels : t.Locatable := by
    intro node _ hnode
    obtain ⟨path, hpath⟩ := h.toValid.exists_follow hnode
    have hlength := (h.length_le_of_follow hpath).trans hlevel
    exact ⟨path.length, hlength, level_of_le h.toLinked hpath hlength⟩
  obtain ⟨b, hb, hiff⟩ := exists_isBalanced h.toValid hlevels
  rw [hb, hiff.2]
  intro p hp q hq _
  rw [(h.mem_leafPaths_iff.1 hp).1, (h.mem_leafPaths_iff.1 hq).1]
  exact Nat.le_succ level

end BreadthFirst

/-! ## Uniform trees -/

/-- Room for all nodes down to some level is enough to grow all nodes down to there. -/
theorem exists_uniformWithin (hn : Corner.supported n = true) {capacityLevel : Nat}
    (hle : level ≤ capacityLevel) (hroom : Group.above n (capacityLevel + 1) < nodeLimit) :
    ∃ t : Tree n, uniformWithin n level capacityLevel = .ok t ∧
      t.BreadthFirst (Group.above n level) ∧ t.capacity = Group.above n (capacityLevel + 1) := by
  have hgroups : Group.covering n (Group.above n (capacityLevel + 1)) =
      Group.above n capacityLevel + 1 := by
    rw [← Group.nodeCount_above_succ, Group.covering_nodeCount]
  have hcount : Group.nodesThroughLevel n capacityLevel =
      .ok (Group.above n (capacityLevel + 1)) :=
    (Group.nodesThroughLevel_eq_ok_iff hn hroom).2 rfl
  have hne : Group.above n (capacityLevel + 1) ≠ 0 := by
    rw [Group.above_succ']
    exact Nat.succ_ne_zero _
  have hmake := ofCapacity_eq hn hne (by rwa [hgroups, Group.nodeCount_above_succ])
  rw [hgroups] at hmake
  have hcapacity : (rootOnly n (Group.above n capacityLevel + 1)).groupCapacity =
      Group.above n capacityLevel + 1 := by
    simp [groupCapacity, rootOnly]
  -- The levels above the root are none, so nothing has been refined yet.
  have hstart : (rootOnly n (Group.above n capacityLevel + 1)).BreadthFirst (Group.above n 0) :=
    .of_ofCapacity hmake
  have hfits : Group.above n (0 + level) <
      (rootOnly n (Group.above n capacityLevel + 1)).groupCapacity := by
    rw [Nat.zero_add, hcapacity, Nat.lt_succ_iff]
    exact (Group.above_strictMono n).monotone hle
  obtain ⟨t, hgrow, ht, hkept⟩ := hstart.exists_growLevels hfits
  rw [Nat.zero_add] at ht
  refine ⟨t, ?_, ht, ?_⟩
  · rw [uniformWithin, if_pos hle, hcount]
    simp only [bind, Except.bind, hmake, perform]
    rw [show [0] = List.range' (Group.above n 0) ((2 ^ n) ^ 0) from rfl, hgrow]
    rfl
  · rw [ht.capacity_eq, hkept, hcapacity, Group.nodeCount_above_succ]

/-- **Uniform trees.**  Growing a tree level by level needs exactly the room that is made for it, and its leaves lie at
the ends of all paths of one length. -/
theorem uniformWithin_exact (hn : Corner.supported n = true) {capacityLevel : Nat}
    (hle : level ≤ capacityLevel) :
    (∀ room < nodeLimit, Group.nodesThroughLevel n capacityLevel = .ok room ↔
      room = (2 ^ (n * (capacityLevel + 1)) - 1) / (2 ^ n - 1)) ∧
    ∀ room < nodeLimit, Group.nodesThroughLevel n capacityLevel = .ok room →
      ∃ t leaves paths, uniformWithin n level capacityLevel = .ok t ∧ t.capacity = room ∧
        t.isCompact = true ∧ Group.nodesThroughLevel n level = .ok t.size ∧
        t.size = (2 ^ (n * (level + 1)) - 1) / (2 ^ n - 1) ∧
        t.leaves = .ok leaves ∧ leaves.Nodup ∧ leaves.length = 2 ^ (n * level) ∧
        leaves.mapM t.pathTo = .ok paths ∧
        (∀ path, path ∈ paths ↔ path.length = level ∧ ∀ c ∈ path, c < 2 ^ n) ∧
        (level ≤ maxLevel n → t.isBalanced = .ok true) := by
  have hpos : n ≠ 0 := Nat.ne_of_gt (Corner.supported_iff.1 hn).1
  constructor
  · intro room hroom
    rw [Group.nodesThroughLevel_eq_ok_iff hn hroom, Group.above_eq hpos]
  · intro room hroom hcount
    obtain rfl := (Group.nodesThroughLevel_eq_ok_iff hn hroom).1 hcount
    obtain ⟨t, hmake, ht, hcapacity⟩ := exists_uniformWithin hn hle hroom
    obtain ⟨leaves, paths, hleaves, hnodup, hlength, hpaths, hmem⟩ := ht.exists_leaves
    have hsize : t.size = Group.above n (level + 1) := by
      rw [ht.size_eq_nodeCount, Group.nodeCount_above_succ]
    refine ⟨t, leaves, paths, hmake, hcapacity, ht.isCompact_of_lowest ht.inUse_iff, ?_, ?_, hleaves,
      hnodup, hlength, hpaths, hmem, ht.isBalanced_eq⟩
    · have hle' := (Group.above_strictMono n).monotone (Nat.succ_le_succ hle)
      rw [hsize, Group.nodesThroughLevel_eq_ok_iff hn (hle'.trans_lt hroom)]
    · rw [hsize, Group.above_eq hpos]

/-- Squares grown down to level 1, with room for level 3. -/
theorem uniformWithin_exact_square :
    ∃ t leaves paths, uniformWithin 2 1 3 = .ok t ∧ t.capacity = 85 ∧ t.size = 5 ∧
      t.isCompact = true ∧ t.leaves = .ok leaves ∧ leaves.length = 4 ∧
      leaves.mapM t.pathTo = .ok paths ∧
      (∀ path, path ∈ paths ↔ path.length = 1 ∧ ∀ c ∈ path, c < 4) ∧ t.isBalanced = .ok true := by
  have hcount : Group.nodesThroughLevel 2 3 = .ok 85 := by decide
  obtain ⟨-, hgrow⟩ := uniformWithin_exact (n := 2) rfl (show 1 ≤ 3 by decide)
  obtain ⟨t, leaves, paths, hmake, hcapacity, hcompact, -, hsize, hleaves, -, hlength, hpaths, hmem,
    hbalanced⟩ := hgrow 85 (by decide) hcount
  exact ⟨t, leaves, paths, hmake, hcapacity, hsize, hcompact, hleaves, hlength, hpaths, hmem,
    hbalanced (by decide)⟩

end Tree

end Orthtree
