import Mathlib.Order.Bounds.Defs
import Orthtree.Proofs.Histories

/-!
# Rounding up to whole groups

Room is counted in nodes and in groups, and the root's group is smaller than all others.  A number of groups covers a
count of nodes iff it holds that many (`covering?_le_iff`), and everything else about the two counts follows from this:
rounding up takes the least number of groups, leaves whole groups alone and keeps the order (`rounds`).

The room of a tree is rounded in this way once, when the tree is made.  From then on its groups tile the indices of its
nodes (`Tiled`), so that no index computed from a group or a node of the tree leaves its range.
-/

namespace Orthtree

variable {n groups nodes count : Nat}

/-! ## Counts inside 64 bits -/

namespace Group

theorem covering_le (n count : Nat) : covering n count ≤ count :=
  covering_le_iff.2 (le_nodeCount n count)

/-- Rounding up a 64-bit count fails only if the children of one node are too many for 64 bits. -/
theorem exists_covering?_iff (h : count < Bounded.countLimit) :
    (∃ groups, covering? n count = .ok groups) ↔ count ≤ 1 ∨ n < 64 := by
  have hlt : covering n count < Bounded.countLimit := (covering_le n count).trans_lt h
  simp only [covering?_eq_ok_iff, exists_and_left, exists_eq, and_true, hlt]

/-- The nodes of whole groups are counted unless they are too many for 64 bits. -/
theorem exists_nodeCount?_iff : (∃ nodes, nodeCount? n groups = .ok nodes) ↔
    groups = 0 ∨ n < 64 ∧ (groups - 1) * 2 ^ n + 1 < Bounded.countLimit := by
  simp only [nodeCount?_eq_ok_iff, exists_and_left, exists_eq, and_true]
  by_cases hzero : groups = 0
  · simp [hzero]
  · rw [nodeCount, if_neg hzero]

/-- The groups to which a count is rounded up are no more than `g` iff `g` groups hold that many nodes. -/
theorem covering?_le_iff (hgroups : covering? n count = .ok groups) {g held : Nat}
    (hheld : nodeCount? n g = .ok held) : groups ≤ g ↔ count ≤ held := by
  rw [eq_of_covering? hgroups, eq_of_nodeCount? hheld, covering_le_iff]

/-- Rounding up finds the least number of groups that hold the nodes. -/
theorem isLeast_covering? (hgroups : covering? n count = .ok groups)
    (hnodes : nodeCount? n groups = .ok nodes) :
    IsLeast {g | ∃ held, nodeCount? n g = .ok held ∧ count ≤ held} groups := by
  constructor
  · exact ⟨nodes, hnodes, (covering?_le_iff hgroups hnodes).1 (Nat.le_refl groups)⟩
  · rintro g ⟨held, hheld, hle⟩
    exact (covering?_le_iff hgroups hheld).2 hle

/-- Whole groups are not rounded. -/
theorem covering?_nodeCount? (hnodes : nodeCount? n groups = .ok nodes) :
    covering? n nodes = .ok groups := by
  obtain ⟨hfits, rfl⟩ := nodeCount?_eq_ok_iff.1 hnodes
  rw [covering?_eq_ok_iff, covering_nodeCount]
  refine ⟨?_, rfl⟩
  rcases hfits with rfl | ⟨hbits, hlt⟩
  · exact Or.inl (Nat.zero_le 1)
  · exact Or.inr ⟨hbits, (le_nodeCount n groups).trans_lt hlt⟩

/-- Fewer nodes need no more groups, and their number is found whenever that of more nodes is. -/
theorem covering?_mono {a b : Nat} (hle : a ≤ b) (hb : covering? n b = .ok groups) :
    ∃ fewer, covering? n a = .ok fewer ∧ fewer ≤ groups := by
  obtain ⟨hfits, rfl⟩ := covering?_eq_ok_iff.1 hb
  have hmono : covering n a ≤ covering n b := covering_le_covering hle
  refine ⟨_, covering?_eq_ok_iff.2 ⟨?_, rfl⟩, hmono⟩
  rcases hfits with hone | ⟨hbits, hlt⟩
  · exact Or.inl (hle.trans hone)
  · exact Or.inr ⟨hbits, hmono.trans_lt hlt⟩

/-- Fewer groups hold no more nodes, and their number is found whenever that of more groups is. -/
theorem nodeCount?_mono {a b : Nat} (hle : a ≤ b) (hb : nodeCount? n b = .ok nodes) :
    ∃ fewer, nodeCount? n a = .ok fewer ∧ fewer ≤ nodes := by
  obtain ⟨hfits, rfl⟩ := nodeCount?_eq_ok_iff.1 hb
  have hmono : nodeCount n a ≤ nodeCount n b := nodeCount_le_iff.2 hle
  refine ⟨_, nodeCount?_eq_ok_iff.2 ⟨?_, rfl⟩, hmono⟩
  rcases hfits with rfl | ⟨hbits, hlt⟩
  · exact Or.inl (Nat.eq_zero_of_le_zero hle)
  · exact Or.inr ⟨hbits, hmono.trans_lt hlt⟩

/-- Counting in whole groups, with `n` axes and as far as 64 bits reach, is a tight rounding. -/
structure Rounds (n : Nat) : Prop where
  /-- Where a count of nodes can be rounded up. -/
  covering_fits {count : Nat} : count < Bounded.countLimit →
    ((∃ groups, covering? n count = .ok groups) ↔ count ≤ 1 ∨ n < 64)
  /-- Where the nodes of whole groups can be counted. -/
  nodeCount_fits {groups : Nat} : (∃ nodes, nodeCount? n groups = .ok nodes) ↔
    groups = 0 ∨ n < 64 ∧ (groups - 1) * 2 ^ n + 1 < Bounded.countLimit
  /-- A count is rounded up to the least number of groups that hold it. -/
  least {count groups nodes : Nat} : covering? n count = .ok groups →
    nodeCount? n groups = .ok nodes →
      IsLeast {g | ∃ held, nodeCount? n g = .ok held ∧ count ≤ held} groups
  /-- Whole groups are left alone. -/
  whole {groups nodes : Nat} : nodeCount? n groups = .ok nodes → covering? n nodes = .ok groups
  /-- Fewer nodes need no more groups. -/
  covering_mono {a b groups : Nat} : a ≤ b → covering? n b = .ok groups →
    ∃ fewer, covering? n a = .ok fewer ∧ fewer ≤ groups
  /-- Fewer groups hold no more nodes. -/
  nodeCount_mono {a b nodes : Nat} : a ≤ b → nodeCount? n b = .ok nodes →
    ∃ fewer, nodeCount? n a = .ok fewer ∧ fewer ≤ nodes

/-- The laws of rounding hold along any number of axes, as far as 64 bits reach. -/
theorem rounds (n : Nat) : Rounds n where
  covering_fits := exists_covering?_iff
  nodeCount_fits := exists_nodeCount?_iff
  least := isLeast_covering?
  whole := covering?_nodeCount?
  covering_mono := covering?_mono
  nodeCount_mono := nodeCount?_mono

/-! ## Places in groups -/

/-- The position of a node lies inside its group, the root's group of one node included. -/
theorem position_lt_width (n node : Nat) : position n node < width n (ofNode n node) := by
  unfold width
  split
  · next hroot =>
    rw [ofNode_eq_zero_iff.1 hroot]
    exact Nat.one_pos
  · exact position_lt n node

/-- A node is the member of its group at its position. -/
theorem getElem?_memberList (n node : Nat) :
    (memberList n (ofNode n node))[position n node]? = some node := by
  rw [memberList, List.getElem?_range' (position_lt_width n node), Nat.one_mul, start_add_position]

end Group

namespace Tree

variable {t : Tree n} {node group room : Nat}

/-- The groups of a tree tile the indices of its nodes, and no index on the way leaves its range. -/
structure Tiled (t : Tree n) : Prop where
  /-- Nodes and groups have an index. -/
  bounded : t.groupCapacity ≤ t.capacity ∧ t.capacity < nodeLimit
  /-- The room is that of whole groups. -/
  counted : Group.nodeCount? n t.groupCapacity = .ok t.capacity
  /-- Every node has its place in one of the groups. -/
  located {node : Nat} : node < t.capacity → Group.ofNode n node < t.groupCapacity ∧
    ∃ first position members, Group.first n (Group.ofNode n node) = .ok first ∧
      t.positionInParent node = .ok position ∧ node = first + position.getD 0 ∧
      Group.members n (Group.ofNode n node) = .ok members ∧
      members.toList[position.getD 0]? = some node
  /-- No group reaches past the room. -/
  inside {group : Nat} : group ≠ 0 → group < t.groupCapacity → ∃ first,
    Group.first n group = .ok first ∧ first + 2 ^ n ≤ t.capacity ∧
      Group.members n group = .ok ⟨first, first + 2 ^ n⟩

/-- The nodes that the groups of a tree hold can be counted, and there is room for exactly these. -/
theorem Sized.nodeCount?_groupCapacity (ht : t.Sized) :
    Group.nodeCount? n t.groupCapacity = .ok t.capacity := by
  have hlt := lt_countLimit ht.capacity_lt
  rw [ht.capacity_eq] at hlt ⊢
  exact Group.nodeCount?_eq ht.supported hlt

/-- The root, which has no position among siblings, is the member of its group at position 0. -/
theorem exists_positionInParent (hlt : node < t.capacity) : ∃ position,
    t.positionInParent node = .ok position ∧ position.getD 0 = Group.position n node := by
  rcases eq_or_ne node 0 with rfl | hne
  · refine ⟨none, ?_, ?_⟩
    · rw [positionInParent, checkNode_of_lt hlt]
      rfl
    · rw [Group.position, Nat.zero_sub, Nat.zero_mod]
      rfl
  · exact ⟨_, positionInParent_of_lt hlt hne, rfl⟩

/-- All that is needed for the tiling is that the tables have room for whole groups; links play no part in it. -/
theorem Sized.tiled (ht : t.Sized) : t.Tiled where
  bounded := ⟨ht.groupCapacity_le, ht.capacity_lt⟩
  counted := ht.nodeCount?_groupCapacity
  located := by
    intro node hlt
    have hgroup : Group.ofNode n node < t.groupCapacity := by
      rwa [Group.ofNode_lt_iff, ← ht.capacity_eq]
    have hfirst := Group.first_eq hgroup (ht.capacity_eq ▸ ht.capacity_lt)
    obtain ⟨position, hposition, heq⟩ := exists_positionInParent hlt
    refine ⟨hgroup, _, position, _, hfirst, hposition, ?_, ht.members_of_lt hgroup, ?_⟩
    · rw [heq, Group.start_add_position]
    · rw [heq, Span.toList, Nat.add_sub_cancel_left]
      exact Group.getElem?_memberList n node
  inside := by
    intro group hgroup hlt
    exact ⟨_, ht.first_eq hgroup hlt, ht.start_add_le hgroup hlt, ht.members_eq hgroup hlt⟩

/-- Room whose rounded size fits an index makes a tree, with less than one group of room to spare. -/
theorem exists_ofCapacity (hn : Corner.supported n = true) (hroom : 1 ≤ room)
    (hgroups : Group.covering? n room = .ok groups) (hnodes : Group.nodeCount? n groups = .ok nodes)
    (hlimit : nodes < nodeLimit) :
    ∃ t : Tree n, ofCapacity n room = .ok t ∧ t.groupCapacity = groups ∧ t.capacity = nodes ∧
      room ≤ t.capacity ∧ t.capacity ≤ room + 2 ^ n - 1 ∧ t.Sized := by
  obtain rfl := Group.eq_of_covering? hgroups
  obtain rfl := Group.eq_of_nodeCount? hnodes
  have hmake := ofCapacity_eq hn (Nat.one_le_iff_ne_zero.1 hroom) hlimit
  have hcapacity : (rootOnly n (Group.covering n room)).capacity =
      Group.nodeCount n (Group.covering n room) := Links.nodeCapacity_empty _ _
  refine ⟨_, hmake, Links.groupCapacity_empty _ _, hcapacity, ?_, ?_,
    (eq_rootOnly_of_ofCapacity hmake).2⟩
  · rw [hcapacity]
    exact Group.covering_le_iff.1 (Nat.le_refl _)
  · rw [hcapacity]
    exact Nat.le_pred_of_lt (Group.nodeCount_covering_lt n room)

/-- **Counting in whole groups.**  Nodes are rounded up to whole groups tightly, whatever the number of axes.  So a new
tree has at least the room asked for and less than one group more, and its groups tile the indices of its nodes.  They
do so in every tree, whatever has been done to it. -/
theorem whole_groups_exact (hn : Corner.supported n = true) :
    (∀ axes, Group.Rounds axes) ∧
    (∀ room groups nodes, 1 ≤ room → Group.covering? n room = .ok groups →
      Group.nodeCount? n groups = .ok nodes → nodes < nodeLimit →
      ∃ t : Tree n, ofCapacity n room = .ok t ∧ t.groupCapacity = groups ∧ t.capacity = nodes ∧
        room ≤ t.capacity ∧ t.capacity ≤ room + 2 ^ n - 1 ∧ t.Tiled) ∧
    ∀ t : Tree n, t.Reachable → t.Tiled := by
  refine ⟨Group.rounds, ?_, fun t h => h.valid.toSized.tiled⟩
  intro room groups nodes hroom hgroups hnodes hlimit
  obtain ⟨t, hmake, hcounts⟩ := exists_ofCapacity hn hroom hgroups hnodes hlimit
  obtain ⟨hgroupCapacity, hcapacity, hle, hspare, ht⟩ := hcounts
  exact ⟨t, hmake, hgroupCapacity, hcapacity, hle, hspare, ht.tiled⟩

/-- Room for 10 nodes of a tree of cubes takes 3 groups, with as much room to spare as there can be. -/
theorem whole_groups_exact_cube :
    IsLeast {g | ∃ held, Group.nodeCount? 3 g = .ok held ∧ 10 ≤ held} 3 ∧
    ∃ t : Tree 3, ofCapacity 3 10 = .ok t ∧ t.groupCapacity = 3 ∧ t.capacity = 10 + 2 ^ 3 - 1 ∧
      t.Tiled ∧ (t.afterCalls [.refine 0, .refine 8]).Tiled := by
  obtain ⟨hrounds, hnew, hkept⟩ := whole_groups_exact (n := 3) rfl
  have hgroups : Group.covering? 3 10 = .ok 3 := rfl
  have hnodes : Group.nodeCount? 3 3 = .ok 17 := rfl
  obtain ⟨t, hmake, hgroupCapacity, hcapacity, -, -, htiled⟩ :=
    hnew 10 3 17 (by decide) hgroups hnodes (by decide)
  exact ⟨(hrounds 3).least hgroups hnodes, t, hmake, hgroupCapacity, hcapacity, htiled,
    hkept _ ((Reachable.new 10 hmake).afterCalls _)⟩

end Tree

end Orthtree
