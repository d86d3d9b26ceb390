import Mathlib.Logic.Equiv.Basic
import Orthtree.Tree.Group

/-!
# Renumbering groups and nodes

A permutation `σ` of the groups that fixes group 0 carries the nodes along: the node at a position of group `g` becomes
the node at the same position of group `σ g`.  `Group.renumber` is that map of nodes.  It turns products of group
permutations into compositions (`renumber_trans`), so what one exchange of groups does to nodes says what a sequence of
exchanges does.
-/

namespace Orthtree.Group

variable {n node group groups i : Nat} {σ τ : Equiv.Perm Nat}

/-! ## Ranges of node numbers -/

/-- The position of `node` in its group. -/
def position (n node : Nat) : Nat := (node - 1) % 2 ^ n

theorem position_lt (n node : Nat) : position n node < 2 ^ n := Nat.mod_lt _ (Nat.two_pow_pos n)

/-- Group and position determine the node. -/
theorem start_add_position (n node : Nat) : start n (ofNode n node) + position n node = node := by
  rcases eq_or_ne node 0 with rfl | hnode
  · simp [position]
  · exact start_ofNode hnode

/-- The node at position `i` of a group has position `i`. -/
theorem position_start_add (hg : group ≠ 0) (hi : i < 2 ^ n) :
    position n (start n group + i) = i := by
  have hsub : 1 + 2 ^ n * (group - 1) + i - 1 = i + 2 ^ n * (group - 1) := by omega
  rw [position, start, if_neg hg, hsub, Nat.add_mul_mod_self_left, Nat.mod_eq_of_lt hi]

@[simp]
theorem ofNode_eq_zero_iff : ofNode n node = 0 ↔ node = 0 := by
  unfold ofNode
  split <;> simp_all

theorem start_injective (n : Nat) : Function.Injective (start n) := by
  intro g h heq
  rw [← ofNode_start n g, heq, ofNode_start]

/-- A node lies in one of the first `groups` groups iff its number is below their node count. -/
theorem ofNode_lt_iff : ofNode n node < groups ↔ node < nodeCount n groups := by
  have hdiv : (node - 1) / 2 ^ n < groups - 1 ↔ node - 1 < (groups - 1) * 2 ^ n :=
    Nat.div_lt_iff_lt_mul (Nat.two_pow_pos n)
  unfold ofNode nodeCount
  -- The product and the quotient are related by `hdiv` only.
  generalize (groups - 1) * 2 ^ n = inner at hdiv ⊢
  generalize (node - 1) / 2 ^ n = full at hdiv ⊢
  split <;> split <;> omega

theorem start_add_lt (hg : group ≠ 0) (hi : i < 2 ^ n) (hlt : group < groups) :
    start n group + i < nodeCount n groups := by
  rwa [← ofNode_lt_iff, ofNode_start_add hg hi]

/-- A group ends before the next ones begin. -/
theorem start_add_le (hg : group ≠ 0) (hlt : group < groups) :
    start n group + 2 ^ n ≤ nodeCount n groups := by
  have hpos := Nat.two_pow_pos n
  have hlast : start n group + (2 ^ n - 1) < nodeCount n groups :=
    start_add_lt hg (Nat.sub_lt hpos Nat.one_pos) hlt
  omega

/-- A group is the run of its members. -/
theorem ofNode_eq_iff (hg : group ≠ 0) :
    ofNode n node = group ↔ start n group ≤ node ∧ node < start n group + 2 ^ n := by
  constructor
  · rintro rfl
    have hnode := start_add_position n node
    have hlt := position_lt n node
    omega
  · rintro ⟨hle, hlt⟩
    obtain ⟨i, rfl⟩ := Nat.exists_eq_add_of_le hle
    exact ofNode_start_add hg (Nat.lt_of_add_lt_add_left hlt)

theorem start_eq_nodeCount (hg : group ≠ 0) : start n group = nodeCount n group := by
  rw [start, nodeCount, if_neg hg, if_neg hg, Nat.mul_comm, Nat.add_comm]

/-- There are no more groups than nodes. -/
theorem le_nodeCount (n groups : Nat) : groups ≤ nodeCount n groups := by
  rcases Nat.eq_zero_or_pos groups with rfl | hpos
  · exact Nat.zero_le _
  · -- Every group but the root's holds at least one node.
    have hle : (groups - 1) * 1 ≤ (groups - 1) * 2 ^ n :=
      Nat.mul_le_mul_left _ Nat.one_le_two_pow
    rw [nodeCount, if_neg (Nat.ne_of_gt hpos)]
    omega

theorem start_lt_nodeCount (h : group < groups) : start n group < nodeCount n groups := by
  rw [← ofNode_lt_iff, ofNode_start]
  exact h

theorem nodeCount_le_iff {a b : Nat} : nodeCount n a ≤ nodeCount n b ↔ a ≤ b := by
  rw [← covering_le_iff, covering_nodeCount]

/-- One more group holds `2 ^ n` more nodes. -/
theorem nodeCount_succ (hg : groups ≠ 0) :
    nodeCount n (groups + 1) = nodeCount n groups + 2 ^ n := by
  obtain ⟨k, rfl⟩ := Nat.exists_eq_succ_of_ne_zero hg
  simp only [nodeCount, Nat.succ_ne_zero, if_false, Nat.add_sub_cancel, Nat.succ_eq_add_one]
  rw [Nat.succ_mul]
  omega

/-! ## Members of groups as lists -/

/-- The nodes that lie in `group`, in ascending order. -/
def memberList (n group : Nat) : List Nat := List.range' (start n group) (width n group)

@[simp]
theorem length_memberList (n group : Nat) : (memberList n group).length = width n group :=
  List.length_range'

/-- The members of a group are the nodes that are in it. -/
theorem mem_memberList_iff : node ∈ memberList n group ↔ ofNode n node = group := by
  rw [memberList, List.mem_range'_1]
  rcases eq_or_ne group 0 with rfl | hg
  · rw [ofNode_eq_zero_iff, start_zero, width, if_pos rfl]
    omega
  · rw [ofNode_eq_iff hg, width, if_neg hg]

/-- The nodes of a group come before those of the groups after it. -/
theorem lt_of_ofNode_lt {x y : Nat} (h : ofNode n x < ofNode n y) : x < y := by
  have hx : x < nodeCount n (ofNode n y) := ofNode_lt_iff.1 h
  have hy : nodeCount n (ofNode n y) ≤ y := Nat.not_lt.1 fun hlt =>
    Nat.lt_irrefl _ (ofNode_lt_iff.2 hlt)
  exact Nat.lt_of_lt_of_le hx hy

/-! ## Nodes carried along by their groups -/

/-- The node at the position of `node` in the group that `σ` makes of its group. -/
def renumber (n : Nat) (σ : Equiv.Perm Nat) (node : Nat) : Nat :=
  start n (σ (ofNode n node)) + position n node

@[simp]
theorem renumber_zero (hσ : σ 0 = 0) : renumber n σ 0 = 0 := by
  simp [renumber, hσ, position]

theorem apply_eq_zero_iff (hσ : σ 0 = 0) : σ group = 0 ↔ group = 0 := by
  rw [← σ.injective.eq_iff (a := group), hσ]

theorem apply_ne_zero (hσ : σ 0 = 0) (hg : group ≠ 0) : σ group ≠ 0 :=
  mt (apply_eq_zero_iff hσ).1 hg

/-- A renumbered node lies in the renumbered group. -/
theorem ofNode_renumber (hσ : σ 0 = 0) (node : Nat) :
    ofNode n (renumber n σ node) = σ (ofNode n node) := by
  rcases eq_or_ne node 0 with rfl | hnode
  · simp [hσ]
  · have hg : σ (ofNode n node) ≠ 0 := apply_ne_zero hσ (by simpa using hnode)
    exact ofNode_start_add hg (position_lt n node)

/-- Nodes keep their positions when groups are renumbered. -/
theorem position_renumber (hσ : σ 0 = 0) (node : Nat) :
    position n (renumber n σ node) = position n node := by
  rcases eq_or_ne node 0 with rfl | hnode
  · rw [renumber_zero hσ]
  · have hg : σ (ofNode n node) ≠ 0 := apply_ne_zero hσ (by simpa using hnode)
    exact position_start_add hg (position_lt n node)

theorem renumber_start_add (hg : group ≠ 0) (hi : i < 2 ^ n) :
    renumber n σ (start n group + i) = start n (σ group) + i := by
  rw [renumber, ofNode_start_add hg hi, position_start_add hg hi]

/-- The first member of a group becomes the first member of its new place. -/
theorem renumber_start (hσ : σ 0 = 0) (group : Nat) :
    renumber n σ (start n group) = start n (σ group) := by
  rcases eq_or_ne group 0 with rfl | hg
  · simp [hσ]
  · exact renumber_start_add hg (Nat.two_pow_pos n)

/-- A node whose group stays keeps its number. -/
theorem renumber_of_fixed (h : σ (ofNode n node) = ofNode n node) : renumber n σ node = node := by
  rw [renumber, h, start_add_position]

@[simp]
theorem renumber_refl (n node : Nat) : renumber n (Equiv.refl Nat) node = node := renumber_of_fixed rfl

/-- Renumbering twice renumbers by the product. -/
theorem renumber_trans (hσ : σ 0 = 0) (node : Nat) :
    renumber n (σ.trans τ) node = renumber n τ (renumber n σ node) := by
  rw [renumber, renumber.eq_def n τ, ofNode_renumber hσ, position_renumber hσ, Equiv.trans_apply]

theorem symm_zero (hσ : σ 0 = 0) : σ.symm 0 = 0 := σ.symm_apply_eq.2 hσ.symm

@[simp]
theorem renumber_symm_renumber (hσ : σ 0 = 0) (node : Nat) :
    renumber n σ.symm (renumber n σ node) = node := by
  rw [← renumber_trans hσ, Equiv.self_trans_symm, renumber_refl]

@[simp]
theorem renumber_renumber_symm (hσ : σ 0 = 0) (node : Nat) :
    renumber n σ (renumber n σ.symm node) = node := by
  rw [← renumber_trans (symm_zero hσ), Equiv.symm_trans_self, renumber_refl]

theorem renumber_injective (hσ : σ 0 = 0) : Function.Injective (renumber n σ) :=
  Function.LeftInverse.injective (renumber_symm_renumber hσ)

theorem renumber_surjective (n : Nat) (hσ : σ 0 = 0) : Function.Surjective (renumber n σ) :=
  Function.RightInverse.surjective (renumber_renumber_symm hσ)

/-! ## Exchanging two groups -/

theorem swap_zero {a b : Nat} (ha : a ≠ 0) (hb : b ≠ 0) : Equiv.swap a b 0 = 0 :=
  Equiv.swap_apply_of_ne_of_ne ha.symm hb.symm

/-- Exchanging two groups twice changes no node. -/
theorem renumber_swap_renumber_swap {a b : Nat} (ha : a ≠ 0) (hb : b ≠ 0) (node : Nat) :
    renumber n (Equiv.swap a b) (renumber n (Equiv.swap a b) node) = node := by
  have h := renumber_symm_renumber (n := n) (swap_zero ha hb) node
  rwa [Equiv.symm_swap] at h

end Orthtree.Group
