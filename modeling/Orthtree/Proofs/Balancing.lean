import Orthtree.Proofs.Neighbors
import Orthtree.Tree.Balance

/-!
# Balance

The check of the balance looks at neighbors, of leaves and of branches, and only one level down.  It nevertheless
decides whether all leaves that touch differ by at most one level (`Reachable.isBalanced_exact`), since every point of a
branch lies in some leaf below it (`exists_leaf_box`).
-/

namespace Orthtree.Tree

open Location

variable {n : Nat} {t : Tree n} {node m : Nat} {p q : List Nat} {point : Fin n → ℝ}

/-! ## Leaves by their paths -/

/-- The paths that lead to leaves. -/
def leafPaths (t : Tree n) : Set (List Nat) :=
  {path | ∃ node, t.follow path = some node ∧ t.links.firstChild node = none}

/-- No path goes on from that of a leaf. -/
theorem eq_of_isPrefix_of_leaf (hp : p ∈ t.leafPaths) (hq : t.follow q = some m)
    (h : p <+: q) : p = q := by
  obtain ⟨a, ha, hleaf⟩ := hp
  obtain ⟨s, rfl⟩ := h
  rw [eq_nil_of_leaf ha hleaf hq, List.append_nil]

/-- Every point of a node lies in a leaf below it. -/
theorem exists_leaf_box (ht : t.Linked) (hp : t.follow p = some node)
    (hpoint : point ∈ pathBox n p) :
    ∃ s, p ++ s ∈ t.leafPaths ∧ point ∈ pathBox n (p ++ s) := by
  -- Going down ends because paths are not longer than the room.
  induction hroom : t.capacity - p.length using Nat.strong_induction_on generalizing p node with
  | _ room ih =>
    cases hfirst : t.links.firstChild node with
    | none => exact ⟨[], by rw [List.append_nil]; exact ⟨node, hp, hfirst⟩, by rwa [List.append_nil]⟩
    | some first =>
        obtain ⟨c, hc, hpoint'⟩ := exists_child_box hpoint
        have hchild : t.follow (p ++ [c]) = some (first + c) :=
          follow_concat_eq_some_iff.2 ⟨node, hp, childAt?_eq_some_iff.2 ⟨first, hfirst, hc, rfl⟩⟩
        have hlength := length_lt_capacity ht hp
        obtain ⟨s, hs, hspoint⟩ := ih _ (by simp; omega) hchild hpoint' rfl
        rw [List.append_assoc] at hs hspoint
        exact ⟨[c] ++ s, hs, hspoint⟩

/-- Where a node touches a box, a leaf below the node does. -/
theorem exists_leaf_touch (ht : t.Linked) (hq : t.follow q = some node) (h : Touch n p q) :
    ∃ s, q ++ s ∈ t.leafPaths ∧ Touch n p (q ++ s) := by
  obtain ⟨point, hp, hpoint⟩ := h
  obtain ⟨s, hs, hspoint⟩ := exists_leaf_box ht hq hpoint
  exact ⟨s, hs, point, hp, hspoint⟩

/-- Paths that touch differ by at most one level. -/
def Graded (n : Nat) (paths : Set (List Nat)) : Prop :=
  ∀ p ∈ paths, ∀ q ∈ paths, Touch n p q → p.length ≤ q.length + 1

/-- The leaves are graded iff no node is two levels finer than a leaf beside it. -/
theorem graded_iff (ht : t.Linked) : Graded n t.leafPaths ↔
    ∀ p node, t.follow p = some node → ∀ q m, t.Adjoins p q m → p.length ≤ q.length + 1 := by
  constructor
  · intro hgraded p node hp q m hadjoins
    rcases hadjoins.coarse_or_finer with ⟨hleaf, -⟩ | hlength
    · -- A leaf below the node touches the same neighbor and is not coarser than the node.
      obtain ⟨s, hs, htouch⟩ := exists_leaf_touch ht hp hadjoins.touch.symm
      have hle := hgraded _ hs q ⟨m, hadjoins.follow, hleaf⟩ htouch.symm
      rw [List.length_append] at hle
      omega
    · omega
  · intro hbalanced p hp q hq htouch
    by_contra hlt
    obtain ⟨a, ha, -⟩ := hp
    obtain ⟨b, hb, hleaf⟩ := hq
    have hadjoins : t.Adjoins p q b := by
      refine ⟨hb, ?_, ?_, htouch, Or.inl ⟨hleaf, by omega⟩⟩
      · intro hbegin
        have heq := eq_of_isPrefix_of_leaf ⟨b, hb, hleaf⟩ ha hbegin
        rw [heq] at hlt
        omega
      · intro hbegin
        have hle := hbegin.length_le
        omega
    exact hlt (hbalanced p a ha q b hadjoins)

/-! ## The check of the balance -/

/-- A test of the levels of all neighbors is a test of the paths that adjoin. -/
theorem exists_allM_neighbors (ht : t.Linked) (hlevels : t.Locatable) (hp : t.follow p = some node)
    {test : Nat → Except Fault Bool} {accepts : Nat → Bool}
    (htest : ∀ m k, t.level m = .ok k → test m = .ok (accepts k)) :
    ∃ b, (do (← t.allNeighbors (← t.location node)).allM test) = .ok b ∧
      (b = true ↔ ∀ q m, t.Adjoins p q m → accepts q.length = true) := by
  obtain ⟨l, hl, rfl⟩ := exists_location ht hp (hlevels.length_le ht hp)
  obtain ⟨neighbors, hneighbors, -, hmem⟩ := exists_neighbors ht hp
  have hanswer : ∀ q m, t.Adjoins l.path q m → test m = .ok (accepts q.length) := by
    intro q m hadjoins
    exact htest m _ (hlevels.level_eq ht hadjoins.follow)
  have hanswers : ∀ m ∈ neighbors, ∃ b, test m = .ok b := by
    intro m hm
    obtain ⟨q, hadjoins⟩ := (hmem m).1 hm
    exact ⟨_, hanswer q m hadjoins⟩
  obtain ⟨b, hb, hiff⟩ := exists_allM hanswers
  refine ⟨b, ?_, hiff.trans ?_⟩
  · simp only [hl, hneighbors, bind, Except.bind, hb]
  · constructor
    · intro hall q m hadjoins
      exact Except.ok.inj ((hanswer q m hadjoins).symm.trans (hall m ((hmem m).2 ⟨q, hadjoins⟩)))
    · intro hall m hm
      obtain ⟨q, hadjoins⟩ := (hmem m).1 hm
      rw [hanswer q m hadjoins, hall q m hadjoins]

/-- The check at one node looks at all that adjoins it.  Neighbors are at most one level finer, so only the coarse ones
can be out of balance. -/
theorem exists_isBalancedAt (ht : t.Linked) (hlevels : t.Locatable)
    (hp : t.follow p = some node) : ∃ b, t.isBalancedAt node = .ok b ∧
      (b = true ↔ ∀ q m, t.Adjoins p q m → p.length ≤ q.length + 1) := by
  have htest : ∀ m k, t.level m = .ok k →
      (do
        let other ← t.level m
        return other ≤ p.length + 1 && p.length ≤ other + 1) =
      (.ok (k ≤ p.length + 1 && p.length ≤ k + 1) : Except Fault Bool) := by
    intro m k hk
    rw [hk]
    rfl
  obtain ⟨b, hb, hiff⟩ := exists_allM_neighbors ht hlevels hp htest
  refine ⟨b, ?_, hiff.trans ?_⟩
  · rw [isBalancedAt, hlevels.level_eq ht hp]
    exact hb
  · simp only [Bool.and_eq_true, decide_eq_true_eq]
    constructor
    · exact fun hall q m hadjoins => (hall q m hadjoins).2
    · intro hall q m hadjoins
      refine ⟨?_, hall q m hadjoins⟩
      rcases hadjoins.coarse_or_finer with ⟨-, hle⟩ | heq <;> omega

/-- The check that nothing around a node is finer than `level` is about all that adjoins it. -/
theorem exists_isFinestAt (ht : t.Linked) (hlevels : t.Locatable) (hp : t.follow p = some node)
    (level : Nat) : ∃ b, t.isFinestAt level node = .ok b ∧
      (b = true ↔ ∀ q m, t.Adjoins p q m → q.length ≤ level) := by
  have htest : ∀ m k, t.level m = .ok k →
      (do return (← t.level m) ≤ level) = (.ok (k ≤ level) : Except Fault Bool) := by
    intro m k hk
    rw [hk]
    rfl
  obtain ⟨b, hb, hiff⟩ := exists_allM_neighbors ht hlevels hp htest
  exact ⟨b, hb, by simpa only [decide_eq_true_eq] using hiff⟩

/-- The tree is balanced iff its leaves are graded. -/
theorem exists_isBalanced (ht : t.Valid) (hlevels : t.Locatable) :
    ∃ b, t.isBalanced = .ok b ∧ (b = true ↔ Graded n t.leafPaths) := by
  obtain ⟨nodes, hnodes, -, hmem⟩ := exists_nodes ht
  have hlive : ∀ p node, t.follow p = some node → node ∈ nodes := by
    intro p node hp
    exact (hmem node).2 (live_of_follow ht.toLinked hp)
  have hanswer : ∀ p node, t.follow p = some node → ∃ b, t.isBalancedAt node = .ok b ∧
      (b = true ↔ ∀ q m, t.Adjoins p q m → p.length ≤ q.length + 1) :=
    fun p node hp => exists_isBalancedAt ht.toLinked hlevels hp
  have hanswers : ∀ node ∈ nodes, ∃ b, t.isBalancedAt node = .ok b := by
    intro node hnode
    obtain ⟨p, hp⟩ := ht.rooted ((hmem node).1 hnode)
    obtain ⟨b, hb, -⟩ := hanswer p node hp
    exact ⟨b, hb⟩
  obtain ⟨b, hb, hiff⟩ := exists_allM hanswers
  refine ⟨b, ?_, hiff.trans ?_⟩
  · rw [isBalanced, hnodes]
    exact hb
  · -- The nodes are the ends of the paths.
    rw [graded_iff ht.toLinked]
    constructor
    · intro hall p node hp
      obtain ⟨b, hb, hiff⟩ := hanswer p node hp
      exact hiff.1 (Except.ok.inj (hb.symm.trans (hall node (hlive p node hp))))
    · intro hall node hnode
      obtain ⟨p, hp⟩ := ht.rooted ((hmem node).1 hnode)
      obtain ⟨b, hb, hiff⟩ := hanswer p node hp
      rw [hb, hiff.2 (hall p node hp)]

/-- Leaves whose regions touch differ by at most one level. -/
def HasGradedLeaves (t : Tree n) : Prop :=
  ∀ x y, t.contains x = .ok true → t.isLeaf x = .ok true →
    t.contains y = .ok true → t.isLeaf y = .ok true → (t.region x ∩ t.region y).Nonempty →
    ∃ j k, t.level x = .ok j ∧ t.level y = .ok k ∧ j ≤ k + 1 ∧ k ≤ j + 1

/-- The paths to leaves, in terms of what the queries answer. -/
theorem mem_leafPaths_iff (ht : t.Linked) : p ∈ t.leafPaths ↔
    ∃ node, t.follow p = some node ∧ t.isLeaf node = .ok true := by
  apply exists_congr
  intro node
  apply and_congr_right
  intro hp
  rw [isLeaf_iff_of_follow ht hp]

/-- Regions and levels of leaves are those of their paths. -/
theorem hasGradedLeaves_iff (ht : t.Valid) (hlevels : t.Locatable) :
    t.HasGradedLeaves ↔ Graded n t.leafPaths := by
  constructor
  · intro h p hp q hq htouch
    obtain ⟨x, hx, hxleaf⟩ := (mem_leafPaths_iff ht.toLinked).1 hp
    obtain ⟨y, hy, hyleaf⟩ := (mem_leafPaths_iff ht.toLinked).1 hq
    have hmeet := (hlevels.meet_iff_touch ht.toLinked hx hy).2 htouch
    obtain ⟨j, k, hj, hk, hle, -⟩ := h x y (contains_of_follow ht.toLinked hx) hxleaf
      (contains_of_follow ht.toLinked hy) hyleaf hmeet
    rw [hlevels.level_eq ht.toLinked hx, Except.ok.injEq] at hj
    rw [hlevels.level_eq ht.toLinked hy, Except.ok.injEq] at hk
    omega
  · intro h x y hx hxleaf hy hyleaf hmeet
    obtain ⟨p, hp⟩ := ht.exists_follow hx
    obtain ⟨q, hq⟩ := ht.exists_follow hy
    have hpleaf := (mem_leafPaths_iff ht.toLinked).2 ⟨x, hp, hxleaf⟩
    have hqleaf := (mem_leafPaths_iff ht.toLinked).2 ⟨y, hq, hyleaf⟩
    have htouch := (hlevels.meet_iff_touch ht.toLinked hp hq).1 hmeet
    exact ⟨p.length, q.length, hlevels.level_eq ht.toLinked hp, hlevels.level_eq ht.toLinked hq,
      h p hpleaf q hqleaf htouch, h q hqleaf p hpleaf htouch.symm⟩

/-- **Exactness of the balance check.**  A tree is balanced iff its leaves that touch, be it in a point, differ by at
most one level. -/
theorem Reachable.isBalanced_exact (h : t.Reachable) (hlevels : t.Locatable) :
    ∃ b, t.isBalanced = .ok b ∧ (b = true ↔ t.HasGradedLeaves) := by
  obtain ⟨b, hb, hiff⟩ := exists_isBalanced h.valid hlevels
  exact ⟨b, hb, hiff.trans (hasGradedLeaves_iff h.valid hlevels).symm⟩

/-- A leaf in the corner of a square that touches, in the center, a leaf two levels finer. -/
theorem Reachable.isBalanced_exact_center :
    ∃ b, ((rootOnly 2 4).afterCalls [.refine 0, .refine 1, .refine 8]).isBalanced = .ok b ∧
      (b = true ↔
        ((rootOnly 2 4).afterCalls [.refine 0, .refine 1, .refine 8]).HasGradedLeaves) :=
  Reachable.isBalanced_exact ((Reachable.new 13 rfl).afterCalls [.refine 0, .refine 1, .refine 8])
    (by decide +kernel)

/-- Touching in a corner point alone breaks the balance. -/
example :
    ((rootOnly 2 4).afterCalls [.refine 0, .refine 1, .refine 8]).isBalanced = .ok false := by
  decide +kernel

end Orthtree.Tree
