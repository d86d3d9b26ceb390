import Orthtree.Proofs.Balancing

/-!
# Coarsening in balance

Coarsening that looks at the neighbors of the children is refused exactly where it would break the balance
(`Reachable.coarsenBalanced_exact`).  Two leaves that are two levels apart after coarsening must be the coarsened node
and a node that was one level finer than the children; it touched one of them, for the children cover the node
(`Attached.graded_iff`).
-/

namespace Orthtree.Tree

open Location

variable {n : Nat} {t u : Tree n} {node group m : Nat} {p q : List Nat}

/-! ## Leaves before and after -/

section Coarsened

/- In `u` the leaf at `p` of `t` has children, all of them leaves: `t` is `u` coarsened. -/
variable (h : Attached node group t u) (ht : t.Linked)
  (hleaves : ∀ v, Group.ofNode n v = group → u.links.firstChild v = none)
  (hp : t.follow p = some node)

include h ht hleaves hp

/-- Attaching a group of leaves replaces a leaf by the children that it gets. -/
theorem Attached.mem_leafPaths_iff :
    q ∈ u.leafPaths ↔ q ∈ t.leafPaths ∧ q ≠ p ∨ ∃ c, c < 2 ^ n ∧ q = p ++ [c] := by
  have hu := h.linked ht
  constructor
  · rintro ⟨v, hv, hleaf⟩
    -- A leaf of the refined tree was there before, or is one of the new children.
    rcases (h.live_iff v).1 (live_of_follow hu hv) with hlive | hgroup
    · have hq := h.follow_of_live ht hlive hv
      rw [h.firstChild_eq] at hleaf
      split_ifs at hleaf with hne
      refine Or.inl ⟨⟨v, hq, hleaf⟩, ?_⟩
      rintro rfl
      exact hne (Option.some_injective _ (hq.symm.trans hp))
    · have hposition := h.follow_concat_of_follow hp (Group.position_lt n v)
      rw [← hgroup, Group.start_add_position] at hposition
      exact Or.inr ⟨_, Group.position_lt n v, follow_injective hu hv hposition⟩
  · rintro (⟨⟨v, hv, hleaf⟩, hne⟩ | ⟨c, hc, rfl⟩)
    · refine ⟨v, h.follow_of_follow hv, ?_⟩
      rw [h.firstChild_eq, if_neg, hleaf]
      rintro rfl
      exact hne (follow_injective ht hv hp)
    · refine ⟨_, h.follow_concat_of_follow hp hc, hleaves _ ?_⟩
      rw [Group.ofNode_start_add h.group_ne_zero hc]

/-- If the coarsened tree is graded, no child touches a finer node. -/
theorem Attached.length_le_of_graded (hcoarse : Graded n t.leafPaths) {c : Nat}
    (hadjoins : u.Adjoins (p ++ [c]) q m) : q.length ≤ p.length + 1 := by
  by_contra hlt
  have hlength : q.length = p.length + 2 := by
    rcases hadjoins.coarse_or_finer with ⟨-, hle⟩ | heq
    · rw [List.length_append, List.length_singleton] at hle
      omega
    · rwa [List.length_append, List.length_singleton] at heq
  -- The finer node need not be a leaf, but a leaf below it touches the child, too.
  obtain ⟨s, hs, htouch⟩ := exists_leaf_touch (h.linked ht) hadjoins.follow hadjoins.touch
  have hlong : p.length + 2 ≤ (q ++ s).length := by
    rw [List.length_append]
    omega
  rcases (h.mem_leafPaths_iff ht hleaves hp).1 hs with ⟨hold, -⟩ | ⟨c', -, heq⟩
  · have hle := hcoarse _ hold p ⟨node, hp, h.leaf⟩ htouch.symm.of_append
    omega
  · rw [heq, List.length_append, List.length_singleton] at hlong
    omega

/-- If no child touches a finer node, the coarsened node differs by at most one level from a leaf that it touches. -/
theorem Attached.near_of_fine (hgraded : Graded n u.leafPaths)
    (hfine : ∀ c, c < 2 ^ n → ∀ q m, u.Adjoins (p ++ [c]) q m → q.length ≤ p.length + 1)
    (hq : q ∈ t.leafPaths) (hne : q ≠ p) (htouch : Touch n q p) :
    q.length ≤ p.length + 1 ∧ p.length ≤ q.length + 1 := by
  have hqleaf := (h.mem_leafPaths_iff ht hleaves hp).2 (Or.inl ⟨hq, hne⟩)
  -- The leaf touches one of the children, which differs from it by at most one level.
  obtain ⟨point, hpoint, hpoint'⟩ := htouch
  obtain ⟨c, hc, hcpoint⟩ := exists_child_box hpoint'
  have hcleaf := (h.mem_leafPaths_iff ht hleaves hp).2 (Or.inr ⟨c, hc, rfl⟩)
  have htouch : Touch n (p ++ [c]) q := ⟨point, hcpoint, hpoint⟩
  have hle := hgraded _ hcleaf q hqleaf htouch
  have hge := hgraded q hqleaf _ hcleaf htouch.symm
  rw [List.length_append, List.length_singleton] at hle hge
  refine ⟨?_, by omega⟩
  by_contra hlt
  obtain ⟨b, hb, -⟩ := hqleaf
  have hlength : q.length = (p ++ [c]).length + 1 := by
    rw [List.length_append, List.length_singleton]
    omega
  have hadjoins : u.Adjoins (p ++ [c]) q b := by
    refine ⟨hb, ?_, ?_, htouch, Or.inr hlength⟩
    · intro hbegin
      have hle := hbegin.length_le
      omega
    · intro hbegin
      have heq := congrArg List.length (eq_of_isPrefix_of_leaf hcleaf hb hbegin)
      omega
  exact hlt (hfine c hc q b hadjoins)

/-- Coarsening a graded tree leaves it graded iff no child touches a finer node. -/
theorem Attached.graded_iff (hgraded : Graded n u.leafPaths) : Graded n t.leafPaths ↔
    ∀ c, c < 2 ^ n → ∀ q m, u.Adjoins (p ++ [c]) q m → q.length ≤ p.length + 1 := by
  constructor
  · intro hcoarse c _ q m hadjoins
    exact h.length_le_of_graded ht hleaves hp hcoarse hadjoins
  · intro hfine x hx y hy htouch
    have hnear : ∀ {q}, q ∈ t.leafPaths → q ≠ p → Touch n q p →
        q.length ≤ p.length + 1 ∧ p.length ≤ q.length + 1 :=
      h.near_of_fine ht hleaves hp hgraded hfine
    have hold : ∀ {q}, q ∈ t.leafPaths → q ≠ p → q ∈ u.leafPaths :=
      fun hq hne => (h.mem_leafPaths_iff ht hleaves hp).2 (Or.inl ⟨hq, hne⟩)
    rcases eq_or_ne x p with rfl | hxp
    · rcases eq_or_ne y x with rfl | hyp
      · exact Nat.le_succ _
      · exact (hnear hy hyp htouch.symm).2
    · rcases eq_or_ne y p with rfl | hyp
      · exact (hnear hx hxp htouch).1
      · exact hgraded x (hold hx hxp) y (hold hy hyp) htouch

end Coarsened

/-! ## The test -/

/-- The test of a node all of whose children are leaves looks at the neighbors of the children. -/
theorem exists_canCoarsen (ht : t.Valid) (hlevels : t.Locatable) (hp : t.follow p = some node)
    (howner : t.links.owner group = some node)
    (hleaves : ∀ v, Group.ofNode n v = group → t.links.firstChild v = none) :
    ∃ b, t.canCoarsen node = .ok b ∧ (b = true ↔
      ∀ c, c < 2 ^ n → ∀ q m, t.Adjoins (p ++ [c]) q m → q.length ≤ p.length + 1) := by
  have hlt := lt_capacity_of_follow ht.toLinked hp
  have hfirst := ((ht.paired.owner_iff group node).1 howner).2
  obtain ⟨only, honly, hiff⟩ := hasLeavesOnly_eq_of_owner ht.toLinked howner
  obtain rfl : only = true := hiff.2 hleaves
  have hchild : ∀ c, c < 2 ^ n → ∃ v, t.childAt? node c = some v :=
    fun c hc => childAt?_isSome (by rw [hfirst]; exact Option.some_ne_none _) hc
  have hfollow : ∀ {c v}, t.childAt? node c = some v → t.follow (p ++ [c]) = some v :=
    fun hv => follow_concat_eq_some_iff.2 ⟨node, hp, hv⟩
  -- The children have locations, so their level can be counted.
  have hlevel : Bounded.level (p.length + 1) = .ok (p.length + 1) := by
    obtain ⟨v, hv⟩ := hchild 0 (Nat.two_pow_pos n)
    have hle := hlevels.length_le ht.toLinked (hfollow hv)
    rw [List.length_append, List.length_singleton] at hle
    exact boundedLevel_eq hle
  have hanswers : ∀ v ∈ t.below node, ∃ b, t.isFinestAt (p.length + 1) v = .ok b := by
    intro v hv
    obtain ⟨c, hc⟩ := mem_below_iff.1 hv
    obtain ⟨b, hb, -⟩ := exists_isFinestAt ht.toLinked hlevels (hfollow hc) (p.length + 1)
    exact ⟨b, hb⟩
  obtain ⟨b, hb, hiff⟩ := exists_allM hanswers
  refine ⟨b, ?_, hiff.trans ?_⟩
  · rw [canCoarsen, isLeaf_of_owner ht.toLinked howner]
    simp only [bind, Except.bind, honly, hlevels.level_eq ht.toLinked hp, hlevel,
      children_eq ht.toLinked hlt, toList_childSpan, hb, Bool.false_eq_true, if_false, if_true]
  · constructor
    · intro hall c hc
      obtain ⟨v, hv⟩ := hchild c hc
      obtain ⟨b, hb, hiff⟩ := exists_isFinestAt ht.toLinked hlevels (hfollow hv) (p.length + 1)
      exact hiff.1 (Except.ok.inj (hb.symm.trans (hall v (mem_below_iff.2 ⟨c, hv⟩))))
    · intro hall v hv
      obtain ⟨c, hc⟩ := mem_below_iff.1 hv
      obtain ⟨-, -, hlt, -⟩ := childAt?_eq_some_iff.1 hc
      obtain ⟨b, hb, hiff⟩ := exists_isFinestAt ht.toLinked hlevels (hfollow hc) (p.length + 1)
      rw [hb, hiff.2 (hall c hlt)]

/-- A leaf has no children to remove. -/
theorem canCoarsen_of_leaf (hisLeaf : t.isLeaf node = .ok true) :
    t.canCoarsen node = .ok false := by
  rw [canCoarsen, hisLeaf]
  rfl

/-- A branch with a child that is no leaf is not coarsened. -/
theorem canCoarsen_of_owner (ht : t.Linked) (howner : t.links.owner group = some node) {v : Nat}
    (hv : Group.ofNode n v = group) (hbranch : t.links.firstChild v ≠ none) :
    t.canCoarsen node = .ok false := by
  obtain ⟨only, honly, hiff⟩ := hasLeavesOnly_eq_of_owner ht howner
  obtain rfl : only = false := by
    rw [Bool.eq_false_iff]
    exact fun htrue => hbranch (hiff.1 htrue v hv)
  rw [canCoarsen, isLeaf_of_owner ht howner]
  simp only [bind, Except.bind, honly, Bool.false_eq_true, if_false]
  rfl

/-! ## The edit -/

/-- Where the test fails nothing is changed. -/
theorem coarsenBalanced_of_not (h : t.canCoarsen node = .ok false) :
    coarsenBalanced node t = .ok false t := by
  have hwith : coarsenBalancedWith node t = .ok none t := by
    rw [coarsenBalancedWith, bind_of_ok (ask_of_ok h)]
    rfl
  rw [coarsenBalanced, bind_of_ok hwith]
  rfl

/-- Where the test holds the node is coarsened. -/
theorem coarsenBalanced_of_can (ht : t.Linked) (hlt : node < t.capacity)
    (h : t.canCoarsen node = .ok true) (hcoarsen : coarsen node t = .ok () u) :
    coarsenBalanced node t = .ok true u := by
  have hwith : coarsenBalancedWith node t = .ok (some (t.childSpan node)) u := by
    rw [coarsenBalancedWith, bind_of_ok (ask_of_ok h), if_pos rfl,
      bind_of_ok (ask_of_ok (children_eq ht hlt)), bind_of_ok hcoarsen]
    rfl
  rw [coarsenBalanced, bind_of_ok hwith]
  rfl

/-! ## Trees in balance -/

/-- A valid tree on levels that locations have, with graded leaves. -/
structure InBalance (t : Tree n) : Prop extends Valid t where
  locatable : t.Locatable
  graded : Graded n t.leafPaths

/-- Where locations reach all nodes, the check of the balance decides whether a tree is in balance. -/
theorem Valid.inBalance_iff (ht : t.Valid) (hlevels : t.Locatable) :
    t.InBalance ↔ t.isBalanced = .ok true := by
  obtain ⟨b, hb, hiff⟩ := exists_isBalanced ht hlevels
  rw [hb, Except.ok.injEq, hiff]
  exact ⟨InBalance.graded, fun hgraded => ⟨ht, hlevels, hgraded⟩⟩

/-- Detaching a group leaves the levels of the other nodes. -/
theorem Attached.locatable (h : Attached node group t u) (ht : t.Valid) (hu : u.Linked)
    (hlevels : u.Locatable) : t.Locatable := by
  intro v _ hv
  obtain ⟨p, hp⟩ := ht.exists_follow hv
  have hle := hlevels.length_le hu (h.follow_of_follow hp)
  exact ⟨p.length, hle, level_of_le ht.toLinked hp hle⟩

/-- All that coarsening in balance can do inside the capacity: a node with leaves only as children is coarsened if that
leaves the tree in balance, and nothing is changed otherwise. -/
theorem InBalance.coarsenBalanced_cases (ht : t.InBalance) (hlt : node < t.capacity) :
    coarsenBalanced node t = .ok false t ∧
        (∀ u, coarsen node t = .ok () u → ¬u.isBalanced = .ok true) ∨
      ∃ group u, t.links.owner group = some node ∧
        (∀ v, Group.ofNode n v = group → t.links.firstChild v = none) ∧
        coarsenBalanced node t = .ok true u ∧ coarsen node t = .ok () u ∧ u.InBalance := by
  have hrefused : ∀ {e}, coarsen node t = .error e t →
      ∀ u, coarsen node t = .ok () u → ¬u.isBalanced = .ok true := by
    intro e he u hu
    rw [he] at hu
    cases hu
  rcases coarsen_cases ht.toValid node with
    ⟨hfree, hcoarsen⟩ | ⟨-, hleaf, hcoarsen⟩ | ⟨group, howner, ⟨⟨v, hv, hbranch⟩, hcoarsen⟩ |
      ⟨hleaves, u, hcoarsen, hu, -, huvalid⟩⟩
  · have hleaf := (isLeaf_eq_true_iff hlt).2 (firstChild_of_not_live ht.toLinked hfree)
    exact Or.inl ⟨coarsenBalanced_of_not (canCoarsen_of_leaf hleaf), hrefused hcoarsen⟩
  · have hleaf := (isLeaf_eq_true_iff hlt).2 hleaf
    exact Or.inl ⟨coarsenBalanced_of_not (canCoarsen_of_leaf hleaf), hrefused hcoarsen⟩
  · have hcan := canCoarsen_of_owner ht.toLinked howner hv hbranch
    exact Or.inl ⟨coarsenBalanced_of_not hcan, hrefused hcoarsen⟩
  · -- Here alone both answers are possible, and the coarsened tree tells which one comes.
    obtain ⟨p, hp⟩ := huvalid.rooted hu.live
    have hlevels := hu.locatable huvalid ht.toLinked ht.locatable
    obtain ⟨b, hb, hiff⟩ :=
      exists_canCoarsen ht.toValid ht.locatable (hu.follow_of_follow hp) howner hleaves
    rw [← hu.graded_iff huvalid.toLinked hleaves hp ht.graded] at hiff
    cases b with
    | false =>
        refine Or.inl ⟨coarsenBalanced_of_not hb, ?_⟩
        intro u' hu'
        obtain ⟨-, rfl⟩ := EStateM.Result.ok.inj (hcoarsen.symm.trans hu')
        rw [← huvalid.inBalance_iff hlevels]
        exact fun hbalance => Bool.false_ne_true (hiff.2 hbalance.graded)
    | true =>
        exact Or.inr ⟨group, u, howner, hleaves,
          coarsenBalanced_of_can ht.toLinked hlt hb hcoarsen, hcoarsen, huvalid, hlevels,
          hiff.1 rfl⟩

/-- A call of coarsening in balance leaves the tree in balance. -/
theorem InBalance.after (ht : t.InBalance) (node : Nat) :
    (Call.after (.coarsenBalanced node) t).InBalance := by
  have hrun : ∀ {b u}, coarsenBalanced node t = .ok b u →
      Call.after (.coarsenBalanced node) t = u := by
    intro b u hu
    rw [Call.after, Call.run, bind_of_ok hu]
    rfl
  rcases Nat.lt_or_ge node t.capacity with hlt | hge
  · rcases ht.coarsenBalanced_cases hlt with ⟨h, -⟩ | ⟨group, u, -, -, h, -, hu⟩
    · rwa [hrun h]
    · rwa [hrun h]
  · -- A number past the capacity is refused, which leaves the tree as it is.
    have hcan : t.canCoarsen node = .error (.nodeRange node t.capacity) := by
      rw [canCoarsen, isLeaf_of_le hge]
      rfl
    have hwith : coarsenBalancedWith node t = .error (.nodeRange node t.capacity) t := by
      rw [coarsenBalancedWith, bind_of_error (ask_of_error hcan)]
    have hrefused : coarsenBalanced node t = .error (.nodeRange node t.capacity) t := by
      rw [coarsenBalanced, bind_of_error hwith]
    rw [Call.after, Call.run, bind_of_error hrefused]
    exact ht

/-- No run of balanced coarsenings, whatever their nodes, brings a tree out of balance. -/
theorem InBalance.afterCalls (ht : t.InBalance) (nodes : List Nat) :
    (t.afterCalls (nodes.map .coarsenBalanced)).InBalance := by
  induction nodes generalizing t with
  | nil => exact ht
  | cons node nodes ih => exact ih (ht.after node)

/-- The answer `b` and the tree `u` are those of an exact decision whether to coarsen `node`. -/
structure CoarsensExactly (t : Tree n) (node : Nat) (b : Bool) (u : Tree n) : Prop where
  /-- The node is coarsened iff it has children, all of them leaves, and the coarsened tree is balanced. -/
  accepted_iff : b = true ↔ t.contains node = .ok true ∧ t.isLeaf node = .ok false ∧
    (∀ child, t.contains child = .ok true → t.parent child = .ok (some node) →
      t.isLeaf child = .ok true) ∧
    ∃ v, coarsen node t = .ok () v ∧ v.isBalanced = .ok true
  /-- If it is coarsened, it is so as by `coarsen`. -/
  coarsened : b = true → coarsen node t = .ok () u
  /-- If it is not, nothing changes. -/
  kept : b = false → u = t

/-- The decision is exact for every number below the capacity, be it a node or free: what keeps the balance is
coarsened, and nothing else changes anything. -/
theorem InBalance.exists_coarsensExactly (ht : t.InBalance) (hlt : node < t.capacity) :
    ∃ b u, coarsenBalanced node t = .ok b u ∧ t.CoarsensExactly node b u := by
  rcases ht.coarsenBalanced_cases hlt with
    ⟨h, hnot⟩ | ⟨group, u, howner, hleaves, h, hcoarsen, hu⟩
  · refine ⟨false, t, h, ?_, nofun, fun _ => rfl⟩
    constructor
    · nofun
    · rintro ⟨-, -, -, v, hv, hvbalanced⟩
      exact absurd hvbalanced (hnot v hv)
  · refine ⟨true, u, h, ?_, fun _ => hcoarsen, nofun⟩
    refine ⟨fun _ => ⟨?_, ?_, ?_, u, hcoarsen, ?_⟩, fun _ => rfl⟩
    · exact (contains_eq_true_iff ht.toSized node).2 (live_of_owner ht.toLinked howner)
    · exact isLeaf_of_owner ht.toLinked howner
    · intro child hchild hparent
      have hchild := ((contains_eq_true_iff ht.toSized child).1 hchild).lt_capacity ht.toSized
      rw [parent_eq ht.toLinked hchild, Except.ok.injEq] at hparent
      exact (isLeaf_eq_true_iff hchild).2
        (hleaves child (ht.paired.owner_injective hparent howner))
    · exact (hu.toValid.inBalance_iff hu.locatable).1 hu

/-- **Exactness of coarsening in balance.**  A node is coarsened iff its children are all leaves and the coarsened tree
is balanced; the tree is then the coarsened one, and otherwise it stays.  So any run of such calls keeps the balance. -/
theorem Reachable.coarsenBalanced_exact (h : t.Reachable) (hlevels : t.Locatable)
    (hbalanced : t.isBalanced = .ok true) :
    (∀ node, node < t.capacity →
      ∃ b u, coarsenBalanced node t = .ok b u ∧ t.CoarsensExactly node b u) ∧
    ∀ nodes : List Nat, (t.afterCalls (nodes.map .coarsenBalanced)).isBalanced = .ok true := by
  have ht : t.InBalance := (h.valid.inBalance_iff hlevels).2 hbalanced
  refine ⟨fun node hlt => ht.exists_coarsensExactly hlt, ?_⟩
  intro nodes
  have hrun := ht.afterCalls nodes
  exact (hrun.toValid.inBalance_iff hrun.locatable).1 hrun

/-- An interval refined twice, and once more beside its middle. -/
theorem Reachable.coarsenBalanced_exact_interval :
    (∀ node, node < ((rootOnly 1 5).afterCalls
        [.refine 0, .refine 1, .refine 2, .refine 4]).capacity →
      ∃ b u, coarsenBalanced node ((rootOnly 1 5).afterCalls
          [.refine 0, .refine 1, .refine 2, .refine 4]) = .ok b u ∧
        ((rootOnly 1 5).afterCalls
          [.refine 0, .refine 1, .refine 2, .refine 4]).CoarsensExactly node b u) ∧
    ∀ nodes : List Nat, (((rootOnly 1 5).afterCalls
      [.refine 0, .refine 1, .refine 2, .refine 4]).afterCalls
        (nodes.map .coarsenBalanced)).isBalanced = .ok true :=
  Reachable.coarsenBalanced_exact ((Reachable.new 9 rfl).afterCalls
    [.refine 0, .refine 1, .refine 2, .refine 4]) (by decide +kernel) (by decide +kernel)

/-- The other half of the interval cannot be coarsened before the finest leaves are gone. -/
example : ((rootOnly 1 5).afterCalls
    [.refine 0, .refine 1, .refine 2, .refine 4, .coarsenBalanced 2]).isLeaf 2 = .ok false ∧
  ((rootOnly 1 5).afterCalls [.refine 0, .refine 1, .refine 2, .refine 4, .coarsenBalanced 4,
    .coarsenBalanced 2]).isLeaf 2 = .ok true := by
  decide +kernel

end Orthtree.Tree
