import Orthtree.Proofs.Alike
import Orthtree.Proofs.BalancedCoarsening
import Orthtree.Proofs.Canonical
import Orthtree.Proofs.Growing

/-!
# Layouts

Two trees with the same paths may store their nodes in different places.  The nodes at the end of one path are then in
the `SamePlace`, and no query about places tells the trees apart: whatever it finds in one tree is in the same place as
what it finds in the other (`Reachable.layouts_alike`).  Each query is compared with itself along its own definition,
from looking for a location to coarsening in balance; the walk and the neighbors need no more of the numbers of nodes
than that `SamePlace` is one-to-one.
-/

namespace Orthtree.Tree

variable {n : Nat} {t u : Tree n} {a b position : Nat} {p q visited stack : List Nat}

/-! ## The same place -/

/-- One path leads to `a` in `t` and to `b` in `u`. -/
def SamePlace (t u : Tree n) (a b : Nat) : Prop :=
  ∃ path, t.follow path = some a ∧ u.follow path = some b

/-- What was found is in the same place and on the same level. -/
def SameFound (t u : Tree n) (x y : Found) : Prop := SamePlace t u x.node y.node ∧ x.level = y.level

theorem SamePlace.symm (h : SamePlace t u a b) : SamePlace u t b a := by
  obtain ⟨p, ha, hb⟩ := h
  exact ⟨p, hb, ha⟩

theorem samePlace_zero (t u : Tree n) : SamePlace t u 0 0 := ⟨[], rfl, rfl⟩

/-- Two valid trees with the same paths. -/
structure SamePaths (t u : Tree n) : Prop where
  left : t.Valid
  right : u.Valid
  paths_eq : t.paths = u.paths

namespace SamePaths

theorem symm (h : SamePaths t u) : SamePaths u t := ⟨h.right, h.left, h.paths_eq.symm⟩

/-- What a path reaches in one tree it reaches in the other. -/
theorem exists_follow (h : SamePaths t u) (hp : t.follow p = some a) :
    ∃ b, u.follow p = some b := by
  rw [← Option.isSome_iff_exists, ← mem_paths_iff, ← h.paths_eq, mem_paths_iff, hp]
  rfl

/-- Every node of the one tree is in the same place as a node of the other. -/
theorem exists_samePlace (h : SamePaths t u) (ha : t.contains a = .ok true) :
    ∃ b, u.contains b = .ok true ∧ SamePlace t u a b := by
  obtain ⟨p, hp⟩ := h.left.exists_follow ha
  obtain ⟨b, hb⟩ := h.exists_follow hp
  exact ⟨b, contains_of_follow h.right.toLinked hb, p, hp, hb⟩

/-- A node of the first tree has at most one node of the second in its place. -/
theorem right_eq_of_left_eq (h : SamePaths t u) {b' : Nat} (hb : SamePlace t u a b)
    (hb' : SamePlace t u a b') : b = b' := by
  obtain ⟨p, hp, hpb⟩ := hb
  obtain ⟨p', hp', hpb'⟩ := hb'
  obtain rfl := follow_injective h.left.toLinked hp hp'
  exact Option.some_injective _ (hpb.symm.trans hpb')

theorem biUnique (h : SamePaths t u) : Relator.BiUnique (SamePlace t u) :=
  ⟨fun _ _ _ ha ha' => h.symm.right_eq_of_left_eq ha.symm ha'.symm,
    fun _ _ _ hb hb' => h.right_eq_of_left_eq hb hb'⟩

/-! ## Nodes in the same place -/

section Nodes

variable (h : SamePaths t u) (hab : SamePlace t u a b)

include h hab

theorem lt_capacity : a < t.capacity ∧ b < u.capacity := by
  obtain ⟨p, ha, hb⟩ := hab
  exact ⟨lt_capacity_of_follow h.left.toLinked ha, lt_capacity_of_follow h.right.toLinked hb⟩

/-- Nodes in the same place are leaves in both trees or in neither. -/
theorem isNone_firstChild : (t.links.firstChild a).isNone = (u.links.firstChild b).isNone := by
  obtain ⟨p, ha, hb⟩ := hab
  have hsome := isSome_firstChild_iff h.paths_eq ha hb
  rw [← Option.not_isSome, ← Option.not_isSome, Bool.eq_iff_iff.2 hsome]

theorem isLeaf_eq : t.isLeaf a = u.isLeaf b := by
  obtain ⟨hlt, hlt'⟩ := h.lt_capacity hab
  rw [isLeaf_of_lt hlt, isLeaf_of_lt hlt', h.isNone_firstChild hab]

theorem level_eq : t.level a = u.level b := by
  obtain ⟨p, ha, hb⟩ := hab
  rw [Tree.level_eq h.left.toLinked ha, Tree.level_eq h.right.toLinked hb]

theorem location_eq : t.location a = u.location b := by
  obtain ⟨p, ha, hb⟩ := hab
  rw [location, location, pathTo_eq h.left.toLinked ha, pathTo_eq h.right.toLinked hb]

/-- The children at one position are in the same place. -/
theorem childAt? (position : Nat) :
    Option.Rel (SamePlace t u) (t.childAt? a position) (u.childAt? b position) := by
  obtain ⟨p, ha, hb⟩ := hab
  have hpath := Set.ext_iff.1 h.paths_eq (p ++ [position])
  rw [mem_paths_iff, mem_paths_iff, follow_concat, follow_concat, ha, hb, Option.bind_some,
    Option.bind_some] at hpath
  cases hc : t.childAt? a position with
  | none =>
      rw [hc, Option.isSome_none, Bool.false_eq_true, false_iff, Option.not_isSome_iff_eq_none]
        at hpath
      rw [hpath]
      exact .none
  | some c =>
      obtain ⟨d, hd⟩ := Option.isSome_iff_exists.1 (hpath.1 (by rw [hc]; rfl))
      rw [hd]
      exact .some ⟨p ++ [position], follow_concat_eq_some_iff.2 ⟨a, ha, hc⟩,
        follow_concat_eq_some_iff.2 ⟨b, hb, hd⟩⟩

theorem child (position : Nat) :
    AnswersAlike (Option.Rel (SamePlace t u)) (t.child a position) (u.child b position) := by
  obtain ⟨hlt, hlt'⟩ := h.lt_capacity hab
  by_cases hposition : position < 2 ^ n
  · rw [child_eq h.left.toLinked hlt hposition, child_eq h.right.toLinked hlt' hposition]
    exact .ok (h.childAt? hab position)
  · rw [Tree.child, Tree.child, if_neg hposition, if_neg hposition]
    exact .error _

/-- The children are in the same places, one by one. -/
theorem below : List.Forall₂ (SamePlace t u) (t.below a) (u.below b) := by
  rw [below_eq_filterMap, below_eq_filterMap]
  have hchild : Relator.LiftFun Eq (Option.Rel (SamePlace t u)) (t.childAt? a) (u.childAt? b) := by
    rintro position _ rfl
    exact h.childAt? hab position
  exact List.rel_filterMap hchild (List.forall₂_same.2 fun _ _ => rfl)

/-- Tests of children that agree in the same places agree on all children. -/
theorem allM_children {test test' : Nat → Except Fault Bool}
    (htest : ∀ c d, SamePlace t u c d → test c = test' d) :
    (do (← t.children a).toList.allM test) = (do (← u.children b).toList.allM test') := by
  obtain ⟨hlt, hlt'⟩ := h.lt_capacity hab
  rw [children_eq h.left.toLinked hlt, children_eq h.right.toLinked hlt']
  show (t.childSpan a).toList.allM test = (u.childSpan b).toList.allM test'
  rw [toList_childSpan, toList_childSpan]
  exact allM_eq_allM (h.below hab) htest

theorem hasLeavesOnly_eq : t.hasLeavesOnly a = u.hasLeavesOnly b :=
  h.allM_children hab fun _ _ hcd => h.isLeaf_eq hcd

end Nodes

/-! ## Looking for locations -/

/-- What is found on the way to a location is in the same place. -/
theorem deepestAt (h : SamePaths t u) (l : Location n) :
    BothAnswer (SameFound t u) (t.deepestAt l) (u.deepestAt l) := by
  obtain ⟨met, rest, a, hta, hpath, ha, hrest⟩ := exists_deepestAt h.left.toLinked l
  obtain ⟨b, hb⟩ := h.exists_follow ha
  have hab : SamePlace t u a b := ⟨met, ha, hb⟩
  have hrest' : rest ≠ [] → u.links.firstChild b = none := by
    intro hne
    rw [← Option.isNone_iff_eq_none, ← h.isNone_firstChild hab, hrest hne, Option.isNone_none]
  exact ⟨_, _, hta, deepestAt_eq h.right.toLinked hpath hb hrest', hab, rfl⟩

theorem nodeAt (h : SamePaths t u) (l : Location n) :
    AnswersAlike (Option.Rel (SamePlace t u)) (t.nodeAt l) (u.nodeAt l) := by
  apply (h.deepestAt l).alike.bind
  rintro x y ⟨hplace, hlevel⟩
  rw [hlevel]
  split
  · exact .ok (.some hplace)
  · exact .ok .none

/-! ## Neighbors -/

theorem neighbor (h : SamePaths t u) (l : Location n) (s : Stencil) (position : Nat) :
    AnswersAlike (Option.Rel (SamePlace t u)) (t.neighbor l s position)
      (u.neighbor l s position) := by
  apply AnswersAlike.bind_same
  rintro (_ | k)
  · exact .ok .none
  · exact h.nodeAt k

theorem isCoarseAt_eq (h : SamePaths t u) {x y : Found} (hxy : SameFound t u x y)
    (k : Location n) : t.isCoarseAt k x = u.isCoarseAt k y := by
  rw [isCoarseAt, isCoarseAt, hxy.2, h.isLeaf_eq hxy.1]

/-- At each position of a stencil nodes in the same places are added. -/
theorem addNeighbors (h : SamePaths t u) (l : Location n) (s : Stencil) {before before' : List Nat}
    (hbefore : List.Forall₂ (SamePlace t u) before before') (position : Nat) :
    AnswersAlike (List.Forall₂ (SamePlace t u)) (t.addNeighbors l s before position)
      (u.addNeighbors l s before' position) := by
  apply AnswersAlike.bind_same
  rintro (_ | k)
  · exact .ok hbefore
  · apply (h.deepestAt k).alike.bind
    rintro x y hxy
    rw [h.isCoarseAt_eq hxy]
    apply AnswersAlike.bind_same
    intro coarse
    split
    · -- Both trees have met the node before, or neither has.
      have hmem : x.node ∈ before ↔ y.node ∈ before' := List.rel_mem h.biUnique hxy.1 hbefore
      simp only [hmem]
      split
      · exact .ok hbefore
      · exact .ok (List.rel_append hbefore (.cons hxy.1 .nil))
    · apply AnswersAlike.bind_same
      intro facing
      apply (AnswersAlike.mapM (h.child hxy.1) facing).bind
      intro finer finer' hfiner
      exact .ok (List.rel_append hbefore (List.rel_filterMap (fun _ _ hcd => hcd) hfiner))

/-- The neighbors across a stencil are in the same places, and listed in the same order, which is that of the positions.
-/
theorem neighborsAcross (h : SamePaths t u) (l : Location n) (s : Stencil) :
    AnswersAlike (List.Forall₂ (SamePlace t u)) (t.neighborsAcross l s)
      (u.neighborsAcross l s) :=
  AnswersAlike.foldlM (fun _ _ hbefore position => h.addNeighbors l s hbefore position) _ .nil

/-- The neighbors of both trees are in the same places; by number they may come in another order. -/
theorem allNeighbors (h : SamePaths t u) (l : Location n) :
    AnswersAlike (SameMembers (SamePlace t u)) (t.allNeighbors l) (u.allNeighbors l) := by
  apply AnswersAlike.bind_same
  intro stencils
  apply (AnswersAlike.mapM (h.neighborsAcross l) stencils).bind
  intro lists lists' hlists
  apply AnswersAlike.ok
  have hmembers := SameMembers.of_forall₂ (List.rel_flatten hlists)
  simpa only [SameMembers, mem_ascending] using hmembers

/-! ## The depth-first walk -/

/-- The walks of both trees go side by side. -/
theorem exists_walk (h : SamePaths t u) (hwalk : t.Walk visited stack) :
    ∃ visited' stack', u.Walk visited' stack' ∧ List.Forall₂ (SamePlace t u) visited visited' ∧
      List.Forall₂ (SamePlace t u) stack stack' := by
  induction hwalk with
  | start => exact ⟨[], [0], .start, .nil, .cons (samePlace_zero t u) .nil⟩
  | step _ ih =>
      obtain ⟨visited', _, hwalk', hvisited, hstack⟩ := ih
      cases hstack with
      | cons hnode hstack =>
          exact ⟨_, _, hwalk'.step, List.rel_append hvisited (.cons hnode .nil),
            List.rel_append (h.below hnode) hstack⟩

/-- The walks visit nodes in the same place in each step. -/
theorem depthFirst (h : SamePaths t u) :
    BothAnswer (List.Forall₂ (SamePlace t u)) t.depthFirst u.depthFirst := by
  obtain ⟨order, hwalk⟩ := Tree.exists_walk h.left.toLinked
  obtain ⟨order', stack', hwalk', horder, hstack⟩ := h.exists_walk hwalk
  obtain rfl := List.forall₂_nil_left_iff.1 hstack
  exact ⟨order, order', hwalk.depthFirst_eq h.left.toLinked,
    hwalk'.depthFirst_eq h.right.toLinked, horder⟩

/-! ## Balance -/

/-- The paths to leaves are the same. -/
theorem leafPaths_eq (h : SamePaths t u) : t.leafPaths = u.leafPaths := by
  have hsub : ∀ {t u : Tree n}, SamePaths t u → t.leafPaths ⊆ u.leafPaths := by
    rintro t u h p ⟨a, ha, hleaf⟩
    obtain ⟨b, hb⟩ := h.exists_follow ha
    refine ⟨b, hb, ?_⟩
    rw [← Option.isNone_iff_eq_none, ← h.isNone_firstChild ⟨p, ha, hb⟩, hleaf, Option.isNone_none]
  exact Set.Subset.antisymm (hsub h) (hsub h.symm)

/-- If locations reach all nodes of one tree, so they do in the other. -/
theorem locatable (h : SamePaths t u) (hlevels : t.Locatable) : u.Locatable := by
  intro b _ hb
  obtain ⟨p, hp⟩ := h.right.exists_follow hb
  obtain ⟨a, ha⟩ := h.symm.exists_follow hp
  have hle := hlevels.length_le h.left.toLinked ha
  exact ⟨p.length, hle, level_of_le h.right.toLinked hp hle⟩

/-- The nodes that adjoin a path are in the same places. -/
theorem exists_adjoins (h : SamePaths t u) (hadjoins : t.Adjoins p q a) :
    ∃ b, u.Adjoins p q b := by
  obtain ⟨b, hb⟩ := h.exists_follow hadjoins.follow
  refine ⟨b, hb, hadjoins.not_above, hadjoins.not_below, hadjoins.touch, ?_⟩
  rw [← Option.isNone_iff_eq_none, ← h.isNone_firstChild ⟨q, hadjoins.follow, hb⟩,
    Option.isNone_iff_eq_none]
  exact hadjoins.coarse_or_finer

/-- The balance is a fact about the paths to leaves, so both checks find the same. -/
theorem isBalanced (h : SamePaths t u) (hlevels : t.Locatable) :
    BothAnswer Eq t.isBalanced u.isBalanced := by
  obtain ⟨b, hb, hiff⟩ := exists_isBalanced h.left hlevels
  obtain ⟨b', hb', hiff'⟩ := exists_isBalanced h.right (h.locatable hlevels)
  refine ⟨b, b', hb, hb', ?_⟩
  rw [Bool.eq_iff_iff, hiff, hiff', h.leafPaths_eq]

/-- What is finer than a level around a node is so in both trees. -/
theorem isFinestAt_eq (h : SamePaths t u) (hlevels : t.Locatable) (hab : SamePlace t u a b)
    (level : Nat) : t.isFinestAt level a = u.isFinestAt level b := by
  obtain ⟨p, ha, hb⟩ := hab
  obtain ⟨r, hr, hiff⟩ := exists_isFinestAt h.left.toLinked hlevels ha level
  obtain ⟨r', hr', hiff'⟩ :=
    exists_isFinestAt h.right.toLinked (h.locatable hlevels) hb level
  rw [hr, hr', Except.ok.injEq, Bool.eq_iff_iff, hiff, hiff']
  constructor
  · intro hall q m hadjoins
    obtain ⟨m', hadjoins'⟩ := h.symm.exists_adjoins hadjoins
    exact hall q m' hadjoins'
  · intro hall q m hadjoins
    obtain ⟨m', hadjoins'⟩ := h.exists_adjoins hadjoins
    exact hall q m' hadjoins'

/-- Nodes in the same place can be coarsened in both trees or in neither. -/
theorem canCoarsen_eq (h : SamePaths t u) (hlevels : t.Locatable) (hab : SamePlace t u a b) :
    t.canCoarsen a = u.canCoarsen b := by
  have hfinest : ∀ level, (do (← t.children a).toList.allM (t.isFinestAt level)) =
      (do (← u.children b).toList.allM (u.isFinestAt level)) :=
    fun level => h.allM_children hab fun _ _ hcd => h.isFinestAt_eq hlevels hcd level
  simp only [canCoarsen, h.isLeaf_eq hab, h.hasLeavesOnly_eq hab, h.level_eq hab, hfinest]

end SamePaths

/-- Detaching a group takes away the paths that end in it. -/
theorem Attached.paths_eq {node group : Nat} (h : Attached node group t u) (ht : t.Linked)
    (hp : t.follow p = some node) : t.paths = {q ∈ u.paths | ∀ c, q ≠ p ++ [c]} := by
  ext q
  constructor
  · intro hq
    obtain ⟨v, hv⟩ := Option.isSome_iff_exists.1 hq
    refine ⟨?_, ?_⟩
    · rw [mem_paths_iff, h.follow_of_follow hv]
      rfl
    · rintro c rfl
      rw [follow_concat, hp, Option.bind_some, childAt?_of_leaf h.leaf] at hv
      cases hv
  · rintro ⟨hq, hne⟩
    rwa [mem_paths_iff, ← h.follow_eq ht hp fun c _ => hne c]

/-- Coarsening in balance answers with the result of its test, and takes away the children of the node if it holds. -/
theorem exists_coarsenBalanced (ht : t.Valid) (hlevels : t.Locatable) (hp : t.follow p = some a) :
    ∃ r t', t.canCoarsen a = .ok r ∧ coarsenBalanced a t = .ok r t' ∧
      t'.paths = {q ∈ t.paths | r = true → ∀ c, q ≠ p ++ [c]} := by
  have hlive := live_of_follow ht.toLinked hp
  have hlt := hlive.lt_capacity ht.toSized
  have hrefused : t.canCoarsen a = .ok false →
      ∃ r t', t.canCoarsen a = .ok r ∧ coarsenBalanced a t = .ok r t' ∧
        t'.paths = {q ∈ t.paths | r = true → ∀ c, q ≠ p ++ [c]} :=
    fun hcan => ⟨false, t, hcan, coarsenBalanced_of_not hcan, by simp⟩
  rcases coarsen_cases ht a with
    ⟨hfree, -⟩ | ⟨-, hleaf, -⟩ | ⟨group, howner, ⟨⟨v, hv, hbranch⟩, -⟩ |
      ⟨hleaves, t', hcoarsen, hattached, -, ht'⟩⟩
  · exact absurd hlive hfree
  · exact hrefused (canCoarsen_of_leaf ((isLeaf_eq_true_iff hlt).2 hleaf))
  · exact hrefused (canCoarsen_of_owner ht.toLinked howner hv hbranch)
  · obtain ⟨r, hr, -⟩ := exists_canCoarsen ht hlevels hp howner hleaves
    cases r with
    | false => exact hrefused hr
    | true =>
        refine ⟨true, t', hr, coarsenBalanced_of_can ht.toLinked hlt hr hcoarsen, ?_⟩
        have hp' := hattached.follow_of_live ht'.toLinked hattached.live hp
        simp only [hattached.paths_eq ht'.toLinked hp', forall_const]

/-! ## Trees that look alike -/

/-- Looking for the node at a location is never refused. -/
theorem exists_nodeAt (ht : t.Linked) (l : Location n) : ∃ found, t.nodeAt l = .ok found := by
  obtain ⟨_, _, _, hdeepest, -⟩ := exists_deepestAt ht l
  rw [nodeAt, hdeepest]
  exact ⟨_, rfl⟩

/-- At the positions of a stencil a neighbor is looked for. -/
theorem exists_neighbor (ht : t.Linked) (l : Location n) {s : Stencil} (hs : s.dimension = n)
    (hposition : position ∈ s.positions) : ∃ found, t.neighbor l s position = .ok found := by
  obtain ⟨offset, facing, hlooks, -⟩ := Stencil.exists_looks hs hposition
  have hlocation := neighborLocation_eq hlooks.offset_eq l
  rcases Location.shift_cases ht.supported l offset with ⟨k, hk, -⟩ | ⟨hnone, -⟩
  · obtain ⟨found, hfound⟩ := exists_nodeAt ht k
    rw [neighbor, hlocation, hk]
    exact ⟨found, hfound⟩
  · rw [neighbor, hlocation, hnone]
    exact ⟨none, rfl⟩

/-- No query about places tells the trees apart. -/
structure LooksAlike (t u : Tree n) : Prop where
  /-- The nodes of the trees are in the same places, one by one. -/
  exists_right (a : Nat) : t.contains a = .ok true →
    ∃ b, u.contains b = .ok true ∧ SamePlace t u a b
  exists_left (b : Nat) : u.contains b = .ok true →
    ∃ a, t.contains a = .ok true ∧ SamePlace t u a b
  biUnique : Relator.BiUnique (SamePlace t u)
  location_eq (a b : Nat) : SamePlace t u a b → t.location a = u.location b
  deepestAt (l : Location n) : BothAnswer (SameFound t u) (t.deepestAt l) (u.deepestAt l)
  neighbor (l : Location n) (s : Stencil) (position : Nat) : s.dimension = n →
    position ∈ s.positions → BothAnswer (Option.Rel (SamePlace t u)) (t.neighbor l s position)
      (u.neighbor l s position)
  neighborsAcross (l : Location n) (s : Stencil) : s.dimension = n →
    BothAnswer (List.Forall₂ (SamePlace t u)) (t.neighborsAcross l s) (u.neighborsAcross l s)
  allNeighbors (l : Location n) :
    BothAnswer (SameMembers (SamePlace t u)) (t.allNeighbors l) (u.allNeighbors l)
  depthFirst : BothAnswer (List.Forall₂ (SamePlace t u)) t.depthFirst u.depthFirst
  isBalanced : BothAnswer Eq t.isBalanced u.isBalanced
  /-- Coarsening in balance answers the same, and leaves trees with the same paths. -/
  coarsenBalanced (a b : Nat) : SamePlace t u a b → ∃ r t' u',
    Tree.coarsenBalanced a t = .ok r t' ∧ Tree.coarsenBalanced b u = .ok r u' ∧
      t'.paths = u'.paths

/-- Trees with the same paths look alike: each query has been compared above, and balanced coarsening after the queries.
-/
theorem SamePaths.looksAlike (h : SamePaths t u) (hlevels : t.Locatable) : LooksAlike t u where
  exists_right a := h.exists_samePlace
  exists_left b hb := by
    obtain ⟨a, ha, hba⟩ := h.symm.exists_samePlace hb
    exact ⟨a, ha, hba.symm⟩
  biUnique := h.biUnique
  location_eq _ _ hab := h.location_eq hab
  deepestAt := h.deepestAt
  neighbor l s position hs hposition := by
    obtain ⟨found, hfound⟩ := exists_neighbor h.left.toLinked l hs hposition
    exact (h.neighbor l s position).bothAnswer hfound
  neighborsAcross l s hs := by
    obtain ⟨found, hfound, -⟩ := exists_neighborsAcross h.left.toLinked l hs
    exact (h.neighborsAcross l s).bothAnswer hfound
  allNeighbors l := by
    obtain ⟨found, hfound, -⟩ := exists_allNeighbors h.left.toLinked l
    exact (h.allNeighbors l).bothAnswer hfound
  depthFirst := h.depthFirst
  isBalanced := h.isBalanced hlevels
  coarsenBalanced a b hab := by
    obtain ⟨p, ha, hb⟩ := hab
    obtain ⟨r, t', hcan, ht', hpaths⟩ := exists_coarsenBalanced h.left hlevels ha
    obtain ⟨r', u', hcan', hu', hpaths'⟩ :=
      exists_coarsenBalanced h.right (h.locatable hlevels) hb
    rw [h.canCoarsen_eq hlevels ⟨p, ha, hb⟩, hcan'] at hcan
    obtain rfl := Except.ok.inj hcan
    refine ⟨r', t', u', ht', hu', ?_⟩
    rw [hpaths, hpaths', h.paths_eq]

/-! ## Moving groups -/

/-- A call that moves groups leaves the paths. -/
theorem Valid.paths_after (ht : t.Valid) {call : Call} (hcall : call.movesGroups = true) :
    (call.after t).paths = t.paths := by
  cases call with
  | swap a b =>
      rcases swap_cases ht a b with ⟨e, h, -⟩ | ⟨-, u, h, hσ, -⟩
      · rw [Call.after, Call.run, h]
        rfl
      · rw [Call.after, Call.run, h]
        exact hσ.paths_eq ht.toLinked
  | sort =>
      obtain ⟨pairs, σ, order, last, u, h, hmoved, -⟩ := sortWith_eq ht
      rw [Call.after, Call.run, sort_eq h]
      exact hmoved.renumbers.paths_eq ht.toLinked
  | sortWith =>
      obtain ⟨pairs, σ, order, last, u, h, hmoved, -⟩ := sortWith_eq ht
      rw [Call.after, Call.run, bind_of_ok h]
      exact hmoved.renumbers.paths_eq ht.toLinked
  | refine node => cases hcall
  | coarsen node => cases hcall
  | coarsenBalanced node => cases hcall
  | coarsenBalancedWith node => cases hcall

/-- Calls that only bring groups to other places keep all paths. -/
theorem Valid.paths_afterCalls (ht : t.Valid) {calls : List Call}
    (hcalls : ∀ call ∈ calls, call.movesGroups = true) : (t.afterCalls calls).paths = t.paths := by
  induction calls generalizing t with
  | nil => rfl
  | cons call calls ih =>
      obtain ⟨hcall, hcalls⟩ := List.forall_mem_cons.1 hcalls
      exact (ih (call.keeps t ht) hcalls).trans (ht.paths_after hcall)

/-- **Independence of the layout.**  Reachable trees with the same paths look alike, whatever has happened to them and
however much room they have.  In particular a tree looks the same however its groups are moved. -/
theorem Reachable.layouts_alike (h : t.Reachable) (hlevels : t.Locatable) :
    (∀ u : Tree n, u.Reachable → t.paths = u.paths → LooksAlike t u) ∧
    ∀ calls : List Call, (∀ call ∈ calls, call.movesGroups = true) →
      LooksAlike t (t.afterCalls calls) := by
  have halike : ∀ u : Tree n, u.Reachable → t.paths = u.paths → LooksAlike t u :=
    fun u hu hpaths => SamePaths.looksAlike ⟨h.valid, hu.valid, hpaths⟩ hlevels
  refine ⟨halike, ?_⟩
  intro calls hcalls
  exact halike _ (h.afterCalls calls) (h.valid.paths_afterCalls hcalls).symm

/-- A tree that fills its room, and one with more room whose groups are out of order. -/
theorem Reachable.layouts_alike_scattered :
    LooksAlike ((rootOnly 2 3).afterCalls [.refine 0, .refine 3])
      ((rootOnly 2 5).afterCalls [.refine 0, .refine 3, .swap 1 3]) := by
  have ht := (Reachable.new (t := rootOnly 2 3) 9 rfl).afterCalls [.refine 0, .refine 3]
  have hu := (Reachable.new (t := rootOnly 2 5) 17 rfl).afterCalls [.refine 0, .refine 3]
  obtain ⟨halike, -⟩ := Reachable.layouts_alike ht (by decide +kernel)
  apply halike _ (hu.afterCalls [.swap 1 3])
  rw [hu.valid.paths_afterCalls (by decide)]
  obtain ⟨b, hb, hsame⟩ := agrees_eq ht.valid hu.valid
  exact (hsame.1 (Except.ok.inj (hb.symm.trans (by decide)))).paths_eq

end Orthtree.Tree
