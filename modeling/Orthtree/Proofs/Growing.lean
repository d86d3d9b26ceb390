import Orthtree.Proofs.Histories
import Orthtree.Proofs.Neighbors

/-!
# Stable node numbers

Seen from outside, a tree is a map from paths to nodes.  Refining adds the steps from a leaf to its children to that map
and coarsening takes them away again; everything else stays (`Grows`).  So as long as no groups are moved, a node is
found at the end of the same path until its group is freed (`Valid.follow_afterCalls`), although groups that become free
are used again for other places.
-/

namespace Orthtree.Tree

variable {n : Nat} {t u : Tree n} {node group : Nat} {path : List Nat} {α β : Type}

/-! ## The map of paths -/

/-- Nodes and paths tell each other. -/
theorem pathTo_eq_ok_iff (ht : t.Valid) : t.pathTo node = .ok path ↔ t.follow path = some node := by
  constructor
  · intro h
    by_cases hlive : t.Live node
    · obtain ⟨p, hp⟩ := ht.rooted hlive
      rwa [← Except.ok.inj ((pathTo_eq ht.toLinked hp).symm.trans h)]
    · rw [pathTo, contains_eq ht.toSized, decide_eq_false hlive] at h
      cases h
  · exact pathTo_eq ht.toLinked

/-- `u` is `t` with the members of the free group `group` as children of the leaf `node`, to which `path` leads. -/
structure Grows (path : List Nat) (node group : Nat) (t u : Tree n) : Prop where
  follow_path : t.follow path = some node
  leaf : t.isLeaf node = .ok true
  free : t.isInUse group = .ok false
  childrenGroup_eq : u.childrenGroup node = .ok (some group)
  /-- The steps to the children are new. -/
  follow_child (i : Nat) : i < 2 ^ n →
    t.follow (path ++ [i]) = none ∧ u.follow (path ++ [i]) = some (Group.start n group + i)
  /-- All other paths lead where they led before, or still nowhere. -/
  follow_other (p : List Nat) : (∀ i, i < 2 ^ n → p ≠ path ++ [i]) → u.follow p = t.follow p
  contains_iff (v : Nat) :
    u.contains v = .ok true ↔ t.contains v = .ok true ∨ Group.ofNode n v = group
  pathTo_eq (v : Nat) : t.contains v = .ok true → u.pathTo v = t.pathTo v
  parent_eq (v : Nat) : t.contains v = .ok true → u.parent v = t.parent v
  children_eq (v : Nat) : t.contains v = .ok true → v ≠ node → u.children v = t.children v
  size_eq : u.size = t.size + 2 ^ n

/-- Apart from the steps to the children, paths lead to the same nodes. -/
theorem Attached.follow_eq (h : Attached node group t u) (ht : t.Linked)
    (hpath : t.follow path = some node) {p : List Nat} (hp : ∀ i, i < 2 ^ n → p ≠ path ++ [i]) :
    u.follow p = t.follow p := by
  cases hu : u.follow p with
  | none =>
      rw [eq_comm, Option.eq_none_iff_forall_ne_some]
      intro v hv
      rw [h.follow_of_follow hv] at hu
      cases hu
  | some v =>
      rcases (h.live_iff v).1 (live_of_follow (h.linked ht) hu) with hlive | hgroup
      · exact (h.follow_of_live ht hlive hu).symm
      · -- A node of the new group is reached through the leaf only.
        have hchild := h.follow_concat_of_follow hpath (Group.position_lt n v)
        rw [← hgroup, Group.start_add_position] at hchild
        exact absurd (follow_injective (h.linked ht) hu hchild) (hp _ (Group.position_lt n v))

/-- Attaching a group to a leaf adds the steps to its members. -/
theorem Attached.grows (h : Attached node group t u) (ht : t.Valid) (hu : u.Valid)
    (hpath : t.follow path = some node) (hsize : u.size = t.size + 2 ^ n) :
    Grows path node group t u := by
  have howner : u.links.owner group = some node := by rw [h.owner_eq, if_pos rfl]
  have hkept : ∀ v, t.contains v = .ok true → t.Live v ∧ v < t.capacity ∧ v < u.capacity := by
    intro v hv
    have hlive := (contains_eq_true_iff ht.toSized v).1 hv
    have hlt := hlive.lt_capacity ht.toSized
    exact ⟨hlive, hlt, hlt.trans_eq h.capacity_eq.symm⟩
  refine ⟨hpath, ?_, ?_, childrenGroup_of_owner hu.toLinked howner, ?_,
    fun p hp => h.follow_eq ht.toLinked hpath hp, ?_, ?_, ?_, ?_, hsize⟩
  · exact (isLeaf_eq_true_iff (h.live.lt_capacity ht.toSized)).2 h.leaf
  · exact (isInUse_eq_false_iff group).2 ⟨h.group_lt, h.not_inUse⟩
  · intro i hi
    refine ⟨?_, h.follow_concat_of_follow hpath hi⟩
    rw [follow_concat, hpath, Option.bind_some, childAt?_of_leaf h.leaf]
  · intro v
    rw [contains_eq_true_iff ht.toSized, contains_eq_true_iff hu.toSized, h.live_iff]
  · intro v hv
    obtain ⟨p, hp⟩ := ht.exists_follow hv
    rw [Tree.pathTo_eq ht.toLinked hp, Tree.pathTo_eq hu.toLinked (h.follow_of_follow hp)]
  · intro v hv
    obtain ⟨hlive, hlt, hlt'⟩ := hkept v hv
    -- Only the new children have got another parent.
    have hne : Group.ofNode n v ≠ group := fun heq => h.not_inUse (heq ▸ hlive)
    rw [Tree.parent_eq ht.toLinked hlt, Tree.parent_eq hu.toLinked hlt', h.owner_eq, if_neg hne]
  · intro v hv hne
    obtain ⟨-, hlt, hlt'⟩ := hkept v hv
    have hfirst : u.links.firstChild v = t.links.firstChild v := by rw [h.firstChild_eq, if_neg hne]
    rw [Tree.children_eq ht.toLinked hlt, Tree.children_eq hu.toLinked hlt',
      childSpan_eq_iff.2 hfirst]

/-! ## Refining and coarsening -/

/-- An accepted refinement takes the lowest free group. -/
theorem Valid.grows_of_refine (ht : t.Valid) (h : refine node t = .ok (some group) u) :
    t.IsLowestFree group ∧ ∃ path, Grows path node group t u := by
  rcases refine_cases ht node with
    ⟨-, h'⟩ | ⟨-, -, h'⟩ | ⟨-, -, -, h'⟩ | ⟨hlive, -, -, v, h', hattached, hsize, hv⟩
  · cases h'.symm.trans h
  · cases h'.symm.trans h
  · cases h'.symm.trans h
  · obtain ⟨hgroup, rfl⟩ := EStateM.Result.ok.inj (h'.symm.trans h)
    obtain rfl := Option.some_injective _ hgroup
    obtain ⟨path, hpath⟩ := ht.rooted hlive
    exact ⟨ht.lowest, path, hattached.grows ht hv hpath hsize⟩

/-- An accepted coarsening leaves a tree from which the coarsened one grows. -/
theorem Valid.grows_of_coarsen (ht : t.Valid) (h : coarsen node t = .ok () u) :
    ∃ path group, Grows path node group u t := by
  rcases coarsen_cases ht node with
    ⟨-, h'⟩ | ⟨-, -, h'⟩ | ⟨group, -, ⟨-, h'⟩ | ⟨-, v, h', hattached, hsize, hv⟩⟩
  · cases h'.symm.trans h
  · cases h'.symm.trans h
  · cases h'.symm.trans h
  · obtain ⟨-, rfl⟩ := EStateM.Result.ok.inj (h'.symm.trans h)
    obtain ⟨path, hpath⟩ := hv.rooted hattached.live
    exact ⟨path, group, hattached.grows hv ht hpath hsize.symm⟩

/-! ## Runs -/

/-- What is done with an answer does not matter for the tree. -/
theorem left_bind_pure (edit : Edit n α) (f : α → β) (t : Tree n) :
    left ((edit >>= fun a => pure (f a)) t) = left (edit t) := by
  cases h : edit t with
  | ok a u =>
      rw [bind_of_ok h]
      rfl
  | error e u =>
      rw [bind_of_error h]
      rfl

/-- All that coarsening in balance can do: without coarsening it leaves the tree as it is, and otherwise it answers as
coarsening does. -/
theorem coarsenBalancedWith_cases (node : Nat) (t : Tree n) :
    (∃ e, coarsenBalancedWith node t = .error e t) ∨ coarsenBalancedWith node t = .ok none t ∨
      (∃ e u, coarsen node t = .error e u ∧ coarsenBalancedWith node t = .error e u) ∨
      ∃ removed u, coarsen node t = .ok () u ∧
        coarsenBalancedWith node t = .ok (some removed) u := by
  rw [coarsenBalancedWith]
  cases hcan : t.canCoarsen node with
  | error e => exact Or.inl ⟨e, bind_of_error (ask_of_error hcan)⟩
  | ok b =>
      rw [bind_of_ok (ask_of_ok hcan)]
      cases b with
      | false => exact Or.inr (Or.inl rfl)
      | true =>
          rw [if_pos rfl]
          cases hremoved : t.children node with
          | error e => exact Or.inl ⟨e, bind_of_error (ask_of_error hremoved)⟩
          | ok removed =>
              rw [bind_of_ok (ask_of_ok hremoved)]
              cases hcoarsen : coarsen node t with
              | error e u => exact Or.inr (Or.inr (Or.inl ⟨e, u, rfl, bind_of_error hcoarsen⟩))
              | ok _ u => exact Or.inr (Or.inr (Or.inr ⟨removed, u, rfl, bind_of_ok hcoarsen⟩))

/-- What coarsening leaves: the tree it met, or that tree without one attached group. -/
theorem Valid.coarsen_left (ht : t.Valid) (node : Nat) : left (coarsen node t) = t ∨
    ∃ group, Attached node group (left (coarsen node t)) t := by
  rcases coarsen_cases ht node with
    ⟨-, h⟩ | ⟨-, -, h⟩ | ⟨group, -, ⟨-, h⟩ | ⟨-, u, h, hu, -⟩⟩
  · exact Or.inl (by rw [h]; rfl)
  · exact Or.inl (by rw [h]; rfl)
  · exact Or.inl (by rw [h]; rfl)
  · exact Or.inr ⟨group, by rw [h]; exact hu⟩

/-- Balanced coarsening leaves the tree as it was, or without the children of `node`. -/
theorem Valid.coarsenBalancedWith_left (ht : t.Valid) (node : Nat) :
    left (coarsenBalancedWith node t) = t ∨
      ∃ group, Attached node group (left (coarsenBalancedWith node t)) t := by
  have hcoarsen := ht.coarsen_left node
  rcases coarsenBalancedWith_cases node t with
    ⟨e, h⟩ | h | ⟨e, u, hu, h⟩ | ⟨removed, u, hu, h⟩
  · exact Or.inl (by rw [h]; rfl)
  · exact Or.inl (by rw [h]; rfl)
  · rw [h]
    rwa [hu] at hcoarsen
  · rw [h]
    rwa [hu] at hcoarsen

/-- All that a call can do that moves no groups: nothing, or attach a group, or detach one. -/
theorem Valid.after_cases (ht : t.Valid) {call : Call} (hcall : call.movesGroups = false) :
    call.after t = t ∨ (∃ node group, Attached node group t (call.after t)) ∨
      ∃ node group, Attached node group (call.after t) t := by
  cases call with
  | refine node =>
      have hleft : Call.after (.refine node) t = left (refine node t) :=
        left_bind_pure (refine node) (fun _ => ()) t
      rw [hleft]
      rcases refine_cases ht node with
        ⟨-, h⟩ | ⟨-, -, h⟩ | ⟨-, -, -, h⟩ | ⟨-, -, -, u, h, hu, -⟩
      · exact Or.inl (by rw [h]; rfl)
      · exact Or.inl (by rw [h]; rfl)
      · exact Or.inl (by rw [h]; rfl)
      · exact Or.inr (Or.inl ⟨node, t.firstFree, by rw [h]; exact hu⟩)
  | coarsen node => exact (ht.coarsen_left node).imp_right fun h => Or.inr ⟨node, h⟩
  | coarsenBalanced node =>
      have hleft : Call.after (.coarsenBalanced node) t = left (coarsenBalancedWith node t) :=
        (left_bind_pure (coarsenBalanced node) (fun _ => ()) t).trans
          (left_bind_pure (coarsenBalancedWith node) Option.isSome t)
      rw [hleft]
      exact (ht.coarsenBalancedWith_left node).imp_right fun h => Or.inr ⟨node, h⟩
  | coarsenBalancedWith node =>
      have hleft : Call.after (.coarsenBalancedWith node) t = left (coarsenBalancedWith node t) :=
        left_bind_pure (coarsenBalancedWith node) (fun _ => ()) t
      rw [hleft]
      exact (ht.coarsenBalancedWith_left node).imp_right fun h => Or.inr ⟨node, h⟩
  | swap a b => cases hcall
  | sort => cases hcall
  | sortWith => cases hcall

/-- A call that moves no groups leaves a node in its place, unless it frees the node. -/
theorem Valid.follow_after (ht : t.Valid) {call : Call} (hcall : call.movesGroups = false)
    (hpath : t.follow path = some node) (hlive : (call.after t).Live node) :
    (call.after t).follow path = some node := by
  rcases ht.after_cases hcall with h | ⟨_, _, h⟩ | ⟨_, _, h⟩
  · rwa [h]
  · exact h.follow_of_follow hpath
  · exact h.follow_of_live (call.keeps t ht).toLinked hlive hpath

/-- A run of calls that move no groups leaves a node in its place, as long as none of them frees its group. -/
theorem Valid.follow_afterCalls (ht : t.Valid) {calls : List Call}
    (hcalls : ∀ call ∈ calls, call.movesGroups = false) (hpath : t.follow path = some node)
    (hlive : ∀ before, before <+: calls → (t.afterCalls before).Live node) :
    (t.afterCalls calls).follow path = some node := by
  induction calls generalizing t with
  | nil => exact hpath
  | cons call calls ih =>
      obtain ⟨hcall, hcalls⟩ := List.forall_mem_cons.1 hcalls
      have hafter : (call.after t).Live node :=
        hlive [call] (List.prefix_append [call] calls)
      refine ih (call.keeps t ht) hcalls (ht.follow_after hcall hpath hafter) ?_
      intro before hbefore
      exact hlive (call :: before) ((List.prefix_cons_inj call).2 hbefore)

/-- **Stable node numbers.**  The live nodes are the ends of the paths.  Refining adds to the map of paths the children of
the leaf, in the lowest free group, and coarsening takes the children of the node out of it; no other node is affected.
So through any calls that move no groups a node is at the end of the same path until its group is freed. -/
theorem Reachable.paths_stable (h : t.Reachable) :
    (∀ node path, t.pathTo node = .ok path ↔ t.follow path = some node) ∧
    (∀ node, t.contains node = .ok true ↔ ∃ path, t.follow path = some node) ∧
    (∀ node group u, refine node t = .ok (some group) u →
      t.isInUse group = .ok false ∧ (∀ g, g < group → t.isInUse g = .ok true) ∧
        ∃ path, Grows path node group t u) ∧
    (∀ node u, coarsen node t = .ok () u → ∃ path group, Grows path node group u t) ∧
    ∀ (calls : List Call) (node : Nat) (path : List Nat),
      (∀ call ∈ calls, call.movesGroups = false) → t.follow path = some node →
      (∀ before, before <+: calls →
        (t.afterCalls before).isInUse (Group.ofNode n node) = .ok true) →
      (t.afterCalls calls).follow path = some node := by
  have ht := h.valid
  refine ⟨fun node path => pathTo_eq_ok_iff ht, ?_, ?_, fun node u => ht.grows_of_coarsen, ?_⟩
  · intro node
    constructor
    · exact ht.exists_follow
    · rintro ⟨path, hpath⟩
      exact contains_of_follow ht.toLinked hpath
  · intro node group u hrefine
    obtain ⟨hlowest, path, hgrows⟩ := ht.grows_of_refine hrefine
    refine ⟨hgrows.free, ?_, path, hgrows⟩
    intro g hg
    exact (isInUse_eq_true_iff ht.toSized g).2 (hlowest.2 g hg)
  · intro calls node path hcalls hpath hused
    apply ht.follow_afterCalls hcalls hpath
    intro before hbefore
    exact (isInUse_eq_true_iff (h.afterCalls before).valid.toSized _).1 (hused before hbefore)

/-- A group that was freed is used again, for the children of another node. -/
theorem Reachable.paths_stable_reused :
    ∃ path, ∃ u : Tree 2,
      refine 4 ((rootOnly 2 4).afterCalls [.refine 0, .refine 1, .refine 2, .coarsen 1]) =
        .ok (some 2) u ∧
      Grows path 4 2
        ((rootOnly 2 4).afterCalls [.refine 0, .refine 1, .refine 2, .coarsen 1]) u := by
  obtain ⟨-, -, hrefine, -⟩ := Reachable.paths_stable
    ((Reachable.new (t := rootOnly 2 4) 13 rfl).afterCalls
      [.refine 0, .refine 1, .refine 2, .coarsen 1])
  obtain ⟨-, -, path, hgrows⟩ := hrefine 4 2 _ rfl
  exact ⟨path, _, rfl, hgrows⟩

end Orthtree.Tree
