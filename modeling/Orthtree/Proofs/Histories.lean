import Orthtree.Proofs.Making
import Orthtree.Proofs.Places
import Orthtree.Proofs.Refining
import Orthtree.Proofs.Sorting
import Orthtree.Tree.Balance
import Orthtree.Tree.Uniform

/-!
# Histories

A tree is `Reachable` if it comes from a new, a uniform or a restored tree by any calls of edits, the refused ones
included.  Every edit `Keeps` trees valid, so all reachable trees are valid (`Reachable.valid`).
-/

namespace Orthtree.Tree

variable {n : Nat} {t u : Tree n} {α β : Type}

/-! ## Calls -/

/-- The tree that an edit leaves, whether it was accepted or refused. -/
def left : EStateM.Result Fault (Tree n) α → Tree n
  | .ok _ t => t
  | .error _ t => t

/-- A call of an edit with its arguments. -/
inductive Call
  | refine (node : Nat)
  | coarsen (node : Nat)
  | swap (a b : Nat)
  | sort
  | sortWith
  | coarsenBalanced (node : Nat)
  | coarsenBalancedWith (node : Nat)
deriving DecidableEq, Repr

/-- The edit that a call makes; what it answers is left out. -/
def Call.run : Call → Edit n Unit
  | .refine node => do let _ ← Tree.refine node
  | .coarsen node => Tree.coarsen node
  | .swap a b => Tree.swap a b
  | .sort => Tree.sort
  | .sortWith => do let _ ← Tree.sortWith
  | .coarsenBalanced node => do let _ ← Tree.coarsenBalanced node
  | .coarsenBalancedWith node => do let _ ← Tree.coarsenBalancedWith node

/-- The call brings groups to other places, so that nodes may change their numbers. -/
def Call.movesGroups : Call → Bool
  | .swap _ _ | .sort | .sortWith => true
  | .refine _ | .coarsen _ | .coarsenBalanced _ | .coarsenBalancedWith _ => false

/-- The tree after a call, whether the call was accepted or refused. -/
def Call.after (call : Call) (t : Tree n) : Tree n := left (call.run t)

/-- The tree after calls made one after the other. -/
def afterCalls (t : Tree n) (calls : List Call) : Tree n :=
  calls.foldl (fun t call => call.after t) t

/-- The trees that can be made and then changed by calls. -/
inductive Reachable : Tree n → Prop
  /-- A tree that holds the root alone. -/
  | new {t : Tree n} (capacity : Nat) : ofCapacity n capacity = .ok t → Reachable t
  /-- A tree with all leaves at one level. -/
  | uniform {t : Tree n} (level capacityLevel : Nat) :
      uniformWithin n level capacityLevel = .ok t → Reachable t
  /-- A tree made of a snapshot. -/
  | restored {t : Tree n} (s : Snapshot) (capacity : Option Nat) :
      Snapshot.restore n s capacity = .ok (.ok t) → Reachable t
  /-- A tree after one more call. -/
  | call {t : Tree n} (call : Call) : Reachable t → Reachable (call.after t)

/-- Runs of calls lead from reachable trees to reachable trees. -/
theorem Reachable.afterCalls (h : t.Reachable) (calls : List Call) :
    (t.afterCalls calls).Reachable := by
  induction calls generalizing t with
  | nil => exact h
  | cons call calls ih => exact ih (h.call call)

/-! ## Edits that keep trees valid -/

/-- The edit leaves a valid tree valid, even when it is refused. -/
def Keeps (edit : Edit n α) : Prop := ∀ t : Tree n, t.Valid → (left (edit t)).Valid

theorem keeps_pure (a : α) : Keeps (pure a : Edit n α) := fun _ ht => ht

theorem keeps_throw (e : Fault) : Keeps (throw e : Edit n α) := fun _ ht => ht

/-- A query changes nothing, be it answered or refused. -/
theorem keeps_ask (query : Tree n → Except Fault α) : Keeps (ask query) := by
  intro t ht
  rw [ask]
  cases query t with
  | ok a => exact ht
  | error e => exact ht

/-- Edits made one after the other keep validity if each of them does, wherever the run is refused. -/
theorem Keeps.bind {edit : Edit n α} {next : α → Edit n β} (h : Keeps edit)
    (hnext : ∀ a, Keeps (next a)) : Keeps (edit >>= next) := by
  intro t ht
  have hleft := h t ht
  cases hedit : edit t with
  | ok a u =>
      rw [hedit] at hleft
      rw [bind_of_ok hedit]
      exact hnext a u hleft
  | error e u =>
      rw [hedit] at hleft
      rw [bind_of_error hedit]
      exact hleft

/-- An edit made for each item of a list keeps validity if each round does. -/
theorem Keeps.mapM {edit : α → Edit n β} (h : ∀ a, Keeps (edit a)) (xs : List α) :
    Keeps (xs.mapM edit) := by
  induction xs with
  | nil => exact keeps_pure []
  | cons x xs ih =>
      rw [List.mapM_cons]
      apply (h x).bind
      intro b
      apply ih.bind
      intro bs
      exact keeps_pure (b :: bs)

/-- Refining keeps validity in each of its cases; where it is refused, nothing has changed. -/
theorem keeps_refine (node : Nat) : Keeps (refine node : Edit n (Option Nat)) := by
  intro t ht
  rcases refine_cases ht node with
    ⟨-, h⟩ | ⟨-, -, h⟩ | ⟨-, -, -, h⟩ | ⟨-, -, -, u, h, -, -, hu⟩
  · rwa [h]
  · rwa [h]
  · rwa [h]
  · rwa [h]

/-- Coarsening keeps validity in each of its cases. -/
theorem keeps_coarsen (node : Nat) : Keeps (coarsen node : Edit n Unit) := by
  intro t ht
  rcases coarsen_cases ht node with
    ⟨-, h⟩ | ⟨-, -, h⟩ | ⟨group, -, ⟨-, h⟩ | ⟨-, u, h, -, -, hu⟩⟩
  · rwa [h]
  · rwa [h]
  · rwa [h]
  · rwa [h]

/-- Swapping keeps validity, be the groups in use or free. -/
theorem keeps_swap (a b : Nat) : Keeps (swap a b : Edit n Unit) := by
  intro t ht
  rcases swap_cases ht a b with ⟨e, h, -⟩ | ⟨-, u, h, -, -, hu⟩
  · rwa [h]
  · rwa [h]

/-- Sorting is never refused for valid trees, so its many swaps need not be looked at one by one. -/
theorem keeps_sortWith : Keeps (sortWith : Edit n (List (Nat × Nat))) := by
  intro t ht
  obtain ⟨pairs, σ, order, last, u, h, hmoved, -⟩ := sortWith_eq ht
  rw [h]
  exact hmoved.valid

/-- Balanced coarsening is a query, and then perhaps a coarsening. -/
theorem keeps_coarsenBalancedWith (node : Nat) :
    Keeps (coarsenBalancedWith node : Edit n (Option Span)) := by
  apply (keeps_ask _).bind
  rintro (_ | _)
  · exact keeps_pure none
  · apply (keeps_ask _).bind
    intro removed
    apply (keeps_coarsen node).bind
    intro _
    exact keeps_pure (some removed)

/-- Whatever is called, a valid tree stays valid. -/
theorem Call.keeps (call : Call) : Keeps (call.run : Edit n Unit) := by
  cases call with
  | refine node => exact (keeps_refine node).bind fun _ => keeps_pure ()
  | coarsen node => exact keeps_coarsen node
  | swap a b => exact keeps_swap a b
  | sort => exact keeps_sortWith.bind fun _ => keeps_pure ()
  | sortWith => exact keeps_sortWith.bind fun _ => keeps_pure ()
  | coarsenBalanced node =>
      apply Keeps.bind
      · exact (keeps_coarsenBalancedWith node).bind fun removed => keeps_pure removed.isSome
      · exact fun _ => keeps_pure ()
  | coarsenBalancedWith node => exact (keeps_coarsenBalancedWith node).bind fun _ => keeps_pure ()

/-! ## Uniform trees -/

/-- Refining a node that must find room keeps validity even where there is none. -/
theorem keeps_grow (node : Nat) : Keeps (grow node : Edit n (List Nat)) := by
  apply (keeps_refine node).bind
  rintro (_ | group)
  · exact keeps_throw _
  · apply (keeps_ask _).bind
    intro span
    exact keeps_pure span.toList

/-- Refining level by level keeps validity, by induction on the levels. -/
theorem keeps_growLevels (levels : Nat) (frontier : List Nat) :
    Keeps (growLevels levels frontier : Edit n Unit) := by
  induction levels generalizing frontier with
  | zero => exact keeps_pure ()
  | succ levels ih =>
      apply (Keeps.mapM keeps_grow frontier).bind
      intro grown
      exact ih grown.flatten

/-- **Uniform trees are valid.** -/
theorem valid_of_uniformWithin {level capacityLevel : Nat}
    (h : uniformWithin n level capacityLevel = .ok t) : t.Valid := by
  unfold uniformWithin at h
  split at h
  · obtain ⟨capacity, -, h⟩ := exists_of_bind_ok h
    obtain ⟨made, hmade, h⟩ := exists_of_bind_ok h
    obtain ⟨⟨_, grown⟩, hgrown, h⟩ := exists_of_bind_ok h
    obtain rfl := Except.ok.inj h
    have hkeeps := keeps_growLevels level [0] made (valid_of_ofCapacity hmade)
    rw [perform] at hgrown
    split at hgrown
    · next hrun =>
      obtain ⟨rfl, rfl⟩ := Prod.mk.inj (Except.ok.inj hgrown)
      rwa [hrun] at hkeeps
    · cases hgrown
  · cases h

/-! ## Reachable trees -/

/-- **The invariant of all histories.**  Every reachable tree is valid. -/
theorem Reachable.valid (h : t.Reachable) : t.Valid := by
  induction h with
  | new capacity h => exact valid_of_ofCapacity h
  | uniform level capacityLevel h => exact valid_of_uniformWithin h
  | restored s capacity h => exact Snapshot.valid_of_restore h
  | call call _ ih => exact call.keeps _ ih

/-! ## What readers of a tree may rely on -/

/-- The representation of the tree is consistent, in terms of its links and of what its queries answer. -/
structure Consistent (t : Tree n) : Prop where
  /-- A group in use, unless it is the root's, is owned by a live node, and its first node is the first child there. -/
  owner_of_inUse (group : Nat) : group ≠ 0 → t.isInUse group = .ok true →
    ∃ node, t.links.owner group = some node ∧ t.contains node = .ok true ∧
      t.firstChild node = .ok (some (Group.start n group))
  /-- The first child of a live node is the first node of a group in use that the node owns. -/
  group_of_firstChild (node first : Nat) : t.contains node = .ok true →
    t.firstChild node = .ok (some first) →
    ∃ group, group ≠ 0 ∧ first = Group.start n group ∧ t.isInUse group = .ok true ∧
      t.links.owner group = some node
  /-- The way up from a live node, from parent to parent, ends at the root. -/
  rooted (node : Nat) : t.contains node = .ok true →
    Relation.ReflTransGen (fun x y => t.parent x = .ok (some y)) node 0
  /-- A free group has no owner, and its nodes have no children. -/
  free (group : Nat) : t.isInUse group = .ok false → t.links.owner group = none ∧
    ∀ node, Group.ofNode n node = group → t.firstChild node = .ok none
  /-- The size is the number of nodes in the groups in use. -/
  size_eq : t.size =
    Group.nodeCount n (Finset.card {g ∈ Finset.range t.groupCapacity | t.isInUse g = .ok true})
  size_le : t.size ≤ t.capacity
  /-- `firstFree` is the lowest free group, or the number of groups if none is free. -/
  firstFree_lowest :
    t.firstFree < t.groupCapacity ∧ t.isInUse t.firstFree = .ok false ∧
        (∀ g, g < t.firstFree → t.isInUse g = .ok true) ∨
      t.firstFree = t.groupCapacity ∧ ∀ g, g < t.groupCapacity → t.isInUse g = .ok true
  /-- `groupEnd` is one past the highest group in use. -/
  groupEnd_last : ∃ highest, t.groupEnd = highest + 1 ∧ t.isInUse highest = .ok true ∧
    ∀ g, t.isInUse g = .ok true → g ≤ highest

/-- The query finds exactly the groups in use. -/
theorem isInUse_eq_true_iff (ht : t.Sized) (group : Nat) :
    t.isInUse group = .ok true ↔ t.InUse group := by
  rcases Nat.lt_or_ge group t.groupCapacity with hlt | hge
  · rw [isInUse_eq hlt, Except.ok.injEq, decide_eq_true_iff]
  · rw [isInUse_of_le hge]
    constructor
    · intro h
      cases h
    · intro h
      exact absurd (h.lt_groupCapacity ht) (Nat.not_lt.2 hge)

/-- The query finds exactly the free groups that have a place in the tables. -/
theorem isInUse_eq_false_iff (group : Nat) :
    t.isInUse group = .ok false ↔ group < t.groupCapacity ∧ ¬t.InUse group := by
  rcases Nat.lt_or_ge group t.groupCapacity with hlt | hge
  · rw [isInUse_eq hlt, Except.ok.injEq, decide_eq_false_iff_not, and_iff_right hlt]
  · rw [isInUse_of_le hge]
    constructor
    · intro h
      cases h
    · rintro ⟨hlt, -⟩
      exact absurd hlt (Nat.not_lt.2 hge)

/-- The way up a path, from its end to the root. -/
theorem reflTransGen_parent_of_follow (ht : t.Linked) {path : List Nat} {node : Nat}
    (h : t.follow path = some node) :
    Relation.ReflTransGen (fun x y => t.parent x = .ok (some y)) node 0 :=
  isAbove_of_append ht t.follow_nil h

/-- Either some group is free, and `firstFree` is the lowest such group, or none is. -/
theorem Valid.firstFree_cases (ht : t.Valid) :
    t.firstFree < t.groupCapacity ∧ t.isInUse t.firstFree = .ok false ∧
        (∀ g, g < t.firstFree → t.isInUse g = .ok true) ∨
      t.firstFree = t.groupCapacity ∧ ∀ g, g < t.groupCapacity → t.isInUse g = .ok true := by
  have hbelow : ∀ g, g < t.firstFree → t.isInUse g = .ok true := by
    intro g hg
    exact (isInUse_eq_true_iff ht.toSized g).2 (ht.lowest.2 g hg)
  rcases Nat.eq_or_lt_of_le (ht.lowest.le_groupCapacity ht.toSized) with heq | hlt
  · refine Or.inr ⟨heq, ?_⟩
    intro g hg
    exact hbelow g (hg.trans_eq heq.symm)
  · exact Or.inl ⟨hlt, (isInUse_eq_false_iff _).2 ⟨hlt, ht.lowest.1⟩, hbelow⟩

/-- **Consistency of all histories.**  Whatever has been called, the representation is consistent. -/
theorem Reachable.consistent (h : t.Reachable) : t.Consistent := by
  have ht := h.valid
  refine ⟨?_, ?_, ?_, ?_, ?_, ht.size_le_capacity, ht.firstFree_cases, ?_⟩
  · intro group hgroup hused
    rw [isInUse_eq_true_iff ht.toSized] at hused
    obtain ⟨node, howner⟩ := (inUse_iff_exists_owner hgroup).1 hused
    have hlive := live_of_owner ht.toLinked howner
    refine ⟨node, howner, (contains_eq_true_iff ht.toSized node).2 hlive, ?_⟩
    rw [firstChild_of_lt (hlive.lt_capacity ht.toSized),
      ((ht.paired.owner_iff group node).1 howner).2]
  · intro node first hlive hfirst
    rw [contains_eq_true_iff ht.toSized] at hlive
    rw [firstChild_of_lt (hlive.lt_capacity ht.toSized), Except.ok.injEq] at hfirst
    obtain ⟨group, hgroup, hstart, howner⟩ := ht.paired.exists_owner hfirst
    exact ⟨group, hgroup, hstart,
      (isInUse_eq_true_iff ht.toSized group).2 (inUse_of_owner howner), howner⟩
  · intro node hlive
    rw [contains_eq_true_iff ht.toSized] at hlive
    obtain ⟨path, hpath⟩ := ht.rooted hlive
    exact reflTransGen_parent_of_follow ht.toLinked hpath
  · intro group hfree
    obtain ⟨hlt, hfree⟩ := (isInUse_eq_false_iff group).1 hfree
    refine ⟨owner_of_not_inUse hfree, ?_⟩
    rintro node rfl
    have hnode : node < t.capacity := by
      rwa [ht.capacity_eq, ← Group.ofNode_lt_iff]
    rw [firstChild_of_lt hnode, firstChild_of_not_live ht.toLinked hfree]
  · simp only [isInUse_eq_true_iff ht.toSized]
    exact ht.size_eq
  · refine ⟨t.groupEnd - 1, (Nat.sub_add_cancel ht.last.pos).symm, ?_, ?_⟩
    · exact (isInUse_eq_true_iff ht.toSized _).2 ht.last.1
    · intro g hg
      exact Nat.le_sub_one_of_lt (ht.last.2 g ((isInUse_eq_true_iff ht.toSized g).1 hg))

/-- Swapping the group of an owner with the group that it owns leaves a consistent tree. -/
theorem Reachable.consistent_swap_owner :
    ((rootOnly 2 4).afterCalls [.refine 0, .refine 3, .swap 1 2]).Consistent :=
  Reachable.consistent ((Reachable.new 13 rfl).afterCalls _)

end Orthtree.Tree
