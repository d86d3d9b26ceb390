import Orthtree.Proofs.Growing

/-!
# Refusals

`refine`, `coarsen` and `swap` check all they need before they change anything.  So each of them is refused for its own
causes alone, and no link or number ever leaves its range on the way; what is refused leaves the tree as it was, and so
does what is declined without a fault (`Reachable.atomic`).
-/

namespace Orthtree.Tree

variable {n : Nat} {α : Type} {t u : Tree n} {node : Nat} {edit : Edit n α} {causes : List Fault}
  {condition : Prop} {e : Fault} {a : α}

/-! ## Edits that are refused -/

/-- `edit` is refused iff `condition` holds, only ever for one of `causes`, and the tree is then as it was. -/
structure RefusedIff (edit : Edit n α) (t : Tree n) (causes : List Fault) (condition : Prop) :
    Prop where
  refused_iff : (∃ e u, edit t = .error e u) ↔ condition
  cause_mem (e : Fault) (u : Tree n) : edit t = .error e u → e ∈ causes
  kept (e : Fault) (u : Tree n) : edit t = .error e u → u = t

/-- An edit that is refused, for one of the causes and where the condition holds. -/
theorem RefusedIff.of_error (h : edit t = .error e t) (he : e ∈ causes) (hc : condition) :
    RefusedIff edit t causes condition := by
  refine ⟨iff_of_true ⟨e, t, h⟩ hc, ?_, ?_⟩
  · intro e' u h'
    obtain ⟨rfl, -⟩ := EStateM.Result.error.inj (h.symm.trans h')
    exact he
  · intro e' u h'
    exact (EStateM.Result.error.inj (h.symm.trans h')).2.symm

/-- An edit that is carried out, where the condition does not hold. -/
theorem RefusedIff.of_ok (h : edit t = .ok a u) (hc : ¬condition) :
    RefusedIff edit t causes condition := by
  have hnever : ∀ e v, edit t ≠ .error e v := by
    intro e v h'
    cases h.symm.trans h'
  refine ⟨iff_of_false ?_ hc, ?_, ?_⟩
  · rintro ⟨e, v, h'⟩
    exact hnever e v h'
  · exact fun e v h' => absurd h' (hnever e v)
  · exact fun e v h' => absurd h' (hnever e v)

/-! ## Refining -/

/-- Refining is refused for what is free and for branches, but not for want of room. -/
theorem refine_refusedIff (ht : t.Valid) (node : Nat) :
    RefusedIff (refine node) t [.refineFree node, .refineBranch node]
      (t.contains node = .ok false ∨ t.isLeaf node = .ok false) := by
  rw [contains_eq_false_iff ht.toSized, isLeaf_eq_false_iff]
  rcases refine_cases ht node with
    ⟨hfree, h⟩ | ⟨-, hbranch, h⟩ | ⟨hlive, hleaf, -, h⟩ | ⟨hlive, hleaf, -, u, h, -⟩
  · exact .of_error h (by simp) (Or.inl hfree)
  · exact .of_error h (by simp) (Or.inr hbranch)
  · exact .of_ok h (by simp [hlive, hleaf])
  · exact .of_ok h (by simp [hlive, hleaf])

/-- A leaf is refined unless the tree is full. -/
theorem refine_leaf_cases (ht : t.Valid) (hnode : t.contains node = .ok true)
    (hleaf : t.isLeaf node = .ok true) :
    t.size = t.capacity ∧ refine node t = .ok none t ∨
      t.size ≠ t.capacity ∧ ∃ group u, refine node t = .ok (some group) u := by
  rcases Nat.eq_or_lt_of_le ht.size_le_capacity with hfull | hsize
  · exact Or.inl ⟨hfull, refine_of_full hnode hleaf hfull⟩
  · have hlive := (contains_eq_true_iff ht.toSized node).1 hnode
    have hnone := (isLeaf_eq_true_iff (hlive.lt_capacity ht.toSized)).1 hleaf
    obtain ⟨u, hu, -⟩ := refine_eq ht hlive hnone hsize
    exact Or.inr ⟨hsize.ne, t.firstFree, u, hu⟩

/-! ## Coarsening -/

/-- Coarsening is refused for what is free, for leaves, and for a node that has a child with children of its own.  The
tree is as it was each time, for the checks come first. -/
theorem coarsen_refusedIff (ht : t.Valid) (node : Nat) :
    RefusedIff (coarsen node) t [.coarsenFree node, .coarsenLeaf node, .coarsenDeep node]
      (t.contains node = .ok false ∨ t.isLeaf node = .ok true ∨
        ∃ child, t.contains child = .ok true ∧ t.parent child = .ok (some node) ∧
          t.isLeaf child = .ok false) := by
  rcases coarsen_cases ht node with
    ⟨hfree, h⟩ | ⟨hlive, hleaf, h⟩ | ⟨group, howner, ⟨⟨v, hv, hbranch⟩, h⟩ | ⟨hleaves, u, h, -⟩⟩
  · exact .of_error h (by simp) (Or.inl ((contains_eq_false_iff ht.toSized node).2 hfree))
  · exact .of_error h (by simp)
      (Or.inr (Or.inl ((isLeaf_eq_true_iff (hlive.lt_capacity ht.toSized)).2 hleaf)))
  · have hlive : t.Live v := by
      rw [Live, hv]
      exact inUse_of_owner howner
    have hlt := hlive.lt_capacity ht.toSized
    refine .of_error h (by simp) (Or.inr (Or.inr ⟨v, ?_, ?_, isLeaf_eq_false_iff.2 hbranch⟩))
    · exact (contains_eq_true_iff ht.toSized v).2 hlive
    · rw [parent_eq ht.toLinked hlt, hv, howner]
  · have hlive := live_of_owner ht.toLinked howner
    refine .of_ok h ?_
    rintro (hfree | hleaf | ⟨child, hchild, hparent, hbranch⟩)
    · exact (contains_eq_false_iff ht.toSized node).1 hfree hlive
    · rw [isLeaf_of_owner ht.toLinked howner] at hleaf
      cases hleaf
    · have hlt := ((contains_eq_true_iff ht.toSized child).1 hchild).lt_capacity ht.toSized
      rw [parent_eq ht.toLinked hlt, Except.ok.injEq] at hparent
      exact isLeaf_eq_false_iff.1 hbranch
        (hleaves child (ht.paired.owner_injective hparent howner))

/-- Coarsening in balance leaves the tree as it was unless it coarsens. -/
theorem coarsenBalanced_outcome (ht : t.Valid) (node : Nat) :
    (∃ e, coarsenBalanced node t = .error e t) ∨ coarsenBalanced node t = .ok false t ∨
      ∃ u, coarsen node t = .ok () u ∧ coarsenBalanced node t = .ok true u := by
  rcases coarsenBalancedWith_cases node t with
    ⟨e, h⟩ | h | ⟨e, u, hu, h⟩ | ⟨removed, u, hu, h⟩
  · exact Or.inl ⟨e, bind_of_error h⟩
  · exact Or.inr (Or.inl (bind_of_ok h))
  · obtain rfl := (coarsen_refusedIff ht node).kept e u hu
    exact Or.inl ⟨e, bind_of_error h⟩
  · exact Or.inr (Or.inr ⟨u, hu, bind_of_ok h⟩)

/-! ## Exchanging groups -/

/-- Swapping is refused for the root's group, for a group with itself, and for groups past the tables. -/
theorem swap_refusedIff (ht : t.Valid) (a b : Nat) :
    RefusedIff (swap a b) t
      [.swapRoot, .swapSelf a, .groupRange a t.groupCapacity, .groupRange b t.groupCapacity]
      (a = 0 ∨ b = 0 ∨ a = b ∨ t.groupCapacity ≤ a ∨ t.groupCapacity ≤ b) := by
  rcases swap_cases ht a b with ⟨e, h, he, hc⟩ | ⟨hc, u, h, -⟩
  · exact .of_error h he hc
  · exact .of_ok h hc

/-! ## Refusals of reachable trees -/

/-- Every edit of the tree is carried out, or refused for a cause of its own; without having been carried out it leaves
the tree as it was. -/
structure Atomic (t : Tree n) : Prop where
  /-- Only live leaves are refined. -/
  refine_refused (node : Nat) :
    RefusedIff (refine node) t [.refineFree node, .refineBranch node]
      (t.contains node = .ok false ∨ t.isLeaf node = .ok false)
  /-- A live leaf gets children unless the tree is full, and no other answer is given. -/
  refine_leaf (node : Nat) : t.contains node = .ok true → t.isLeaf node = .ok true →
    t.size = t.capacity ∧ refine node t = .ok none t ∨
      t.size ≠ t.capacity ∧ ∃ group u, refine node t = .ok (some group) u
  /-- The tree is full iff no group is free. -/
  full_iff :
    t.size = t.capacity ↔ ∀ group, group < t.groupCapacity → t.isInUse group = .ok true
  /-- Only nodes whose children are leaves are coarsened. -/
  coarsen_refused (node : Nat) :
    RefusedIff (coarsen node) t [.coarsenFree node, .coarsenLeaf node, .coarsenDeep node]
      (t.contains node = .ok false ∨ t.isLeaf node = .ok true ∨
        ∃ child, t.contains child = .ok true ∧ t.parent child = .ok (some node) ∧
          t.isLeaf child = .ok false)
  /-- Any two groups are exchanged that the tables have, apart from the root's. -/
  swap_refused (a b : Nat) :
    RefusedIff (swap a b) t
      [.swapRoot, .swapSelf a, .groupRange a t.groupCapacity, .groupRange b t.groupCapacity]
      (a = 0 ∨ b = 0 ∨ a = b ∨ t.groupCapacity ≤ a ∨ t.groupCapacity ≤ b)
  /-- Exchanging free groups changes nothing. -/
  swap_free (a b : Nat) : a ≠ b → t.isInUse a = .ok false → t.isInUse b = .ok false →
    swap a b t = .ok () t
  /-- Coarsening in balance changes nothing unless it coarsens. -/
  coarsenBalanced_kept (node : Nat) :
    (∃ e, coarsenBalanced node t = .error e t) ∨ coarsenBalanced node t = .ok false t ∨
      ∃ u, coarsen node t = .ok () u ∧ coarsenBalanced node t = .ok true u

/-- **Atomicity.**  Whatever has been called, the next edit is carried out, or else the tree is as before; and it is
refused under the stated conditions alone. -/
theorem Reachable.atomic (h : t.Reachable) : t.Atomic := by
  have ht := h.valid
  refine ⟨refine_refusedIff ht, fun node => refine_leaf_cases ht, ?_, coarsen_refusedIff ht,
    swap_refusedIff ht, ?_, coarsenBalanced_outcome ht⟩
  · rw [ht.size_eq_capacity_iff]
    simp only [isInUse_eq_true_iff ht.toSized]
  · intro a b hab ha hb
    obtain ⟨hac, hfa⟩ := (isInUse_eq_false_iff a).1 ha
    obtain ⟨hbc, hfb⟩ := (isInUse_eq_false_iff b).1 hb
    refine swap_of_free ?_ ?_ hab hac hbc hfa hfb
    · rintro rfl
      exact hfa t.inUse_zero
    · rintro rfl
      exact hfb t.inUse_zero

/-- A square without room for more groups, whose groups were exchanged. -/
theorem Reachable.atomic_full :
    ((rootOnly 2 3).afterCalls [.refine 0, .refine 3, .swap 1 2]).Atomic :=
  Reachable.atomic ((Reachable.new 9 rfl).afterCalls [.refine 0, .refine 3, .swap 1 2])

/-- There no leaf gets children any more, and the root has grandchildren. -/
example :
    (((rootOnly 2 3).afterCalls [.refine 0, .refine 3, .swap 1 2]).perform (refine 5)).map
      Prod.fst = .ok none ∧
    (((rootOnly 2 3).afterCalls [.refine 0, .refine 3, .swap 1 2]).perform (coarsen 0)).map
      Prod.fst = .error (.coarsenDeep 0) := by
  decide +kernel

end Orthtree.Tree
