import Mathlib.Data.Finset.Image
import Orthtree.Proofs.Queries

/-!
# Renumbered trees

`Renumbers σ t u` says that `u` stores the tree of `t` with every group moved to the place that `σ` gives it, and with
every link renumbered accordingly.  Whatever can be said of a tree without naming its groups and nodes is the same for
`t` and `u`: both are linked (`Renumbers.linked`), they have equally many groups in use (`Renumbers.card_usedGroups`),
and a path leads to a node of `t` iff it leads to the renumbered node of `u` (`Renumbers.follow_eq`).
-/

namespace Orthtree.Tree

variable {n : Nat} {t u v : Tree n} {σ τ : Equiv.Perm Nat} {node group : Nat}

/-- `u` is `t` with its groups, and the nodes along with them, renumbered by `σ`. -/
structure Renumbers (σ : Equiv.Perm Nat) (t u : Tree n) : Prop where
  /-- The root group keeps its place. -/
  root : σ 0 = 0
  groupCapacity_eq : u.groupCapacity = t.groupCapacity
  capacity_eq : u.capacity = t.capacity
  /-- A moved group is owned by the moved owner. -/
  owner_apply (group : Nat) :
    u.links.owner (σ group) = (t.links.owner group).map (Group.renumber n σ)
  /-- A moved node has the moved first child. -/
  firstChild_apply (node : Nat) : u.links.firstChild (Group.renumber n σ node) =
    (t.links.firstChild node).map (Group.renumber n σ)

namespace Renumbers

/-! ## Products -/

theorem refl (t : Tree n) : Renumbers (Equiv.refl Nat) t t where
  root := rfl
  groupCapacity_eq := rfl
  capacity_eq := rfl
  owner_apply group := by
    cases h : t.links.owner group <;> simp [h]
  firstChild_apply node := by
    cases h : t.links.firstChild node <;> simp [h]

/-- Renumberings come one after the other. -/
theorem trans (h : Renumbers σ t u) (h' : Renumbers τ u v) : Renumbers (σ.trans τ) t v where
  root := by rw [Equiv.trans_apply, h.root, h'.root]
  groupCapacity_eq := h'.groupCapacity_eq.trans h.groupCapacity_eq
  capacity_eq := h'.capacity_eq.trans h.capacity_eq
  owner_apply group := by
    rw [Equiv.trans_apply, h'.owner_apply, h.owner_apply, Option.map_map]
    exact congrArg (Option.map · _) (funext fun x => (Group.renumber_trans h.root x).symm)
  firstChild_apply node := by
    rw [Group.renumber_trans h.root, h'.firstChild_apply, h.firstChild_apply, Option.map_map]
    exact congrArg (Option.map · _) (funext fun x => (Group.renumber_trans h.root x).symm)

/-- Moving free groups only changes nothing. -/
theorem of_fixed (ht : t.Linked) (hσ : ∀ group, t.InUse group → σ group = group) :
    Renumbers σ t t := by
  have hroot : σ 0 = 0 := hσ 0 t.inUse_zero
  have hnode : ∀ node, t.Live node → Group.renumber n σ node = node := fun node h =>
    Group.renumber_of_fixed (hσ _ h)
  -- What is moved to the place of a group in use is that group.
  have hfree : ∀ group, ¬t.InUse group → ¬t.InUse (σ group) := fun group h h' =>
    h (σ.injective (hσ _ h') ▸ h')
  refine ⟨hroot, rfl, rfl, ?_, ?_⟩
  · intro group
    by_cases hgroup : t.InUse group
    · rw [hσ group hgroup]
      cases howner : t.links.owner group with
      | none => rfl
      | some p => rw [Option.map_some, hnode p (live_of_owner ht howner)]
    · rw [owner_of_not_inUse hgroup, owner_of_not_inUse (hfree group hgroup)]
      rfl
  · intro node
    by_cases hlive : t.Live node
    · rw [hnode node hlive]
      cases hfirst : t.links.firstChild node with
      | none => rfl
      | some first =>
          obtain ⟨group, -, rfl, howner⟩ := ht.paired.exists_owner hfirst
          rw [Option.map_some, Group.renumber_start hroot, hσ group (inUse_of_owner howner)]
    · have hlive' : ¬t.Live (Group.renumber n σ node) := by
        rw [Live, Group.ofNode_renumber hroot]
        exact hfree _ hlive
      rw [firstChild_of_not_live ht hlive, firstChild_of_not_live ht hlive']
      rfl

/-! ## What stays the same -/

theorem inUse_apply (h : Renumbers σ t u) (group : Nat) : u.InUse (σ group) ↔ t.InUse group := by
  rw [InUse, InUse, h.owner_apply, Option.isSome_map, Group.apply_eq_zero_iff h.root]

theorem live_apply (h : Renumbers σ t u) (node : Nat) :
    u.Live (Group.renumber n σ node) ↔ t.Live node := by
  rw [Live, Live, Group.ofNode_renumber h.root, h.inUse_apply]

theorem sized (h : Renumbers σ t u) (ht : t.Sized) : u.Sized :=
  ht.congr h.groupCapacity_eq h.capacity_eq

/-- Renumbering keeps both records of each edge. -/
theorem paired (h : Renumbers σ t u) (ht : t.links.Paired n) : u.links.Paired n where
  owner_iff group node := by
    obtain ⟨group, rfl⟩ := σ.surjective group
    obtain ⟨node, rfl⟩ := Group.renumber_surjective n h.root node
    have hinj := Group.renumber_injective (n := n) h.root
    rw [h.owner_apply, h.firstChild_apply, ← Group.renumber_start h.root, Ne,
      Group.apply_eq_zero_iff h.root, ← Option.map_some, ← Option.map_some,
      (Option.map_injective hinj).eq_iff, (Option.map_injective hinj).eq_iff]
    exact ht.owner_iff group node
  begins {node first} hfirst := by
    obtain ⟨node, rfl⟩ := Group.renumber_surjective n h.root node
    rw [h.firstChild_apply, Option.map_eq_some_iff] at hfirst
    obtain ⟨first, hfirst, rfl⟩ := hfirst
    obtain ⟨group, hgroup, rfl⟩ := ht.begins hfirst
    exact ⟨σ group, Group.apply_ne_zero h.root hgroup, (Group.renumber_start h.root group).symm⟩

/-- A renumbered tree is linked if the tree was. -/
theorem linked (h : Renumbers σ t u) (ht : t.Linked) : u.Linked where
  toSized := h.sized ht.toSized
  paired := h.paired ht.paired
  live_of_firstChild {node first} hfirst := by
    obtain ⟨node, rfl⟩ := Group.renumber_surjective n h.root node
    rw [h.firstChild_apply, Option.map_eq_some_iff] at hfirst
    obtain ⟨first, hfirst, -⟩ := hfirst
    exact (h.live_apply node).2 (ht.live_of_firstChild hfirst)

/-- The groups in use are the moved ones. -/
theorem usedGroups_eq (h : Renumbers σ t u) (ht : t.Sized) : u.usedGroups = t.usedGroups.image σ := by
  ext group
  obtain ⟨group, rfl⟩ := σ.surjective group
  rw [mem_usedGroups (h.sized ht), h.inUse_apply, σ.injective.mem_finset_image, mem_usedGroups ht]

theorem card_usedGroups (h : Renumbers σ t u) (ht : t.Sized) :
    u.usedGroups.card = t.usedGroups.card := by
  rw [h.usedGroups_eq ht, Finset.card_image_of_injective _ σ.injective]

/-! ## Children and paths -/

/-- The children of a moved node are the moved children. -/
theorem childAt?_apply (h : Renumbers σ t u) (ht : t.Linked) (node position : Nat) :
    u.childAt? (Group.renumber n σ node) position =
      (t.childAt? node position).map (Group.renumber n σ) := by
  rw [childAt?, childAt?, h.firstChild_apply]
  cases hfirst : t.links.firstChild node with
  | none => rfl
  | some first =>
      obtain ⟨group, hgroup, rfl⟩ := ht.paired.begins hfirst
      simp only [Option.map_some, Option.bind_some]
      split
      · next hlt =>
        rw [Option.map_some, Group.renumber_start_add hgroup hlt, Group.renumber_start h.root]
      · rfl

/-- The children of a renumbered node are its renumbered children, in the same order. -/
theorem below_apply (h : Renumbers σ t u) (ht : t.Linked) (node : Nat) :
    u.below (Group.renumber n σ node) = (t.below node).map (Group.renumber n σ) := by
  rw [below, below, h.firstChild_apply]
  cases hfirst : t.links.firstChild node with
  | none => rfl
  | some first =>
      obtain ⟨group, hgroup, rfl⟩ := ht.paired.begins hfirst
      simp only [Option.map_some, Group.renumber_start h.root]
      rw [List.range'_eq_map_range, List.range'_eq_map_range, List.map_map]
      apply List.map_congr_left
      intro i hi
      exact (Group.renumber_start_add hgroup (List.mem_range.1 hi)).symm

/-- A path leads to the moved node. -/
theorem follow_eq (h : Renumbers σ t u) (ht : t.Linked) (path : List Nat) :
    u.follow path = (t.follow path).map (Group.renumber n σ) := by
  induction path using List.reverseRecOn with
  | nil => simp [h.root]
  | append_singleton path position ih =>
      rw [follow_concat, follow_concat, ih, Option.map_bind, Option.bind_map]
      exact congrArg (Option.bind _) (funext fun node => h.childAt?_apply ht node position)

theorem paths_eq (h : Renumbers σ t u) (ht : t.Linked) : u.paths = t.paths := by
  ext path
  rw [mem_paths_iff, mem_paths_iff, h.follow_eq ht, Option.isSome_map]

/-- A renumbered valid tree is valid if its counters are. -/
theorem valid (h : Renumbers σ t u) (ht : t.Valid) (hu : u.Counted) : u.Valid where
  toLinked := h.linked ht.toLinked
  toCounted := hu
  rooted {node} hnode := by
    obtain ⟨node, rfl⟩ := Group.renumber_surjective n h.root node
    obtain ⟨path, hpath⟩ := ht.rooted ((h.live_apply node).1 hnode)
    exact ⟨path, by rw [h.follow_eq ht.toLinked, hpath, Option.map_some]⟩

end Renumbers

end Orthtree.Tree
