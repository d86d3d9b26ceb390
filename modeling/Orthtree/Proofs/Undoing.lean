import Orthtree.Proofs.Relocating

/-!
# Refining and coarsening undo each other

Refining and coarsening are the two directions of one relation, `Attached`, and that relation determines either tree
from the other one: the smaller tree up to equality (`Attached.unique`), the larger one up to the place of the attached
group (`Attached.renumbers_swap`).  Both counters follow the links, so nothing remains of a leaf that was refined and
coarsened again.  A node that was coarsened and refined again may have its children in another group, and one exchange
of groups takes them back.
-/

namespace Orthtree.Tree

variable {n : Nat} {t u v w : Tree n} {σ : Equiv.Perm Nat} {node group group' : Nat}

/-! ## One edge, there and back -/

namespace Attached

/-- The members of the attached group are leaves. -/
theorem firstChild_of_member (h : Attached node group t u) (ht : t.Linked) {c : Nat}
    (hc : Group.ofNode n c = group) : u.links.firstChild c = none := by
  have hfree : ¬t.Live c := by
    rw [Live, hc]
    exact h.not_inUse
  have hne : c ≠ node := by
    rintro rfl
    exact hfree h.live
  rw [h.firstChild_eq, if_neg hne, firstChild_of_not_live ht hfree]

/-- The tree without the group is determined by the tree with the group. -/
theorem unique (h : Attached node group t v) (h' : Attached node group u v) (ht : t.Valid)
    (hu : u.Valid) : t = u := by
  apply ht.eq_of_links hu
  apply Links.eq_of_lookups
  · exact h.groupCapacity_eq.symm.trans h'.groupCapacity_eq
  · exact h.capacity_eq.symm.trans h'.capacity_eq
  · intro g
    by_cases hg : g = group
    · rw [hg, h.free, h'.free]
    · have hv := h.owner_eq g
      rwa [h'.owner_eq, if_neg hg, if_neg hg, eq_comm] at hv
  · intro c
    by_cases hc : c = node
    · rw [hc, h.leaf, h'.leaf]
    · have hv := h.firstChild_eq c
      rwa [h'.firstChild_eq, if_neg hc, if_neg hc, eq_comm] at hv

end Attached

/-- Attaching corresponding groups to corresponding leaves keeps the trees corresponding. -/
theorem Renumbers.attach (h : Renumbers σ t u) (ht : Attached node group t v)
    (hu : Attached (Group.renumber n σ node) (σ group) u w) : Renumbers σ v w where
  root := h.root
  groupCapacity_eq := by rw [hu.groupCapacity_eq, h.groupCapacity_eq, ht.groupCapacity_eq]
  capacity_eq := by rw [hu.capacity_eq, h.capacity_eq, ht.capacity_eq]
  owner_apply g := by
    by_cases hg : g = group
    · rw [hg, hu.owner_eq, if_pos rfl, ht.owner_eq, if_pos rfl, Option.map_some]
    · rw [hu.owner_eq, if_neg (σ.injective.ne hg), ht.owner_eq, if_neg hg, h.owner_apply]
  firstChild_apply c := by
    by_cases hc : c = node
    · rw [hc, hu.firstChild_eq, if_pos rfl, ht.firstChild_eq, if_pos rfl, Option.map_some,
        Group.renumber_start h.root]
    · rw [hu.firstChild_eq, if_neg ((Group.renumber_injective h.root).ne hc), ht.firstChild_eq,
        if_neg hc, h.firstChild_apply]

/-- Attaching one free group or another differs by their exchange only. -/
theorem Attached.renumbers_swap (h : Attached node group t u) (h' : Attached node group' t v)
    (ht : t.Linked) : Renumbers (Equiv.swap group' group) u v := by
  -- Both groups are free in the smaller tree, so their exchange does not show there.
  have hfixed : ∀ g, t.InUse g → Equiv.swap group' group g = g := by
    intro g hg
    apply Equiv.swap_apply_of_ne_of_ne
    · rintro rfl
      exact h'.not_inUse hg
    · rintro rfl
      exact h.not_inUse hg
  have hnode : Group.renumber n (Equiv.swap group' group) node = node :=
    Group.renumber_of_fixed (hfixed _ h.live)
  apply (Renumbers.of_fixed ht hfixed).attach h
  rwa [hnode, Equiv.swap_apply_right]

/-! ## Both operations -/

/-- A successful `refine` attaches the lowest free group. -/
theorem attached_of_refine (ht : t.Valid) (h : refine node t = .ok (some group) u) :
    Attached node group t u ∧ u.Valid := by
  rcases refine_cases ht node with
    ⟨-, hfree⟩ | ⟨-, -, hbranch⟩ | ⟨-, -, -, hfull⟩ | ⟨-, -, -, u', hrefine, hu, -, hvalid⟩
  · rw [hfree] at h
    cases h
  · rw [hbranch] at h
    cases h
  · rw [hfull] at h
    cases h
  · rw [hrefine] at h
    cases h
    exact ⟨hu, hvalid⟩

/-- A successful `coarsen` detaches the group of the children. -/
theorem attached_of_coarsen (ht : t.Valid) (h : coarsen node t = .ok () u) :
    ∃ group, t.links.owner group = some node ∧ Attached node group u t ∧ u.Valid := by
  rcases coarsen_cases ht node with
    ⟨-, hfree⟩ | ⟨-, -, hleaf⟩ | ⟨group, howner, ⟨-, hdeep⟩ | ⟨-, u', hcoarsen, hu, -, hvalid⟩⟩
  · rw [hfree] at h
    cases h
  · rw [hleaf] at h
    cases h
  · rw [hdeep] at h
    cases h
  · rw [hcoarsen] at h
    cases h
    exact ⟨group, howner, hu, hvalid⟩

/-- A leaf that has just been refined can be coarsened, and that leaves no trace. -/
theorem coarsen_of_refine (ht : t.Valid) (h : refine node t = .ok (some group) u) :
    coarsen node u = .ok () t := by
  obtain ⟨hattached, hu⟩ := attached_of_refine ht h
  have howner : u.links.owner group = some node := by
    rw [hattached.owner_eq, if_pos rfl]
  obtain ⟨v, hcoarsen, hback, -, hv⟩ :=
    coarsen_eq hu howner fun _ hc => hattached.firstChild_of_member ht.toLinked hc
  rw [hcoarsen, hattached.unique hback ht hv]

/-- A node that has just been coarsened can be refined.  It gets the lowest free group, which is not above the group
that it had. -/
theorem refine_of_coarsen (ht : t.Valid) (h : coarsen node t = .ok () u) :
    ∃ group group' v, t.childrenGroup node = .ok (some group) ∧ group < t.groupCapacity ∧
      refine node u = .ok (some group') v ∧ group' ≠ 0 ∧ group' ≤ group ∧
      Renumbers (Equiv.swap group' group) t v ∧ v.Valid := by
  obtain ⟨group, howner, hattached, hu⟩ := attached_of_coarsen ht h
  have hroom : u.size < u.capacity := by
    have hle := hattached.size_add_le hu
    have hpos := Nat.two_pow_pos n
    omega
  obtain ⟨v, hrefine, hagain, -, hv⟩ := refine_eq hu hattached.live hattached.leaf hroom
  refine ⟨group, u.firstFree, v, childrenGroup_of_owner ht.toLinked howner,
    Links.lt_groupCapacity_of_owner howner, hrefine, hu.lowest.ne_zero, ?_,
    hattached.renumbers_swap hagain hu.toLinked, hv⟩
  by_contra hlt
  exact hattached.not_inUse (hu.lowest.2 group (Nat.not_le.1 hlt))

/-- **Undoing.**  In a reachable tree, coarsening a leaf that has just been refined brings the very same tree back,
counters included.  Conversely, a node that has been coarsened can be refined again.  Its children then are in a group
that is not higher than before, and in the same group only if the tree is the same; if the group is another one,
exchanging the two brings the very same tree back. -/
theorem Reachable.refine_coarsen_inverse (h : t.Reachable) :
    (∀ node group u, refine node t = .ok (some group) u → coarsen node u = .ok () t) ∧
      ∀ node u, coarsen node t = .ok () u → ∃ group group' v,
        t.childrenGroup node = .ok (some group) ∧ refine node u = .ok (some group') v ∧
          group' ≤ group ∧ (group' = group → v = t) ∧
          (group' ≠ group → swap group' group v = .ok () t) := by
  have ht := h.valid
  refine ⟨fun _ _ _ hrefine => coarsen_of_refine ht hrefine, ?_⟩
  intro node u hcoarsen
  obtain ⟨group, group', v, hchildren, hlt, hrefine, hgroup', hle, hmoved, hv⟩ :=
    refine_of_coarsen ht hcoarsen
  refine ⟨group, group', v, hchildren, hrefine, hle, ?_, ?_⟩
  · rintro rfl
    rw [Equiv.swap_self] at hmoved
    exact hmoved.eq_of_refl ht hv
  · intro hne
    have hgroup : group ≠ 0 := by omega
    exact swap_of_swap ht hv hgroup' hgroup hne (hle.trans_lt hlt) hlt hmoved

/-- The children of node 2 are in group 3 while group 2 is free, so they come back in another group. -/
theorem Reachable.refine_coarsen_inverse_moved :
    coarsen 1 (((rootOnly 2 5).afterCalls
        [.refine 0, .refine 1, .refine 2, .coarsen 1]).afterCalls [.refine 1]) =
      .ok () ((rootOnly 2 5).afterCalls [.refine 0, .refine 1, .refine 2, .coarsen 1]) ∧
    ∃ group group' v,
      ((rootOnly 2 5).afterCalls [.refine 0, .refine 1, .refine 2, .coarsen 1]).childrenGroup 2 =
        .ok (some group) ∧
      refine 2 (((rootOnly 2 5).afterCalls
        [.refine 0, .refine 1, .refine 2, .coarsen 1]).afterCalls [.coarsen 2]) =
        .ok (some group') v ∧
      group' ≤ group ∧
      (group' = group →
        v = (rootOnly 2 5).afterCalls [.refine 0, .refine 1, .refine 2, .coarsen 1]) ∧
      (group' ≠ group → swap group' group v =
        .ok () ((rootOnly 2 5).afterCalls [.refine 0, .refine 1, .refine 2, .coarsen 1])) :=
  have h := Reachable.refine_coarsen_inverse
    ((Reachable.new 17 rfl).afterCalls [.refine 0, .refine 1, .refine 2, .coarsen 1])
  ⟨h.1 1 2 _ rfl, h.2 2 _ rfl⟩

end Orthtree.Tree
