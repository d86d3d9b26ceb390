import Orthtree.Proofs.Canonical
import Orthtree.Proofs.Histories

/-!
# Moving groups in reachable trees

`swap` is a relabelling of the nodes and nothing else, and undoes itself.  `sort` makes equal what has equal paths,
whatever has happened before.  The exchanges that `sortWith` reports carry data along with the nodes.
-/

namespace Orthtree

namespace Group

variable {n a b : Nat}

/-- `π` exchanges the nodes of two groups position by position and moves no other node. -/
structure Exchanges (n a b : Nat) (π : Nat → Nat) : Prop where
  left (position : Nat) : position < 2 ^ n → π (start n a + position) = start n b + position
  right (position : Nat) : position < 2 ^ n → π (start n b + position) = start n a + position
  other (node : Nat) : ofNode n node ≠ a → ofNode n node ≠ b → π node = node

/-- Renumbering by a transposition of two groups exchanges their nodes. -/
theorem exchanges_renumber (ha : a ≠ 0) (hb : b ≠ 0) :
    Exchanges n a b (renumber n (Equiv.swap a b)) where
  left position hposition := by
    rw [renumber_start_add ha hposition, Equiv.swap_apply_left]
  right position hposition := by
    rw [renumber_start_add hb hposition, Equiv.swap_apply_right]
  other node hna hnb := renumber_of_fixed (Equiv.swap_apply_of_ne_of_ne hna hnb)

end Group

namespace Tree

variable {n : Nat} {t u : Tree n} {σ : Equiv.Perm Nat} {a b : Nat}

/-! ## Relabelled nodes -/

/-- Every node `node` of `t` has become the node `π node` of `u`, and is related to the others as before. -/
structure Relabels (π : Nat → Nat) (t u : Tree n) : Prop where
  contains_eq (node : Nat) : u.contains node = t.contains (π node)
  parent_apply (node : Nat) : t.contains node = .ok true →
    ∃ parent, t.parent node = .ok parent ∧ u.parent (π node) = .ok (parent.map π)
  child_apply (node position : Nat) : t.contains node = .ok true → position < 2 ^ n →
    ∃ child, t.child node position = .ok child ∧ u.child (π node) position = .ok (child.map π)
  exists_path (node : Nat) : t.contains node = .ok true →
    ∃ path, t.follow path = some node ∧ u.follow path = some (π node)
  follow_iff (node : Nat) (path : List Nat) : t.contains node = .ok true →
    (t.follow path = some node ↔ u.follow path = some (π node))

/-- A renumbering that is its own inverse relabels the nodes. -/
theorem Renumbers.relabels (h : Renumbers σ t u) (ht : t.Valid) (hu : u.Valid)
    (hσ : ∀ node, Group.renumber n σ (Group.renumber n σ node) = node) :
    Relabels (Group.renumber n σ) t u where
  contains_eq node := by
    have hlive := h.live_apply (Group.renumber n σ node)
    rw [hσ] at hlive
    rw [Tree.contains_eq hu.toSized, Tree.contains_eq ht.toSized, decide_eq_decide.2 hlive]
  parent_apply node hnode := by
    have hlive := (contains_eq_true_iff ht.toSized node).1 hnode
    refine ⟨_, parent_eq ht.toLinked (hlive.lt_capacity ht.toSized), ?_⟩
    have hlive' := (h.live_apply node).2 hlive
    rw [parent_eq hu.toLinked (hlive'.lt_capacity hu.toSized), Group.ofNode_renumber h.root,
      h.owner_apply]
  child_apply node position hnode hposition := by
    have hlive := (contains_eq_true_iff ht.toSized node).1 hnode
    refine ⟨_, child_eq ht.toLinked (hlive.lt_capacity ht.toSized) hposition, ?_⟩
    have hlive' := (h.live_apply node).2 hlive
    rw [child_eq hu.toLinked (hlive'.lt_capacity hu.toSized) hposition,
      h.childAt?_apply ht.toLinked]
  exists_path node hnode := by
    obtain ⟨path, hpath⟩ := ht.rooted ((contains_eq_true_iff ht.toSized node).1 hnode)
    refine ⟨path, hpath, ?_⟩
    rw [h.follow_eq ht.toLinked, hpath, Option.map_some]
  follow_iff node path _ := by
    rw [h.follow_eq ht.toLinked, ← Option.map_some,
      (Option.map_injective (Group.renumber_injective h.root)).eq_iff]

/-- A tree that is renumbered by nothing is the same tree. -/
theorem Renumbers.eq_of_refl (h : Renumbers (Equiv.refl Nat) t u) (ht : t.Valid) (hu : u.Valid) :
    u = t := by
  have howner : ∀ group, u.links.owner group = t.links.owner group := by
    intro group
    have happly := h.owner_apply group
    rwa [show Group.renumber n (Equiv.refl Nat) = id from funext (Group.renumber_refl n),
      Option.map_id_fun] at happly
  have hfirst : ∀ node, u.links.firstChild node = t.links.firstChild node := by
    intro node
    have happly := h.firstChild_apply node
    rwa [show Group.renumber n (Equiv.refl Nat) = id from funext (Group.renumber_refl n),
      Option.map_id_fun] at happly
  apply hu.eq_of_links ht
  exact Links.eq_of_lookups h.groupCapacity_eq h.capacity_eq howner hfirst

/-- Swapping the same groups again undoes the first swap. -/
theorem swap_of_swap (ht : t.Valid) (hu : u.Valid) (ha : a ≠ 0) (hb : b ≠ 0) (hab : a ≠ b)
    (hac : a < t.groupCapacity) (hbc : b < t.groupCapacity)
    (h : Renumbers (Equiv.swap a b) t u) : swap a b u = .ok () t := by
  obtain ⟨v, hswap, hv, -, hvalid⟩ := swap_eq hu ha hb hab
    (hac.trans_eq h.groupCapacity_eq.symm) (hbc.trans_eq h.groupCapacity_eq.symm)
  have hback := h.trans hv
  rw [Equiv.swap_swap] at hback
  rw [hswap, hback.eq_of_refl ht hvalid]

/-- **Swapping relabels.**  Swapping two groups of a reachable tree exchanges the labels of their nodes and changes
nothing else.  Swapping them once more, in either order, brings the very same tree back. -/
theorem Reachable.swap_relabels (h : t.Reachable) (ha : a ≠ 0) (hb : b ≠ 0) (hab : a ≠ b)
    (hac : a < t.groupCapacity) (hbc : b < t.groupCapacity) :
    ∃ π : Nat → Nat, Group.Exchanges n a b π ∧ ∃ u : Tree n, swap a b t = .ok () u ∧
      Relabels π t u ∧ u.size = t.size ∧ swap a b u = .ok () t ∧ swap b a u = .ok () t := by
  have ht := h.valid
  obtain ⟨u, hswap, hσ, hsize, hu⟩ := swap_eq ht ha hb hab hac hbc
  refine ⟨_, Group.exchanges_renumber ha hb, u, hswap, ?_, hsize, ?_, ?_⟩
  · exact hσ.relabels ht hu (Group.renumber_swap_renumber_swap ha hb)
  · exact swap_of_swap ht hu ha hb hab hac hbc hσ
  · rw [Equiv.swap_comm] at hσ
    exact swap_of_swap ht hu hb ha hab.symm hbc hac hσ

/-- Swapping a group of leaves with the group that holds their parent. -/
theorem Reachable.swap_relabels_owner :
    ∃ π : Nat → Nat, Group.Exchanges 2 1 2 π ∧ ∃ u : Tree 2,
      swap 1 2 ((rootOnly 2 4).afterCalls [.refine 0, .refine 3]) = .ok () u ∧
      Relabels π ((rootOnly 2 4).afterCalls [.refine 0, .refine 3]) u ∧ u.size = 9 ∧
      swap 1 2 u = .ok () ((rootOnly 2 4).afterCalls [.refine 0, .refine 3]) ∧
      swap 2 1 u = .ok () ((rootOnly 2 4).afterCalls [.refine 0, .refine 3]) :=
  Reachable.swap_relabels ((Reachable.new 13 rfl).afterCalls [.refine 0, .refine 3])
    (by decide) (by decide) (by decide) (by decide) (by decide)

/-! ## The canonical form -/

/-- **Sorting is canonical.**  Every reachable tree is sorted without a fault.  Its paths and its size stay, and it
becomes compact and sorted.  Two trees agree after sorting iff they had the same paths before; then they have the same
snapshot, too. -/
theorem Reachable.sort_canonical (ht : t.Reachable) (hu : u.Reachable) :
    ∃ t' u' : Tree n, sort t = .ok () t' ∧ sort u = .ok () u' ∧
      t'.paths = t.paths ∧ t'.size = t.size ∧ t'.isCompact = true ∧ t'.isSorted = .ok true ∧
      (∃ b, t'.agrees u' = .ok b ∧ (b = true ↔ t.paths = u.paths)) ∧
      (t.paths = u.paths → ∃ s, t'.snapshot = .ok (.ok s) ∧ u'.snapshot = .ok (.ok s)) := by
  obtain ⟨pairs, σ, order, last, t', hrun, hmoved, hsorted⟩ := sortWith_eq ht.valid
  obtain ⟨pairs', σ', order', last', u', hrun', hmoved', hsorted'⟩ := sortWith_eq hu.valid
  have hpt : t'.paths = t.paths := hmoved.renumbers.paths_eq ht.valid.toLinked
  have hpu : u'.paths = u.paths := hmoved'.renumbers.paths_eq hu.valid.toLinked
  have hcanonical := sameLinks_iff_paths hmoved.valid hmoved'.valid hsorted hsorted'
  rw [hpt, hpu] at hcanonical
  refine ⟨t', u', sort_eq hrun, sort_eq hrun', hpt, hmoved.size_eq, hsorted.isCompact hmoved.valid,
    hsorted.isSorted hmoved.valid, ?_, ?_⟩
  · obtain ⟨b, hagrees, hb⟩ := agrees_eq hmoved.valid hmoved'.valid
    exact ⟨b, hagrees, hb.trans hcanonical⟩
  · intro hpaths
    have hsame := hcanonical.2 hpaths
    obtain ⟨s, hrecord, hs⟩ :=
      snapshot_of_isCompact hmoved.valid (hsorted.isCompact hmoved.valid)
    obtain ⟨s', hrecord', hs'⟩ :=
      snapshot_of_isCompact hmoved'.valid (hsorted'.isCompact hmoved'.valid)
    rw [hsame.record_eq hmoved.valid hmoved'.valid, hrecord'] at hrecord
    obtain rfl := Except.ok.inj hrecord
    exact ⟨s', hs, hs'⟩

/-- A tree, and one with more room whose groups are out of order. -/
theorem Reachable.sort_canonical_scattered :
    ∃ t' u' : Tree 2,
      sort ((rootOnly 2 3).afterCalls [.refine 0, .refine 3]) = .ok () t' ∧
      sort ((rootOnly 2 5).afterCalls [.refine 0, .refine 3, .swap 1 3]) = .ok () u' ∧
      t'.paths = ((rootOnly 2 3).afterCalls [.refine 0, .refine 3]).paths ∧
      t'.size = 9 ∧ t'.isCompact = true ∧ t'.isSorted = .ok true ∧
      (∃ b, t'.agrees u' = .ok b ∧ (b = true ↔
        ((rootOnly 2 3).afterCalls [.refine 0, .refine 3]).paths =
          ((rootOnly 2 5).afterCalls [.refine 0, .refine 3, .swap 1 3]).paths)) ∧
      (((rootOnly 2 3).afterCalls [.refine 0, .refine 3]).paths =
          ((rootOnly 2 5).afterCalls [.refine 0, .refine 3, .swap 1 3]).paths →
        ∃ s, t'.snapshot = .ok (.ok s) ∧ u'.snapshot = .ok (.ok s)) :=
  Reachable.sort_canonical ((Reachable.new 9 rfl).afterCalls [.refine 0, .refine 3])
    ((Reachable.new 17 rfl).afterCalls [.refine 0, .refine 3, .swap 1 3])

/-! ## Data kept by node number -/

/-- **Data stays in step.**  Replaying the exchanges that `sortWith` reports, on a table with an entry for each node
there is room for, is never out of range.  The tree is then compact and sorted and has the paths that it had before, and
the node that now has the path of a node also has its entry. -/
theorem Reachable.replay_sortWith {α : Type} (h : t.Reachable) (data : Array α)
    (hdata : data.size = t.capacity) :
    ∃ (pairs : List (Nat × Nat)) (u : Tree n) (moved : Array α),
      sortWith t = .ok pairs u ∧ Group.replay data pairs = .ok moved ∧
      u.isCompact = true ∧ u.isSorted = .ok true ∧ u.paths = t.paths ∧
      (∀ node, t.contains node = .ok true → ∃ path, t.follow path = some node) ∧
      ∀ path node, t.follow path = some node → ∃ node' entry, u.follow path = some node' ∧
        data[node]? = some entry ∧ moved[node']? = some entry := by
  have ht := h.valid
  obtain ⟨pairs, σ, order, last, u, hrun, hmoved, hsorted⟩ := sortWith_eq ht
  have hinside : ∀ pair ∈ pairs, pair.1 < data.size ∧ pair.2 < data.size := by
    rw [hdata]
    exact hmoved.inside
  obtain ⟨moved, hreplay, -, hentry⟩ := Group.replay_eq hinside
  refine ⟨pairs, u, moved, hrun, hreplay, hsorted.isCompact hmoved.valid,
    hsorted.isSorted hmoved.valid, hmoved.renumbers.paths_eq ht.toLinked, ?_, ?_⟩
  · intro node hnode
    exact ht.rooted ((contains_eq_true_iff ht.toSized node).1 hnode)
  · intro path node hpath
    have hlive := live_of_follow ht.toLinked hpath
    have hnode : node < data.size := by
      rw [hdata]
      exact hlive.lt_capacity ht.toSized
    refine ⟨Group.renumber n σ node, data[node], ?_, Array.getElem?_eq_getElem hnode, ?_⟩
    · rw [hmoved.renumbers.follow_eq ht.toLinked, hpath, Option.map_some]
    · rw [hentry, hmoved.exchanged_renumber, Array.getElem?_eq_getElem hnode]

/-- A table of 13 entries follows a tree whose leaves have changed places with a free group. -/
theorem Reachable.replay_sortWith_moved :
    ∃ (pairs : List (Nat × Nat)) (u : Tree 2) (moved : Array Nat),
      sortWith ((rootOnly 2 4).afterCalls [.refine 0, .swap 1 3]) = .ok pairs u ∧
      Group.replay (Array.range 13) pairs = .ok moved ∧
      u.isCompact = true ∧ u.isSorted = .ok true ∧
      u.paths = ((rootOnly 2 4).afterCalls [.refine 0, .swap 1 3]).paths ∧
      (∀ node, ((rootOnly 2 4).afterCalls [.refine 0, .swap 1 3]).contains node = .ok true →
        ∃ path, ((rootOnly 2 4).afterCalls [.refine 0, .swap 1 3]).follow path = some node) ∧
      ∀ path node,
        ((rootOnly 2 4).afterCalls [.refine 0, .swap 1 3]).follow path = some node →
        ∃ node' entry, u.follow path = some node' ∧ (Array.range 13)[node]? = some entry ∧
          moved[node']? = some entry :=
  Reachable.replay_sortWith ((Reachable.new 13 rfl).afterCalls [.refine 0, .swap 1 3])
    (Array.range 13) (by decide)

end Tree

end Orthtree
