import Orthtree.Proofs.Balancing

/-!
# Adjacency of leaves

In a balanced tree the neighbors of a leaf are the other leaves that touch it (`adjoins_iff_touch`), so that neighborhood
is symmetric there.  In any tree a node has at most as many neighbors as there are half-size nodes around it
(`length_allNeighbors_le`).
-/

namespace Orthtree

variable {n : Nat}

/-! ## Lengths of answers -/

section Lengths

variable {α β : Type}

/-- A query of a list gives one answer for each item. -/
theorem length_of_mapM {query : α → Except Fault β} {xs : List α} {ys : List β}
    (h : xs.mapM query = .ok ys) : ys.length = xs.length := by
  induction xs generalizing ys with
  | nil =>
      obtain rfl := Except.ok.inj h
      rfl
  | cons x xs ih =>
      rw [List.mapM_cons] at h
      obtain ⟨y, -, h⟩ := exists_of_bind_ok h
      obtain ⟨zs, hzs, h⟩ := exists_of_bind_ok h
      obtain rfl := Except.ok.inj h
      rw [List.length_cons, List.length_cons, ih hzs]

/-- Lists that a query gives are together no longer than the bounds on each of them. -/
theorem length_flatten_le_of_mapM {query : α → Except Fault (List β)} {bound : α → Nat}
    {xs : List α} {lists : List (List β)} (h : xs.mapM query = .ok lists)
    (hbound : ∀ x ∈ xs, ∀ ys, query x = .ok ys → ys.length ≤ bound x) :
    lists.flatten.length ≤ (xs.map bound).sum := by
  induction xs generalizing lists with
  | nil =>
      obtain rfl := Except.ok.inj h
      exact Nat.le_refl 0
  | cons x xs ih =>
      rw [List.mapM_cons] at h
      obtain ⟨ys, hys, h⟩ := exists_of_bind_ok h
      obtain ⟨rest, hrest, h⟩ := exists_of_bind_ok h
      obtain rfl := Except.ok.inj h
      rw [List.flatten_cons, List.length_append, List.map_cons, List.sum_cons]
      exact Nat.add_le_add (hbound x List.mem_cons_self ys hys)
        (ih hrest fun z hz => hbound z (List.mem_cons_of_mem x hz))

/-- A pass that adds at most `k` items at a time. -/
theorem length_le_of_foldlM {step : List β → α → Except Fault (List β)} {k : Nat} {xs : List α}
    {before after : List β} (h : xs.foldlM step before = .ok after)
    (hstep : ∀ x ∈ xs, ∀ ys zs, step ys x = .ok zs → zs.length ≤ ys.length + k) :
    after.length ≤ before.length + xs.length * k := by
  induction xs generalizing before with
  | nil =>
      obtain rfl := Except.ok.inj h
      exact Nat.le_add_right _ _
  | cons x xs ih =>
      rw [List.foldlM_cons] at h
      obtain ⟨between, hbetween, hfold⟩ := exists_of_bind_ok h
      have hfirst := hstep x List.mem_cons_self before between hbetween
      have hrest := ih hfold fun z hz => hstep z (List.mem_cons_of_mem x hz)
      rw [List.length_cons, Nat.add_mul, Nat.one_mul]
      omega

end Lengths

/-! ## The half-size nodes around a node -/

namespace Stencil

variable {s : Stencil} {position : Nat} {children : List Nat}

/-- The number of half-size nodes around a node that a stencil looks at. -/
def room (s : Stencil) : Nat := s.size * 2 ^ (s.dimension - s.rank)

/-- Both sides of a neighbor face the node along each axis that its offset does not move on. -/
theorem length_facing_of_mem_offsets : ∀ n ∈ [1, 2, 3], ∀ r ∈ [1, 2, 3], ∀ row ∈ offsets n r,
    (facing n row).length = 2 ^ (n - r) := by
  decide +kernel

/-- The facing children are those that may lie on either side along each axis the offset does not move along. -/
theorem length_facingAt (h : s.facingAt position = .ok children) :
    children.length = 2 ^ (s.dimension - s.rank) := by
  obtain ⟨row, hrow, rfl⟩ := facingAt_eq_ok_iff.1 h
  exact length_facing_of_mem_offsets s.dimension (mem_of_supported s.supported_dimension)
    s.rank s.rank_mem row (List.mem_of_getElem? hrow)

/-- The bound on the number of neighbors is the room of all stencils. -/
theorem neighborBound_eq (hn : Corner.supported n = true) {stencils : List Stencil}
    (hall : all n = .ok stencils) : neighborBound n = .ok (stencils.map room).sum := by
  have hmem := mem_of_supported hn
  simp only [List.mem_cons, List.not_mem_nil, or_false] at hmem
  rcases hmem with rfl | rfl | rfl <;> obtain rfl := Except.ok.inj hall <;> rfl

end Stencil

namespace Tree

open Location

variable {t : Tree n} {node m position bound : Nat} {p q : List Nat} {l : Location n} {s : Stencil}

/-! ## Counting neighbors -/

/-- At a position at most the children that face the node are added: a coarser node stands for all of them. -/
theorem length_addNeighbors_le {before after : List Nat}
    (h : t.addNeighbors l s before position = .ok after) :
    after.length ≤ before.length + 2 ^ (s.dimension - s.rank) := by
  have hpos := Nat.two_pow_pos (s.dimension - s.rank)
  obtain ⟨place, -, h⟩ := exists_of_bind_ok h
  cases place with
  | none =>
      obtain rfl := Except.ok.inj h
      exact Nat.le_add_right _ _
  | some k =>
      obtain ⟨found, -, h⟩ := exists_of_bind_ok h
      obtain ⟨coarse, -, h⟩ := exists_of_bind_ok h
      split at h
      · obtain rfl := Except.ok.inj h
        split
        · exact Nat.le_add_right _ _
        · rw [List.length_append, List.length_singleton]
          omega
      · obtain ⟨children, hchildren, h⟩ := exists_of_bind_ok h
        obtain ⟨finer, hfiner, h⟩ := exists_of_bind_ok h
        obtain rfl := Except.ok.inj h
        rw [List.length_append, ← Stencil.length_facingAt hchildren, ← length_of_mapM hfiner]
        exact Nat.add_le_add_left (List.length_filterMap_le id finer) _

/-- A stencil lists no more neighbors than there are half-size nodes around a node. -/
theorem length_neighborsAcross_le {neighbors : List Nat}
    (h : t.neighborsAcross l s = .ok neighbors) : neighbors.length ≤ s.room := by
  have hle := length_le_of_foldlM h fun position _ before after hstep => length_addNeighbors_le hstep
  rwa [List.length_nil, Nat.zero_add, Stencil.positions, List.length_range] at hle

/-- Around a location lie no more neighbors than there are half-size nodes. -/
theorem length_allNeighbors_le (hn : Corner.supported n = true)
    (hbound : Stencil.neighborBound n = .ok bound) {neighbors : List Nat}
    (h : t.allNeighbors l = .ok neighbors) : neighbors.length ≤ bound := by
  obtain ⟨stencils, hall, h⟩ := exists_of_bind_ok h
  obtain ⟨lists, hlists, h⟩ := exists_of_bind_ok h
  obtain rfl := Except.ok.inj h
  rw [Stencil.neighborBound_eq hn hall, Except.ok.injEq] at hbound
  rw [← hbound]
  exact (length_ascending_le _).trans
    (length_flatten_le_of_mapM hlists fun s _ neighbors => length_neighborsAcross_le)

/-! ## Neighbors of leaves -/

/-- In a graded tree a leaf adjoins the other leaves that touch it. -/
theorem adjoins_iff_touch (ht : t.Linked) (hgraded : Graded n t.leafPaths) (hp : p ∈ t.leafPaths) :
    t.Adjoins p q m ↔
      p ≠ q ∧ t.follow q = some m ∧ t.links.firstChild m = none ∧ Touch n p q := by
  constructor
  · intro h
    refine ⟨fun heq => h.not_below (heq ▸ List.prefix_rfl), h.follow, ?_, h.touch⟩
    rcases h.coarse_or_finer with ⟨hleaf, -⟩ | hlength
    · exact hleaf
    · -- Some leaf below a finer node touches as well; it is no deeper, so it is the node itself.
      obtain ⟨s, hs, htouch⟩ := exists_leaf_touch ht h.follow h.touch
      have hle := hgraded _ hs p hp htouch.symm
      rw [List.length_append] at hle
      obtain rfl : s = [] := List.length_eq_zero_iff.1 (by omega)
      obtain ⟨m', hm', hleaf⟩ := hs
      rw [List.append_nil, h.follow, Option.some.injEq] at hm'
      rwa [hm']
  · rintro ⟨hne, hm, hleaf, htouch⟩
    have hq : q ∈ t.leafPaths := ⟨m, hm, hleaf⟩
    have hle := hgraded q hq p hp htouch.symm
    obtain ⟨a, ha, -⟩ := id hp
    refine ⟨hm, ?_, ?_, htouch, ?_⟩
    · intro hbegin
      exact hne (eq_of_isPrefix_of_leaf hq ha hbegin).symm
    · intro hbegin
      exact hne (eq_of_isPrefix_of_leaf hp hm hbegin)
    · rcases Nat.lt_or_ge p.length q.length with hlt | hge
      · exact Or.inr (by omega)
      · exact Or.inl ⟨hleaf, hge⟩

/-- `other` is listed among the neighbors of `node`. -/
def IsNeighbor (t : Tree n) (node other : Nat) : Prop :=
  ∃ l neighbors, t.location node = .ok l ∧ t.allNeighbors l = .ok neighbors ∧ other ∈ neighbors

/-- Being listed as a neighbor is adjoining, in terms of paths. -/
theorem isNeighbor_iff (ht : t.Linked) (hlevels : t.Locatable) (hp : t.follow p = some node) :
    t.IsNeighbor node m ↔ ∃ q, t.Adjoins p q m := by
  obtain ⟨l, hl, rfl⟩ := exists_location ht hp (hlevels.length_le ht hp)
  obtain ⟨neighbors, hneighbors, -, hmem⟩ := exists_neighbors ht hp
  rw [← hmem]
  constructor
  · rintro ⟨l', neighbors', hl', hneighbors', hm⟩
    obtain rfl := Except.ok.inj (hl.symm.trans hl')
    rwa [Except.ok.inj (hneighbors.symm.trans hneighbors')]
  · exact fun hm => ⟨l, neighbors, hl, hneighbors, hm⟩

/-- In a graded tree the neighbors of a leaf are the other leaves whose regions meet its own. -/
theorem isNeighbor_iff_meet (ht : t.Valid) (hlevels : t.Locatable) (hgraded : Graded n t.leafPaths)
    (hnode : t.contains node = .ok true) (hleaf : t.isLeaf node = .ok true) :
    t.IsNeighbor node m ↔ m ≠ node ∧ t.contains m = .ok true ∧ t.isLeaf m = .ok true ∧
      (t.region node ∩ t.region m).Nonempty := by
  obtain ⟨p, hp⟩ := ht.exists_follow hnode
  have hpleaf := (mem_leafPaths_iff ht.toLinked).2 ⟨node, hp, hleaf⟩
  rw [isNeighbor_iff ht.toLinked hlevels hp]
  simp only [adjoins_iff_touch ht.toLinked hgraded hpleaf]
  constructor
  · rintro ⟨q, hne, hq, hmleaf, htouch⟩
    refine ⟨?_, contains_of_follow ht.toLinked hq,
      (isLeaf_iff_of_follow ht.toLinked hq).2 hmleaf, ?_⟩
    · rintro rfl
      exact hne (follow_injective ht.toLinked hp hq)
    · exact (hlevels.meet_iff_touch ht.toLinked hp hq).2 htouch
  · rintro ⟨hne, hm, hmleaf, hmeet⟩
    obtain ⟨q, hq⟩ := ht.exists_follow hm
    refine ⟨q, ?_, hq, ?_, (hlevels.meet_iff_touch ht.toLinked hp hq).1 hmeet⟩
    · rintro rfl
      exact hne (Option.some_injective _ (hq.symm.trans hp))
    · exact (isLeaf_iff_of_follow ht.toLinked hq).1 hmleaf

/-- **Symmetry of neighborhood.**  In a balanced tree two leaves are neighbors, seen from either one, iff their regions
meet, and leaves have only leaves as neighbors.  No node has more neighbors than the bound. -/
theorem Reachable.isNeighbor_symm (h : t.Reachable) (hlevels : t.Locatable)
    (hbalanced : t.isBalanced = .ok true) :
    (∀ a b, t.contains a = .ok true → t.isLeaf a = .ok true → t.contains b = .ok true →
      t.isLeaf b = .ok true → a ≠ b →
        (t.IsNeighbor a b ↔ (t.region a ∩ t.region b).Nonempty) ∧
        (t.IsNeighbor b a ↔ (t.region a ∩ t.region b).Nonempty)) ∧
    (∀ a b, t.contains a = .ok true → t.isLeaf a = .ok true → t.IsNeighbor a b →
      t.contains b = .ok true ∧ t.isLeaf b = .ok true) ∧
    ∃ bound, Stencil.neighborBound n = .ok bound ∧ ∀ node, t.contains node = .ok true →
      ∃ l neighbors, t.location node = .ok l ∧ t.allNeighbors l = .ok neighbors ∧
        neighbors.length ≤ bound := by
  have ht := h.valid
  have hgraded : Graded n t.leafPaths := by
    obtain ⟨b, hb, hiff⟩ := exists_isBalanced ht hlevels
    exact hiff.1 (Except.ok.inj (hb.symm.trans hbalanced))
  refine ⟨?_, ?_, ?_⟩
  · intro a b ha haleaf hb hbleaf hne
    -- Both directions come down to regions that meet, which is symmetric.
    have hab := isNeighbor_iff_meet (m := b) ht hlevels hgraded ha haleaf
    have hba := isNeighbor_iff_meet (m := a) ht hlevels hgraded hb hbleaf
    simp only [hb, hbleaf, hne.symm, ne_eq, not_false_eq_true, true_and] at hab
    simp only [ha, haleaf, hne, ne_eq, not_false_eq_true, true_and] at hba
    exact ⟨hab, by rw [hba, Set.inter_comm]⟩
  · intro a b ha haleaf hneighbor
    obtain ⟨-, hb, hbleaf, -⟩ :=
      (isNeighbor_iff_meet ht hlevels hgraded ha haleaf).1 hneighbor
    exact ⟨hb, hbleaf⟩
  · obtain ⟨stencils, hall, -⟩ := Stencil.exists_all ht.supported
    have hbound := Stencil.neighborBound_eq ht.supported hall
    refine ⟨_, hbound, ?_⟩
    intro node hnode
    obtain ⟨p, hp⟩ := ht.exists_follow hnode
    obtain ⟨l, hl, rfl⟩ := exists_location ht.toLinked hp (hlevels.length_le ht.toLinked hp)
    obtain ⟨neighbors, hneighbors, -⟩ := exists_neighbors ht.toLinked hp
    exact ⟨l, neighbors, hl, hneighbors, length_allNeighbors_le ht.supported hbound hneighbors⟩

/-- A square with one refined quarter: a coarse leaf and a fine one that touch in the center alone. -/
theorem Reachable.isNeighbor_symm_center :
    ((rootOnly 2 4).afterCalls [.refine 0, .refine 3]).isBalanced = .ok true ∧
      (((rootOnly 2 4).afterCalls [.refine 0, .refine 3]).IsNeighbor 2 6 ↔
        (((rootOnly 2 4).afterCalls [.refine 0, .refine 3]).region 2 ∩
          ((rootOnly 2 4).afterCalls [.refine 0, .refine 3]).region 6).Nonempty) ∧
      (((rootOnly 2 4).afterCalls [.refine 0, .refine 3]).IsNeighbor 6 2 ↔
        (((rootOnly 2 4).afterCalls [.refine 0, .refine 3]).region 2 ∩
          ((rootOnly 2 4).afterCalls [.refine 0, .refine 3]).region 6).Nonempty) := by
  have hbalanced :
      ((rootOnly 2 4).afterCalls [.refine 0, .refine 3]).isBalanced = .ok true := by
    decide +kernel
  obtain ⟨hmeet, -⟩ := Reachable.isNeighbor_symm
    ((Reachable.new 13 rfl).afterCalls [.refine 0, .refine 3]) (by decide +kernel) hbalanced
  exact ⟨hbalanced, hmeet 2 6 (by decide +kernel) (by decide +kernel) (by decide +kernel)
    (by decide +kernel) (by decide)⟩

/-- They list each other. -/
example : (do
    let t := (rootOnly 2 4).afterCalls [.refine 0, .refine 3]
    return (← t.allNeighbors (← t.location 2), ← t.allNeighbors (← t.location 6))) =
      .ok ([1, 4, 6], [1, 2, 4, 5, 7, 8]) := by
  decide +kernel

end Tree

end Orthtree
