import Orthtree.Proofs.Histories
import Orthtree.Proofs.Offsets
import Orthtree.Tree.Neighborhood

/-!
# Neighbors

The neighbors found for a node are the nodes whose boxes touch its box, apart from the node's own ancestors and
descendants: of the coarser nodes and those of the same size the leaves, of the finer ones those of the next level
(`Reachable.allNeighbors_exact`).  At each offset a stencil finds the leaf on the way to the place there, or else the
children of the place that face back (`FoundAt`); that these are the nodes that touch is a matter of coordinates
(`exists_foundAt_iff`).
-/

namespace Orthtree.Tree

open Location

variable {n : Nat} {t : Tree n} {node m position : Nat} {p q r : List Nat} {offset : Vector Int n}

/-! ## Regions -/

/-- All nodes lie on levels that locations have. -/
def Locatable (t : Tree n) : Prop :=
  ∀ node, node < t.capacity → t.contains node = .ok true →
    ∃ level, level ≤ maxLevel n ∧ t.level node = .ok level

instance (t : Tree n) : Decidable t.Locatable :=
  decidable_of_iff (∀ node, node < t.capacity → t.contains node = .ok true →
    ∃ level, level < maxLevel n + 1 ∧ t.level node = .ok level)
    (by simp only [Nat.lt_succ_iff, Locatable])

/-- The closed box in the unit box of the root that the location of a node names. -/
def region (t : Tree n) (node : Nat) : Set (Fin n → ℝ) :=
  {point | ∃ l cell, t.location node = .ok l ∧ l.coordinates = .ok cell ∧
    point ∈ box cell l.level}

theorem contains_of_follow (ht : t.Linked) (hp : t.follow p = some node) :
    t.contains node = .ok true :=
  (contains_eq_true_iff ht.toSized node).2 (live_of_follow ht hp)

theorem isLeaf_iff_of_follow (ht : t.Linked) (hp : t.follow p = some node) :
    t.isLeaf node = .ok true ↔ t.links.firstChild node = none :=
  isLeaf_eq_true_iff (lt_capacity_of_follow ht hp)

theorem Valid.exists_follow (ht : t.Valid) (h : t.contains node = .ok true) :
    ∃ p, t.follow p = some node :=
  ht.rooted ((contains_eq_true_iff ht.toSized node).1 h)

namespace Locatable

/-- Paths in a tree with locations everywhere are no longer than those of locations. -/
theorem length_le (h : t.Locatable) (ht : t.Linked) (hp : t.follow p = some node) :
    p.length ≤ maxLevel n := by
  have hlt := lt_capacity_of_follow ht hp
  obtain ⟨level, hle, hlevel⟩ := h node hlt (contains_of_follow ht hp)
  rwa [length_of_level ht hp hlevel]

/-- The level of a node is the length of its path. -/
theorem level_eq (h : t.Locatable) (ht : t.Linked) (hp : t.follow p = some node) :
    t.level node = .ok p.length :=
  level_of_le ht hp (h.length_le ht hp)

/-- The region of a node is the box of its path. -/
theorem region_eq (h : t.Locatable) (ht : t.Linked) (hp : t.follow p = some node) :
    t.region node = pathBox n p := by
  obtain ⟨l, hl, rfl⟩ := exists_location ht hp (h.length_le ht hp)
  ext point
  simp only [region, hl, coordinates_of_supported ht.supported, ← box_cell, Set.mem_ofPred_eq,
    Except.ok.injEq, exists_eq_left', exists_and_left]

/-- The regions of two nodes meet iff their paths touch. -/
theorem meet_iff_touch (h : t.Locatable) (ht : t.Linked) (hp : t.follow p = some node)
    (hq : t.follow q = some m) : (t.region node ∩ t.region m).Nonempty ↔ Touch n p q := by
  rw [h.region_eq ht hp, h.region_eq ht hq, Touch]

end Locatable

/-! ## What is found at an offset -/

/-- `m` is found in the place of `q`, which lies at `offset`: it is a leaf on the way there, or the place is refined and
`m` is a child there that faces back. -/
def FoundAt (t : Tree n) (offset : Vector Int n) (q : List Nat) (m : Nat) : Prop :=
  (∃ r, r <+: q ∧ t.follow r = some m ∧ t.links.firstChild m = none) ∨
    ∃ c, t.follow (q ++ [c]) = some m ∧
      ∀ d (_ : d < n), Stencil.touches offset[d] (Corner.side c d) = true

/-- Where the way to a place ends at a leaf, only the leaf is found. -/
theorem foundAt_iff_of_leaf (hr : t.follow r = some node)
    (hleaf : t.links.firstChild node = none) : t.FoundAt offset (r ++ q) m ↔ m = node := by
  constructor
  · rintro (⟨r', hbegin, hr', hleaf'⟩ | ⟨c, hc, -⟩)
    · -- Two leaves on one way are the same.
      rcases List.prefix_or_prefix_of_prefix hbegin (List.prefix_append r q) with h | h
      · obtain ⟨s, rfl⟩ := h
        rw [eq_nil_of_leaf hr' hleaf' hr, List.append_nil] at hr
        exact Option.some_injective _ (hr'.symm.trans hr)
      · obtain ⟨s, rfl⟩ := h
        rw [eq_nil_of_leaf hr hleaf hr', List.append_nil] at hr'
        exact Option.some_injective _ (hr'.symm.trans hr)
    · rw [List.append_assoc] at hc
      exact absurd (eq_nil_of_leaf hr hleaf hc) (by simp)
  · rintro rfl
    exact Or.inl ⟨r, List.prefix_append r q, hr, hleaf⟩

/-- In a place that is refined the children are found that face back. -/
theorem foundAt_iff_of_branch (hq : t.follow q = some node)
    (hbranch : t.links.firstChild node ≠ none) : t.FoundAt offset q m ↔
      ∃ c, t.childAt? node c = some m ∧
        ∀ d (_ : d < n), Stencil.touches offset[d] (Corner.side c d) = true := by
  have hchild : ∀ c, t.follow (q ++ [c]) = some m ↔ t.childAt? node c = some m := by
    intro c
    rw [follow_concat, hq, Option.bind_some]
  simp only [FoundAt, hchild, or_iff_right_iff_imp]
  rintro ⟨r, ⟨s, rfl⟩, hr, hleaf⟩
  rw [eq_nil_of_leaf hr hleaf hq, List.append_nil] at hq
  obtain rfl := Option.some_injective _ (hr.symm.trans hq)
  exact absurd hleaf hbranch

/-- The search for a place ends at a leaf, or at the place itself. -/
theorem isCoarseAt_eq (ht : t.Linked) {k : Location n} {met rest : List Nat} {found : Nat}
    (hpath : k.path = met ++ rest) (hfound : t.follow met = some found)
    (hrest : rest ≠ [] → t.links.firstChild found = none) :
    t.isCoarseAt k ⟨found, met.length⟩ = .ok (t.links.firstChild found).isNone := by
  rw [isCoarseAt]
  split
  · next hless =>
    simp only [← length_path, hpath, List.length_append] at hless
    rw [hrest (List.ne_nil_of_length_pos (by omega))]
    rfl
  · exact isLeaf_of_lt (lt_capacity_of_follow ht hfound)

/-- What is added at a position of a stencil: where the way to the place there ends at a leaf, the leaf, unless it is
there already, and otherwise the children of the place that face back. -/
theorem addNeighbors_cases (ht : t.Linked) {l k : Location n} {s : Stencil} {facing : List Nat}
    (hlooks : s.Looks position offset facing)
    (hlocation : neighborLocation l s position = .ok (some k)) :
    (∃ met rest found, k.path = met ++ rest ∧ t.follow met = some found ∧
      t.links.firstChild found = none ∧ ∀ before, t.addNeighbors l s before position =
        .ok (if found ∈ before then before else before ++ [found])) ∨
    ∃ found, t.follow k.path = some found ∧ t.links.firstChild found ≠ none ∧
      ∀ before, t.addNeighbors l s before position =
        .ok (before ++ facing.filterMap (t.childAt? found)) := by
  obtain ⟨met, rest, found, hdeepest, hpath, hfollow, hrest⟩ := exists_deepestAt ht k
  have hcoarse := isCoarseAt_eq ht hpath hfollow hrest
  simp only [addNeighbors, hlocation, bind, Except.bind, hdeepest, hcoarse]
  cases hfirst : t.links.firstChild found with
  | none =>
      refine Or.inl ⟨met, rest, found, hpath, hfollow, hfirst, ?_⟩
      intro before
      rfl
  | some first =>
      have hbranch : t.links.firstChild found ≠ none := by
        rw [hfirst]
        exact Option.some_ne_none first
      obtain rfl : rest = [] := by
        by_contra hne
        exact hbranch (hrest hne)
      rw [List.append_nil] at hpath
      have hchildren : facing.mapM (t.child found) = .ok (facing.map (t.childAt? found)) := by
        apply mapM_eq
        intro c hc
        exact child_eq ht (lt_capacity_of_follow ht hfollow) ((hlooks.mem_facing c).1 hc).1
      refine Or.inr ⟨found, hpath ▸ hfollow, hbranch, ?_⟩
      intro before
      simp only [Option.isNone_some, Bool.false_eq_true, if_false, hlooks.facing_eq, hchildren,
        List.filterMap_map]
      rfl

/-- The children that face back are found once each. -/
theorem nodup_filterMap_childAt? {facing : List Nat} (hfacing : facing.Nodup) (node : Nat) :
    (facing.filterMap (t.childAt? node)).Nodup := by
  refine hfacing.filterMap ?_
  intro a b c ha hb
  obtain ⟨first, hfirst, -, rfl⟩ := childAt?_eq_some_iff.1 ha
  obtain ⟨first', hfirst', -, hc⟩ := childAt?_eq_some_iff.1 hb
  obtain rfl := Option.some_injective _ (hfirst.symm.trans hfirst')
  exact (Nat.add_left_cancel hc).symm

/-- At a position of a stencil those nodes are added that are found in the place there.  None of them is there twice
afterwards if no child of the place was there before. -/
theorem exists_addNeighbors_inside (ht : t.Linked) {l k : Location n} {s : Stencil}
    {facing : List Nat} (hlooks : s.Looks position offset facing)
    (hlocation : neighborLocation l s position = .ok (some k)) (before : List Nat) :
    ∃ after, t.addNeighbors l s before position = .ok after ∧
      (∀ m, m ∈ after ↔ m ∈ before ∨ t.FoundAt offset k.path m) ∧
      (before.Nodup → (∀ m ∈ before, ∀ c, t.follow (k.path ++ [c]) ≠ some m) → after.Nodup) := by
  rcases addNeighbors_cases ht hlooks hlocation with
    ⟨met, rest, found, hpath, hfollow, hleaf, hadd⟩ | ⟨found, hfollow, hbranch, hadd⟩
  · -- What is found is as coarse as the place, and may have been found at another position before.
    refine ⟨_, hadd before, ?_, ?_⟩
    · intro m
      rw [hpath, foundAt_iff_of_leaf hfollow hleaf]
      split
      · next hmem =>
        rw [iff_self_or]
        rintro rfl
        exact hmem
      · simp
    · intro hnodup _
      split
      · exact hnodup
      · next hmem =>
        refine List.nodup_append.2 ⟨hnodup, List.nodup_singleton found, ?_⟩
        rintro m hm _ hfound rfl
        exact hmem (List.mem_singleton.1 hfound ▸ hm)
  · -- The place is refined, and no other position has led to its children.
    refine ⟨_, hadd before, ?_, ?_⟩
    · intro m
      rw [List.mem_append, List.mem_filterMap, foundAt_iff_of_branch hfollow hbranch]
      apply or_congr_right
      apply exists_congr
      intro c
      rw [hlooks.mem_facing]
      constructor
      · rintro ⟨⟨-, htouches⟩, hchild⟩
        exact ⟨hchild, htouches⟩
      · rintro ⟨hchild, htouches⟩
        obtain ⟨-, -, hlt, -⟩ := childAt?_eq_some_iff.1 hchild
        exact ⟨⟨hlt, htouches⟩, hchild⟩
    · intro hnodup hbefore
      refine List.nodup_append.2 ⟨hnodup, nodup_filterMap_childAt? hlooks.nodup_facing found, ?_⟩
      rintro m hm _ hchild rfl
      obtain ⟨c, -, hc⟩ := List.mem_filterMap.1 hchild
      exact hbefore m hm c (follow_concat_eq_some_iff.2 ⟨found, hfollow, hc⟩)

/-- The location at a position of a stencil lies at the offset that the stencil looks at. -/
theorem neighborLocation_eq {s : Stencil} (h : s.offsetAlong n position = .ok offset)
    (l : Location n) : neighborLocation l s position = l.shift offset := by
  rw [neighborLocation, h]
  rfl

/-- At a position of a stencil those nodes are added that are found at the offset there. -/
theorem exists_addNeighbors (ht : t.Linked) (l : Location n) {s : Stencil} {facing : List Nat}
    (hlooks : s.Looks position offset facing) (before : List Nat) :
    ∃ after, t.addNeighbors l s before position = .ok after ∧
      (∀ m, m ∈ after ↔ m ∈ before ∨ ∃ q, AwayBy l.path q offset ∧ t.FoundAt offset q m) ∧
      (before.Nodup → (∀ m ∈ before, ∀ q c, AwayBy l.path q offset →
        t.follow (q ++ [c]) ≠ some m) → after.Nodup) := by
  have hlocation := neighborLocation_eq hlooks.offset_eq l
  rcases shift_cases ht.supported l offset with ⟨k, hk, haway⟩ | ⟨hnone, haway⟩
  · obtain ⟨after, hafter, hmem, hnodup⟩ :=
      exists_addNeighbors_inside ht hlooks (hlocation.trans hk) before
    refine ⟨after, hafter, ?_, fun h hbefore => hnodup h fun m hm c => hbefore m hm _ c haway⟩
    intro m
    rw [hmem]
    apply or_congr_right
    constructor
    · exact fun hfound => ⟨k.path, haway, hfound⟩
    · rintro ⟨q, hq, hfound⟩
      rwa [haway.unique hq]
  · refine ⟨before, ?_, ?_, fun h _ => h⟩
    · rw [addNeighbors, hlocation, hnone]
      rfl
    · intro m
      rw [iff_self_or]
      rintro ⟨q, hq, -⟩
      exact absurd hq (haway q)

/-! ## What is found at all offsets -/

/-- A child of the place at one offset is not found at another: leaves found are not that deep, and other children have
other places. -/
theorem offset_eq_of_foundAt (ht : t.Linked) {offset' : Vector Int n} {c : Nat}
    (haway : AwayBy p q offset) (haway' : AwayBy p r offset') (hchild : t.follow (q ++ [c]) = some m)
    (hfound : t.FoundAt offset' r m) : offset' = offset := by
  rcases hfound with ⟨way, hway, hfollow, -⟩ | ⟨c', hfollow, -⟩
  · have hlength := hway.length_le
    rw [follow_injective ht hfollow hchild, List.length_append, haway.length_eq,
      haway'.length_eq] at hlength
    exact absurd hlength (Nat.not_succ_le_self _)
  · obtain ⟨rfl, -⟩ := List.append_inj' (follow_injective ht hfollow hchild) rfl
    exact haway'.offset_unique haway

/-- Across a stencil those nodes are found that are found at its offsets, each once. -/
theorem exists_neighborsAcross (ht : t.Linked) (l : Location n) {s : Stencil}
    (hs : s.dimension = n) :
    ∃ neighbors, t.neighborsAcross l s = .ok neighbors ∧ neighbors.Nodup ∧ ∀ m, m ∈ neighbors ↔
      ∃ position ∈ s.positions, ∃ (offset : Vector Int n) (facing : List Nat),
        s.Looks position offset facing ∧ ∃ q, AwayBy l.path q offset ∧ t.FoundAt offset q m := by
  apply exists_foldlM List.nodup_range
  intro position hposition before
  obtain ⟨offset, facing, hlooks, -⟩ := Stencil.exists_looks hs hposition
  obtain ⟨after, hafter, hmem, hnodup⟩ := exists_addNeighbors ht l hlooks before
  refine ⟨after, hafter, ?_, ?_⟩
  · intro m
    rw [hmem]
    apply or_congr_right
    constructor
    · rintro ⟨q, hq, hfound⟩
      exact ⟨offset, facing, hlooks, q, hq, hfound⟩
    · rintro ⟨offset', facing', hlooks', hfound⟩
      obtain rfl := Except.ok.inj (hlooks.offset_eq.symm.trans hlooks'.offset_eq)
      exact hfound
  · intro h hbefore
    refine hnodup h fun m hm q c hq hchild => ?_
    -- A child found before was found from another position, so at another offset.
    obtain ⟨other, hother, hne, offset', facing', hlooks', r, hr, hfound⟩ := hbefore m hm
    obtain rfl := offset_eq_of_foundAt ht hq hr hchild hfound
    exact hne (Stencil.position_unique hs hother hposition hlooks'.offset_eq hlooks.offset_eq)

/-- The stencils together find what is found at any offset. -/
theorem exists_allNeighbors (ht : t.Linked) (l : Location n) :
    ∃ neighbors, t.allNeighbors l = .ok neighbors ∧ neighbors.Pairwise (· < ·) ∧
      ∀ m, m ∈ neighbors ↔ ∃ offset : Vector Int n, Stencil.IsOffset offset ∧
        ∃ q, AwayBy l.path q offset ∧ t.FoundAt offset q m := by
  obtain ⟨stencils, hall, hdimension⟩ := Stencil.exists_all ht.supported
  have hacross : ∀ s ∈ stencils, ∃ neighbors, t.neighborsAcross l s = .ok neighbors := by
    intro s hs
    obtain ⟨neighbors, hneighbors, -⟩ := exists_neighborsAcross ht l ((hdimension s).1 hs)
    exact ⟨neighbors, hneighbors⟩
  obtain ⟨lists, hlists, hmem⟩ := exists_mapM hacross
  refine ⟨ascending lists.flatten, ?_, pairwise_ascending _, ?_⟩
  · rw [allNeighbors, hall]
    simp only [bind, Except.bind, hlists]
    rfl
  · intro m
    rw [mem_ascending, List.mem_flatten]
    constructor
    · rintro ⟨neighbors, hneighbors, hm⟩
      obtain ⟨s, hs, hacross⟩ := (hmem neighbors).1 hneighbors
      have hs := (hdimension s).1 hs
      obtain ⟨neighbors', hneighbors', -, hmem'⟩ := exists_neighborsAcross ht l hs
      obtain rfl := Except.ok.inj (hacross.symm.trans hneighbors')
      obtain ⟨position, hposition, offset, facing, hlooks, hfound⟩ := (hmem' m).1 hm
      exact ⟨offset, hlooks.isOffset hs hposition, hfound⟩
    · rintro ⟨offset, hoffset, hfound⟩
      -- The offset is a row of the table of one of the stencils.
      obtain ⟨s, hs, position, hposition, facing, hlooks⟩ :=
        Stencil.exists_position ht.supported hoffset
      obtain ⟨neighbors, hneighbors, -, hmem'⟩ := exists_neighborsAcross ht l hs
      exact ⟨neighbors, (hmem neighbors).2 ⟨s, (hdimension s).2 hs, hneighbors⟩,
        (hmem' m).2 ⟨position, hposition, offset, facing, hlooks, hfound⟩⟩

/-! ## Coordinates of neighbors -/

/-- `m`, at the end of `q`, touches the node at `p` from beside it.  It is a leaf if it is not finer, and one level
finer otherwise. -/
structure Adjoins (t : Tree n) (p q : List Nat) (m : Nat) : Prop where
  follow : t.follow q = some m
  not_above : ¬q <+: p
  not_below : ¬p <+: q
  touch : Touch n p q
  coarse_or_finer : t.links.firstChild m = none ∧ q.length ≤ p.length ∨ q.length = p.length + 1

/-- What is found at an offset touches `p` and does not lie below it, whether or not there is a node at `p`. -/
theorem exists_touch_of_foundAt (hoffset : Stencil.IsOffset offset) (haway : AwayBy p q offset)
    (hfound : t.FoundAt offset q m) : ∃ r, t.follow r = some m ∧ ¬p <+: r ∧ Touch n p r ∧
      (t.links.firstChild m = none ∧ r.length ≤ p.length ∨ r.length = p.length + 1) := by
  have hne := hoffset.ne haway
  rcases hfound with ⟨r, ⟨s, rfl⟩, hr, hleaf⟩ | ⟨c, hc, htouches⟩
  · have hlength := haway.length_eq
    rw [List.length_append] at hlength
    refine ⟨r, hr, ?_, (hoffset.touch haway).of_append, Or.inl ⟨hleaf, by omega⟩⟩
    intro hbegin
    obtain rfl := hbegin.eq_of_length_le (by omega)
    obtain rfl : s = [] := List.length_eq_zero_iff.1 (by omega)
    exact hne (List.append_nil p)
  · have hlength : (q ++ [c]).length = p.length + 1 := by
      rw [List.length_append, List.length_singleton, haway.length_eq]
    refine ⟨q ++ [c], hc, ?_, ?_, Or.inr hlength⟩
    · intro hbegin
      have hbegin' := List.prefix_of_prefix_length_le hbegin (List.prefix_append q [c])
        haway.length_eq.ge
      exact hne (hbegin'.eq_of_length_le haway.length_eq.le).symm
    · rw [touch_iff]
      intro d hd
      have hsub : (coordinate q d : Int) - coordinate p d = offset[d] := by
        have heq := haway.coordinate_eq d hd
        omega
      rw [meet_comm, coordinate_concat, hlength, Stencil.meet_child_iff, hsub]
      exact htouches d hd

/-- What is found at an offset adjoins the node. -/
theorem adjoins_of_foundAt (hp : t.follow p = some node) (hoffset : Stencil.IsOffset offset)
    (haway : AwayBy p q offset) (hfound : t.FoundAt offset q m) : ∃ r, t.Adjoins p r m := by
  obtain ⟨r, hr, hbelow, htouch, hlevel⟩ := exists_touch_of_foundAt hoffset haway hfound
  refine ⟨r, hr, ?_, hbelow, htouch, hlevel⟩
  rintro ⟨s, rfl⟩
  rcases hlevel with ⟨hleaf, -⟩ | hfiner
  · -- No node lies below a leaf but the leaf itself.
    rw [eq_nil_of_leaf hr hleaf hp, List.append_nil] at hbelow
    exact hbelow (List.prefix_refl r)
  · rw [List.length_append] at hfiner
    omega

/-- A node that is not finer and touches `p` contains a place of the size of `p` one step away. -/
theorem exists_place_of_coarse (hp : ∀ c ∈ p, c < 2 ^ n) (hr : ∀ c ∈ r, c < 2 ^ n)
    (habove : ¬r <+: p) (htouch : Touch n p r) (hle : r.length ≤ p.length) :
    ∃ offset : Vector Int n, Stencil.IsOffset offset ∧ ∃ q, AwayBy p q offset ∧ r <+: q := by
  obtain ⟨s, hs⟩ := Nat.exists_eq_add_of_le hle
  -- On each axis, take the coordinate inside `r` nearest to `p`, in the grid of `p`.
  have hnear : ∀ d : Fin n, ∃ z, z / 2 ^ s = coordinate r d ∧ z ≤ coordinate p d + 1 ∧
      coordinate p d ≤ z + 1 := by
    intro d
    have hmeet := meet_comm.1 (touch_iff.1 htouch d d.isLt)
    rw [hs] at hmeet
    exact exists_near hmeet
  choose z hz hznear using hnear
  let q := pathOfCell (Vector.ofFn z) p.length
  have hq : ∀ d (hd : d < n), coordinate q d = z ⟨d, hd⟩ := by
    intro d hd
    have hlt : z ⟨d, hd⟩ < 2 ^ p.length := by
      rw [hs, Nat.pow_add, ← Nat.div_lt_iff_lt_mul (Nat.two_pow_pos s), hz]
      exact coordinate_lt r d
    rw [coordinate_pathOfCell _ _ hd, Vector.getElem_ofFn, Nat.mod_eq_of_lt hlt]
  have hqlt : ∀ c ∈ q, c < 2 ^ n := fun c hc => lt_of_mem_pathOfCell hc
  have hqlength : q.length = p.length := length_pathOfCell _ _
  have hbegin : r <+: q := by
    apply isPrefix_of_coordinates hr hqlt (hqlength.trans hs)
    intro d hd
    rw [hq d hd, hz]
  have hne : p ≠ q := fun heq => habove (heq ▸ hbegin)
  have hqnear : ∀ d, d < n → coordinate q d ≤ coordinate p d + 1 ∧
      coordinate p d ≤ coordinate q d + 1 := by
    intro d hd
    rw [hq d hd]
    exact hznear ⟨d, hd⟩
  obtain ⟨offset, hoffset, haway, -⟩ := Stencil.exists_awayBy hp hqlt hqlength hne hqnear
  exact ⟨offset, hoffset, q, haway, hbegin⟩

/-- A node one level finer that touches `p` is a child, facing back, in a place of the size of `p` one step away. -/
theorem exists_place_of_finer (hp : ∀ c ∈ p, c < 2 ^ n) (hr : ∀ c ∈ r, c < 2 ^ n)
    (hbelow : ¬p <+: r) (htouch : Touch n p r) (hlength : r.length = p.length + 1) :
    ∃ offset : Vector Int n, Stencil.IsOffset offset ∧ ∃ q c, AwayBy p q offset ∧ r = q ++ [c] ∧
      ∀ d (_ : d < n), Stencil.touches offset[d] (Corner.side c d) = true := by
  -- The place is that of the parent.
  obtain ⟨q, c, rfl⟩ : ∃ q c, r = q ++ [c] := by
    rcases List.eq_nil_or_concat' r with rfl | hconcat
    · simp at hlength
    · exact hconcat
  have hqlength : q.length = p.length := by simpa using hlength
  have hqlt : ∀ x ∈ q, x < 2 ^ n := fun x hx => hr x (List.mem_append_left _ hx)
  have hne : p ≠ q := fun heq => hbelow (heq ▸ List.prefix_append q [c])
  have htouches : ∀ d, d < n → Stencil.touches ((coordinate q d : Int) - coordinate p d)
      (Corner.side c d) = true := by
    intro d hd
    have hmeet := meet_comm.1 (touch_iff.1 htouch d hd)
    rwa [coordinate_concat, hlength, Stencil.meet_child_iff] at hmeet
  have hnear : ∀ d, d < n → coordinate q d ≤ coordinate p d + 1 ∧
      coordinate p d ≤ coordinate q d + 1 := by
    intro d hd
    have htouches := htouches d hd
    simp only [Stencil.touches, Bool.or_eq_true, Bool.and_eq_true, decide_eq_true_eq] at htouches
    omega
  obtain ⟨offset, hoffset, haway, hsub⟩ := Stencil.exists_awayBy hp hqlt hqlength hne hnear
  refine ⟨offset, hoffset, q, c, haway, rfl, ?_⟩
  intro d hd
  rw [hsub d hd]
  exact htouches d hd

/-- What adjoins a node is found at one of the offsets around it. -/
theorem foundAt_of_adjoins (hp : t.follow p = some node) (h : t.Adjoins p r m) :
    ∃ offset : Vector Int n, Stencil.IsOffset offset ∧
      ∃ q, AwayBy p q offset ∧ t.FoundAt offset q m := by
  have hplt := lt_of_mem_of_follow hp
  have hrlt := lt_of_mem_of_follow h.follow
  rcases h.coarse_or_finer with ⟨hleaf, hle⟩ | hlength
  · obtain ⟨offset, hoffset, q, haway, hbegin⟩ :=
      exists_place_of_coarse hplt hrlt h.not_above h.touch hle
    exact ⟨offset, hoffset, q, haway, Or.inl ⟨r, hbegin, h.follow, hleaf⟩⟩
  · obtain ⟨offset, hoffset, q, c, haway, rfl, htouches⟩ :=
      exists_place_of_finer hplt hrlt h.not_below h.touch hlength
    exact ⟨offset, hoffset, q, haway, Or.inr ⟨c, h.follow, htouches⟩⟩

/-- **Exactness on paths.**  The neighbors found for a location are the nodes that adjoin its node. -/
theorem exists_neighbors (ht : t.Linked) {l : Location n} (hl : t.follow l.path = some node) :
    ∃ neighbors, t.allNeighbors l = .ok neighbors ∧ neighbors.Pairwise (· < ·) ∧
      ∀ m, m ∈ neighbors ↔ ∃ q, t.Adjoins l.path q m := by
  obtain ⟨neighbors, hneighbors, hascending, hmem⟩ := exists_allNeighbors ht l
  refine ⟨neighbors, hneighbors, hascending, ?_⟩
  intro m
  rw [hmem]
  constructor
  · rintro ⟨offset, hoffset, q, haway, hfound⟩
    exact adjoins_of_foundAt hl hoffset haway hfound
  · rintro ⟨r, hadjoins⟩
    exact foundAt_of_adjoins hl hadjoins

/-! ## Neighbors of reachable trees -/

/-- `other` is a node beside `node`, which has the given level: neither above nor below it, but touching it.  It is a
leaf if it is not finer, and one level finer otherwise. -/
structure IsBeside (t : Tree n) (node level other : Nat) : Prop where
  contains : t.contains other = .ok true
  not_above : ¬t.IsAbove other node
  not_below : ¬t.IsAbove node other
  touch : (t.region node ∩ t.region other).Nonempty
  coarse_or_finer : ∃ k, t.level other = .ok k ∧
    (t.isLeaf other = .ok true ∧ k ≤ level ∨ k = level + 1)

/-- Lying beside a node, in terms of queries and regions, is adjoining it, in terms of paths. -/
theorem isBeside_iff (ht : t.Valid) (hlevels : t.Locatable) (hp : t.follow p = some node) :
    t.IsBeside node p.length m ↔ ∃ q, t.Adjoins p q m := by
  constructor
  · rintro ⟨hcontains, habove, hbelow, hmeet, k, hk, hlevel⟩
    obtain ⟨q, hq⟩ := ht.exists_follow hcontains
    rw [hlevels.level_eq ht.toLinked hq, Except.ok.injEq] at hk
    rw [isAbove_iff ht.toLinked hq hp] at habove
    rw [isAbove_iff ht.toLinked hp hq] at hbelow
    rw [isLeaf_iff_of_follow ht.toLinked hq, ← hk] at hlevel
    exact ⟨q, hq, habove, hbelow, (hlevels.meet_iff_touch ht.toLinked hp hq).1 hmeet,
      hlevel⟩
  · rintro ⟨q, hq, habove, hbelow, hmeet, hlevel⟩
    rw [← isAbove_iff ht.toLinked hq hp] at habove
    rw [← isAbove_iff ht.toLinked hp hq] at hbelow
    rw [← isLeaf_iff_of_follow ht.toLinked hq] at hlevel
    exact ⟨contains_of_follow ht.toLinked hq, habove, hbelow,
      (hlevels.meet_iff_touch ht.toLinked hp hq).2 hmeet, q.length,
      hlevels.level_eq ht.toLinked hq, hlevel⟩

/-- **Exactness of neighbors.**  The neighbors of a node are, in ascending order, the nodes beside it. -/
theorem Reachable.allNeighbors_exact (h : t.Reachable) (hlevels : t.Locatable)
    (hnode : t.contains node = .ok true) :
    ∃ l level neighbors, t.location node = .ok l ∧ t.level node = .ok level ∧
      t.allNeighbors l = .ok neighbors ∧ neighbors.Pairwise (· < ·) ∧
      ∀ other, other ∈ neighbors ↔ t.IsBeside node level other := by
  have ht := h.valid
  obtain ⟨p, hp⟩ := ht.exists_follow hnode
  obtain ⟨l, hl, rfl⟩ := exists_location ht.toLinked hp (hlevels.length_le ht.toLinked hp)
  obtain ⟨neighbors, hneighbors, hascending, hmem⟩ := exists_neighbors ht.toLinked hp
  refine ⟨l, l.path.length, neighbors, hl, hlevels.level_eq ht.toLinked hp, hneighbors,
    hascending, ?_⟩
  intro other
  rw [hmem, isBeside_iff ht hlevels hp]

/-- A leaf in the corner of a square beside a refined node. -/
theorem Reachable.allNeighbors_exact_corner :
    ∃ l level neighbors,
      ((rootOnly 2 4).afterCalls [.refine 0, .refine 3]).location 4 = .ok l ∧
      ((rootOnly 2 4).afterCalls [.refine 0, .refine 3]).level 4 = .ok level ∧
      ((rootOnly 2 4).afterCalls [.refine 0, .refine 3]).allNeighbors l = .ok neighbors ∧
      neighbors.Pairwise (· < ·) ∧ ∀ other, other ∈ neighbors ↔
        ((rootOnly 2 4).afterCalls [.refine 0, .refine 3]).IsBeside 4 level other :=
  Reachable.allNeighbors_exact ((Reachable.new 13 rfl).afterCalls [.refine 0, .refine 3])
    (by decide +kernel) (by decide)

/-- Of the children of the refined node those on the side of the leaf are its neighbors. -/
example : (do
    let t := (rootOnly 2 4).afterCalls [.refine 0, .refine 3]
    t.allNeighbors (← t.location 4)) = .ok [1, 2, 6, 8] := by
  decide +kernel

end Orthtree.Tree
