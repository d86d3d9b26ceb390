import Orthtree.Location.Frame
import Orthtree.Proofs.Neighbors

/-!
# Leaves at points

A point is looked for along the way to its cell in the finest grid that locations have.  The search ends at a leaf, or at
the end of the way: a tree that is refined beyond that grid can have a branch there, with which `leafAt` answers instead
of a leaf (`Reachable.leafAt_branch`).
-/

namespace Orthtree

namespace Location

variable {n : Nat}

theorem cellOf_lt {extent : Nat} (h : 0 < extent) (p : Float) : cellOf extent p < extent := by
  have hle : cellOf extent p ≤ extent - 1 := Nat.min_le_right _ _
  omega

/-- The location of a cell is on the level of its grid. -/
theorem exists_ofCoordinates_level (hn : Corner.supported n = true) {xs : Vector Nat n} {level : Nat}
    (hlevel : level ≤ maxLevel n) (hxs : ∀ d (_ : d < n), xs[d] < 2 ^ level) :
    ∃ l : Location n, ofCoordinates xs level = .ok l ∧ l.level = level ∧
      l.path = pathOfCell xs level := by
  obtain ⟨l, hl, hpath⟩ := exists_ofCoordinates hn hlevel hxs
  refine ⟨l, hl, ?_, hpath⟩
  rw [← length_path, hpath, length_pathOfCell]

/-- Each coordinate lies between 0 and 1. -/
def inFrame (point : Vector Float n) : Bool := point.all fun p => 0.0 ≤ p && p ≤ 1.0

/-- A point in the frame has a location on every level that locations have. -/
theorem exists_ofPoint? (hn : Corner.supported n = true) {point : Vector Float n}
    (h : inFrame point = true) {level : Nat} (hlevel : level ≤ maxLevel n) :
    ∃ l : Location n, ofPoint? point level = .ok (some l) ∧ l.level = level := by
  have hcell : ∀ d (_ : d < n), (point.map (cellOf (2 ^ level)))[d] < 2 ^ level := by
    intro d hd
    rw [Vector.getElem_map]
    exact cellOf_lt (Nat.two_pow_pos level) _
  obtain ⟨l, hl, hlevel', -⟩ := exists_ofCoordinates_level hn hlevel hcell
  refine ⟨l, ?_, hlevel'⟩
  rw [inFrame] at h
  rw [ofPoint?, if_neg (Nat.not_lt.2 hlevel), if_pos h, hl]
  rfl

/-- A point outside of the frame lies in no cell of any level. -/
theorem ofPoint?_of_outside {point : Vector Float n} (h : inFrame point = false) {level : Nat}
    (hlevel : level ≤ maxLevel n) : ofPoint? point level = .ok none := by
  have hout : ¬point.all (fun p => 0.0 ≤ p && p ≤ 1.0) = true := by
    rw [← inFrame, h]
    exact Bool.false_ne_true
  rw [ofPoint?, if_neg (Nat.not_lt.2 hlevel), if_neg hout]

end Location

namespace Tree

variable {n : Nat} {t : Tree n} {node : Nat} {p : List Nat}

/-- Where locations name all nodes, those on the deepest level are leaves. -/
theorem Locatable.leaf_of_maxLevel_le (h : t.Locatable) (ht : t.Linked)
    (hp : t.follow p = some node) (hlength : maxLevel n ≤ p.length) :
    t.links.firstChild node = none := by
  by_contra hbranch
  obtain ⟨c, hc⟩ := childAt?_isSome hbranch (Nat.two_pow_pos n)
  have hle := h.length_le ht (follow_concat_eq_some_iff.2 ⟨node, hp, hc⟩)
  rw [List.length_append, List.length_singleton] at hle
  omega

/-- `node` is the deepest node on the way to `l`, which ends there unless the node is a leaf. -/
structure IsDeepest (t : Tree n) (l : Location n) (node : Nat) : Prop where
  contains : t.contains node = .ok true
  exists_path : ∃ path, t.pathTo node = .ok path ∧ path <+: l.path ∧
    (t.isLeaf node = .ok true ∨ path = l.path)

/-- The way down ends at the deepest node there is on it. -/
theorem exists_isDeepest (ht : t.Linked) (l : Location n) :
    ∃ found, t.deepestAt l = .ok found ∧ t.IsDeepest l found.node := by
  obtain ⟨met, rest, node, hdeepest, hpath, hfollow, hrest⟩ := exists_deepestAt ht l
  refine ⟨_, hdeepest, contains_of_follow ht hfollow, met, pathTo_eq ht hfollow, ?_, ?_⟩
  · rw [hpath]
    exact List.prefix_append met rest
  · rcases eq_or_ne rest [] with rfl | hne
    · rw [hpath, List.append_nil]
      exact Or.inr rfl
    · have hlt := lt_capacity_of_follow ht hfollow
      exact Or.inl ((isLeaf_eq_true_iff hlt).2 (hrest hne))

/-- Where locations name all nodes, what is found on the way to the deepest level is a leaf. -/
theorem IsDeepest.isLeaf {l : Location n} (h : t.IsDeepest l node) (ht : t.Valid)
    (hlevels : t.Locatable) (hl : l.level = maxLevel n) : t.isLeaf node = .ok true := by
  obtain ⟨path, hpath, -, hleaf | rfl⟩ := h.exists_path
  · exact hleaf
  · obtain ⟨p, hp⟩ := ht.exists_follow h.contains
    obtain rfl := Except.ok.inj ((pathTo_eq ht.toLinked hp).symm.trans hpath)
    have hlt := lt_capacity_of_follow ht.toLinked hp
    have hlength : maxLevel n ≤ l.path.length := by rw [Location.length_path, hl]
    exact (isLeaf_eq_true_iff hlt).2 (hlevels.leaf_of_maxLevel_le ht.toLinked hp hlength)

/-- **Leaves at points.**  Every point of the frame, and no other, is answered with a node.  It is the deepest one on the
way to the cell of the point in the finest grid, and a leaf if the tree is refined no deeper than that grid. -/
theorem Reachable.leafAt_deepest (h : t.Reachable) :
    (∀ l : Location n, l.level = maxLevel n → ∃ found, t.deepestAt l = .ok found ∧
      t.IsDeepest l found.node ∧ (t.Locatable → t.isLeaf found.node = .ok true)) ∧
    ∀ point : Vector Float n,
      (Location.inFrame point = false → t.leafAt point = .ok none) ∧
      (Location.inFrame point = true → ∃ l node,
        Location.ofPoint? point (maxLevel n) = .ok (some l) ∧ l.level = maxLevel n ∧
        t.leafAt point = .ok (some node) ∧ t.IsDeepest l node ∧
        (t.Locatable → t.isLeaf node = .ok true)) := by
  have ht := h.valid
  refine ⟨?_, fun point => ⟨?_, ?_⟩⟩
  · intro l hl
    obtain ⟨found, hfound, hdeepest⟩ := exists_isDeepest ht.toLinked l
    exact ⟨found, hfound, hdeepest, fun hlevels => hdeepest.isLeaf ht hlevels hl⟩
  · intro hout
    rw [leafAt, Location.ofPoint?_of_outside hout (Nat.le_refl _)]
    rfl
  · intro hin
    obtain ⟨l, hl, hlevel⟩ := Location.exists_ofPoint? ht.supported hin (Nat.le_refl _)
    obtain ⟨found, hfound, hdeepest⟩ := exists_isDeepest ht.toLinked l
    refine ⟨l, found.node, hl, hlevel, ?_, hdeepest,
      fun hlevels => hdeepest.isLeaf ht hlevels hlevel⟩
    rw [leafAt, hl]
    simp only [bind, Except.bind, hfound]
    rfl

/-- In a square refined twice the cell in the corner lies in a leaf. -/
theorem Reachable.leafAt_deepest_corner :
    ∃ l found, Location.ofCoordinates #v[0, 0] (maxLevel 2) = .ok l ∧
      ((rootOnly 2 4).afterCalls [.refine 0, .refine 3]).deepestAt l = .ok found ∧
      ((rootOnly 2 4).afterCalls [.refine 0, .refine 3]).isLeaf found.node = .ok true := by
  obtain ⟨hdeepest, -⟩ := Reachable.leafAt_deepest
    ((Reachable.new (t := rootOnly 2 4) 13 rfl).afterCalls [.refine 0, .refine 3])
  have hcell : ∀ d (_ : d < 2), #v[0, 0][d] < 2 ^ maxLevel 2 := by decide
  obtain ⟨l, hl, hlevel, -⟩ :=
    Location.exists_ofCoordinates_level (by decide) (Nat.le_refl (maxLevel 2)) hcell
  obtain ⟨found, hfound, -, hleaf⟩ := hdeepest l hlevel
  exact ⟨l, found, hl, hfound, hleaf (by decide +kernel)⟩

/-- A cube that is refined in its corner one level deeper than locations go. -/
def refinedCorner : Tree 3 :=
  (rootOnly 3 21).afterCalls (.refine 0 :: (List.range 19).map fun k => .refine (1 + 8 * k))

/-- The cell in that corner is answered with a branch. -/
theorem Reachable.leafAt_branch :
    refinedCorner.Reachable ∧
    ∃ l, Location.ofCoordinates #v[0, 0, 0] (maxLevel 3) = .ok l ∧ l.level = maxLevel 3 ∧
      refinedCorner.deepestAt l = .ok ⟨145, maxLevel 3⟩ ∧
      refinedCorner.contains 145 = .ok true ∧ refinedCorner.isLeaf 145 = .ok false ∧
      ∀ point : Vector Float 3, Location.ofPoint? point (maxLevel 3) = .ok (some l) →
        refinedCorner.leafAt point = .ok (some 145) := by
  refine ⟨(Reachable.new 161 rfl).afterCalls _, ?_⟩
  have hcell : ∀ d (_ : d < 3), #v[0, 0, 0][d] < 2 ^ maxLevel 3 := by decide
  obtain ⟨l, hl, hlevel, hpath⟩ :=
    Location.exists_ofCoordinates_level (by decide) (Nat.le_refl (maxLevel 3)) hcell
  have hdeepest : refinedCorner.deepestAt l = .ok ⟨145, maxLevel 3⟩ := by
    rw [deepestAt, hpath]
    decide +kernel
  refine ⟨l, hl, hlevel, hdeepest, by decide +kernel, by decide +kernel, ?_⟩
  intro point hpoint
  rw [leafAt, hpoint]
  simp only [bind, Except.bind, hdeepest]
  rfl

end Tree

end Orthtree
