import Orthtree.Proofs.Locating

/-!
# Neighbors of any place

A place need not be a node to have neighbors: the tree may not be refined as deep, so that the place is a part of a
leaf.  Across a stencil every neighbor of a place is listed once, touches the place and is at most one level finer; and
if a node is at the place, its neighbors lie beside it (`Reachable.neighborsAcross_once`).  A neighbor may lie one level
deeper than locations go, so that the part of space it fills is told by its path (`extent`).
-/

namespace Orthtree.Tree

open Location

variable {n : Nat} {t : Tree n} {node m : Nat} {p q : List Nat} {l : Location n}
  {offset : Vector Int n}

/-! ## The extent of a node -/

/-- The closed box that a node fills, on whatever level it lies. -/
def extent (t : Tree n) (node : Nat) : Set (Fin n → ℝ) :=
  {point | ∃ path, t.pathTo node = .ok path ∧ point ∈ pathBox n path}

theorem extent_eq (ht : t.Linked) (hp : t.follow p = some node) : t.extent node = pathBox n p := by
  ext point
  simp only [extent, pathTo_eq ht hp, Set.mem_ofPred_eq, Except.ok.injEq, exists_eq_left']

/-! ## Around a place -/

/-- What is found at an offset is a live node that touches the place and is at most one level finer. -/
theorem touches_of_foundAt (ht : t.Linked) (hoffset : Stencil.IsOffset offset)
    (haway : AwayBy l.path q offset) (hfound : t.FoundAt offset q m) :
    t.contains m = .ok true ∧ (box l.cell l.level ∩ t.extent m).Nonempty ∧
      ∃ k, t.level m = .ok k ∧ k ≤ l.level + 1 ∧ (k ≤ l.level → t.isLeaf m = .ok true) := by
  obtain ⟨r, hr, -, htouch, hlevel⟩ := exists_touch_of_foundAt hoffset haway hfound
  rw [length_path] at hlevel
  have hle : r.length ≤ l.level + 1 := by omega
  have hcount : r.length ≤ 255 := by
    have hlt := l.level_lt
    omega
  refine ⟨contains_of_follow ht hr, ?_, r.length, ?_, hle, ?_⟩
  · rwa [extent_eq ht hr, box_cell]
  · rw [Tree.level_eq ht hr, if_pos hcount]
  · intro hcoarse
    rw [isLeaf_iff_of_follow ht hr]
    rcases hlevel with ⟨hleaf, -⟩ | hfiner
    · exact hleaf
    · omega

/-- **Neighbors of any place.**  Across a stencil, the neighbors of a location are listed once each, whether or not the
tree is refined as deep as the location.  They are live nodes that touch the location, are at most one level finer, and
are leaves if they are not finer.  If a node is at the location, neither it nor any node above or below it is listed. -/
theorem Reachable.neighborsAcross_once (h : t.Reachable) (l : Location n) {s : Stencil}
    (hs : s.dimension = n) :
    ∃ neighbors cell, t.neighborsAcross l s = .ok neighbors ∧ l.coordinates = .ok cell ∧
      neighbors.Nodup ∧
      (∀ m ∈ neighbors, t.contains m = .ok true ∧ (box cell l.level ∩ t.extent m).Nonempty ∧
        ∃ k, t.level m = .ok k ∧ k ≤ l.level + 1 ∧ (k ≤ l.level → t.isLeaf m = .ok true)) ∧
      ∀ node, t.location node = .ok l → ∀ m ∈ neighbors,
        m ≠ node ∧ ¬t.IsAbove m node ∧ ¬t.IsAbove node m := by
  have ht := h.valid
  obtain ⟨neighbors, hneighbors, hnodup, hmem⟩ := exists_neighborsAcross ht.toLinked l hs
  refine ⟨neighbors, l.cell, hneighbors, coordinates_of_supported ht.supported l, hnodup, ?_, ?_⟩
  · intro m hm
    obtain ⟨position, hposition, offset, facing, hlooks, q, haway, hfound⟩ := (hmem m).1 hm
    exact touches_of_foundAt ht.toLinked (hlooks.isOffset hs hposition) haway hfound
  · intro node hnode m hm
    have hp := (location_eq_ok_iff ht).1 hnode
    obtain ⟨position, hposition, offset, facing, hlooks, q, haway, hfound⟩ := (hmem m).1 hm
    obtain ⟨r, hadjoins⟩ := adjoins_of_foundAt hp (hlooks.isOffset hs hposition) haway hfound
    have habove : ¬t.IsAbove m node := by
      rw [isAbove_iff ht.toLinked hadjoins.follow hp]
      exact hadjoins.not_above
    have hbelow : ¬t.IsAbove node m := by
      rw [isAbove_iff ht.toLinked hp hadjoins.follow]
      exact hadjoins.not_below
    refine ⟨?_, habove, hbelow⟩
    rintro rfl
    exact habove .refl

/-- A place strictly inside the first quarter of a square, beside a quarter that is refined. -/
theorem Reachable.neighborsAcross_once_inside :
    ∃ l : Location 2, l.path = [0, 3] ∧ ∃ s : Stencil, Stencil.face 2 = .ok s ∧
      ∃ neighbors cell,
        ((rootOnly 2 4).afterCalls [.refine 0, .refine 3]).neighborsAcross l s = .ok neighbors ∧
        l.coordinates = .ok cell ∧ neighbors.Nodup ∧
        (∀ m ∈ neighbors,
          ((rootOnly 2 4).afterCalls [.refine 0, .refine 3]).contains m = .ok true ∧
          (box cell l.level ∩
            ((rootOnly 2 4).afterCalls [.refine 0, .refine 3]).extent m).Nonempty ∧
          ∃ k, ((rootOnly 2 4).afterCalls [.refine 0, .refine 3]).level m = .ok k ∧
            k ≤ l.level + 1 ∧ (k ≤ l.level →
              ((rootOnly 2 4).afterCalls [.refine 0, .refine 3]).isLeaf m = .ok true)) ∧
        ∀ node, ((rootOnly 2 4).afterCalls [.refine 0, .refine 3]).location node = .ok l →
          ∀ m ∈ neighbors, m ≠ node ∧
            ¬((rootOnly 2 4).afterCalls [.refine 0, .refine 3]).IsAbove m node ∧
            ¬((rootOnly 2 4).afterCalls [.refine 0, .refine 3]).IsAbove node m :=
  ⟨⟨19, by decide⟩, by decide +kernel, ⟨2, 1, by decide, by decide, by decide⟩, rfl,
    Reachable.neighborsAcross_once ((Reachable.new 13 rfl).afterCalls [.refine 0, .refine 3]) _ rfl⟩

/-- The quarter around the place lies at two positions and is listed once. -/
example : (do
    let l ← Location.ofPath 2 [0, 3]
    ((rootOnly 2 4).afterCalls [.refine 0, .refine 3]).neighborsAcross l (← Stencil.face 2)) =
      .ok [1, 2, 6] := by
  decide +kernel

end Orthtree.Tree
