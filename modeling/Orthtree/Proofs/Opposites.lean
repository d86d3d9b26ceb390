import Orthtree.Proofs.Coordinates
import Orthtree.Proofs.Locating

/-!
# Neighbors of the same size

The neighbor at a position of a stencil is the node whose cell lies the offset of that position away (`exists_neighborOf`).
Offsets can be negated, and the opposite position has the negated one, so being a neighbor of the same size is mutual
(`Reachable.neighborOf_opposite`).
-/

namespace Orthtree.Tree

open Location

variable {n : Nat} {t : Tree n} {s : Stencil} {l k : Location n} {offset : Vector Int n}
  {node m level position : Nat}

/-- Locations lie an offset apart iff they are on one level and their cells do. -/
theorem awayBy_path_iff : AwayBy l.path k.path offset ↔
    k.level = l.level ∧ ∀ d (_ : d < n), (k.cell[d] : Int) = l.cell[d] + offset[d] := by
  simp only [getElem_cell]
  constructor
  · intro haway
    refine ⟨?_, haway.coordinate_eq⟩
    rw [← length_path, haway.length_eq, length_path]
  · rintro ⟨hlevel, hcell⟩
    refine ⟨fun _ => lt_of_mem_path, ?_, hcell⟩
    rw [length_path, hlevel, length_path]

/-- A node that has a location has its level. -/
theorem level_of_location (ht : t.Valid) (hl : t.location node = .ok l) :
    t.contains node = .ok true ∧ t.level node = .ok l.level := by
  have hpath := (location_eq_ok_iff ht).1 hl
  refine ⟨contains_of_follow ht.toLinked hpath, ?_⟩
  rw [level_of_le ht.toLinked hpath (l.length_path.trans_le l.level_le), length_path]

/-- A node on a level that locations have has a location on that level. -/
theorem exists_location_of_level (ht : t.Valid) (hlevel : t.level node = .ok level)
    (hle : level ≤ maxLevel n) : ∃ l, t.location node = .ok l ∧ l.level = level := by
  have hlive : t.Live node := by
    by_contra hfree
    rw [Tree.level, contains_eq ht.toSized, decide_eq_false hfree] at hlevel
    cases hlevel
  obtain ⟨path, hpath⟩ := ht.rooted hlive
  obtain rfl := length_of_level ht.toLinked hpath hlevel
  obtain ⟨l, hl, hlpath⟩ := exists_location ht.toLinked hpath hle
  refine ⟨l, hl, ?_⟩
  rw [← length_path, hlpath]

/-- What is found at a position is the node that lies the offset away. -/
theorem exists_neighborOf (ht : t.Valid) (hl : t.location node = .ok l)
    (hoffset : s.offsetAlong n position = .ok offset) :
    ∃ found, t.neighborOf node s position = .ok found ∧
      ∀ m, found = some m ↔ ∃ k, t.location m = .ok k ∧ AwayBy l.path k.path offset := by
  have hlocation := neighborLocation_eq hoffset l
  rcases shift_cases ht.supported l offset with ⟨k, hk, haway⟩ | ⟨hnone, houtside⟩
  · refine ⟨t.follow k.path, ?_, ?_⟩
    · rw [neighborOf, hl]
      simp only [bind, Except.bind, neighbor, hlocation, hk]
      exact nodeAt_eq ht.toLinked k
    · intro m
      constructor
      · intro hm
        exact ⟨k, (location_eq_ok_iff ht).2 hm, haway⟩
      · rintro ⟨k', hm, haway'⟩
        rw [haway.unique haway']
        exact (location_eq_ok_iff ht).1 hm
  · refine ⟨none, ?_, ?_⟩
    · rw [neighborOf, hl]
      simp only [bind, Except.bind, neighbor, hlocation, hnone]
      rfl
    · intro m
      simp only [reduceCtorEq, false_iff, not_exists, not_and]
      exact fun k _ => houtside k.path

/-- **Neighbors are mutual.**  Take a node of a reachable tree on a level that locations have.  What is found at a
position of a stencil is the live node of the same level whose coordinates are those of the node plus the offset at the
position, if there is one.  From that node, the first one is found at the opposite position. -/
theorem Reachable.neighborOf_opposite (h : t.Reachable) (hs : s.dimension = n)
    (hp : position ∈ s.positions) (hlevel : t.level node = .ok level) (hle : level ≤ maxLevel n) :
    ∃ offset opposite l xs, s.offsetAlong n position = .ok offset ∧
      s.opposite position = .ok opposite ∧ t.location node = .ok l ∧ l.coordinates = .ok xs ∧
      (∃ found, t.neighborOf node s position = .ok found) ∧
      ∀ m, (t.neighborOf node s position = .ok (some m) ↔
          t.contains m = .ok true ∧ t.level m = .ok level ∧
          ∃ k ys, t.location m = .ok k ∧ k.coordinates = .ok ys ∧
            ∀ d (_ : d < n), (ys[d] : Int) = xs[d] + offset[d]) ∧
        (t.neighborOf node s position = .ok (some m) →
          t.neighborOf m s opposite = .ok (some node)) := by
  have ht := h.valid
  have hn := ht.supported
  obtain ⟨l, hl, rfl⟩ := exists_location_of_level ht hlevel hle
  obtain ⟨offset, facing, hlooks, -⟩ := Stencil.exists_looks hs hp
  obtain ⟨opposite, hopposite, -, hback⟩ := Stencil.exists_opposite hs hp hlooks.offset_eq
  obtain ⟨found, hfound, hmem⟩ := exists_neighborOf ht hl hlooks.offset_eq
  refine ⟨offset, opposite, l, l.cell, hlooks.offset_eq, hopposite, hl,
    coordinates_of_supported hn l, ⟨found, hfound⟩, ?_⟩
  intro m
  rw [hfound, Except.ok.injEq, hmem]
  constructor
  · constructor
    · rintro ⟨k, hk, haway⟩
      obtain ⟨hlevel', hcell⟩ := awayBy_path_iff.1 haway
      obtain ⟨hm, hmlevel⟩ := level_of_location ht hk
      rw [hlevel'] at hmlevel
      exact ⟨hm, hmlevel, k, k.cell, hk, coordinates_of_supported hn k, hcell⟩
    · rintro ⟨-, hmlevel, k, ys, hk, hys, hcell⟩
      obtain ⟨-, hklevel⟩ := level_of_location ht hk
      rw [coordinates_of_supported hn k] at hys
      obtain rfl := Except.ok.inj hys
      rw [hmlevel] at hklevel
      exact ⟨k, hk, awayBy_path_iff.2 ⟨(Except.ok.inj hklevel).symm, hcell⟩⟩
  · rintro ⟨k, hk, haway⟩
    -- From `m` the node itself is in the place at the opposite offset.
    obtain ⟨found', hfound', hmem'⟩ := exists_neighborOf ht hk hback
    rw [hfound', (hmem' node).2 ⟨l, hl, haway.symm fun _ => lt_of_mem_path⟩]

/-- In a square with two refined quarters, a node and its neighbor to the right, whose parent is another one. -/
theorem Reachable.neighborOf_opposite_cousin :
    ((rootOnly 2 4).afterCalls [.refine 0, .refine 1, .refine 2]).level 6 = .ok 2 ∧
    ∃ s : Stencil, Stencil.face 2 = .ok s ∧ ∃ offset opposite l xs,
      s.offsetAlong 2 1 = .ok offset ∧ s.opposite 1 = .ok opposite ∧
      ((rootOnly 2 4).afterCalls [.refine 0, .refine 1, .refine 2]).location 6 = .ok l ∧
      l.coordinates = .ok xs ∧
      (∃ found, ((rootOnly 2 4).afterCalls [.refine 0, .refine 1, .refine 2]).neighborOf 6 s 1 =
        .ok found) ∧
      ∀ m, (((rootOnly 2 4).afterCalls [.refine 0, .refine 1, .refine 2]).neighborOf 6 s 1 =
            .ok (some m) ↔
          ((rootOnly 2 4).afterCalls [.refine 0, .refine 1, .refine 2]).contains m = .ok true ∧
          ((rootOnly 2 4).afterCalls [.refine 0, .refine 1, .refine 2]).level m = .ok 2 ∧
          ∃ k ys, ((rootOnly 2 4).afterCalls [.refine 0, .refine 1, .refine 2]).location m = .ok k ∧
            k.coordinates = .ok ys ∧ ∀ (d : Nat) (_ : d < 2), (ys[d] : Int) = xs[d] + offset[d]) ∧
        (((rootOnly 2 4).afterCalls [.refine 0, .refine 1, .refine 2]).neighborOf 6 s 1 =
            .ok (some m) →
          ((rootOnly 2 4).afterCalls [.refine 0, .refine 1, .refine 2]).neighborOf m s opposite =
            .ok (some 6)) :=
  have hlevel : ((rootOnly 2 4).afterCalls [.refine 0, .refine 1, .refine 2]).level 6 = .ok 2 := by
    decide +kernel
  ⟨hlevel, ⟨2, 1, by decide, by decide, by decide⟩, rfl,
    Reachable.neighborOf_opposite ((Reachable.new 13 rfl).afterCalls [.refine 0, .refine 1, .refine 2])
      rfl (by decide) hlevel (by decide)⟩

end Orthtree.Tree
