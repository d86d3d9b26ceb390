import Orthtree.Proofs.Cells

/-!
# Coordinates and packed numbers

The number of a location and its cell hold the same digits in two arrangements: the number has them level by level, and
within a level axis by axis, while a coordinate has those of one axis (`testBit_coordinate`).  So coordinates and
locations determine each other (`coordinates_interleave`), and moving along the grid of a level is addition of
coordinates wherever the grid does not end (`shift_exact`).
-/

namespace Orthtree.Location

variable {n level d : Nat} {l k : Location n} {xs : Vector Nat n} {offset : Vector Int n}

/-! ## Digits of a coordinate -/

/-- The last step sets the lowest bit of a coordinate. -/
theorem testBit_coordinate_concat_zero (path : List Nat) (c d : Nat) :
    (coordinate (path ++ [c]) d).testBit 0 = c.testBit d := by
  have hside : (2 * coordinate path d + Corner.side c d) % 2 = c / 2 ^ d % 2 := by
    rw [Corner.side]
    omega
  rw [coordinate_concat, Nat.testBit_zero, hside, Nat.testBit_eq_decide_div_mod_eq]

/-- The steps before the last one set the higher bits, one place further up than they would without it. -/
theorem testBit_coordinate_concat_succ (path : List Nat) (c d k : Nat) :
    (coordinate (path ++ [c]) d).testBit (k + 1) = (coordinate path d).testBit k := by
  have hside := Corner.side_lt c d
  have hhalf : (2 * coordinate path d + Corner.side c d) / 2 = coordinate path d := by omega
  rw [coordinate_concat, Nat.testBit_succ, hhalf]

/-- **Interleaving.**  Digit `k` along axis `d` stands in the number at place `n * k + d`. -/
theorem testBit_coordinate (l : Location n) (hd : d < n) (k : Nat) :
    (coordinate l.path d).testBit k = (decide (k < l.level) && l.raw.testBit (n * k + d)) := by
  induction l using push_induction generalizing k with
  | root => simp
  | @push l m p hm ih =>
    obtain ⟨hp, -, hraw⟩ := push_eq_ok_iff.1 hm
    -- The step appends the lowest digit of every axis, so the digits before stand one level higher.
    rw [path_push hm, level_push hm, hraw, Nat.mul_comm l.raw, Nat.testBit_two_pow_mul_add _ hp]
    cases k with
    | zero =>
      rw [testBit_coordinate_concat_zero]
      simp [hd]
    | succ k =>
      have hplace : n * (k + 1) + d - n = n * k + d := by
        rw [Nat.mul_succ]
        omega
      have hlow : ¬n * (k + 1) + d < n := by
        rw [Nat.mul_succ]
        omega
      rw [testBit_coordinate_concat_succ, ih, if_neg hlow, hplace]
      simp

theorem testBit_cell_of_lt (l : Location n) (hd : d < n) {k : Nat} (hk : k < l.level) :
    l.cell[d].testBit k = l.raw.testBit (n * k + d) := by
  rw [getElem_cell, testBit_coordinate l hd, decide_eq_true hk, Bool.true_and]

theorem testBit_cell_of_le (l : Location n) (hd : d < n) {k : Nat} (hk : l.level ≤ k) :
    l.cell[d].testBit k = false := by
  rw [getElem_cell, testBit_coordinate l hd, decide_eq_false (Nat.not_lt.2 hk), Bool.false_and]

/-! ## Cells and locations -/

theorem cell_lt (l : Location n) (hd : d < n) : l.cell[d] < 2 ^ l.level := by
  rw [getElem_cell, ← length_path]
  exact coordinate_lt l.path d

/-- The way down to the cell of a location is its path. -/
theorem pathOfCell_cell (l : Location n) : pathOfCell l.cell l.level = l.path := by
  apply eq_of_coordinates (fun _ => lt_of_mem_pathOfCell) (fun _ => lt_of_mem_path)
  · rw [length_pathOfCell, length_path]
  · intro d hd
    rw [coordinate_pathOfCell _ _ hd, Nat.mod_eq_of_lt (l.cell_lt hd), getElem_cell]

/-- The location of the cell of a location is that location. -/
theorem ofCoordinates_cell (hn : Corner.supported n = true) (l : Location n) :
    ofCoordinates l.cell l.level = .ok l := by
  obtain ⟨k, hk, hpath⟩ := exists_ofCoordinates hn l.level_le fun d hd => l.cell_lt hd
  rw [pathOfCell_cell] at hpath
  rw [hk, path_injective n hpath]

/-- Exactly the cells inside the grid of a level that is not too deep have a location. -/
theorem exists_ofCoordinates_iff (hn : Corner.supported n = true) :
    (∃ l, ofCoordinates xs level = .ok l) ↔
      level ≤ maxLevel n ∧ ∀ d (_ : d < n), xs[d] < 2 ^ level := by
  constructor
  · rintro ⟨l, hl⟩
    rw [ofCoordinates] at hl
    split at hl
    · cases hl
    · next hlevel =>
      split at hl
      · next hall =>
        rw [Vector.all_eq_true] at hall
        exact ⟨Nat.not_lt.1 hlevel, fun d hd => of_decide_eq_true (hall d hd)⟩
      · cases hl
  · rintro ⟨hlevel, hxs⟩
    obtain ⟨l, hl, -⟩ := exists_ofCoordinates hn hlevel hxs
    exact ⟨l, hl⟩

/-- The location of a cell has that cell, on the level of the grid. -/
theorem cell_ofCoordinates (hn : Corner.supported n = true) (h : ofCoordinates xs level = .ok l) :
    l.level = level ∧ l.cell = xs := by
  obtain ⟨hlevel, hxs⟩ := (exists_ofCoordinates_iff hn).1 ⟨l, h⟩
  obtain ⟨k, hk, hpath⟩ := exists_ofCoordinates hn hlevel hxs
  obtain rfl := Except.ok.inj (hk.symm.trans h)
  constructor
  · rw [← length_path, hpath, length_pathOfCell]
  · apply Vector.ext
    intro d hd
    rw [getElem_cell, hpath, coordinate_pathOfCell _ _ hd, Nat.mod_eq_of_lt (hxs d hd)]

/-- Along two axes or more no level has more than 31 digits. -/
theorem maxLevel_le_of_two_le (hn : 2 ≤ n) : maxLevel n ≤ 31 := by
  have hdiv : (64 - n) / n ≤ 62 / 2 :=
    Nat.div_le_div (Nat.sub_le_sub_left hn 64) hn (by decide)
  exact (Nat.sub_le _ 1).trans hdiv

/-- Along two axes or more the cell of a location is the same in 32-bit numbers. -/
theorem toNat_cell32 (hn : 2 ≤ n) (l : Location n) :
    (l.cell.map UInt32.ofNat).map UInt32.toNat = l.cell := by
  apply Vector.ext
  intro d hd
  have hlevel : 2 ^ l.level ≤ 2 ^ 31 :=
    Nat.pow_le_pow_right Nat.two_pos (l.level_le.trans (maxLevel_le_of_two_le hn))
  have hlt := l.cell_lt hd
  rw [Vector.getElem_map, Vector.getElem_map, UInt32.toNat_ofNat']
  exact Nat.mod_eq_of_lt (by omega)

/-- **Coordinates and locations.**  The digits of the coordinates are those of the packed number, axis by axis, and no
more than there are levels.  Every location is found again at its coordinates.  Exactly the coordinates inside the grid
of a level that locations have are those of a location, which lies on that level.  Along two axes or more 32 bits
suffice for all of them. -/
theorem coordinates_interleave (hn : Corner.supported n = true) :
    (∀ l : Location n, ∃ xs, l.coordinates = .ok xs ∧
      (∀ d (_ : d < n) k, k < l.level → xs[d].testBit k = l.raw.testBit (n * k + d)) ∧
      (∀ d (_ : d < n) k, l.level ≤ k → xs[d].testBit k = false) ∧
      ofCoordinates xs l.level = .ok l) ∧
    (∀ (xs : Vector Nat n) level, (∃ l, ofCoordinates xs level = .ok l) ↔
      level ≤ maxLevel n ∧ ∀ d (_ : d < n), xs[d] < 2 ^ level) ∧
    (∀ (xs : Vector Nat n) level l, ofCoordinates xs level = .ok l →
      l.level = level ∧ l.coordinates = .ok xs) ∧
    (2 ≤ n → ∀ l : Location n, ∃ ys, l.coordinates32 = .ok ys ∧
      l.coordinates = .ok (ys.map UInt32.toNat) ∧ ofCoordinates32 ys l.level = .ok l) := by
  refine ⟨?_, fun xs level => exists_ofCoordinates_iff hn, ?_, ?_⟩
  · intro l
    exact ⟨l.cell, coordinates_of_supported hn l, fun d hd k hk => l.testBit_cell_of_lt hd hk,
      fun d hd k hk => l.testBit_cell_of_le hd hk, ofCoordinates_cell hn l⟩
  · intro xs level l hl
    obtain ⟨hlevel, rfl⟩ := cell_ofCoordinates hn hl
    exact ⟨hlevel, coordinates_of_supported hn l⟩
  · intro htwo l
    refine ⟨l.cell.map UInt32.ofNat, ?_, ?_, ?_⟩
    · rw [coordinates32, coordinates_of_supported hn]
      rfl
    · rw [toNat_cell32 htwo, coordinates_of_supported hn]
    · rw [ofCoordinates32, toNat_cell32 htwo, ofCoordinates_cell hn]

/-- Two steps down in a square, to the right and then up: the digits of the cell `2, 1` are those of 22, and no cell of
that level has a coordinate of 4. -/
theorem coordinates_interleave_square :
    (∃ l : Location 2, l.raw = 22 ∧ l.coordinates = .ok #v[2, 1] ∧
      ofCoordinates #v[2, 1] 2 = .ok l) ∧
    ¬∃ l : Location 2, ofCoordinates #v[2, 4] 2 = .ok l := by
  obtain ⟨hcell, hexists, -, -⟩ := coordinates_interleave (n := 2) (by decide)
  refine ⟨⟨⟨22, by decide⟩, rfl, by decide, ?_⟩, ?_⟩
  · obtain ⟨xs, hxs, -, -, hl⟩ := hcell ⟨22, by decide⟩
    obtain rfl : #v[2, 1] = xs := Except.ok.inj (Eq.trans (by decide) hxs)
    exact hl
  · rw [hexists]
    decide

/-! ## Moving along the grid -/

/-- Moving finds the location that lies the offset away. -/
theorem shift_eq_some_iff (hn : Corner.supported n = true) :
    l.shift offset = .ok (some k) ↔ AwayBy l.path k.path offset := by
  rcases shift_cases hn l offset with ⟨m, hm, haway⟩ | ⟨hnone, houtside⟩
  · rw [hm, Except.ok.injEq, Option.some_inj]
    constructor
    · rintro rfl
      exact haway
    · intro h
      exact path_injective n (haway.unique h)
  · rw [hnone]
    constructor
    · intro h
      cases h
    · intro h
      exact absurd h (houtside _)

/-- Moving back undoes moving. -/
theorem AwayBy.symm {p q : List Nat} (h : AwayBy p q offset) (hp : ∀ c ∈ p, c < 2 ^ n) :
    AwayBy q p (offset.map Neg.neg) where
  mem_lt := hp
  length_eq := h.length_eq.symm
  coordinate_eq d hd := by
    rw [Vector.getElem_map, h.coordinate_eq d hd]
    omega

/-- A location can be moved iff its cell stays inside the grid of its level. -/
theorem exists_shift_iff (hn : Corner.supported n = true) :
    (∃ k, l.shift offset = .ok (some k)) ↔ ∀ d (_ : d < n),
      0 ≤ (l.cell[d] : Int) + offset[d] ∧ (l.cell[d] : Int) + offset[d] < 2 ^ l.level := by
  simp only [getElem_cell]
  constructor
  · rintro ⟨k, hk⟩
    by_contra houtside
    rw [shift_of_outside hn houtside] at hk
    cases hk
  · intro hinside
    obtain ⟨k, hk, -⟩ := shift_of_inside hn hinside
    exact ⟨k, hk⟩

/-- No coordinate moved by a 32-bit offset leaves 64 bits. -/
theorem cell_add_natAbs_lt (l : Location n) (hd : d < n) {dx : Int} (hdx : dx.natAbs ≤ 2 ^ 31) :
    l.cell[d] + dx.natAbs < Bounded.countLimit := by
  have hpow : 2 ^ l.level ≤ 2 ^ 63 :=
    Nat.pow_le_pow_right Nat.two_pos (Nat.le_of_lt_succ l.level_lt)
  have hlt := l.cell_lt hd
  rw [Bounded.countLimit]
  omega

/-- **Moving is bounded translation.**  Moving is never refused, whatever the offset.  It succeeds iff the cell, moved by
the offset as integers, stays inside the grid of its level; then it finds the location of that cell, on the same level,
from which the opposite offset leads back.  With offsets of 32 bits all numbers on the way fit 64 bits. -/
theorem shift_exact (hn : Corner.supported n = true) (l : Location n) (offset : Vector Int n) :
    l.coordinates = .ok l.cell ∧
    (∃ found, l.shift offset = .ok found) ∧
    ((∃ k, l.shift offset = .ok (some k)) ↔ ∀ d (_ : d < n),
      0 ≤ (l.cell[d] : Int) + offset[d] ∧ (l.cell[d] : Int) + offset[d] < 2 ^ l.level) ∧
    (∀ k, l.shift offset = .ok (some k) →
      k.level = l.level ∧ k.coordinates = .ok k.cell ∧
      (∀ d (_ : d < n), (k.cell[d] : Int) = l.cell[d] + offset[d]) ∧
      k.shift (offset.map Neg.neg) = .ok (some l)) ∧
    ((∀ d (_ : d < n), offset[d].natAbs ≤ 2 ^ 31) →
      ∀ d (_ : d < n), l.cell[d] + offset[d].natAbs < Bounded.countLimit) := by
  refine ⟨coordinates_of_supported hn l, ?_, exists_shift_iff hn, ?_, ?_⟩
  · rcases shift_cases hn l offset with ⟨k, hk, -⟩ | ⟨hnone, -⟩
    · exact ⟨_, hk⟩
    · exact ⟨_, hnone⟩
  · intro k hk
    have haway := (shift_eq_some_iff hn).1 hk
    refine ⟨?_, coordinates_of_supported hn k, ?_, ?_⟩
    · rw [← length_path, haway.length_eq, length_path]
    · intro d hd
      rw [getElem_cell, getElem_cell, haway.coordinate_eq d hd]
    · exact (shift_eq_some_iff hn).2 (haway.symm fun _ => lt_of_mem_path)
  · intro hoffset d hd
    exact l.cell_add_natAbs_lt hd (hoffset d hd)

/-- At the lower end of an interval, on the deepest level, the greatest 32-bit offset leads to a cell from which its
opposite leads back, and the least leads out of the interval. -/
theorem shift_exact_deepest : ∃ l k : Location 1, l.raw = 2 ^ maxLevel 1 ∧
    l.shift #v[2 ^ 31 - 1] = .ok (some k) ∧ (k.cell[0] : Int) = 2 ^ 31 - 1 ∧
    k.shift #v[-(2 ^ 31 - 1)] = .ok (some l) ∧ l.shift #v[-2 ^ 31] = .ok none := by
  let l : Location 1 := ⟨2 ^ maxLevel 1, by decide⟩
  have hcell : l.cell = #v[0] := by decide +kernel
  obtain ⟨-, -, hfinds, hfound, -⟩ := shift_exact (by decide) l #v[2 ^ 31 - 1]
  obtain ⟨-, ⟨found, hleast⟩, hleaves, -, -⟩ := shift_exact (by decide) l #v[-2 ^ 31]
  obtain ⟨k, hk⟩ := hfinds.2 (by rw [hcell]; decide)
  obtain ⟨-, -, hmoved, hback⟩ := hfound k hk
  have hnone : found = none := by
    rw [Option.eq_none_iff_forall_ne_some]
    rintro m rfl
    have hinside := hleaves.1 ⟨m, hleast⟩ 0 Nat.one_pos
    rw [hcell] at hinside
    exact absurd hinside.1 (by decide)
  have hopposite : (#v[2 ^ 31 - 1] : Vector Int 1).map Neg.neg = #v[-(2 ^ 31 - 1)] := by simp
  refine ⟨l, k, rfl, hk, ?_, by rw [← hopposite, hback], by rw [hleast, hnone]⟩
  rw [hmoved 0 Nat.one_pos, hcell]
  rfl

end Orthtree.Location
