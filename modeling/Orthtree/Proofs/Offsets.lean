import Mathlib.Data.Fintype.Basic
import Mathlib.Tactic.IntervalCases
import Orthtree.Proofs.Boxes
import Orthtree.Stencil.Basic

/-!
# Offsets of stencils

The stencils of a dimension look at every place around a node: an offset stands in one of their tables iff it goes at
most one step along each axis and does not stay in place (`exists_looks`, `exists_position`).  The children that face
back from an offset are those whose intervals meet the node's on every axis (`meet_child_iff`).
-/

namespace Orthtree.Stencil

variable {n position : Nat} {s : Stencil}

/-- An offset goes at most one step along every axis, and some step along at least one. -/
structure IsOffset (o : Vector Int n) : Prop where
  small (d : Nat) (_ : d < n) : -1 ≤ o[d] ∧ o[d] ≤ 1
  moves : ∃ d, ∃ _ : d < n, o[d] ≠ 0

/-! ## The tables -/

/-- The first `n` components of a row of a table. -/
def along (n : Nat) (row : Vector Int 3) : Vector Int n :=
  Vector.ofFn fun d => row[d.val]?.getD 0

theorem getElem_along (row : Vector Int 3) {d : Nat} (hd : d < n) (hd3 : d < 3) :
    (along n row)[d] = row[d] := by
  simp [along, hd3]

/-- The numbers of axes there can be, as a list to go through. -/
theorem mem_of_supported (hn : Corner.supported n = true) : n ∈ [1, 2, 3] := by
  rw [Corner.supported_iff] at hn
  simp only [List.mem_cons, List.not_mem_nil, or_false]
  omega

theorem le_three_of_supported (hn : Corner.supported n = true) : n ≤ 3 :=
  (Corner.supported_iff.1 hn).2

/-- A stencil has 1, 2 or 3 axes. -/
theorem supported_dimension (s : Stencil) : Corner.supported s.dimension = true :=
  Corner.supported_iff.2 ⟨s.one_le_rank.trans s.rank_le, s.dimension_le⟩

theorem rank_mem (s : Stencil) : s.rank ∈ [1, 2, 3] := by
  have hone := s.one_le_rank
  have hle := s.rank_le.trans s.dimension_le
  simp only [List.mem_cons, List.not_mem_nil, or_false]
  omega

/-- Every row of a table is an offset along the axes of the table. -/
theorem row_of_mem_offsets : ∀ n ∈ [1, 2, 3], ∀ r ∈ [1, 2, 3], ∀ row ∈ offsets n r,
    (∀ d : Fin 3, -1 ≤ row[d] ∧ row[d] ≤ 1 ∧ (n ≤ d.val → row[d] = 0)) ∧
      ∃ d : Fin 3, row[d] ≠ 0 := by
  decide

/-- Every offset is a row of a table. -/
theorem mem_offsets_of_row : ∀ n ∈ [1, 2, 3], ∀ a ∈ [(-1 : Int), 0, 1], ∀ b ∈ [(-1 : Int), 0, 1],
    ∀ c ∈ [(-1 : Int), 0, 1], (n ≤ 1 → b = 0) → (n ≤ 2 → c = 0) → ¬(a = 0 ∧ b = 0 ∧ c = 0) →
      ∃ r ∈ [1, 2, 3], r ≤ n ∧ #v[a, b, c] ∈ offsets n r := by
  decide

/-- The rows of a table go at most one step along each axis, none along axes that there are not, and one somewhere. -/
theorem row_of_mem_table {row : Vector Int 3} (h : row ∈ s.table) :
    (∀ d : Fin 3, -1 ≤ row[d] ∧ row[d] ≤ 1 ∧ (s.dimension ≤ d.val → row[d] = 0)) ∧
      ∃ d : Fin 3, row[d] ≠ 0 :=
  row_of_mem_offsets s.dimension (mem_of_supported s.supported_dimension) s.rank s.rank_mem row h

/-- Every row of a table is an offset along the axes of the stencil. -/
theorem isOffset_of_mem_table {row : Vector Int 3} (h : row ∈ s.table) :
    IsOffset (along s.dimension row) := by
  obtain ⟨hsmall, d, hd⟩ := row_of_mem_table h
  refine ⟨?_, ?_⟩
  · intro d hd
    have hd3 : d < 3 := hd.trans_le s.dimension_le
    rw [getElem_along row hd hd3]
    exact ⟨(hsmall ⟨d, hd3⟩).1, (hsmall ⟨d, hd3⟩).2.1⟩
  · have hlt : d.val < s.dimension := by
      by_contra hge
      exact hd ((hsmall d).2.2 (Nat.not_lt.1 hge))
    refine ⟨d, hlt, ?_⟩
    rwa [getElem_along row hlt d.isLt]

/-! ## Children that touch the node -/

/-- A child on side `side` of its parent touches what lies on the other side of an offset along one axis. -/
def touches (offset : Int) (side : Nat) : Bool :=
  offset = 0 || offset = -1 && side = 1 || offset = 1 && side = 0

/-- The children of a neighbor at `offset` that touch the node, in ascending order. -/
def facing (dimension : Nat) (offset : Vector Int 3) : List Nat :=
  (List.range (2 ^ dimension)).filter fun c =>
    (Vector.zipWith touches offset (Corner.bits 3 c)).all id

/-- The table of the children that touch the node lists what the offsets say. -/
theorem facingRows_eq : ∀ n ∈ [1, 2, 3], ∀ r ∈ [1, 2, 3],
    facingRows n r = (offsets n r).map (facing n) := by
  decide +kernel

/-- The dimension and the rank of a stencil pass their check. -/
theorem check_eq (s : Stencil) : check s.dimension s.rank = .ok () := by
  have hdimension := s.one_le_rank.trans s.rank_le
  rw [check, if_neg (not_not.2 ⟨hdimension, s.dimension_le⟩),
    if_neg (Nat.one_le_iff_ne_zero.1 s.one_le_rank)]

/-- The children listed at a position are those that touch the node from its offset. -/
theorem facingAt_eq_ok_iff {children : List Nat} : s.facingAt position = .ok children ↔
    ∃ row, s.table[position]? = some row ∧ facing s.dimension row = children := by
  have hrows : facingRows s.dimension s.rank = s.table.map (facing s.dimension) :=
    facingRows_eq s.dimension (mem_of_supported s.supported_dimension) s.rank s.rank_mem
  rw [facingAt, facingTable, check_eq]
  simp only [bind, Except.bind, if_neg (Nat.not_lt.2 s.rank_le), hrows, List.getElem?_map]
  cases s.table[position]? <;> simp [pure, Except.pure, throw, throwThe, MonadExceptOf.throw]

/-! ## Stencils by dimension -/

/-- The stencils of a dimension. -/
theorem exists_all (hn : Corner.supported n = true) :
    ∃ stencils, all n = .ok stencils ∧ ∀ s : Stencil, s ∈ stencils ↔ s.dimension = n := by
  have hmem := mem_of_supported hn
  simp only [List.mem_cons, List.not_mem_nil, or_false] at hmem
  have hranks : ∃ stencils, all n = .ok stencils ∧
      stencils.map (fun s => (s.dimension, s.rank)) = (List.range' 1 n).map (n, ·) := by
    rcases hmem with rfl | rfl | rfl
    · exact ⟨[⟨1, 1, by decide, by decide, by decide⟩], rfl, rfl⟩
    · exact ⟨[⟨2, 1, by decide, by decide, by decide⟩, ⟨2, 2, by decide, by decide, by decide⟩],
        rfl, rfl⟩
    · exact ⟨[⟨3, 1, by decide, by decide, by decide⟩, ⟨3, 2, by decide, by decide, by decide⟩,
        ⟨3, 3, by decide, by decide, by decide⟩], rfl, rfl⟩
  obtain ⟨stencils, hall, hmap⟩ := hranks
  refine ⟨stencils, hall, ?_⟩
  intro s
  -- A stencil is told by its two numbers, so it is enough to compare these.
  have hinj : Function.Injective fun s : Stencil => (s.dimension, s.rank) := by
    rintro ⟨⟩ ⟨⟩ h
    simpa using h
  rw [← List.mem_map_of_injective hinj, hmap]
  have hone := s.one_le_rank
  have hle := s.rank_le
  simp only [List.mem_map, List.mem_range'_1, Prod.mk.injEq]
  constructor
  · rintro ⟨r, -, hdim, -⟩
    exact hdim.symm
  · intro hdim
    exact ⟨s.rank, by omega, hdim.symm, rfl⟩

/-! ## Looking at a position -/

/-- At `position` the stencil looks at `offset`, from which the children `facing` touch the node. -/
structure Looks (s : Stencil) (position : Nat) (offset : Vector Int n) (facing : List Nat) :
    Prop where
  offset_eq : s.offsetAlong n position = .ok offset
  facing_eq : s.facingAt position = .ok facing
  mem_facing (c : Nat) : c ∈ facing ↔
    c < 2 ^ n ∧ ∀ d (_ : d < n), touches offset[d] (Corner.side c d) = true

/-- A child faces back iff it touches along every axis. -/
theorem mem_facing_iff {row : Vector Int 3} (hn : n ≤ 3)
    (hzero : ∀ d : Fin 3, n ≤ d.val → row[d] = 0) (c : Nat) : c ∈ facing n row ↔
      c < 2 ^ n ∧ ∀ d (_ : d < n), touches (along n row)[d] (Corner.side c d) = true := by
  rw [facing, List.mem_filter, List.mem_range, Vector.all_eq_true]
  apply and_congr_right
  intro _
  simp only [Vector.getElem_zipWith, Corner.getElem_bits_eq_side, id_eq]
  constructor
  · intro h d hd
    rw [getElem_along row hd (hd.trans_le hn)]
    exact h d (hd.trans_le hn)
  · intro h d hd
    rcases Nat.lt_or_ge d n with hlt | hge
    · have hd' := h d hlt
      rwa [getElem_along row hlt hd] at hd'
    · -- Along the axes that the node does not have, all children touch.
      have hrow : row[d] = 0 := hzero ⟨d, hd⟩ hge
      simp [touches, hrow]

/-- A stencil looks at each row of its table. -/
theorem looks_of_getElem (hdim : s.dimension = n) (hp : position < s.table.length) :
    Looks s position (along n s.table[position]) (facing n s.table[position]) := by
  subst hdim
  refine ⟨?_, ?_, ?_⟩
  · rw [offsetAlong, if_pos rfl, offset, List.getElem?_eq_getElem hp]
    rfl
  · exact facingAt_eq_ok_iff.2 ⟨_, List.getElem?_eq_getElem hp, rfl⟩
  · apply mem_facing_iff s.dimension_le
    intro d hd
    exact ((row_of_mem_table (List.getElem_mem hp)).1 d).2.2 hd

/-- Every position of a stencil looks at an offset. -/
theorem exists_looks (hdim : s.dimension = n) (hp : position ∈ s.positions) :
    ∃ (offset : Vector Int n) (facing : List Nat), Looks s position offset facing ∧
      IsOffset offset := by
  have hlt : position < s.table.length := List.mem_range.1 hp
  refine ⟨_, _, looks_of_getElem hdim hlt, ?_⟩
  subst hdim
  exact isOffset_of_mem_table (List.getElem_mem hlt)

/-- What a stencil looks at is an offset. -/
theorem Looks.isOffset {offset : Vector Int n} {facing : List Nat} (h : Looks s position offset facing)
    (hdim : s.dimension = n) (hp : position ∈ s.positions) : IsOffset offset := by
  obtain ⟨offset', facing', hlooks, hoffset⟩ := exists_looks hdim hp
  rwa [Except.ok.inj (h.offset_eq.symm.trans hlooks.offset_eq)]

/-- The children that face back are listed once. -/
theorem Looks.nodup_facing {offset : Vector Int n} {facing : List Nat}
    (h : Looks s position offset facing) : facing.Nodup := by
  obtain ⟨row, -, rfl⟩ := facingAt_eq_ok_iff.1 h.facing_eq
  exact List.nodup_range.filter _

theorem nodup_offsets : ∀ n ∈ [1, 2, 3], ∀ r ∈ [1, 2, 3], (offsets n r).Nodup := by
  decide

/-- Different rows of a table are different offsets: the places that are cut off hold 0. -/
theorem eq_of_along {row row' : Vector Int 3} (hrow : row ∈ s.table) (hrow' : row' ∈ s.table)
    (h : along s.dimension row = along s.dimension row') : row = row' := by
  apply Vector.ext
  intro d hd
  rcases Nat.lt_or_ge d s.dimension with hlt | hge
  · rw [← getElem_along row hlt hd, h, getElem_along row' hlt hd]
  · have hzero : row[d] = 0 := ((row_of_mem_table hrow).1 ⟨d, hd⟩).2.2 hge
    have hzero' : row'[d] = 0 := ((row_of_mem_table hrow').1 ⟨d, hd⟩).2.2 hge
    rw [hzero, hzero']

/-- No two positions of a stencil look at the same offset. -/
theorem position_unique {offset : Vector Int n} {p q : Nat} (hdim : s.dimension = n)
    (hp : p ∈ s.positions) (hq : q ∈ s.positions) (hoffset : s.offsetAlong n p = .ok offset)
    (hoffset' : s.offsetAlong n q = .ok offset) : p = q := by
  have hplt : p < s.table.length := List.mem_range.1 hp
  have hqlt : q < s.table.length := List.mem_range.1 hq
  have hnodup : s.table.Nodup :=
    nodup_offsets s.dimension (mem_of_supported s.supported_dimension) s.rank s.rank_mem
  rw [(looks_of_getElem hdim hplt).offset_eq] at hoffset
  rw [(looks_of_getElem hdim hqlt).offset_eq, ← hoffset] at hoffset'
  subst hdim
  have hrow := eq_of_along (List.getElem_mem hqlt) (List.getElem_mem hplt) (Except.ok.inj hoffset')
  exact (hnodup.getElem_inj_iff.1 hrow).symm

/-- Every offset is looked at from a position of a stencil. -/
theorem exists_position (hn : Corner.supported n = true) {offset : Vector Int n}
    (h : IsOffset offset) : ∃ s : Stencil, s.dimension = n ∧ ∃ position ∈ s.positions,
      ∃ facing, Looks s position offset facing := by
  have hle := le_three_of_supported hn
  have hentry : ∀ d : Nat, offset[d]?.getD 0 ∈ [(-1 : Int), 0, 1] := by
    intro d
    rcases Nat.lt_or_ge d n with hd | hd
    · have hsmall := h.small d hd
      simp only [Vector.getElem?_eq_getElem hd, Option.getD_some, List.mem_cons, List.not_mem_nil,
        or_false]
      omega
    · simp [Vector.getElem?_eq_none hd]
  have hout : ∀ d : Nat, n ≤ d → offset[d]?.getD 0 = 0 := by
    intro d hd
    rw [Vector.getElem?_eq_none hd, Option.getD_none]
  -- Tables have rows along three axes, so the offset is filled up with zeros.
  let row : Vector Int 3 := #v[offset[0]?.getD 0, offset[1]?.getD 0, offset[2]?.getD 0]
  have halong : along n row = offset := by
    apply Vector.ext
    intro d hd
    have hd3 : d < 3 := hd.trans_le hle
    rw [getElem_along row hd hd3]
    interval_cases d <;> simp [row, hd]
  obtain ⟨r, hr, hrn, hmem⟩ := mem_offsets_of_row n (mem_of_supported hn) _ (hentry 0) _ (hentry 1)
    _ (hentry 2) (hout 1) (hout 2) (by
      rintro ⟨h0, h1, h2⟩
      obtain ⟨d, hd, hne⟩ := h.moves
      have hd3 : d < 3 := hd.trans_le hle
      apply hne
      interval_cases d <;> simp_all)
  have hone : 1 ≤ r := by
    simp only [List.mem_cons, List.not_mem_nil, or_false] at hr
    omega
  let s : Stencil := ⟨n, r, hle, hone, hrn⟩
  obtain ⟨position, hp, hrow⟩ := List.getElem_of_mem (show row ∈ s.table from hmem)
  refine ⟨s, rfl, position, List.mem_range.2 hp, facing n row, ?_⟩
  have hlooks := looks_of_getElem (s := s) rfl hp
  rwa [hrow, halong] at hlooks

/-! ## Opposite positions -/

/-- Turning a row around turns the offset around. -/
theorem along_map_neg (hn : n ≤ 3) (row : Vector Int 3) :
    along n (row.map Neg.neg) = (along n row).map Neg.neg := by
  apply Vector.ext
  intro d hd
  have hd3 : d < 3 := hd.trans_le hn
  rw [getElem_along _ hd hd3, Vector.getElem_map, Vector.getElem_map, getElem_along _ hd hd3]

/-- The row at the opposite position is the negated row. -/
theorem opposite_row : ∀ n ∈ [1, 2, 3], ∀ r ∈ [1, 2, 3], r ≤ n →
    ∀ position < (offsets n r).length, ∃ q < (offsets n r).length,
      oppositePosition n r position = .ok q ∧
      (offsets n r)[q]? = ((offsets n r)[position]?).map (Vector.map Neg.neg) := by
  decide +kernel

/-- At the opposite of a position the stencil looks at the negated offset. -/
theorem exists_opposite {offset : Vector Int n} (hdim : s.dimension = n) (hp : position ∈ s.positions)
    (hoffset : s.offsetAlong n position = .ok offset) :
    ∃ q, s.opposite position = .ok q ∧ q ∈ s.positions ∧
      s.offsetAlong n q = .ok (offset.map Neg.neg) := by
  have hn : n ≤ 3 := hdim ▸ s.dimension_le
  have hlt : position < s.table.length := List.mem_range.1 hp
  obtain ⟨q, hq, hanswer, hrow⟩ := opposite_row s.dimension (mem_of_supported s.supported_dimension)
    s.rank s.rank_mem s.rank_le position hlt
  change q < s.table.length at hq
  have hneg : s.table[q] = s.table[position].map Neg.neg := by
    change s.table[q]? = s.table[position]?.map (Vector.map Neg.neg) at hrow
    rw [List.getElem?_eq_getElem hq, List.getElem?_eq_getElem hlt, Option.map_some] at hrow
    exact Option.some_injective _ hrow
  refine ⟨q, hanswer, List.mem_range.2 hq, ?_⟩
  rw [(looks_of_getElem hdim hlt).offset_eq] at hoffset
  rw [(looks_of_getElem hdim hq).offset_eq, hneg, along_map_neg hn, Except.ok.inj hoffset]

/-! ## Places one step away -/

section Away

open Location

variable {offset : Vector Int n} {p q : List Nat}

/-- An offset leads away from where it begins. -/
theorem IsOffset.ne (h : IsOffset offset) (haway : AwayBy p q offset) : q ≠ p := by
  rintro rfl
  obtain ⟨d, hd, hne⟩ := h.moves
  have heq := haway.coordinate_eq d hd
  omega

/-- The place one step away touches the node. -/
theorem IsOffset.touch (h : IsOffset offset) (haway : AwayBy p q offset) : Touch n p q := by
  rw [touch_iff]
  intro d hd
  have hsmall := h.small d hd
  have heq := haway.coordinate_eq d hd
  rw [haway.length_eq, meet_self_iff]
  omega

/-- Another place of the level that is near on every axis lies one step away. -/
theorem exists_awayBy (hp : ∀ c ∈ p, c < 2 ^ n) (hq : ∀ c ∈ q, c < 2 ^ n)
    (hlength : q.length = p.length) (hne : p ≠ q)
    (hnear : ∀ d, d < n → coordinate q d ≤ coordinate p d + 1 ∧
      coordinate p d ≤ coordinate q d + 1) :
    ∃ offset : Vector Int n, IsOffset offset ∧ AwayBy p q offset ∧
      ∀ d (_ : d < n), offset[d] = (coordinate q d : Int) - coordinate p d := by
  let offset : Vector Int n := Vector.ofFn fun d => (coordinate q d : Int) - coordinate p d
  have hoffset : ∀ d (_ : d < n), offset[d] = (coordinate q d : Int) - coordinate p d :=
    fun d hd => Vector.getElem_ofFn hd
  refine ⟨offset, ⟨?_, ?_⟩, ⟨hq, hlength, ?_⟩, hoffset⟩
  · intro d hd
    have hnear := hnear d hd
    rw [hoffset d hd]
    omega
  · -- An offset of zeros would lead to the same path.
    by_contra hstays
    push Not at hstays
    apply hne
    apply eq_of_coordinates hp hq hlength.symm
    intro d hd
    have hzero := hstays d hd
    rw [hoffset d hd] at hzero
    omega
  · intro d hd
    rw [hoffset d hd]
    omega

end Away

/-! ## Children that face back -/

/-- A child of a neighbor touches the node iff its interval meets the node's. -/
theorem meet_child_iff {x y c d l : Nat} :
    Location.Meet (2 * x + Corner.side c d) (l + 1) y l ↔
      touches ((x : Int) - y) (Corner.side c d) = true := by
  have hside := Corner.side_lt c d
  rw [Location.meet_comm, Location.meet_add_iff]
  simp only [touches, Bool.or_eq_true, Bool.and_eq_true, decide_eq_true_eq, pow_one]
  omega

end Orthtree.Stencil
