import Mathlib.Data.Real.Basic
import Mathlib.Tactic.Linarith
import Orthtree.Proofs.Cells

/-!
# Boxes

The root fills the unit box, and a cell of the grid of level `k` fills a closed box of side length `1 / 2 ^ k`.  A box
is covered by the boxes of its children (`exists_child_box`) and contains them.  Whether two boxes have a point in
common is decided axis by axis on the coordinates (`touch_iff`).
-/

namespace Orthtree.Location

variable {n k s x y : Nat} {p q : List Nat} {point : Fin n → ℝ}

/-- The closed box that a cell in the grid of `level` fills. -/
def box (cell : Vector Nat n) (level : Nat) : Set (Fin n → ℝ) :=
  {point | ∀ d (hd : d < n), (cell[d] : ℝ) / 2 ^ level ≤ point ⟨d, hd⟩ ∧
    point ⟨d, hd⟩ ≤ ((cell[d] : ℝ) + 1) / 2 ^ level}

/-- The closed box of the node that a path leads to. -/
def pathBox (n : Nat) (path : List Nat) : Set (Fin n → ℝ) :=
  box (Vector.ofFn fun d => coordinate path d) path.length

/-- The box of a location is the box of its path. -/
theorem box_cell (l : Location n) : box l.cell l.level = pathBox n l.path := by
  have hcell : l.cell = Vector.ofFn fun d : Fin n => coordinate l.path d := by
    apply Vector.ext
    intro d hd
    rw [getElem_cell l hd, Vector.getElem_ofFn]
  rw [pathBox, ← hcell, length_path]

/-- Membership in a box, with the grid of its level scaled to the integers. -/
theorem mem_pathBox : point ∈ pathBox n p ↔ ∀ d : Fin n,
    (coordinate p d : ℝ) ≤ point d * 2 ^ p.length ∧
      point d * 2 ^ p.length ≤ (coordinate p d : ℝ) + 1 := by
  have hpos : (0 : ℝ) < 2 ^ p.length := by positivity
  simp only [pathBox, box, Set.mem_ofPred_eq, div_le_iff₀ hpos, le_div_iff₀ hpos,
    Vector.getElem_ofFn, Fin.forall_iff]

/-! ## Boxes of children -/

/-- The side of a child, 0 or 1, as a real number. -/
theorem side_real_mem (c d : Nat) :
    (0 : ℝ) ≤ Corner.side c d ∧ (Corner.side c d : ℝ) ≤ 1 := by
  constructor
  · exact Nat.cast_nonneg _
  · exact_mod_cast Nat.le_of_lt_succ (Corner.side_lt c d)

/-- Membership in the box of a child, in the scale of its parent. -/
theorem mem_pathBox_concat {c : Nat} : point ∈ pathBox n (p ++ [c]) ↔ ∀ d : Fin n,
    2 * (coordinate p d : ℝ) + Corner.side c d ≤ 2 * (point d * 2 ^ p.length) ∧
      2 * (point d * 2 ^ p.length) ≤ 2 * (coordinate p d : ℝ) + Corner.side c d + 1 := by
  have hscale : ∀ x : ℝ, x * 2 ^ (p.length + 1) = 2 * (x * 2 ^ p.length) := by
    intro x
    ring
  simp only [mem_pathBox, coordinate_concat, List.length_append, List.length_singleton, hscale]
  push_cast
  rfl

/-- A child lies inside its parent. -/
theorem pathBox_concat_subset (p : List Nat) (c : Nat) : pathBox n (p ++ [c]) ⊆ pathBox n p := by
  intro point hpoint
  rw [mem_pathBox_concat] at hpoint
  rw [mem_pathBox]
  intro d
  obtain ⟨hlow, hhigh⟩ := hpoint d
  obtain ⟨hzero, hone⟩ := side_real_mem c d
  constructor <;> linarith

/-- A node lies inside its ancestors. -/
theorem pathBox_append_subset (p q : List Nat) : pathBox n (p ++ q) ⊆ pathBox n p := by
  induction q using List.reverseRecOn with
  | nil => rw [List.append_nil]
  | append_singleton q c ih =>
    rw [← List.append_assoc]
    exact (pathBox_concat_subset (p ++ q) c).trans ih

/-- The children of a node cover it. -/
theorem exists_child_box (h : point ∈ pathBox n p) :
    ∃ c, c < 2 ^ n ∧ point ∈ pathBox n (p ++ [c]) := by
  -- On each axis the child lies on the side of the middle on which the point lies.
  let sides : Vector Nat n := Vector.ofFn fun d =>
    if 2 * (point d * 2 ^ p.length) ≤ 2 * (coordinate p d : ℝ) + 1 then 0 else 1
  have hsides : ∀ d (_ : d < n), sides[d] ≤ 1 := by
    intro d hd
    rw [Vector.getElem_ofFn]
    split <;> decide
  refine ⟨Corner.number sides, Corner.number_lt hsides, ?_⟩
  rw [mem_pathBox] at h
  rw [mem_pathBox_concat]
  intro d
  obtain ⟨hlow, hhigh⟩ := h d
  rw [Corner.side_number hsides d.isLt, Vector.getElem_ofFn]
  split
  · next hmiddle =>
    rw [Nat.cast_zero]
    constructor <;> linarith
  · next hmiddle =>
    rw [Nat.cast_one]
    constructor <;> linarith

/-! ## Boxes with a common point -/

/-- The intervals of coordinate `x` in the grid of level `k` and of coordinate `y` in the grid of level `l` have a point
in common. -/
def Meet (x k y l : Nat) : Prop := x * 2 ^ l ≤ (y + 1) * 2 ^ k ∧ y * 2 ^ k ≤ (x + 1) * 2 ^ l

/-- Where an interval begins and where another one ends is compared without division. -/
theorem div_le_succ_div_iff (x k y l : Nat) :
    (x : ℝ) / 2 ^ k ≤ ((y : ℝ) + 1) / 2 ^ l ↔ x * 2 ^ l ≤ (y + 1) * 2 ^ k := by
  rw [div_le_div_iff₀ (by positivity) (by positivity)]
  exact_mod_cast Iff.rfl

/-- The boxes of two paths have a point in common. -/
def Touch (n : Nat) (p q : List Nat) : Prop := (pathBox n p ∩ pathBox n q).Nonempty

theorem Touch.symm (h : Touch n p q) : Touch n q p := by
  rwa [Touch, Set.inter_comm]

/-- Whatever touches a node touches its ancestors. -/
theorem Touch.of_append {r : List Nat} (h : Touch n p (q ++ r)) : Touch n p q :=
  h.mono (Set.inter_subset_inter_right _ (pathBox_append_subset q r))

/-- Two boxes have a point in common iff their intervals on every axis do. -/
theorem touch_iff : Touch n p q ↔
    ∀ d, d < n → Meet (coordinate p d) p.length (coordinate q d) q.length := by
  constructor
  · rintro ⟨point, hp, hq⟩ d hd
    have hp := hp d hd
    have hq := hq d hd
    simp only [Vector.getElem_ofFn] at hp hq
    rw [Meet, ← div_le_succ_div_iff, ← div_le_succ_div_iff]
    exact ⟨hp.1.trans hq.2, hq.1.trans hp.2⟩
  · intro hmeet
    -- On each axis the greater of the two lower ends lies in both intervals.
    refine ⟨fun d => max ((coordinate p d : ℝ) / 2 ^ p.length) (coordinate q d / 2 ^ q.length),
      ?_, ?_⟩
    · intro d hd
      obtain ⟨-, hle⟩ := hmeet d hd
      simp only [Vector.getElem_ofFn]
      refine ⟨le_max_left _ _, max_le ?_ ?_⟩
      · rw [div_le_succ_div_iff]
        exact Nat.mul_le_mul_right _ (Nat.le_succ _)
      · rwa [div_le_succ_div_iff]
    · intro d hd
      obtain ⟨hle, -⟩ := hmeet d hd
      simp only [Vector.getElem_ofFn]
      refine ⟨le_max_right _ _, max_le ?_ ?_⟩
      · rwa [div_le_succ_div_iff]
      · rw [div_le_succ_div_iff]
        exact Nat.mul_le_mul_right _ (Nat.le_succ _)

/-- An interval against one that is `s` levels finer. -/
theorem meet_add_iff : Meet x k y (k + s) ↔ x * 2 ^ s ≤ y + 1 ∧ y ≤ (x + 1) * 2 ^ s := by
  have hpos := Nat.two_pow_pos k
  have hscale : ∀ x : Nat, x * 2 ^ (k + s) = x * 2 ^ s * 2 ^ k := by
    intro x
    rw [Nat.pow_add]
    ring
  rw [Meet, hscale, hscale, Nat.mul_le_mul_right_iff hpos, Nat.mul_le_mul_right_iff hpos]

theorem meet_comm {l : Nat} : Meet x k y l ↔ Meet y l x k := and_comm

/-- Intervals of one level meet iff they are equal or next to each other. -/
theorem meet_self_iff : Meet x k y k ↔ x ≤ y + 1 ∧ y ≤ x + 1 := by
  simpa using meet_add_iff (x := x) (k := k) (y := y) (s := 0)

/-- An interval that meets a finer one contains an interval of the finer level that is equal or next to it. -/
theorem exists_near (h : Meet x k y (k + s)) : ∃ z, z / 2 ^ s = x ∧ z ≤ y + 1 ∧ y ≤ z + 1 := by
  have hpos := Nat.two_pow_pos s
  rw [meet_add_iff] at h
  refine ⟨max (x * 2 ^ s) (min y (x * 2 ^ s + (2 ^ s - 1))), ?_, ?_⟩
  · rw [Nat.div_eq_iff hpos]
    rw [Nat.add_mul] at h
    omega
  · rw [Nat.add_mul] at h
    omega

end Orthtree.Location
