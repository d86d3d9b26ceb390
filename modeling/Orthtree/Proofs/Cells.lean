import Mathlib.Data.List.Basic
import Mathlib.Data.List.Induction
import Mathlib.Tactic.Ring
import Mathlib.Tactic.Zify
import Orthtree.Location.Grid

/-!
# Cells of paths

Along each axis a path spells a number in binary: the step to child `c` appends the side of `c` on axis `d` to the
`coordinate` along axis `d`.  So a path of a given length and a cell in the grid of that level are the same thing: the
coordinates determine the path (`eq_of_coordinates`), every cell of the grid has one (`coordinate_pathOfCell`), and
the first steps of a path are found by dropping the last digits (`coordinate_append_div`).  `shift` moves coordinates
and fails only at the border of the grid.
-/

namespace Orthtree

/-! ## Sides of a child -/

namespace Corner

variable {n c c' d : Nat}

/-- The side of child `c` on axis `d`: 0 for the lower one, 1 for the upper one. -/
def side (c d : Nat) : Nat := c / 2 ^ d % 2

theorem side_lt (c d : Nat) : side c d < 2 := Nat.mod_lt _ Nat.two_pos

theorem getElem_bits_eq_side (h : d < n) : (bits n c)[d] = side c d := getElem_bits h

/-- A child is determined by its sides. -/
theorem eq_of_sides (hc : c < 2 ^ n) (hc' : c' < 2 ^ n) (h : ∀ d, d < n → side c d = side c' d) :
    c = c' := by
  have hbits : bits n c = bits n c' := by
    apply Vector.ext
    intro d hd
    rw [getElem_bits_eq_side hd, getElem_bits_eq_side hd, h d hd]
  rw [← number_bits hc, hbits, number_bits hc']

/-- The sides of the child with the given binary digits are the digits. -/
theorem side_fromDigits {bs : List Nat} (h : ∀ b ∈ bs, b ≤ 1) (hd : d < bs.length) :
    side (fromDigits bs) d = bs[d] := by
  induction bs generalizing d with
  | nil => exact absurd hd (Nat.not_lt_zero d)
  | cons b bs ih =>
    have hb : b ≤ 1 := h b List.mem_cons_self
    cases d with
    | zero =>
      rw [side, fromDigits, Nat.pow_zero, Nat.div_one, List.getElem_cons_zero]
      omega
    | succ d =>
      have htail := ih (fun x hx => h x (List.mem_cons_of_mem b hx)) (Nat.lt_of_succ_lt_succ hd)
      have hhalf : (b + 2 * fromDigits bs) / 2 = fromDigits bs := by omega
      rw [List.getElem_cons_succ, ← htail, side, side, fromDigits, Nat.pow_succ', ← Nat.div_div_eq_div_mul,
        hhalf]

/-- A bound on the sides by axis is one on the list of them. -/
theorem mem_toList_le_one {sides : Vector Nat n} (h : ∀ d (_ : d < n), sides[d] ≤ 1) :
    ∀ b ∈ sides.toList, b ≤ 1 := by
  intro b hb
  obtain ⟨d, hd, rfl⟩ := List.getElem_of_mem hb
  simpa using h d (by simpa using hd)

theorem number_lt {sides : Vector Nat n} (h : ∀ d (_ : d < n), sides[d] ≤ 1) :
    number sides < 2 ^ n := by
  simpa [number] using fromDigits_lt (mem_toList_le_one h)

/-- The child at a corner has the sides of the corner. -/
theorem side_number {sides : Vector Nat n} (h : ∀ d (_ : d < n), sides[d] ≤ 1) (hd : d < n) :
    side (number sides) d = sides[d] := by
  rw [number, side_fromDigits (mem_toList_le_one h) (by simpa using hd)]
  simp

/-- Sides that are 0 or 1 pass the checks of `toChild`. -/
theorem toChild_eq (hn : supported n = true) {sides : Vector Nat n}
    (h : ∀ d (_ : d < n), sides[d] ≤ 1) : toChild sides = .ok (number sides) := by
  have hall : sides.all (· ≤ 1) = true := by
    rw [Vector.all_eq_true]
    intro d hd
    exact decide_eq_true (h d hd)
  rw [toChild, if_pos hall, if_pos hn]

end Corner

namespace Location

variable {n d level : Nat} {p q path : List Nat}

/-! ## Coordinates of a path -/

/-- The coordinate along axis `d` of the node that a path leads to, in the grid of the path's length. -/
def coordinate (path : List Nat) (d : Nat) : Nat :=
  path.foldl (fun x c => 2 * x + Corner.side c d) 0

@[simp]
theorem coordinate_nil (d : Nat) : coordinate [] d = 0 := rfl

/-- A step down doubles the coordinate and adds the side of the child. -/
theorem coordinate_concat (path : List Nat) (c d : Nat) :
    coordinate (path ++ [c]) d = 2 * coordinate path d + Corner.side c d := by
  simp [coordinate]

/-- The coordinate of a path lies in the grid of its level. -/
theorem coordinate_lt (path : List Nat) (d : Nat) : coordinate path d < 2 ^ path.length := by
  induction path using List.reverseRecOn with
  | nil => simp
  | append_singleton path c ih =>
    have hside := Corner.side_lt c d
    rw [coordinate_concat, List.length_append, List.length_singleton, Nat.pow_succ]
    omega

/-- Steps further down append their digits. -/
theorem coordinate_append (p q : List Nat) (d : Nat) :
    coordinate (p ++ q) d = coordinate p d * 2 ^ q.length + coordinate q d := by
  induction q using List.reverseRecOn with
  | nil => simp
  | append_singleton q c ih =>
    rw [← List.append_assoc, coordinate_concat, coordinate_concat, ih, List.length_append,
      List.length_singleton, Nat.pow_succ]
    ring

/-- Dropping the last digits goes back up. -/
theorem coordinate_append_div (p q : List Nat) (d : Nat) :
    coordinate (p ++ q) d / 2 ^ q.length = coordinate p d := by
  rw [coordinate_append, Nat.mul_comm, Nat.mul_add_div (Nat.two_pow_pos _),
    Nat.div_eq_of_lt (coordinate_lt q d), Nat.add_zero]

/-- A path of a given length is determined by its coordinates. -/
theorem eq_of_coordinates (hp : ∀ c ∈ p, c < 2 ^ n) (hq : ∀ c ∈ q, c < 2 ^ n)
    (hlength : p.length = q.length) (h : ∀ d, d < n → coordinate p d = coordinate q d) :
    p = q := by
  induction p using List.reverseRecOn generalizing q with
  | nil => exact (List.length_eq_zero_iff.1 hlength.symm).symm
  | append_singleton p c ih =>
    rcases List.eq_nil_or_concat' q with rfl | ⟨q, c', rfl⟩
    · simp at hlength
    · -- The lowest digits are the sides of the last children, the others those of the rest.
      have hdigit : ∀ d, d < n →
          coordinate p d = coordinate q d ∧ Corner.side c d = Corner.side c' d := by
        intro d hd
        have hd := h d hd
        have hside := Corner.side_lt c d
        have hside' := Corner.side_lt c' d
        rw [coordinate_concat, coordinate_concat] at hd
        omega
      have hbegin : p = q := by
        apply ih
        · exact fun x hx => hp x (List.mem_append_left _ hx)
        · exact fun x hx => hq x (List.mem_append_left _ hx)
        · simpa using hlength
        · exact fun d hd => (hdigit d hd).1
      have hlast : c = c' := by
        apply Corner.eq_of_sides (hp c (by simp)) (hq c' (by simp))
        exact fun d hd => (hdigit d hd).2
      rw [hbegin, hlast]

/-- The coordinates of a longer path, with the last digits dropped, tell whether it goes on from a given one. -/
theorem isPrefix_of_coordinates {s : Nat} (hp : ∀ c ∈ p, c < 2 ^ n) (hq : ∀ c ∈ q, c < 2 ^ n)
    (hlength : q.length = p.length + s)
    (h : ∀ d, d < n → coordinate q d / 2 ^ s = coordinate p d) : p <+: q := by
  have htake : (q.take p.length).length = p.length := by
    rw [List.length_take]
    omega
  have hdrop : (q.drop p.length).length = s := by
    rw [List.length_drop]
    omega
  have heq : q.take p.length = p := by
    apply eq_of_coordinates (fun c hc => hq c (List.mem_of_mem_take hc)) hp htake
    intro d hd
    rw [← coordinate_append_div (q.take p.length) (q.drop p.length) d, List.take_append_drop, hdrop,
      h d hd]
  rw [← heq]
  exact List.take_prefix _ _

/-- The cell of a location has the coordinates of its path. -/
theorem getElem_cell (l : Location n) (hd : d < n) : l.cell[d] = coordinate l.path d := by
  have hfold : ∀ path : List Nat,
      (path.foldl cellStep (Vector.replicate n 0))[d] = coordinate path d := by
    intro path
    induction path using List.reverseRecOn with
    | nil => simp
    | append_singleton path c ih =>
      rw [List.foldl_append, List.foldl_cons, List.foldl_nil, coordinate_concat, ← ih]
      simp [cellStep, Corner.side]
  exact hfold l.path

/-! ## Locations of paths -/

/-- Every list of positions in range that is not too long can be packed. -/
theorem exists_ofPath (hpath : ∀ c ∈ path, c < 2 ^ n) (hlength : path.length ≤ maxLevel n) :
    ∃ l : Location n, ofPath n path = .ok l ∧ l.path = path := by
  induction path using List.reverseRecOn with
  | nil => exact ⟨root n, rfl, path_root⟩
  | append_singleton path c ih =>
    rw [List.length_append, List.length_singleton] at hlength
    obtain ⟨k, hk, hkpath⟩ :=
      ih (fun x hx => hpath x (List.mem_append_left _ hx)) (Nat.le_of_succ_le hlength)
    have hlevel : k.level < maxLevel n := by
      rwa [← length_path, hkpath]
    have hc : c < 2 ^ n := hpath c (by simp)
    let l : Location n := ⟨k.raw * 2 ^ n + c, isCode_append hc hlevel⟩
    have hpush : k.push c = .ok l := push_eq_ok_iff.2 ⟨hc, hlevel, rfl⟩
    refine ⟨l, ?_, ?_⟩
    · rw [ofPath] at hk ⊢
      rw [List.foldlM_append, hk]
      simp only [bind, Except.bind, List.foldlM_cons, hpush]
      rfl
    · rw [path_push hpush, hkpath]

/-- The root is the only place on level 0. -/
theorem isRoot_iff_level {l : Location n} : l.isRoot = true ↔ l.level = 0 := by
  constructor
  · intro h
    rw [isRoot_iff.1 h, level_root]
  · intro h
    by_contra hroot
    exact Nat.ne_of_gt (level_pos (Bool.eq_false_iff.2 hroot)) h

/-- Below the root a step up can be taken. -/
theorem exists_pop {l : Location n} (h : l.level ≠ 0) : ∃ k p, l.pop = .ok (k, p) := by
  rw [ne_eq, ← isRoot_iff_level] at h
  exact ⟨_, _, dif_neg h⟩

/-- Every location is reached from the root by steps down. -/
@[elab_as_elim]
theorem push_induction {motive : Location n → Prop} (root : motive (root n))
    (push : ∀ {l k : Location n} {p : Nat}, l.push p = .ok k → motive l → motive k)
    (l : Location n) : motive l := by
  induction hlevel : l.level generalizing l with
  | zero =>
    rw [isRoot_iff.1 (isRoot_iff_level.2 hlevel)]
    exact root
  | succ level ih =>
    obtain ⟨k, p, hk⟩ := exists_pop (l := l) (by omega)
    have hpush := push_pop hk
    have hlevel' := level_push hpush
    exact push hpush (ih k (by omega))

/-- A location is determined by its path. -/
theorem path_injective (n : Nat) : Function.Injective (Location.path (n := n)) := by
  intro l
  induction l using push_induction with
  | root =>
    intro k h
    have hk : k.level = 0 := by rw [← length_path, ← h, path_root, List.length_nil]
    exact (isRoot_iff.1 (isRoot_iff_level.2 hk)).symm
  | @push l m p hm ih =>
    intro k h
    have hk : k.level ≠ 0 := by
      rw [← length_path, ← h, length_path, level_push hm]
      exact Nat.succ_ne_zero _
    obtain ⟨k', q, hk'⟩ := exists_pop hk
    rw [path_push hm, path_pop hk'] at h
    obtain ⟨hpath, hlast⟩ := List.append_inj' h rfl
    obtain rfl : p = q := List.singleton_inj.1 hlast
    obtain rfl := ih hpath
    exact Except.ok.inj (hm.symm.trans (push_pop hk'))

/-- Packing the path of a location gives the location back. -/
theorem ofPath_path (l : Location n) : ofPath n l.path = .ok l := by
  have hlength : l.path.length ≤ maxLevel n := by
    rw [length_path]
    exact l.level_le
  obtain ⟨k, hk, hpath⟩ := exists_ofPath (fun _ => lt_of_mem_path) hlength
  rw [hk, path_injective n hpath]

/-- The child positions on the way down to a cell in the grid of `level`. -/
def pathOfCell (xs : Vector Nat n) (level : Nat) : List Nat :=
  (List.range level).reverse.map fun k => Corner.number (digits xs k)

theorem pathOfCell_succ (xs : Vector Nat n) (level : Nat) :
    pathOfCell xs (level + 1) = Corner.number (digits xs level) :: pathOfCell xs level := by
  simp [pathOfCell, List.range_succ]

@[simp]
theorem length_pathOfCell (xs : Vector Nat n) (level : Nat) :
    (pathOfCell xs level).length = level := by
  simp [pathOfCell]

theorem digits_le_one (xs : Vector Nat n) (k d : Nat) (hd : d < n) : (digits xs k)[d] ≤ 1 := by
  rw [digits, Vector.getElem_map]
  exact Nat.le_of_lt_succ (Nat.mod_lt _ Nat.two_pos)

/-- The way down to a cell goes through children only. -/
theorem lt_of_mem_pathOfCell {xs : Vector Nat n} {c : Nat} (h : c ∈ pathOfCell xs level) :
    c < 2 ^ n := by
  obtain ⟨k, -, rfl⟩ := List.mem_map.1 h
  exact Corner.number_lt (digits_le_one xs k)

/-- The path has the coordinates of the cell, up to the digits above the level. -/
theorem coordinate_pathOfCell (xs : Vector Nat n) (level : Nat) (hd : d < n) :
    coordinate (pathOfCell xs level) d = xs[d] % 2 ^ level := by
  induction level with
  | zero => simp [pathOfCell, Nat.mod_one]
  | succ level ih =>
    rw [pathOfCell_succ, ← List.singleton_append, coordinate_append, ih, length_pathOfCell,
      Nat.mod_pow_succ, ← List.nil_append [_], coordinate_concat,
      Corner.side_number (digits_le_one xs level) hd]
    simp [digits]
    ring

/-- A cell inside the grid of a level has a location, which goes down along the digits of its coordinates. -/
theorem exists_ofCoordinates (hn : Corner.supported n = true) {xs : Vector Nat n}
    (hlevel : level ≤ maxLevel n) (hxs : ∀ d (_ : d < n), xs[d] < 2 ^ level) :
    ∃ l : Location n, ofCoordinates xs level = .ok l ∧ l.path = pathOfCell xs level := by
  have hpush : pushDigits xs = fun (l : Location n) k => l.push (Corner.number (digits xs k)) := by
    funext l k
    rw [pushDigits, Corner.toChild_eq hn (digits_le_one xs k)]
    rfl
  have hall : xs.all (· < 2 ^ level) = true := by
    rw [Vector.all_eq_true]
    intro d hd
    exact decide_eq_true (hxs d hd)
  have hlength : (pathOfCell xs level).length ≤ maxLevel n := by
    rwa [length_pathOfCell]
  obtain ⟨l, hl, hpath⟩ := exists_ofPath (fun _ => lt_of_mem_pathOfCell) hlength
  refine ⟨l, ?_, hpath⟩
  rw [ofPath, pathOfCell, List.foldlM_map] at hl
  rw [ofCoordinates, if_neg (Nat.not_lt.2 hlevel), if_pos hall, hpush, hl]

/-! ## Moving along the grid -/

section Shift

variable {l : Location n} {offset : Vector Int n}

/-- The axes that were moved along have their new coordinates, the others the old ones. -/
theorem foldlM_moveAlong_eq_some_iff {extent : Nat} {cell ys : Vector Nat n} {ds : List (Fin n)}
    (h : extent ≤ Bounded.countLimit) (hds : ds.Nodup) :
    ds.foldlM (moveAlong extent offset) cell = some ys ↔ ∀ d (hd : d < n),
      (⟨d, hd⟩ ∈ ds → (ys[d] : Int) = cell[d] + offset[d] ∧ ys[d] < extent) ∧
        (⟨d, hd⟩ ∉ ds → ys[d] = cell[d]) := by
  induction ds generalizing cell with
  | nil => simp [Vector.ext_iff, eq_comm]
  | cons axis ds ih =>
    obtain ⟨e, he⟩ := axis
    obtain ⟨hnotMem, hds⟩ := List.nodup_cons.1 hds
    -- The axes still to come keep what the first one has got.
    have hset : ∀ y, ds.foldlM (moveAlong extent offset) (cell.set e y he) = some ys ↔
        ys[e] = y ∧ ∀ d (hd : d < n), d ≠ e →
          (⟨d, hd⟩ ∈ ds → (ys[d] : Int) = cell[d] + offset[d] ∧ ys[d] < extent) ∧
            (⟨d, hd⟩ ∉ ds → ys[d] = cell[d]) := by
      intro y
      rw [ih hds]
      constructor
      · intro hys
        refine ⟨by simpa [hnotMem] using hys e he, fun d hd hne => ?_⟩
        simpa [Vector.getElem_set, hne.symm] using hys d hd
      · rintro ⟨hy, hys⟩ d hd
        by_cases hne : d = e
        · subst hne
          simpa [hnotMem] using hy
        · simpa [Vector.getElem_set, Ne.symm hne] using hys d hd hne
    simp only [List.foldlM_cons, Option.bind_eq_bind, Option.bind_eq_some_iff,
      moveAlong_eq_some_iff h he]
    constructor
    · rintro ⟨_, ⟨y, hy, rfl⟩, hrest⟩ d hd
      obtain ⟨rfl, hys⟩ := (hset y).1 hrest
      by_cases hne : d = e
      · subst hne
        simpa using hy
      · simpa [hne] using hys d hd hne
    · intro hys
      refine ⟨_, ⟨ys[e], by simpa using hys e he, rfl⟩, (hset _).2 ⟨rfl, fun d hd hne => ?_⟩⟩
      simpa [hne] using hys d hd

/-- A cell is moved by the offset iff that leaves it in the grid. -/
theorem moveCell_eq_some_iff {extent : Nat} {cell ys : Vector Nat n}
    (h : extent ≤ Bounded.countLimit) :
    moveCell extent cell offset = some ys ↔
      ∀ d (_ : d < n), (ys[d] : Int) = cell[d] + offset[d] ∧ ys[d] < extent := by
  rw [moveCell, foldlM_moveAlong_eq_some_iff h (List.nodup_finRange n)]
  simp

/-- A cell that is moved inside the grid moves its location. -/
theorem shift_of_moveCell (hn : Corner.supported n = true) {k : Location n} {xs : Vector Nat n}
    (hxs : moveCell (2 ^ l.level) l.cell offset = some xs) (hk : ofCoordinates xs l.level = .ok k) :
    l.shift offset = .ok (some k) := by
  simp only [shift, Bounded.bit_of_lt l.level_lt, coordinates_of_supported hn, bind, Except.bind,
    hxs, hk]
  rfl

/-- A location whose cell leaves the grid is not moved anywhere. -/
theorem shift_of_moveCell_none (hn : Corner.supported n = true)
    (h : moveCell (2 ^ l.level) l.cell offset = none) : l.shift offset = .ok none := by
  simp only [shift, Bounded.bit_of_lt l.level_lt, coordinates_of_supported hn, bind, Except.bind, h]
  rfl

/-- The path `q` leads to the cell that lies `offset` away from the cell of `p`, in the grid of the same level. -/
structure AwayBy (p q : List Nat) (offset : Vector Int n) : Prop where
  mem_lt : ∀ c ∈ q, c < 2 ^ n
  length_eq : q.length = p.length
  coordinate_eq (d : Nat) (_ : d < n) : (coordinate q d : Int) = coordinate p d + offset[d]

/-- At most one place lies at an offset. -/
theorem AwayBy.unique {r : List Nat} (hq : AwayBy p q offset) (hr : AwayBy p r offset) : q = r := by
  apply eq_of_coordinates hq.mem_lt hr.mem_lt (hq.length_eq.trans hr.length_eq.symm)
  intro d hd
  have hqd := hq.coordinate_eq d hd
  have hrd := hr.coordinate_eq d hd
  omega

/-- The cells tell the offset. -/
theorem AwayBy.offset_unique {offset' : Vector Int n} (h : AwayBy p q offset)
    (h' : AwayBy p q offset') : offset = offset' := by
  apply Vector.ext
  intro d hd
  have heq := h.coordinate_eq d hd
  have heq' := h'.coordinate_eq d hd
  omega

/-- A cell that stays inside the grid is moved by the offset. -/
theorem shift_of_inside (hn : Corner.supported n = true)
    (h : ∀ d (_ : d < n), 0 ≤ (coordinate l.path d : Int) + offset[d] ∧
      (coordinate l.path d : Int) + offset[d] < 2 ^ l.level) :
    ∃ k : Location n, l.shift offset = .ok (some k) ∧ AwayBy l.path k.path offset := by
  obtain ⟨xs, hmoved⟩ : ∃ xs : Vector Nat n, ∀ d (_ : d < n),
      (xs[d] : Int) = coordinate l.path d + offset[d] := by
    refine ⟨Vector.ofFn fun d => ((coordinate l.path d : Int) + offset[d]).toNat, ?_⟩
    intro d hd
    rw [Vector.getElem_ofFn]
    exact Int.toNat_of_nonneg (h d hd).1
  have hxs : ∀ d (_ : d < n), xs[d] < 2 ^ l.level := by
    intro d hd
    zify
    rw [hmoved d hd]
    exact (h d hd).2
  have hcell : moveCell (2 ^ l.level) l.cell offset = some xs := by
    rw [moveCell_eq_some_iff l.two_pow_level_le]
    intro d hd
    rw [getElem_cell]
    exact ⟨hmoved d hd, hxs d hd⟩
  obtain ⟨k, hk, hpath⟩ := exists_ofCoordinates hn l.level_le hxs
  refine ⟨k, shift_of_moveCell hn hcell hk, fun _ => lt_of_mem_path, ?_, ?_⟩
  · rw [hpath, length_pathOfCell, length_path]
  · intro d hd
    rw [hpath, coordinate_pathOfCell _ _ hd, Nat.mod_eq_of_lt (hxs d hd), hmoved d hd]

/-- A cell that leaves the grid has no location. -/
theorem shift_of_outside (hn : Corner.supported n = true)
    (h : ¬∀ d (_ : d < n), 0 ≤ (coordinate l.path d : Int) + offset[d] ∧
      (coordinate l.path d : Int) + offset[d] < 2 ^ l.level) :
    l.shift offset = .ok none := by
  apply shift_of_moveCell_none hn
  rw [Option.eq_none_iff_forall_ne_some]
  intro xs hxs
  apply h
  intro d hd
  have hmoved := (moveCell_eq_some_iff l.two_pow_level_le).1 hxs d hd
  rw [getElem_cell] at hmoved
  zify at hmoved
  omega

/-- Moving by an offset finds the cell there, unless the grid has none. -/
theorem shift_cases (hn : Corner.supported n = true) (l : Location n) (offset : Vector Int n) :
    (∃ k : Location n, l.shift offset = .ok (some k) ∧ AwayBy l.path k.path offset) ∨
      l.shift offset = .ok none ∧ ∀ q, ¬AwayBy l.path q offset := by
  by_cases h : ∀ d (_ : d < n), 0 ≤ (coordinate l.path d : Int) + offset[d] ∧
      (coordinate l.path d : Int) + offset[d] < 2 ^ l.level
  · exact Or.inl (shift_of_inside hn h)
  · refine Or.inr ⟨shift_of_outside hn h, ?_⟩
    intro q hq
    apply h
    intro d hd
    have hlt := coordinate_lt q d
    rw [hq.length_eq, length_path] at hlt
    rw [← hq.coordinate_eq d hd]
    exact ⟨Int.natCast_nonneg _, by exact_mod_cast hlt⟩

end Shift

end Location

end Orthtree
