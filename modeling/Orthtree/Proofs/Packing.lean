import Mathlib.Algebra.BigOperators.Fin
import Orthtree.Proofs.Cells

/-!
# Packed numbers

A path is packed into a number in positional notation: below a leading 1 stand its child positions, each in its `n` bits,
the last one lowest (`packed`).  Exactly the lists of child positions that are not too long can be packed (`IsPath`), the
number tells the list, and `ofRaw?` accepts the numbers of such lists and no others (`ofPath_exact`).
-/

namespace Orthtree.Location

variable {n : Nat} {l k : Location n} {path positions : List Nat}

/-! ## Lists that can be packed -/

/-- All positions are those of children, and there are no more of them than a location can have levels. -/
structure IsPath (n : Nat) (path : List Nat) : Prop where
  mem_lt {position : Nat} : position ∈ path → position < 2 ^ n
  length_le : path.length ≤ maxLevel n

/-- The path of a location goes through children, and no deeper than locations go. -/
theorem isPath_path (l : Location n) : IsPath n l.path where
  mem_lt := lt_of_mem_path
  length_le := by
    rw [length_path]
    exact l.level_le

/-- Packing accepts exactly the paths. -/
theorem exists_ofPath_iff : (∃ l, ofPath n path = .ok l) ↔ IsPath n path := by
  constructor
  · rintro ⟨l, hl⟩
    rw [← path_ofPath hl]
    exact l.isPath_path
  · intro h
    obtain ⟨l, hl, -⟩ := exists_ofPath (fun _ => h.mem_lt) h.length_le
    exact ⟨l, hl⟩

/-! ## The number of a path -/

/-- The number of a path: a leading 1, and below it the positions, each at its place. -/
def packed (n : Nat) (path : List Nat) : Nat :=
  2 ^ (n * path.length) + ∑ i : Fin path.length, path[i] * 2 ^ (n * (path.length - (i + 1)))

/-- Going down moves the number up by the bits of the positions, which are added at their places. -/
theorem raw_foldlM_push (h : positions.foldlM push l = .ok k) :
    k.raw = l.raw * 2 ^ (n * positions.length) +
      ∑ i : Fin positions.length, positions[i] * 2 ^ (n * (positions.length - (i + 1))) := by
  induction positions generalizing l with
  | nil =>
    cases h
    simp
  | cons p ps ih =>
    rw [List.foldlM_cons] at h
    cases hp : l.push p with
    | error e => simp [hp, bind, Except.bind] at h
    | ok m =>
      rw [hp] at h
      obtain ⟨-, -, hraw⟩ := push_eq_ok_iff.1 hp
      have hlength : n * (p :: ps).length = n + n * ps.length := by
        rw [List.length_cons]
        ring
      rw [ih h, hraw, hlength, Nat.pow_add]
      simp only [List.length_cons, Fin.sum_univ_succ, Fin.getElem_fin, Fin.val_zero, Fin.val_succ,
        List.getElem_cons_zero, List.getElem_cons_succ, Nat.add_sub_add_right, Nat.sub_zero]
      ring

theorem raw_ofPath (h : ofPath n path = .ok l) : l.raw = packed n path := by
  have hraw := raw_foldlM_push h
  rwa [root, Nat.one_mul] at hraw

/-- The number of a location fits a 64-bit word. -/
theorem raw_lt (l : Location n) : l.raw < Bounded.countLimit := by
  have hlog : l.raw.log2 < 64 := by
    have hlevel : n * l.level ≤ n * ((64 - n) / n) :=
      Nat.mul_le_mul_left n (l.level_le.trans (Nat.sub_le _ _))
    have hlevels := Nat.mul_div_le (64 - n) n
    rw [l.log2_raw]
    rcases Nat.eq_zero_or_pos n with rfl | hpos
    · simp
    · omega
  exact Nat.lt_log2_self.trans_le (Nat.pow_le_pow_right Nat.two_pos hlog)

/-- The step to every level of a location can be asked for. -/
theorem positionAt_succ {i : Nat} (hi : i < l.path.length) : l.positionAt (i + 1) = .ok l.path[i] := by
  have hlevel : i + 1 ≤ l.level := by rwa [length_path] at hi
  rw [positionAt, if_pos ⟨Nat.succ_pos i, hlevel⟩]
  simp [path]

/-! ## Numbers that are packed paths -/

/-- A number is accepted as the location whose number it is. -/
theorem ofRaw?_eq_some_iff (hn : Corner.supported n = true) {raw : Nat} :
    ofRaw? n raw = .ok (some l) ↔ l.raw = raw := by
  rw [ofRaw?, if_pos hn]
  constructor
  · intro h
    split at h
    · cases h
      rfl
    · cases h
  · rintro rfl
    rw [dif_pos l.isCode]

/-- **Locations are the paths that fit.**  Packing accepts exactly the lists of child positions that are no longer than
`maxLevel`, and loses nothing: level and steps are those of the list, and the number is the list in positional notation,
in at most 64 bits.  Unpacking a number is never refused; it finds the location of a path iff the number is that of the
path, and nothing if the number is that of no path. -/
theorem ofPath_exact (hn : Corner.supported n = true) :
    (∀ path, (∃ l, ofPath n path = .ok l) ↔ IsPath n path) ∧
    (∀ path l, ofPath n path = .ok l →
      l.level = path.length ∧ l.path = path ∧ l.raw = packed n path ∧
      l.raw < Bounded.countLimit ∧
      ∀ i (_ : i < path.length), l.positionAt (i + 1) = .ok path[i]) ∧
    (∀ path path' l, ofPath n path = .ok l → ofPath n path' = .ok l → path = path') ∧
    (∀ raw l, ofRaw? n raw = .ok (some l) ↔
      ∃ path, IsPath n path ∧ packed n path = raw ∧ ofPath n path = .ok l) ∧
    ∀ raw, ofRaw? n raw = .ok none ↔ ¬∃ path, IsPath n path ∧ packed n path = raw := by
  have hfound : ∀ raw l, ofRaw? n raw = .ok (some l) ↔
      ∃ path, IsPath n path ∧ packed n path = raw ∧ ofPath n path = .ok l := by
    intro raw l
    rw [ofRaw?_eq_some_iff hn]
    constructor
    · rintro rfl
      exact ⟨l.path, l.isPath_path, (raw_ofPath l.ofPath_path).symm, l.ofPath_path⟩
    · rintro ⟨path, -, rfl, hl⟩
      exact raw_ofPath hl
  refine ⟨fun path => exists_ofPath_iff, ?_, ?_, hfound, ?_⟩
  · intro path l hl
    obtain rfl := path_ofPath hl
    exact ⟨l.length_path.symm, rfl, raw_ofPath hl, l.raw_lt, fun i hi => positionAt_succ hi⟩
  · intro path path' l hl hl'
    rw [← path_ofPath hl, path_ofPath hl']
  · intro raw
    constructor
    · rintro hnone ⟨path, hpath, hraw⟩
      obtain ⟨l, hl⟩ := exists_ofPath_iff.2 hpath
      have hsome := (hfound raw l).2 ⟨path, hpath, hraw, hl⟩
      rw [hnone] at hsome
      cases hsome
    · -- Any code is the number of the path of its location.
      intro hnone
      rw [ofRaw?, if_pos hn, dif_neg]
      intro hcode
      have hsome := (ofRaw?_eq_some_iff hn (l := ⟨raw, hcode⟩)).2 rfl
      obtain ⟨path, hpath, hraw, -⟩ := (hfound raw _).1 hsome
      exact hnone ⟨path, hpath, hraw⟩

/-- In the upper corner of a cube locations go down nineteen levels and no deeper; the number of the deepest one, all
of whose 58 bits are set, is accepted. -/
theorem ofPath_exact_deepest :
    (∃ l, ofPath 3 (List.replicate 19 7) = .ok l ∧ l.raw = 2 ^ 58 - 1 ∧
      ofRaw? 3 (2 ^ 58 - 1) = .ok (some l)) ∧
    ¬∃ l, ofPath 3 (List.replicate 20 7) = .ok l := by
  obtain ⟨haccepts, hkeeps, -, hfound, -⟩ := ofPath_exact (n := 3) (by decide)
  have hpath : IsPath 3 (List.replicate 19 7) := by
    refine ⟨?_, by decide⟩
    intro position hposition
    rw [List.eq_of_mem_replicate hposition]
    decide
  have hpacked : packed 3 (List.replicate 19 7) = 2 ^ 58 - 1 := by decide +kernel
  obtain ⟨l, hl⟩ := (haccepts _).2 hpath
  refine ⟨⟨l, hl, ?_, (hfound _ _).2 ⟨_, hpath, hpacked, hl⟩⟩, ?_⟩
  · rw [(hkeeps _ _ hl).2.2.1, hpacked]
  · rw [haccepts]
    intro h
    exact absurd h.length_le (by decide)

end Orthtree.Location
