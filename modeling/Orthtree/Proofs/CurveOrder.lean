import Mathlib.Logic.Relation
import Orthtree.Proofs.Cells

/-!
# The order along the curve

Locations are compared by their numbers.  The leading 1 makes the number of a deeper location greater, and on one level
numbers are compared digit by digit, so that the order is that of the paths (`compare_eq_lt_iff`).  The number of an
ancestor is what remains when the digits below its level are dropped (`IsAncestor.raw_eq`).  Dropping digits keeps the
order, so the locations of a level below one ancestor follow each other without a gap (`compare_exact`).
-/

namespace Orthtree.Location

variable {n m x y : Nat} {a b c l k : Location n} {p q : List Nat}

/-! ## Numbers and levels -/

/-- The leading 1 of a deeper location stands farther up. -/
theorem raw_lt_of_level_lt (h : l.level < k.level) : l.raw < k.raw := by
  have hn : 0 < n := pos_of_maxLevel_pos ((Nat.zero_lt_of_lt h).trans_le k.level_le)
  have hbits : n * l.level + 1 ≤ n * k.level := by
    have hle := Nat.mul_le_mul_left n (Nat.succ_le_of_lt h)
    rw [Nat.mul_succ] at hle
    omega
  calc l.raw < 2 ^ (n * l.level + 1) := by
        rw [← log2_raw]
        exact Nat.lt_log2_self
    _ ≤ 2 ^ (n * k.level) := Nat.pow_le_pow_right Nat.two_pos hbits
    _ ≤ k.raw := by
        rw [← log2_raw]
        exact Nat.log2_self_le k.raw_ne_zero

theorem level_le_of_raw_le (h : l.raw ≤ k.raw) : l.level ≤ k.level :=
  Nat.not_lt.1 fun hlt => Nat.not_lt.2 h (raw_lt_of_level_lt hlt)

/-! ## Numbers and paths of one level -/

/-- The last digits matter only if all others agree. -/
theorem append_digit_lt_iff {r s : Nat} (hx : x < 2 ^ n) (hy : y < 2 ^ n) :
    r * 2 ^ n + x < s * 2 ^ n + y ↔ r < s ∨ r = s ∧ x < y := by
  have hless : ∀ {i j : Nat}, i < j → i * 2 ^ n + 2 ^ n ≤ j * 2 ^ n := by
    intro i j hij
    rw [← Nat.succ_mul]
    exact Nat.mul_le_mul_right _ hij
  rcases Nat.lt_trichotomy r s with hlt | rfl | hgt
  · have := hless hlt
    omega
  · omega
  · have := hless hgt
    omega

/-- The last positions matter only if all others agree. -/
theorem concat_lt_concat_iff (h : p.length = q.length) :
    p ++ [x] < q ++ [y] ↔ p < q ∨ p = q ∧ x < y := by
  induction p generalizing q with
  | nil =>
    obtain rfl := List.length_eq_zero_iff.1 h.symm
    simp [List.cons_lt_cons_iff]
  | cons i p ih =>
    cases q with
    | nil => cases h
    | cons j q =>
      rw [List.cons_append, List.cons_append, List.cons_lt_cons_iff, List.cons_lt_cons_iff,
        ih (Nat.succ.inj h), List.cons.injEq]
      tauto

/-- On one level numbers are ordered as the paths are. -/
theorem raw_lt_iff_path_lt (h : l.level = k.level) : l.raw < k.raw ↔ l.path < k.path := by
  -- Both locations go up together, and the steps that are left decide where the parents agree.
  induction l using push_induction generalizing k with
  | root =>
    rw [level_root] at h
    rw [isRoot_iff.1 (isRoot_iff_level.2 h.symm), path_root]
    exact iff_of_false (Nat.lt_irrefl _) (List.lt_irrefl _)
  | @push l l' x hx ih =>
    have hk : k.level ≠ 0 := by
      rw [← h, level_push hx]
      exact Nat.succ_ne_zero _
    obtain ⟨k', y, hpop⟩ := exists_pop hk
    have hy := push_pop hpop
    obtain ⟨hxlt, -, hxraw⟩ := push_eq_ok_iff.1 hx
    obtain ⟨hylt, -, hyraw⟩ := push_eq_ok_iff.1 hy
    have hlevel : l.level = k'.level := by
      rw [level_push hx, level_push hy] at h
      exact Nat.succ.inj h
    have hlength : l.path.length = k'.path.length := by rw [length_path, length_path, hlevel]
    rw [hxraw, hyraw, append_digit_lt_iff hxlt hylt, path_push hx, path_push hy,
      concat_lt_concat_iff hlength, ih hlevel, (path_injective n).eq_iff, Location.ext_iff]

/-- Locations are compared by their levels first, and on one level by their paths. -/
theorem compare_eq_lt_iff :
    l.compare k = .lt ↔ l.level < k.level ∨ l.level = k.level ∧ l.path < k.path := by
  rw [compare, Nat.compare_eq_lt]
  constructor
  · intro h
    rcases Nat.eq_or_lt_of_le (level_le_of_raw_le h.le) with heq | hlt
    · exact Or.inr ⟨heq, (raw_lt_iff_path_lt heq).1 h⟩
    · exact Or.inl hlt
  · rintro (hlt | ⟨heq, hpath⟩)
    · exact raw_lt_of_level_lt hlt
    · exact (raw_lt_iff_path_lt heq).2 hpath

theorem isLE_compare_iff : (l.compare k).isLE ↔ l.raw ≤ k.raw := by
  rw [compare, Nat.isLE_compare]

/-! ## Ancestors -/

/-- The way up from `l`, from parent to parent, meets `a`; it begins at `l` itself. -/
def IsAncestor (a l : Location n) : Prop :=
  Relation.ReflTransGen (fun x y : Location n => x.parent? = some y) l a

/-- The parent is where a step down leads from. -/
theorem parent?_eq_some_iff : l.parent? = some k ↔ ∃ position, k.push position = .ok l := by
  rw [parent?]
  constructor
  · intro h
    cases hpop : l.pop with
    | error e =>
      rw [hpop] at h
      cases h
    | ok left =>
      rw [hpop] at h
      obtain rfl := Option.some_injective _ h
      exact ⟨left.2, push_pop hpop⟩
  · rintro ⟨position, hpush⟩
    have hlevel : l.level ≠ 0 := by
      rw [level_push hpush]
      exact Nat.succ_ne_zero _
    obtain ⟨k', position', hpop⟩ := exists_pop hlevel
    have hpath := (path_push hpush).symm.trans (path_pop hpop)
    obtain rfl := path_injective n (List.append_inj' hpath rfl).1
    rw [hpop]
    rfl

/-- The number of an ancestor lacks the digits of the levels below it. -/
theorem IsAncestor.raw_eq (h : a.IsAncestor l) :
    a.level ≤ l.level ∧ a.raw = l.raw / 2 ^ (n * (l.level - a.level)) := by
  induction h using Relation.ReflTransGen.head_induction_on with
  | refl => simp
  | @head l k hup _ ih =>
    obtain ⟨position, hpush⟩ := parent?_eq_some_iff.1 hup
    obtain ⟨hlt, -, hraw⟩ := push_eq_ok_iff.1 hpush
    obtain ⟨hle, ha⟩ := ih
    have hdrop : l.raw / 2 ^ n = k.raw := by
      rw [hraw, Nat.mul_comm, Nat.mul_add_div (Nat.two_pow_pos n), Nat.div_eq_of_lt hlt, Nat.add_zero]
    have hlevel := level_push hpush
    refine ⟨by omega, ?_⟩
    rw [hlevel, Nat.succ_sub hle, Nat.mul_succ, Nat.add_comm, Nat.pow_add, ← Nat.div_div_eq_div_mul,
      hdrop, ha]

/-- There is an ancestor on every level further up. -/
theorem exists_isAncestor (hm : m ≤ l.level) : ∃ a : Location n, a.level = m ∧ a.IsAncestor l := by
  induction l using push_induction with
  | root =>
    rw [level_root, Nat.le_zero] at hm
    exact ⟨root n, by rw [level_root, hm], .refl⟩
  | @push k l position hpush ih =>
    rcases Nat.eq_or_lt_of_le hm with rfl | hlt
    · exact ⟨l, rfl, .refl⟩
    · rw [level_push hpush, Nat.lt_succ_iff] at hlt
      obtain ⟨a, ha, habove⟩ := ih hlt
      exact ⟨a, ha, .head (parent?_eq_some_iff.2 ⟨position, hpush⟩) habove⟩

/-- Dropping digits keeps the order, so ancestors on one level are ordered as their descendants on one level are. -/
theorem IsAncestor.raw_le (ha : a.IsAncestor l) (hb : b.IsAncestor k) (hlevel : l.level = k.level)
    (habove : a.level = b.level) (hle : l.raw ≤ k.raw) : a.raw ≤ b.raw := by
  rw [ha.raw_eq.2, hb.raw_eq.2, hlevel, habove]
  exact Nat.div_le_div_right hle

/-- A location has one ancestor on a level. -/
theorem IsAncestor.unique (ha : a.IsAncestor l) (hb : b.IsAncestor l) (habove : a.level = b.level) :
    a = b :=
  Location.ext (Nat.le_antisymm (ha.raw_le hb rfl habove (Nat.le_refl _))
    (hb.raw_le ha rfl habove.symm (Nat.le_refl _)))

/-- What lies between two descendants on one level is a descendant on that level. -/
theorem IsAncestor.between {x y z : Location n} (hx : c.IsAncestor x) (hz : c.IsAncestor z)
    (hlevel : x.level = z.level) (hxy : x.raw ≤ y.raw) (hyz : y.raw ≤ z.raw) :
    y.level = x.level ∧ c.IsAncestor y := by
  have hy : y.level = x.level := by
    have hge := level_le_of_raw_le hxy
    have hle := level_le_of_raw_le hyz
    omega
  obtain ⟨d, hd, hdy⟩ := exists_isAncestor (hx.raw_eq.1.trans_eq hy.symm)
  have hcd := hx.raw_le hdy hy.symm hd.symm hxy
  have hdc := hdy.raw_le hz (hy.trans hlevel) hd hyz
  rw [Location.ext (Nat.le_antisymm hcd hdc)]
  exact ⟨hy, hdy⟩

/-- **The order along the curve.**  Locations are ordered by level, and on one level as words over the child positions.
Ancestors on one level are in the order of their descendants on one level, so the descendants of a location on a level
stand next to each other. -/
theorem compare_exact (n : Nat) :
    (∀ a b : Location n, a.compare b = .lt ↔
      a.level < b.level ∨ a.level = b.level ∧ a.path < b.path) ∧
    (∀ (l : Location n) (m : Nat), m ≤ l.level → ∃! a : Location n, a.level = m ∧ a.IsAncestor l) ∧
    (∀ a b p q : Location n, a.level = b.level → p.level = q.level → p.IsAncestor a →
      q.IsAncestor b → (a.compare b).isLE → (p.compare q).isLE) ∧
    ∀ c x y z : Location n, x.level = z.level → c.IsAncestor x → c.IsAncestor z →
      (x.compare y).isLE → (y.compare z).isLE → y.level = x.level ∧ c.IsAncestor y := by
  simp only [isLE_compare_iff]
  refine ⟨fun a b => compare_eq_lt_iff, ?_, ?_, ?_⟩
  · intro l m hm
    obtain ⟨a, ha, habove⟩ := exists_isAncestor hm
    exact ⟨a, ⟨ha, habove⟩, fun b hb => hb.2.unique habove (hb.1.trans ha.symm)⟩
  · intro a b p q hlevel habove hp hq hle
    exact hp.raw_le hq hlevel habove hle
  · intro c x y z hlevel hx hz hxy hyz
    exact hx.between hz hlevel hxy hyz

/-- The upper corner of a square comes before the corners of its lower corner, which lie one level deeper.  Corner 2 of
corner 1 stands between corners 0 and 3 of corner 1. -/
theorem compare_exact_corner :
    (⟨7, by decide⟩ : Location 2).compare ⟨16, by decide⟩ = .lt ∧
    (∃! a : Location 2, a.level = 1 ∧ a.IsAncestor ⟨16, by decide⟩) ∧
    ((⟨4, by decide⟩ : Location 2).compare ⟨5, by decide⟩).isLE ∧
    (⟨5, by decide⟩ : Location 2).IsAncestor ⟨22, by decide⟩ := by
  obtain ⟨horder, hancestor, hkeeps, hbetween⟩ := compare_exact 2
  have hlow : (⟨4, by decide⟩ : Location 2).IsAncestor ⟨16, by decide⟩ :=
    .head (by decide) .refl
  have hfirst : (⟨5, by decide⟩ : Location 2).IsAncestor ⟨20, by decide⟩ :=
    .head (by decide) .refl
  have hlast : (⟨5, by decide⟩ : Location 2).IsAncestor ⟨23, by decide⟩ :=
    .head (by decide) .refl
  refine ⟨(horder _ _).2 (Or.inl (by decide)), hancestor _ 1 (by decide), ?_, ?_⟩
  · exact hkeeps _ _ _ _ (by decide) (by decide) hlow hfirst (by decide)
  · exact (hbetween _ _ _ _ (by decide) hfirst hlast (by decide) (by decide)).2

end Orthtree.Location
