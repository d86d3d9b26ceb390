import Orthtree.Location.Text

/-!
# Going down and up

`push` goes down to a child and `pop` back up to the parent.  On the path a step down appends a position (`path_push`)
and a step up removes the last one (`path_pop`), so `ofPath` packs exactly the lists of positions that are in range and
not too long.
-/

namespace Orthtree.Location

variable {n : Nat}

/-! ## Appending and removing bits -/

/-- Putting `n` digits below a number moves its leading bit up by `n`. -/
theorem log2_append {raw p : Nat} (hraw : raw ≠ 0) (hp : p < 2 ^ n) :
    (raw * 2 ^ n + p).log2 = raw.log2 + n := by
  have hpos := Nat.two_pow_pos n
  have hne : raw * 2 ^ n + p ≠ 0 := by
    have := Nat.mul_pos (Nat.pos_of_ne_zero hraw) hpos
    omega
  rw [Nat.log2_eq_iff hne]
  have hlow := Nat.log2_self_le hraw
  have hhigh : raw + 1 ≤ 2 ^ (raw.log2 + 1) := Nat.lt_log2_self
  constructor
  · rw [Nat.pow_add]
    exact Nat.le_trans (Nat.mul_le_mul_right _ hlow) (Nat.le_add_right _ _)
  · rw [show raw.log2 + n + 1 = raw.log2 + 1 + n by omega, Nat.pow_add]
    have h := Nat.mul_le_mul_right (2 ^ n) hhigh
    rw [Nat.add_mul] at h
    omega

/-- Dropping the lowest `n` digits moves the leading bit down by `n`. -/
theorem log2_remove {raw : Nat} (h : n ≤ raw.log2) (hraw : raw ≠ 0) :
    (raw / 2 ^ n).log2 = raw.log2 - n := by
  have hle : 2 ^ n ≤ raw := (Nat.le_log2 hraw).1 h
  have hq : raw / 2 ^ n ≠ 0 := Nat.ne_of_gt (Nat.div_pos hle (Nat.two_pow_pos n))
  have hlog := log2_append (n := n) hq (Nat.mod_lt raw (Nat.two_pow_pos n))
  rw [Nat.mul_comm, Nat.div_add_mod] at hlog
  omega

/-- Above the deepest level there is room for the digits of one more child. -/
theorem isCode_append {l : Location n} {p : Nat} (hp : p < 2 ^ n) (hl : l.level < maxLevel n) :
    IsCode n (l.raw * 2 ^ n + p) := by
  have hlog := log2_append l.raw_ne_zero hp
  have hpos : 0 < n := pos_of_maxLevel_pos (Nat.zero_lt_of_lt hl)
  refine ⟨fun h => ?_, ?_, ?_⟩
  · rw [h] at hlog
    have : Nat.log2 0 = 0 := by simp [Nat.log2_def]
    omega
  · rw [hlog, Nat.add_mod_right]
    exact l.isCode.2.1
  · rw [hlog, Nat.add_div_right _ hpos]
    exact hl

/-- Only the root lies on level 0. -/
theorem level_pos {l : Location n} (h : l.isRoot = false) : 0 < l.level := by
  rcases Nat.eq_zero_or_pos l.level with h0 | h0
  · have hlog := l.log2_raw
    rw [h0, Nat.mul_zero, Nat.log2_eq_iff l.raw_ne_zero] at hlog
    have : l.raw = 1 := by omega
    simp [isRoot, this] at h
  · exact h0

/-- The number of a location below the root has the bits of a step. -/
theorem le_log2_raw {l : Location n} (h : l.isRoot = false) : n ≤ l.raw.log2 := by
  rw [l.log2_raw]
  exact Nat.le_mul_of_pos_right n (level_pos h)

/-- What is left of a code below the root, without its lowest digits, is a code again. -/
theorem isCode_remove {l : Location n} (h : l.isRoot = false) : IsCode n (l.raw / 2 ^ n) := by
  have hn := le_log2_raw h
  have hlog := log2_remove hn l.raw_ne_zero
  refine ⟨?_, ?_, ?_⟩
  · have hle := (Nat.le_log2 l.raw_ne_zero).1 hn
    exact Nat.ne_of_gt (Nat.div_pos hle (Nat.two_pow_pos n))
  · rw [hlog, Nat.mod_eq_sub_mod hn |>.symm]
    exact l.isCode.2.1
  · rw [hlog]
    exact Nat.le_trans (Nat.div_le_div_right (Nat.sub_le _ _)) l.isCode.2.2

/-! ## The steps -/

/-- The location of child `position`. -/
def push (l : Location n) (position : Nat) : Except Fault (Location n) :=
  if hp : position < 2 ^ n then
    if hl : l.level < maxLevel n then
      .ok ⟨l.raw * 2 ^ n + position, isCode_append hp hl⟩
    else do
      throw (.locationFull (← l.text) (maxLevel n))
  else
    .error (.stepPosition position (2 ^ n) n)

/-- The location of the parent and the position that was left. -/
def pop (l : Location n) : Except Fault (Location n × Nat) :=
  if h : l.isRoot then
    .error .popRoot
  else
    .ok (⟨l.raw / 2 ^ n, isCode_remove (by simpa using h)⟩, l.raw % 2 ^ n)

/-- The location of the parent, which the root does not have. -/
def parent? (l : Location n) : Option (Location n) :=
  l.pop.toOption.map Prod.fst

/-- The location reached from the root by going down through `positions`. -/
def ofPath (n : Nat) (positions : List Nat) : Except Fault (Location n) :=
  positions.foldlM push (root n)

/-- The location with the given number, if it is a packed path. -/
def ofRaw? (n raw : Nat) : Except Fault (Option (Location n)) :=
  if Corner.supported n then
    .ok (if h : IsCode n raw then some ⟨raw, h⟩ else none)
  else
    .error (.dimension n)

/-! ## Levels and paths -/

/-- A step down is possible to every child, above the deepest level; it appends the digits of the child. -/
theorem push_eq_ok_iff {l k : Location n} {p : Nat} :
    l.push p = .ok k ↔ p < 2 ^ n ∧ l.level < maxLevel n ∧ k.raw = l.raw * 2 ^ n + p := by
  unfold push
  split
  · next hp =>
    split
    · next hl =>
      simp only [Except.ok.injEq, hp, hl, true_and, Location.ext_iff]
      exact eq_comm
    · next hl =>
      simp only [hp, hl, false_and, and_false, iff_false]
      cases l.text <;> simp [bind, Except.bind, throw, throwThe, MonadExceptOf.throw]
  · next hp => simp [hp]

/-- A step down goes one level down. -/
theorem level_push {l k : Location n} {p : Nat} (h : l.push p = .ok k) : k.level = l.level + 1 := by
  obtain ⟨hp, hl, hraw⟩ := push_eq_ok_iff.1 h
  have hpos : 0 < n := pos_of_maxLevel_pos (Nat.zero_lt_of_lt hl)
  rw [level, hraw, log2_append l.raw_ne_zero hp, Nat.add_div_right _ hpos, ← level]

/-- A step down appends the position to the path. -/
theorem path_push {l k : Location n} {p : Nat} (h : l.push p = .ok k) : k.path = l.path ++ [p] := by
  have hlevel := level_push h
  obtain ⟨hp, hl, hraw⟩ := push_eq_ok_iff.1 h
  have hpow := Nat.two_pow_pos n
  have hdiv : (l.raw * 2 ^ n + p) / 2 ^ n = l.raw := by
    rw [Nat.mul_comm, Nat.mul_add_div hpow, Nat.div_eq_of_lt hp, Nat.add_zero]
  rw [path, hlevel, List.range_succ, List.map_append, path]
  congr 1
  · apply List.map_congr_left
    intro i hi
    have hi := List.mem_range.1 hi
    rw [step, step, hlevel, hraw,
      show l.level + 1 - (i + 1) = (l.level - (i + 1)) + 1 by omega, Nat.mul_add, Nat.mul_one,
      Nat.add_comm (n * _) n, Nat.pow_add, ← Nat.div_div_eq_div_mul, hdiv]
  · simp only [List.map_cons, List.map_nil, List.cons.injEq, and_true]
    rw [step, hlevel, hraw, Nat.sub_self, Nat.mul_zero, Nat.pow_zero, Nat.div_one, Nat.mul_comm,
      Nat.mul_add_mod, Nat.mod_eq_of_lt hp]

/-- A step up undoes the step down with the position that was left. -/
theorem push_pop {l k : Location n} {p : Nat} (h : l.pop = .ok (k, p)) : k.push p = .ok l := by
  unfold pop at h
  split at h
  · simp at h
  · next hroot =>
    have hroot : l.isRoot = false := by simpa using hroot
    simp only [Except.ok.injEq, Prod.mk.injEq] at h
    obtain ⟨rfl, rfl⟩ := h
    have hpos : 0 < n := pos_of_maxLevel_pos (Nat.lt_of_lt_of_le (level_pos hroot) l.level_le)
    have hn := le_log2_raw hroot
    refine push_eq_ok_iff.2 ⟨Nat.mod_lt _ (Nat.two_pow_pos n), ?_, ?_⟩
    · have hle := l.level_le
      have hlog := log2_remove hn l.raw_ne_zero
      have : (l.raw.log2 - n) / n < l.raw.log2 / n := by
        rw [Nat.div_eq_sub_div hpos hn]
        exact Nat.lt_succ_self _
      rw [level, hlog]
      exact Nat.lt_of_lt_of_le this hle
    · rw [Nat.mul_comm, Nat.div_add_mod]

/-- A step up removes the last position from the path. -/
theorem path_pop {l k : Location n} {p : Nat} (h : l.pop = .ok (k, p)) : l.path = k.path ++ [p] :=
  path_push (push_pop h)

/-- Going down through a list of positions appends the list to the path. -/
theorem path_foldlM_push {l k : Location n} {positions : List Nat}
    (h : positions.foldlM push l = .ok k) : k.path = l.path ++ positions := by
  induction positions generalizing l with
  | nil =>
    cases h
    simp
  | cons p ps ih =>
    rw [List.foldlM_cons] at h
    cases hp : l.push p with
    | error e => simp [hp, bind, Except.bind] at h
    | ok m =>
      rw [hp] at h
      rw [ih h, path_push hp, List.append_assoc]
      rfl

/-- The path of a packed list of positions is that list. -/
theorem path_ofPath {l : Location n} {positions : List Nat} (h : ofPath n positions = .ok l) :
    l.path = positions := by
  simpa using path_foldlM_push h

end Orthtree.Location
