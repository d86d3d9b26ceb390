import Orthtree.Bounded

/-!
# Corners

A node with `n` axes has `2 ^ n` children, one at each corner.  Child `c` sits on the upper side of axis `d` iff bit `d`
of `c` is set: child 0 sits at the lower end of every axis, child `2 ^ n - 1` at the upper end.

`Corner.bits` and `Corner.number` are the two directions of that numbering, and `number_bits` says that the first loses
nothing.  `Corner.ofChild` and `Corner.toChild` are the same for arguments that have not been checked.

Along two and three axes the children are numbered by the package `ndshape`, as the cells of a block with two cells
along each axis, and its code is not part of this library.  What is assumed of it is the law above for these blocks, in
both directions: `delinearize` puts bit `d` of the number on axis `d`, and `linearize` puts it back.  `Corner.bits` and
`Corner.number` are written down from that law, and all that is said about coordinates rests on it.
-/

namespace Orthtree.Corner

/-- The side of child `c` on each axis: 0 for the lower one, 1 for the upper one. -/
def bits (n c : Nat) : Vector Nat n :=
  Vector.ofFn fun d => c / 2 ^ d.val % 2

/-- The number whose binary digits are given, the lowest digit first. -/
def fromDigits : List Nat → Nat
  | [] => 0
  | b :: bs => b + 2 * fromDigits bs

/-- The child at the corner with the given sides. -/
def number {n : Nat} (sides : Vector Nat n) : Nat := fromDigits sides.toList

/-- Corners exist along 1, 2 or 3 axes. -/
def supported (n : Nat) : Bool := 1 ≤ n && n ≤ 3

theorem supported_iff {n : Nat} : supported n = true ↔ 1 ≤ n ∧ n ≤ 3 := by
  rw [supported, Bool.and_eq_true, decide_eq_true_iff, decide_eq_true_iff]

/-- The number of corners fits 64 bits. -/
theorem lt_of_supported {n : Nat} (h : supported n = true) : n < 64 :=
  Nat.lt_of_le_of_lt (supported_iff.1 h).2 (by decide)

/-- The sides of child `c`, which must be one of the `2 ^ n` children. -/
def ofChild (n c : Nat) : Except Fault (Vector Nat n) :=
  if c < 2 ^ n then
    if supported n then .ok (bits n c) else .error (.cornerDimension n)
  else .error .cornerNumber

/-- The child at the corner with the given sides, each of which must be 0 or 1. -/
def toChild {n : Nat} (sides : Vector Nat n) : Except Fault Nat :=
  if sides.all (· ≤ 1) then
    if supported n then .ok (number sides) else .error (.cornerDimension n)
  else .error (.notCorner sides.toList)

@[simp]
theorem getElem_bits {n c d : Nat} (h : d < n) : (bits n c)[d] = c / 2 ^ d % 2 := by
  simp [bits]

/-- Each digit doubles the range. -/
theorem fromDigits_lt {bs : List Nat} (h : ∀ b ∈ bs, b ≤ 1) : fromDigits bs < 2 ^ bs.length := by
  induction bs with
  | nil => simp [fromDigits]
  | cons b bs ih =>
    have hb : b ≤ 1 := h b List.mem_cons_self
    have hbs := ih fun x hx => h x (List.mem_cons_of_mem b hx)
    simp only [fromDigits, List.length_cons, Nat.pow_succ]
    omega

/-- Reading the digits of a number gives the number back, up to the digits that were not read. -/
theorem fromDigits_ofFn (n c : Nat) :
    fromDigits (List.ofFn fun d : Fin n => c / 2 ^ d.val % 2) = c % 2 ^ n := by
  induction n generalizing c with
  | zero => simp [fromDigits, Nat.mod_one]
  | succ n ih =>
    have hshift : (List.ofFn fun d : Fin n => c / 2 ^ (d.val + 1) % 2)
        = List.ofFn fun d : Fin n => c / 2 / 2 ^ d.val % 2 := by
      congr 1
      funext d
      rw [Nat.pow_succ, Nat.mul_comm, Nat.div_div_eq_div_mul]
    simp only [List.ofFn_succ, Fin.val_zero, Fin.val_succ, fromDigits]
    rw [hshift, ih, Nat.pow_succ, Nat.mul_comm (2 ^ n) 2, Nat.mod_mul]
    simp

/-- The number of the corner at which a child sits is the number of the child. -/
theorem number_bits {n c : Nat} (h : c < 2 ^ n) : number (bits n c) = c := by
  rw [number, bits, Vector.toList_ofFn, fromDigits_ofFn, Nat.mod_eq_of_lt h]

end Orthtree.Corner
