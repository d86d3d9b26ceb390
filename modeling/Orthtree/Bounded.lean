import Orthtree.Fault

/-!
# Bounded numbers

Counts have 64 bits, indices 32 and levels 8.  The library computes with natural numbers; a result that would not fit
its width is the fault `overflow`, never a wrapped value.
-/

namespace Orthtree

-- Powers of natural numbers are taken in `Nat`, whatever other powers are in scope.
attribute [scoped instance (2000)] instPowNat

namespace Bounded

/-- One past the greatest 64-bit number. -/
def countLimit : Nat := 2 ^ (64 : Nat)

/-- One past the greatest 32-bit number. -/
def indexLimit : Nat := 2 ^ (32 : Nat)

/-- One past the greatest 8-bit number. -/
def byteLimit : Nat := 2 ^ (8 : Nat)

/-- Accepts `x` if it lies below `limit`. -/
def below (limit x : Nat) : Except Fault Nat :=
  if x < limit then .ok x else .error .overflow

/-- Accepts a 64-bit count. -/
def count (x : Nat) : Except Fault Nat := below countLimit x

/-- Accepts a 32-bit index. -/
def index (x : Nat) : Except Fault Nat := below indexLimit x

/-- Accepts an 8-bit level. -/
def level (x : Nat) : Except Fault Nat := below byteLimit x

/-- The 64-bit number whose only bit is bit `k`. -/
def bit (k : Nat) : Except Fault Nat :=
  if k < 64 then .ok (2 ^ k) else .error .overflow

/-- `x` moved up by `k` bits; bits that leave the 64-bit word are lost. -/
def shiftLeft (x k : Nat) : Except Fault Nat :=
  if k < 64 then .ok (x * 2 ^ k % countLimit) else .error .overflow

/-- The difference of two counts, which is not below 0. -/
def sub (x y : Nat) : Except Fault Nat :=
  if y ≤ x then .ok (x - y) else .error .overflow

/-- The sum of two counts, if it fits 64 bits. -/
def add? (x y : Nat) : Option Nat :=
  if x + y < countLimit then some (x + y) else none

/-- The difference of two counts, if it is not below 0. -/
def sub? (x y : Nat) : Option Nat :=
  if y ≤ x then some (x - y) else none

/-- A bound accepts a number that lies below it, and leaves it as it is. -/
theorem below_eq_ok_iff {limit x y : Nat} : below limit x = .ok y ↔ x < limit ∧ y = x := by
  unfold below
  split
  · next h => simp [h, eq_comm]
  · next h => simp [h]

theorem below_of_lt {limit x : Nat} (h : x < limit) : below limit x = .ok x :=
  if_pos h

theorem sub_of_le {x y : Nat} (h : y ≤ x) : sub x y = .ok (x - y) :=
  if_pos h

theorem bit_of_lt {k : Nat} (h : k < 64) : bit k = .ok (2 ^ k) :=
  if_pos h

/-- The bits of a 64-bit number are those from 0 to 63. -/
theorem bit_eq_ok_iff {k x : Nat} : bit k = .ok x ↔ k < 64 ∧ x = 2 ^ k := by
  unfold bit
  split
  · next h => simp [h, eq_comm]
  · next h => simp [h]

/-- A shift by less than 64 bits is a product modulo the word; longer ones are refused. -/
theorem shiftLeft_eq_ok_iff {x k y : Nat} :
    shiftLeft x k = .ok y ↔ k < 64 ∧ y = x * 2 ^ k % countLimit := by
  unfold shiftLeft
  split
  · next h => simp [h, eq_comm]
  · next h => simp [h]

/-- A checked sum is the exact one wherever it fits. -/
theorem add?_eq_some_iff {x y z : Nat} : add? x y = some z ↔ x + y < countLimit ∧ z = x + y := by
  unfold add?
  split
  · next h => simp [h, eq_comm]
  · next h => simp [h]

/-- A checked difference is the exact one, and there is one unless it would lie below 0. -/
theorem sub?_eq_some_iff {x y z : Nat} : sub? x y = some z ↔ x = z + y := by
  unfold sub?
  split
  · next h =>
    rw [Option.some_inj]
    omega
  · next h =>
    simp only [reduceCtorEq, false_iff]
    omega

end Bounded

end Orthtree
