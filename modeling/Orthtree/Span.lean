/-!
# Spans

A span is a run of consecutive numbers from which items are taken at either end.  Its view is `Span.toList`, the items
not yet taken: taking from the front removes the first of them (`toList_popFront`), taking from the back the last
(`toList_popBack`), and both ends of an empty span give nothing.
-/

namespace Orthtree

/-- The numbers from `next` up to, but not including, `stop`. -/
structure Span where
  /-- The first number not yet taken. -/
  next : Nat
  /-- One past the last number not yet taken. -/
  stop : Nat
deriving DecidableEq, Repr

namespace Span

/-- The span without items. -/
def empty : Span := ⟨0, 0⟩

/-- The items not yet taken, in ascending order. -/
def toList (s : Span) : List Nat := List.range' s.next (s.stop - s.next)

/-- The number of items not yet taken. -/
def length (s : Span) : Nat := s.stop - s.next

/-- Takes the first item. -/
def popFront (s : Span) : Option Nat × Span :=
  if s.next < s.stop then (some s.next, { s with next := s.next + 1 }) else (none, s)

/-- Takes the last item. -/
def popBack (s : Span) : Option Nat × Span :=
  if s.next < s.stop then (some (s.stop - 1), { s with stop := s.stop - 1 }) else (none, s)

@[simp]
theorem length_toList (s : Span) : s.toList.length = s.length := by
  simp [toList, length]

@[simp]
theorem toList_empty : empty.toList = [] := rfl

/-- What is taken from the front stood before what is left. -/
theorem toList_popFront (s : Span) :
    s.popFront.1.toList ++ s.popFront.2.toList = s.toList := by
  unfold popFront
  split
  · next h =>
    have hs : s.stop - s.next = (s.stop - (s.next + 1)) + 1 := by omega
    simp [toList, hs, List.range'_succ]
  · simp

/-- What is taken from the back stood behind what is left. -/
theorem toList_popBack (s : Span) :
    s.popBack.2.toList ++ s.popBack.1.toList = s.toList := by
  unfold popBack
  split
  · next h =>
    have hs : s.stop - s.next = (s.stop - 1 - s.next) + 1 := by omega
    have hl : s.stop - 1 = s.next + (s.stop - 1 - s.next) := by omega
    simp only [toList, Option.toList_some, hs, List.range'_concat]
    rw [Nat.one_mul, ← hl]
  · simp

theorem popFront_eq_none_iff (s : Span) : s.popFront.1 = none ↔ s.toList = [] := by
  unfold popFront
  split <;> simp [toList] <;> omega

theorem popBack_eq_none_iff (s : Span) : s.popBack.1 = none ↔ s.toList = [] := by
  unfold popBack
  split <;> simp [toList] <;> omega

end Span

end Orthtree
