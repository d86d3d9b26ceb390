import Orthtree.Proofs.Histories
import Orthtree.Proofs.Packing

/-!
# Taking items at both ends

The children of a node and the steps of a location are taken one by one, at either end.  What both ways of taking have
in common is a `View`: a relation between states and the lists of items left, from which every call removes the item at
its end.  Such a view accounts for all calls (`View.yields`): in whatever way they alternate between the ends, what has
been taken at the front, what is left and what has been taken at the back are together the whole sequence.
-/

namespace Orthtree

/-! ## Ends of a list -/

/-- The two ends of a sequence. -/
inductive End
  | front
  | back
deriving DecidableEq

namespace End

/-- The list with one more item at an end. -/
def put : End → Nat → List Nat → List Nat
  | front, x, xs => x :: xs
  | back, x, xs => xs ++ [x]

/-- A list that is not empty has an item at either end. -/
theorem exists_put (e : End) {xs : List Nat} (h : xs ≠ []) : ∃ x ys, xs = e.put x ys := by
  cases e with
  | front => exact ⟨_, _, (List.cons_head_tail h).symm⟩
  | back => exact ⟨_, _, (List.dropLast_concat_getLast h).symm⟩

theorem mem_put (e : End) (x : Nat) (xs : List Nat) : x ∈ e.put x xs := by
  cases e <;> simp [put]

/-- An item at an end of the mapped list comes from the one at the same end of the list. -/
theorem exists_put_of_map (e : End) {f : Nat → Nat} {is xs : List Nat} {x : Nat}
    (h : is.map f = e.put x xs) : ∃ i js, is = e.put i js ∧ f i = x ∧ js.map f = xs := by
  cases e with
  | front => exact List.map_eq_cons_iff.1 h
  | back =>
      obtain ⟨js, last, rfl, hjs, hlast⟩ := List.map_eq_append_iff.1 h
      obtain ⟨i, rest, rfl, hi, hrest⟩ := List.map_eq_cons_iff.1 hlast
      obtain rfl := List.map_eq_nil_iff.1 hrest
      exact ⟨i, js, rfl, hi, hjs⟩

end End

/-! ## Sequences with two ends -/

/-- A way to take the items of a sequence, one by one at either end. -/
structure DoubleEnded (σ : Type) where
  /-- Takes the item at an end, if there is one. -/
  take : End → σ → Except Fault (Option Nat × σ)
  /-- The number of items that is reported. -/
  length : σ → Nat
  /-- The numbers that the calls move towards each other. -/
  cursors : σ → Span

namespace DoubleEnded

variable {σ : Type} {d : DoubleEnded σ} {limit : Nat} {s : σ} {items : List Nat}

/-- Takes items at the ends that `calls` names, and keeps the answers. -/
def run (d : DoubleEnded σ) : (calls : List End) → σ → Except Fault (List (End × Option Nat) × σ)
  | [], s => .ok ([], s)
  | e :: calls, s => do
    let (answer, s) ← d.take e s
    let (answers, s) ← d.run calls s
    return ((e, answer) :: answers, s)

/-- The items among the answers that were taken at end `e`, in the order of the calls. -/
def taken (e : End) (answers : List (End × Option Nat)) : List Nat :=
  answers.filterMap fun answer => if answer.1 = e then answer.2 else none

/-- The calls that gave `answers` have taken the items from the ends of `items` and have left `rest`, which is what the
state `s` knows. -/
structure Accounts (d : DoubleEnded σ) (limit : Nat) (items : List Nat)
    (answers : List (End × Option Nat)) (rest : List Nat) (s : σ) : Prop where
  /-- Nothing is lost and nothing is taken twice. -/
  partition : taken .front answers ++ rest ++ (taken .back answers).reverse = items
  length_eq : d.length s = rest.length
  /-- When nothing is left, both ends give nothing and change nothing. -/
  exhausted : rest = [] → ∀ e, d.take e s = .ok (none, s)
  /-- When something is left, both ends give an item. -/
  progress : rest ≠ [] → ∀ e, ∃ x s', d.take e s = .ok (some x, s')
  cursors_le : (d.cursors s).next ≤ (d.cursors s).stop
  cursors_lt : (d.cursors s).stop < limit

/-- From `s` on, all calls are answered and account for `items`. -/
def Yields (d : DoubleEnded σ) (limit : Nat) (s : σ) (items : List Nat) : Prop :=
  ∀ calls, ∃ answers rest s', d.run calls s = .ok (answers, s') ∧
    d.Accounts limit items answers rest s'

/-- `holds s items` says that in state `s` the items left are `items`, and every call agrees. -/
structure View (d : DoubleEnded σ) (limit : Nat) (holds : σ → List Nat → Prop) : Prop where
  take_put {s : σ} {e : End} {x : Nat} {xs : List Nat} : holds s (e.put x xs) →
    ∃ s', d.take e s = .ok (some x, s') ∧ holds s' xs
  take_nil {s : σ} {e : End} : holds s [] → d.take e s = .ok (none, s)
  length_eq {s : σ} {xs : List Nat} : holds s xs → d.length s = xs.length
  cursors_le {s : σ} {xs : List Nat} : holds s xs → (d.cursors s).next ≤ (d.cursors s).stop
  cursors_lt {s : σ} {xs : List Nat} : holds s xs → (d.cursors s).stop < limit

namespace View

variable {holds : σ → List Nat → Prop}

/-- Every run takes items away from the two ends of what was there. -/
theorem exists_run (h : d.View limit holds) (hs : holds s items) (calls : List End) :
    ∃ answers rest s', d.run calls s = .ok (answers, s') ∧ holds s' rest ∧
      taken .front answers ++ rest ++ (taken .back answers).reverse = items := by
  -- The items left shrink from both ends; what an end has given is put back at that end.
  induction calls generalizing s items with
  | nil => exact ⟨[], items, s, rfl, hs, by simp [taken]⟩
  | cons e calls ih =>
      by_cases hitems : items = []
      · rw [hitems] at hs ⊢
        obtain ⟨answers, rest, s', hrun, hs', hparts⟩ := ih hs
        refine ⟨(e, none) :: answers, rest, s', ?_, hs', ?_⟩
        · rw [run, h.take_nil hs]
          simp only [bind, Except.bind, hrun]
          rfl
        · simpa [taken] using hparts
      · obtain ⟨x, xs, rfl⟩ := e.exists_put hitems
        obtain ⟨s₁, htake, hs₁⟩ := h.take_put hs
        obtain ⟨answers, rest, s', hrun, hs', rfl⟩ := ih hs₁
        refine ⟨(e, some x) :: answers, rest, s', ?_, hs', ?_⟩
        · rw [run, htake]
          simp only [bind, Except.bind, hrun]
          rfl
        · cases e <;> simp [taken, End.put]

/-- A view accounts for all calls. -/
theorem yields (h : d.View limit holds) (hs : holds s items) : d.Yields limit s items := by
  intro calls
  obtain ⟨answers, rest, s', hrun, hs', hparts⟩ := h.exists_run hs calls
  refine ⟨answers, rest, s', hrun, hparts, h.length_eq hs', ?_, ?_, h.cursors_le hs',
    h.cursors_lt hs'⟩
  · rintro rfl e
    exact h.take_nil hs'
  · intro hrest e
    obtain ⟨x, xs, rfl⟩ := e.exists_put hrest
    obtain ⟨s'', htake, -⟩ := h.take_put hs'
    exact ⟨x, s'', htake⟩

end View

end DoubleEnded

/-! ## Spans -/

namespace Span

variable {s outer : Span} {e : End} {x : Nat} {xs : List Nat}

/-- Takes the item at an end. -/
def pop : End → Span → Option Nat × Span
  | .front, s => s.popFront
  | .back, s => s.popBack

/-- The span lies inside another one, and its ends are in order. -/
structure Within (s outer : Span) : Prop where
  next_le : outer.next ≤ s.next
  next_le_stop : s.next ≤ s.stop
  stop_le : s.stop ≤ outer.stop

/-- Taking an item leaves a span that lies inside the same outer one. -/
theorem within_pop (h : s.Within outer) (e : End) : (s.pop e).2.Within outer := by
  obtain ⟨hnext, hle, hstop⟩ := h
  cases e with
  | front =>
      rw [pop, popFront]
      split <;> constructor <;> dsimp only <;> omega
  | back =>
      rw [pop, popBack]
      split <;> constructor <;> dsimp only <;> omega

/-- An empty span has nothing to take, and stays as it is. -/
theorem pop_of_nil (h : s.toList = []) (e : End) : s.pop e = (none, s) := by
  have hempty : ¬s.next < s.stop := by
    rw [toList, List.range'_eq_nil_iff] at h
    omega
  cases e with
  | front => exact if_neg hempty
  | back => exact if_neg hempty

/-- What is taken at an end stood there. -/
theorem pop_of_put (h : s.toList = e.put x xs) :
    (s.pop e).1 = some x ∧ (s.pop e).2.toList = xs := by
  cases e with
  | front =>
      have hsplit := s.toList_popFront.trans h
      cases hitem : s.popFront.1 with
      | none =>
          rw [popFront_eq_none_iff, h] at hitem
          cases hitem
      | some y =>
          rw [hitem] at hsplit
          obtain ⟨rfl, hrest⟩ := List.cons.inj hsplit
          exact ⟨hitem, hrest⟩
  | back =>
      have hsplit := s.toList_popBack.trans h
      cases hitem : s.popBack.1 with
      | none =>
          rw [popBack_eq_none_iff, h] at hitem
          simp [End.put] at hitem
      | some y =>
          rw [hitem] at hsplit
          obtain ⟨hrest, hlast⟩ := List.append_inj' hsplit rfl
          obtain rfl := List.singleton_inj.1 hlast
          exact ⟨hitem, hrest⟩

/-- The items of a span are taken at both ends. -/
def ends : DoubleEnded Span where
  take e s := .ok (s.pop e)
  length := length
  cursors := id

/-- Inside a span that begins and ends below `limit`, spans are their lists. -/
theorem view_ends {limit : Nat} (h : outer.stop < limit) :
    ends.View limit fun s xs => s.Within outer ∧ s.toList = xs where
  take_put := by
    rintro s e x xs ⟨hs, hlist⟩
    obtain ⟨hitem, hrest⟩ := pop_of_put hlist
    exact ⟨(s.pop e).2, by rw [ends, ← hitem], within_pop hs e, hrest⟩
  take_nil := by
    rintro s e ⟨-, hlist⟩
    exact congrArg Except.ok (pop_of_nil hlist e)
  length_eq := by
    rintro s _ ⟨-, rfl⟩
    exact s.length_toList.symm
  cursors_le hs := hs.1.next_le_stop
  cursors_lt hs := hs.1.stop_le.trans_lt h

/-- Four items are taken at both ends in turn, until the two ends meet. -/
example : ends.run [.back, .front, .back, .front, .back] ⟨1, 5⟩ =
    .ok ([(.back, some 4), (.front, some 1), (.back, some 3), (.front, some 2), (.back, none)],
      ⟨3, 3⟩) := rfl

end Span

/-! ## Steps of a location -/

namespace Location.PathWalk

variable {n : Nat} {w : PathWalk n} {l : Location n} {e : End}

/-- The steps of a location are taken at both ends. -/
def ends (n : Nat) : DoubleEnded (PathWalk n) where
  take
    | .front, w => w.popFront
    | .back, w => w.popBack
  length := length
  cursors := levels

theorem take_ends (e : End) (w : PathWalk n) : (ends n).take e w = (do
    return (← w.position (w.levels.pop e).1, { w with levels := (w.levels.pop e).2 })) := by
  cases e <;> rfl

/-- The levels left in a walk are levels of the location. -/
theorem position_of_mem {i : Nat} (hlevels : w.levels.Within w.location.walk.levels)
    (hi : i ∈ w.levels.toList) : w.position (some i) = .ok (some (w.location.step i)) := by
  obtain ⟨hnext, -, hstop⟩ := hlevels
  rw [Span.toList, List.mem_range'_1] at hi
  simp only [walk] at hnext hstop
  rw [position, positionAt, if_pos (by omega)]
  rfl

/-- A walk along a location is the list of the steps to the levels that are left. -/
theorem view_ends (l : Location n) : (ends n).View Bounded.byteLimit fun w xs =>
    w.location = l ∧ w.levels.Within l.walk.levels ∧ w.levels.toList.map l.step = xs where
  take_put := by
    rintro w e x xs ⟨rfl, hlevels, hlist⟩
    -- An item of the walk is the step of the level that is taken.
    obtain ⟨i, js, hput, rfl, rfl⟩ := e.exists_put_of_map hlist
    obtain ⟨hitem, hrest⟩ := Span.pop_of_put hput
    have hi : i ∈ w.levels.toList := by
      rw [hput]
      exact e.mem_put i js
    refine ⟨{ w with levels := (w.levels.pop e).2 }, ?_, rfl, Span.within_pop hlevels e, ?_⟩
    · rw [take_ends, hitem, position_of_mem hlevels hi]
      rfl
    · rw [hrest]
  take_nil := by
    rintro w e ⟨rfl, -, hlist⟩
    rw [take_ends, Span.pop_of_nil (List.map_eq_nil_iff.1 hlist)]
    rfl
  length_eq := by
    rintro w _ ⟨rfl, -, rfl⟩
    rw [List.length_map, Span.length_toList]
    rfl
  cursors_le hw := hw.2.1.next_le_stop
  cursors_lt hw := by
    have hlevel := l.level_lt
    have hstop : _ ≤ l.level + 1 := hw.2.1.stop_le
    unfold Bounded.byteLimit
    exact hstop.trans_lt (by omega)

/-- Walking a location from both ends takes the steps of its path. -/
theorem yields_walk (l : Location n) : (ends n).Yields Bounded.byteLimit l.walk l.path := by
  refine (view_ends l).yields ⟨rfl, ⟨Nat.le_refl _, Nat.succ_pos _, Nat.le_refl _⟩, ?_⟩
  rw [walk, Span.toList, Nat.add_sub_cancel, List.range'_eq_map_range, List.map_map, path]
  apply List.map_congr_left
  intro i _
  rw [Function.comp_apply, Nat.add_comm]

end Location.PathWalk

/-! ## Children -/

namespace Tree

variable {n : Nat} {t : Tree n} {node : Nat}

/-- The span of the children is in order, and its ends fit an index. -/
theorem childSpan_bounds (ht : t.Linked) (node : Nat) :
    (t.childSpan node).next ≤ (t.childSpan node).stop ∧
      (t.childSpan node).stop < Bounded.indexLimit := by
  rw [childSpan]
  split
  · exact ⟨Nat.le_refl 0, by decide⟩
  · next first hfirst =>
    have hle := ht.firstChild_add_le hfirst
    exact ⟨Nat.le_add_right first _, lt_indexLimit (hle.trans_lt ht.capacity_lt)⟩

/-- Taking the children of a node from both ends takes the nodes below it. -/
theorem yields_childSpan (ht : t.Linked) (node : Nat) :
    Span.ends.Yields Bounded.indexLimit (t.childSpan node) (t.below node) := by
  obtain ⟨hle, hlt⟩ := childSpan_bounds ht node
  exact (Span.view_ends hlt).yields
    ⟨⟨Nat.le_refl _, hle, Nat.le_refl _⟩, toList_childSpan t node⟩

/-- The nodes below a node are its children by position. -/
theorem child_below (ht : t.Linked) (hlt : node < t.capacity) {i : Nat}
    (hi : i < (t.below node).length) : t.child node i = .ok (some (t.below node)[i]) := by
  cases hfirst : t.links.firstChild node with
  | none => simp [below_of_leaf hfirst] at hi
  | some first =>
      have hbelow := below_of_branch hfirst
      have hposition : i < 2 ^ n := by simpa [hbelow] using hi
      have hchild : t.childAt? node i = some (first + i) :=
        childAt?_eq_some_iff.2 ⟨first, hfirst, hposition, rfl⟩
      rw [child_eq ht hlt hposition, hchild]
      simp [hbelow]

/-- The number of children is the number of those that are below the node. -/
theorem childCount_eq (hlt : node < t.capacity) :
    t.childCount node = .ok (t.below node).length := by
  rw [childCount, isLeaf_of_lt hlt]
  cases hfirst : t.links.firstChild node with
  | none =>
      rw [below_of_leaf hfirst]
      rfl
  | some first =>
      rw [below_of_branch hfirst, List.length_range']
      rfl

/-- **Taking items at both ends.**  The steps of a location and the children of a node are taken at both ends without a
fault: in whatever order the calls come, they lose no item and repeat none. -/
theorem both_ends_exact (n : Nat) :
    (∀ l : Location n, (Location.PathWalk.ends n).Yields Bounded.byteLimit l.walk l.path) ∧
    ∀ t : Tree n, t.Reachable → ∀ node < t.capacity, ∃ s children, t.children node = .ok s ∧
      t.childCount node = .ok children.length ∧
      (∀ i (hi : i < children.length), t.child node i = .ok (some children[i])) ∧
      Span.ends.Yields Bounded.indexLimit s children := by
  refine ⟨Location.PathWalk.yields_walk, ?_⟩
  intro t h node hlt
  have ht := h.valid.toLinked
  exact ⟨t.childSpan node, t.below node, children_eq ht hlt, childCount_eq hlt,
    fun i hi => child_below ht hlt hi, yields_childSpan ht node⟩

/-- The two steps to corner 3 of corner 0 of a square, and the four children of a root. -/
theorem both_ends_exact_square :
    (Location.PathWalk.ends 2).Yields Bounded.byteLimit
      (⟨19, by decide⟩ : Location 2).walk [0, 3] ∧
    ∃ s children, ((rootOnly 2 2).afterCalls [.refine 0]).children 0 = .ok s ∧
      children.length = 4 ∧ Span.ends.Yields Bounded.indexLimit s children := by
  obtain ⟨hlocations, hnodes⟩ := both_ends_exact 2
  have hpath : (⟨19, by decide⟩ : Location 2).path = [0, 3] := by decide +kernel
  obtain ⟨s, children, hs, hcount, -, hyields⟩ := hnodes _
    ((Reachable.new (t := rootOnly 2 2) 5 rfl).afterCalls [.refine 0]) 0 (by decide +kernel)
  have hfour : ((rootOnly 2 2).afterCalls [.refine 0]).childCount 0 = .ok 4 := by decide +kernel
  refine ⟨hpath ▸ hlocations _, s, children, hs, ?_, hyields⟩
  exact Except.ok.inj (hcount.symm.trans hfour)

end Tree

end Orthtree
