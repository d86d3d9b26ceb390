import Orthtree.Proofs.Alike
import Orthtree.Proofs.Canonical
import Orthtree.Proofs.Histories

/-!
# Equal trees

`agrees` compares two trees at the nodes that their walks visit at the same step, and looks at nothing else: not at
free nodes, not at the counters and not at the room.  In valid trees it sees everything but the room.  Trees agree iff
they have the `SameNodes`, and trees that agree in the same room are equal, since free nodes have no links and the
links determine the counters (`Reachable.agrees_exact`).
-/

namespace Orthtree.Tree

variable {n : Nat} {t u : Tree n}

/-- The two trees have the same nodes, and every node has the same parent and the same children in both. -/
structure SameNodes (t u : Tree n) : Prop where
  contains_iff (node : Nat) : t.contains node = .ok true ↔ u.contains node = .ok true
  parent (node : Nat) : t.contains node = .ok true →
    BothAnswer Eq (t.parent node) (u.parent node)
  children (node : Nat) : t.contains node = .ok true →
    BothAnswer Eq (t.children node) (u.children node)

/-- Trees with the same links have the same nodes. -/
theorem SameLinks.sameNodes (h : SameLinks t u) (ht : t.Valid) (hu : u.Valid) : SameNodes t u := by
  have hlive : ∀ node, t.Live node ↔ u.Live node := fun node => h.inUse_iff _
  have hroom : ∀ node, t.contains node = .ok true → node < t.capacity ∧ node < u.capacity := by
    intro node hnode
    rw [contains_eq_true_iff ht.toSized] at hnode
    exact ⟨hnode.lt_capacity ht.toSized, ((hlive node).1 hnode).lt_capacity hu.toSized⟩
  refine ⟨?_, ?_, ?_⟩
  · intro node
    rw [contains_eq_true_iff ht.toSized, contains_eq_true_iff hu.toSized, hlive]
  · intro node hnode
    obtain ⟨hlt, hlt'⟩ := hroom node hnode
    exact ⟨_, _, parent_eq ht.toLinked hlt, parent_eq hu.toLinked hlt', h.owner_eq _⟩
  · intro node hnode
    obtain ⟨hlt, hlt'⟩ := hroom node hnode
    exact ⟨_, _, children_eq ht.toLinked hlt, children_eq hu.toLinked hlt',
      childSpan_eq_iff.2 (h.firstChild_eq node)⟩

/-- Trees with the same nodes have the same links: what is not a node has none. -/
theorem SameNodes.sameLinks (h : SameNodes t u) (ht : t.Valid) (hu : u.Valid) : SameLinks t u := by
  apply SameLinks.of_firstChild ht.toLinked hu.toLinked
  intro node
  have hlive : t.Live node ↔ u.Live node := by
    rw [← contains_eq_true_iff ht.toSized, ← contains_eq_true_iff hu.toSized, h.contains_iff]
  by_cases hnode : t.Live node
  · have hlt := hnode.lt_capacity ht.toSized
    have hlt' := (hlive.1 hnode).lt_capacity hu.toSized
    obtain ⟨_, _, hspan, hspan', rfl⟩ :=
      h.children node ((contains_eq_true_iff ht.toSized node).2 hnode)
    rw [children_eq ht.toLinked hlt] at hspan
    rw [children_eq hu.toLinked hlt', ← hspan] at hspan'
    exact childSpan_eq_iff.1 (Except.ok.inj hspan').symm
  · rw [firstChild_of_not_live ht.toLinked hnode,
      firstChild_of_not_live hu.toLinked (mt hlive.2 hnode)]

/-- **Exactness of comparing.**  Comparing is never refused.  In the same room, exactly equal trees agree: all links,
those of free nodes included, and all counters are the same.  In any room, exactly the trees with the same nodes agree,
and their counters are the same. -/
theorem Reachable.agrees_exact (ht : t.Reachable) (hu : u.Reachable) :
    (∃ equal, t.agrees u = .ok equal) ∧
    (t.capacity = u.capacity → (t.agrees u = .ok true ↔ t = u)) ∧
    (t.agrees u = .ok true ↔ SameNodes t u) ∧
    (t.agrees u = .ok true →
      t.size = u.size ∧ t.firstFree = u.firstFree ∧ t.groupEnd = u.groupEnd) := by
  obtain ⟨equal, hagrees, hequal⟩ := agrees_eq ht.valid hu.valid
  have hsame : t.agrees u = .ok true ↔ SameLinks t u := by
    rw [hagrees, Except.ok.injEq, hequal]
  refine ⟨⟨equal, hagrees⟩, ?_, ?_, ?_⟩
  · intro hcapacity
    rw [hsame]
    constructor
    · intro h
      exact h.eq_of_capacity ht.valid hu.valid hcapacity
    · rintro rfl
      exact ⟨fun _ => rfl, fun _ => rfl⟩
  · rw [hsame]
    exact ⟨fun h => h.sameNodes ht.valid hu.valid, fun h => h.sameLinks ht.valid hu.valid⟩
  · rw [hsame]
    exact fun h => h.counters_eq ht.valid hu.valid

/-- A square with a free group below the group of its second child, made by coarsening in one case and by swapping in
the other; with more room it is another tree with the same nodes. -/
theorem Reachable.agrees_exact_free :
    (rootOnly 2 6).afterCalls [.refine 0, .refine 1, .refine 2, .coarsen 1] =
      (rootOnly 2 6).afterCalls [.refine 0, .refine 2, .swap 2 3] ∧
    SameNodes ((rootOnly 2 6).afterCalls [.refine 0, .refine 1, .refine 2, .coarsen 1])
      ((rootOnly 2 8).afterCalls [.refine 0, .refine 2, .swap 2 3]) := by
  have hcoarsened := (Reachable.new (t := rootOnly 2 6) 21 rfl).afterCalls
    [.refine 0, .refine 1, .refine 2, .coarsen 1]
  have hswapped := (Reachable.new (t := rootOnly 2 6) 21 rfl).afterCalls
    [.refine 0, .refine 2, .swap 2 3]
  have hroomy := (Reachable.new (t := rootOnly 2 8) 29 rfl).afterCalls
    [.refine 0, .refine 2, .swap 2 3]
  obtain ⟨-, hequal, -, -⟩ := Reachable.agrees_exact hcoarsened hswapped
  obtain ⟨-, -, hnodes, -⟩ := Reachable.agrees_exact hcoarsened hroomy
  exact ⟨(hequal (by decide +kernel)).1 (by decide +kernel), hnodes.1 (by decide +kernel)⟩

end Orthtree.Tree
