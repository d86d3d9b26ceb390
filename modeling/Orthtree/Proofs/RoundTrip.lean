import Orthtree.Proofs.Canonical
import Orthtree.Proofs.Histories
import Orthtree.Proofs.Restoring

/-!
# Snapshots and back

The snapshot of a compact tree has all its links (`Snapshot.Records`) but neither its room nor its counters.  Restoring
puts the links into any room and finds the counters again, since a valid tree's links determine them; what comes back
is a copy of the tree (`CopyIn`), in its own room the very same tree.
-/

namespace Orthtree.Tree

open Snapshot

variable {n : Nat} {t u : Tree n} {s : Snapshot} {asked : Option Nat}

/-- Only trees that are not compact are reported as such. -/
theorem snapshot_eq_notCompact_iff (ht : t.Valid) :
    t.snapshot = .ok (.error .notCompact) ↔ t.isCompact = false := by
  cases h : t.isCompact with
  | true =>
      obtain ⟨s, hs⟩ := exists_records ht h
      rw [hs.snapshot_eq ht h]
      constructor
      · intro heq
        cases heq
      · intro heq
        cases heq
  | false =>
      rw [snapshot, h]
      exact iff_of_true rfl rfl

/-! ## Copies -/

/-- `u` has the nodes and links of `t`, in room for `room` nodes rounded up to whole groups. -/
structure CopyIn (room : Nat) (t u : Tree n) : Prop where
  agrees : u.agrees t = .ok true
  sameLinks : SameLinks t u
  size_eq : u.size = t.size
  firstFree_eq : u.firstFree = t.firstFree
  groupEnd_eq : u.groupEnd = t.groupEnd
  capacity_eq : u.capacity = Group.nodeCount n (Group.covering n room)
  groupCapacity_eq : u.groupCapacity = Group.covering n room

/-- Valid trees with the same links differ in their room only. -/
theorem SameLinks.copyIn (h : SameLinks t u) (ht : t.Valid) (hu : u.Valid) {room : Nat}
    (hroom : u.groupCapacity = Group.covering n room) : CopyIn room t u := by
  obtain ⟨hsize, hfree, hend⟩ := h.counters_eq ht hu
  obtain ⟨b, hagrees, hb⟩ := agrees_eq hu ht
  obtain rfl : b = true := hb.2 h.symm
  refine ⟨hagrees, h, hsize.symm, hfree.symm, hend.symm, ?_, hroom⟩
  rw [hu.capacity_eq, hroom]

/-- A copy in as much room as the tree has is the tree. -/
theorem CopyIn.eq_of_capacity {room : Nat} (h : CopyIn room t u) (ht : t.Valid) (hu : u.Valid)
    (hcapacity : u.capacity = t.capacity) : u = t :=
  h.sameLinks.symm.eq_of_capacity hu ht hcapacity

/-- The tables of any room, filled with what was recorded of a tree, have its links again. -/
theorem sameLinks_fill (h : s.Records t) (groups : Nat) (made : Tree n) :
    SameLinks t (fill s groups made) where
  owner_eq group := by rw [owner_fill, h.owner_eq]
  firstChild_eq node := by rw [firstChild_fill, h.firstChild_eq]

/-- The record of a compact tree is restored to a copy in any room that it fits. -/
theorem exists_copyIn (h : s.Records t) (ht : t.Valid) (hcompact : t.isCompact = true)
    (hroom : t.size ≤ asked.getD t.size)
    (hlt : Group.nodeCount n (Group.covering n (asked.getD t.size)) < nodeLimit) :
    ∃ u : Tree n, restore n s asked = .ok (.ok u) ∧ CopyIn (asked.getD t.size) t u := by
  have hrecords := h.recordsTree ht hcompact
  have hle : s.size ≤ asked.getD s.size := by rwa [h.size_eq]
  have hrestore := hrecords.restore_eq ht.supported hle (by rwa [h.size_eq])
  have hgroups : s.parents.size ≤ Group.covering n (asked.getD t.size) := by
    rw [h.parents_size]
    exact Group.covering_le_covering hroom
  refine ⟨_, hrestore, (sameLinks_fill h _ _).copyIn ht (valid_of_restore hrestore) ?_⟩
  rw [h.size_eq, groupCapacity_fill _ (by simpa [groupCapacity, rootOnly] using hgroups)]
  simp [groupCapacity, rootOnly]

/-- **Round trip.**  Exactly the trees that are not compact have no snapshot.  A snapshot is restored to a copy of its
tree in any room that holds the nodes and fits an index, to the tree itself in the room that the tree has, and in less
room not at all. -/
theorem Reachable.restore_snapshot (h : t.Reachable) :
    (t.snapshot = .ok (.error .notCompact) ↔ t.isCompact = false) ∧
    (t.isCompact = true → ∃ s, t.snapshot = .ok (.ok s) ∧
      (∃ u : Tree n, restore n s none = .ok (.ok u) ∧ CopyIn t.size t u) ∧
      (∀ room, t.size ≤ room → Group.nodeCount n (Group.covering n room) < nodeLimit →
        ∃ u : Tree n, restore n s (some room) = .ok (.ok u) ∧ CopyIn room t u) ∧
      (∀ room, room < t.size →
        restore n s (some room) = .ok (.error (.insufficientCapacity t.size room))) ∧
      restore n s (some t.capacity) = .ok (.ok t)) := by
  have ht := h.valid
  refine ⟨snapshot_eq_notCompact_iff ht, ?_⟩
  intro hcompact
  obtain ⟨s, hrecord⟩ := exists_records ht hcompact
  have hroom : ∀ room, t.size ≤ room → Group.nodeCount n (Group.covering n room) < nodeLimit →
      ∃ u : Tree n, restore n s (some room) = .ok (.ok u) ∧ CopyIn room t u :=
    fun room hle hlt => exists_copyIn hrecord ht hcompact hle hlt
  refine ⟨s, hrecord.snapshot_eq ht hcompact, ?_, hroom, ?_, ?_⟩
  · apply exists_copyIn hrecord ht hcompact (Nat.le_refl _)
    rw [Option.getD_none, ht.nodeCount_covering]
    exact ht.size_le_capacity.trans_lt ht.capacity_lt
  · intro room hlt
    rw [← hrecord.size_eq] at hlt ⊢
    exact (hrecord.recordsTree ht hcompact).restore_of_less ht.supported hlt
  · have hrounded : Group.nodeCount n (Group.covering n t.capacity) = t.capacity := by
      rw [ht.capacity_eq, Group.covering_nodeCount]
    obtain ⟨u, hu, hcopy⟩ := hroom t.capacity ht.size_le_capacity (hrounded.trans_lt ht.capacity_lt)
    have heq := hcopy.eq_of_capacity ht (valid_of_restore hu) (hcopy.capacity_eq.trans hrounded)
    rwa [heq] at hu

/-- Two groups that have changed places, restored with room for eleven nodes, which is rounded up to thirteen. -/
theorem Reachable.restore_snapshot_swapped :
    ∃ s, ∃ u : Tree 2,
      ((rootOnly 2 6).afterCalls [.refine 0, .refine 3, .swap 1 2]).snapshot = .ok (.ok s) ∧
      restore 2 s (some 11) = .ok (.ok u) ∧ u.capacity = 13 ∧
      CopyIn 11 ((rootOnly 2 6).afterCalls [.refine 0, .refine 3, .swap 1 2]) u := by
  obtain ⟨-, hcopies⟩ := Reachable.restore_snapshot
    ((Reachable.new (t := rootOnly 2 6) 21 rfl).afterCalls [.refine 0, .refine 3, .swap 1 2])
  obtain ⟨s, hs, -, hroom, -⟩ := hcopies (by decide)
  obtain ⟨u, hu, hcopy⟩ := hroom 11 (by decide) (by decide)
  exact ⟨s, u, hs, hu, hcopy.capacity_eq, hcopy⟩

end Orthtree.Tree
