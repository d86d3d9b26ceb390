import Orthtree.Proofs.Invariant
import Orthtree.Snapshot.Conversion

/-!
# Loading the links of a snapshot

`load` writes the links of a snapshot into a new tree entry by entry, and each entry needs a place in the tables.
`Loaded` says how far the two loops have come.  Where the tables are large enough, they end with the tree `fill`, whose
tables are those of the snapshot and free places after them (`load_eq`).
-/

namespace Orthtree.Snapshot

variable {n groups groupRoom : Nat} {s : Snapshot} {t made : Tree n} {l : Links} {i j : Nat}

/-! ## The links of a snapshot in a tree -/

/-- The tree with the links of the snapshot, in the tables of `room`. -/
def fill {n : Nat} (s : Snapshot) (groups : Nat) (room : Tree n) : Tree n where
  links :=
    ⟨s.parents ++ Array.replicate (room.groupCapacity - s.parents.size) none,
     s.firstChildren ++ Array.replicate (room.capacity - s.firstChildren.size) none⟩
  size := s.size
  firstFree := groups
  groupEnd := groups

theorem getD_of_le {xs : Array (Option Nat)} {i : Nat} (h : xs.size ≤ i) : xs.getD i none = none := by
  rw [Array.getD_eq_getD_getElem?, Array.getElem?_eq_none h, Option.getD_none]

/-- An entry that is not absent lies inside the table. -/
theorem lt_of_getD_eq_some {xs : Array (Option Nat)} {i x : Nat} (h : xs.getD i none = some x) :
    i < xs.size := by
  by_contra hge
  rw [getD_of_le (Nat.not_lt.1 hge)] at h
  cases h

/-- Absent entries past the end of a table change no look-up. -/
theorem getD_append_replicate (xs : Array (Option Nat)) (count i : Nat) :
    (xs ++ Array.replicate count none).getD i none = xs.getD i none := by
  rcases Nat.lt_or_ge i xs.size with hlt | hge
  · rw [Array.getD_eq_getD_getElem?, Array.getElem?_append_left hlt, Array.getD_eq_getD_getElem?]
  · rw [Array.getD_eq_getD_getElem?, Array.getElem?_append_right hge, Array.getElem?_replicate,
      getD_of_le hge]
    split <;> rfl

/-- Looking up an owner in the tree looks it up in the snapshot. -/
theorem owner_fill (s : Snapshot) (groups : Nat) (made : Tree n) (group : Nat) :
    (fill s groups made).links.owner group = s.parents.getD group none :=
  getD_append_replicate _ _ group

theorem firstChild_fill (s : Snapshot) (groups : Nat) (made : Tree n) (node : Nat) :
    (fill s groups made).links.firstChild node = s.firstChildren.getD node none :=
  getD_append_replicate _ _ node

theorem groupCapacity_fill (groups : Nat) (h : s.parents.size ≤ made.groupCapacity) :
    (fill s groups made).groupCapacity = made.groupCapacity := by
  simp only [Tree.groupCapacity, Links.groupCapacity, fill, Array.size_append, Array.size_replicate]
  exact Nat.add_sub_cancel' h

theorem capacity_fill (groups : Nat) (h : s.firstChildren.size ≤ made.capacity) :
    (fill s groups made).capacity = made.capacity := by
  simp only [Tree.capacity, Links.nodeCapacity, fill, Array.size_append, Array.size_replicate]
  exact Nat.add_sub_cancel' h

/-! ## The loops of `load` -/

/-- The first `i` owners and the first `j` first children have been written into the tables of `made`. -/
structure Loaded (s : Snapshot) (made : Tree n) (i j : Nat) (l : Links) : Prop where
  groupCapacity_eq : l.groupCapacity = made.groupCapacity
  nodeCapacity_eq : l.nodeCapacity = made.capacity
  owner_eq (group : Nat) : l.owner group = if group < i then s.parents.getD group none else none
  firstChild_eq (node : Nat) :
    l.firstChild node = if node < j then s.firstChildren.getD node none else none

namespace Loaded

/-- A new tree has no links. -/
theorem start (s : Snapshot) (n groups : Nat) :
    Loaded s (Tree.rootOnly n groups) 0 0 (Tree.rootOnly n groups).links := by
  refine ⟨rfl, rfl, ?_, ?_⟩ <;> intro _ <;> simp [Tree.rootOnly]

/-- Writing the owner of group `i` comes one group further. -/
theorem setOwner (h : Loaded s made i j l) (hi : i < made.groupCapacity) :
    Loaded s made (i + 1) j (l.setOwner i (s.parents.getD i none)) := by
  refine ⟨?_, h.nodeCapacity_eq, ?_, h.firstChild_eq⟩
  · rw [Links.groupCapacity_setOwner, h.groupCapacity_eq]
  · intro group
    rw [Links.owner_setOwner (hi.trans_eq h.groupCapacity_eq.symm), h.owner_eq]
    rcases Nat.lt_trichotomy group i with hlt | rfl | hgt
    · rw [if_neg hlt.ne, if_pos hlt, if_pos (Nat.lt_succ_of_lt hlt)]
    · rw [if_pos rfl, if_pos (Nat.lt_succ_self group)]
    · rw [if_neg hgt.ne', if_neg hgt.not_gt, if_neg (by omega)]

theorem setFirstChild (h : Loaded s made i j l) (hj : j < made.capacity) :
    Loaded s made i (j + 1) (l.setFirstChild j (s.firstChildren.getD j none)) := by
  refine ⟨h.groupCapacity_eq, ?_, h.owner_eq, ?_⟩
  · rw [Links.nodeCapacity_setFirstChild, h.nodeCapacity_eq]
  · intro node
    rw [Links.firstChild_setFirstChild (hj.trans_eq h.nodeCapacity_eq.symm), h.firstChild_eq]
    rcases Nat.lt_trichotomy node j with hlt | rfl | hgt
    · rw [if_neg hlt.ne, if_pos hlt, if_pos (Nat.lt_succ_of_lt hlt)]
    · rw [if_pos rfl, if_pos (Nat.lt_succ_self node)]
    · rw [if_neg hgt.ne', if_neg hgt.not_gt, if_neg (by omega)]

/-- When all entries have been written, the tables are those of `fill`. -/
theorem eq_fill (h : Loaded s made s.parents.size s.firstChildren.size l) (groups : Nat)
    (hgroups : s.parents.size ≤ made.groupCapacity)
    (hnodes : s.firstChildren.size ≤ made.capacity) : l = (fill s groups made).links := by
  apply Links.eq_of_lookups
  · exact h.groupCapacity_eq.trans (groupCapacity_fill groups hgroups).symm
  · exact h.nodeCapacity_eq.trans (capacity_fill groups hnodes).symm
  · intro group
    rw [h.owner_eq, owner_fill, ite_eq_left_iff]
    exact fun hge => (getD_of_le (Nat.not_lt.1 hge)).symm
  · intro node
    rw [h.firstChild_eq, firstChild_fill, ite_eq_left_iff]
    exact fun hge => (getD_of_le (Nat.not_lt.1 hge)).symm

end Loaded

/-- A loop whose rounds change nothing but the links keeps what each round hands on to the next. -/
theorem forM_range_eq {round : Nat → Edit n Unit} {P : Nat → Links → Prop} {count : Nat}
    (hstart : P 0 t.links)
    (hround : ∀ i < count, ∀ l, P i l → ∃ m, P (i + 1) m ∧
      round i { t with links := l } = .ok () { t with links := m }) :
    ∃ l, P count l ∧ (List.range count).forM round t = .ok () { t with links := l } := by
  induction count with
  | zero => exact ⟨t.links, hstart, rfl⟩
  | succ count ih =>
      obtain ⟨l, hl, hrounds⟩ := ih fun i hi => hround i (Nat.lt_succ_of_lt hi)
      obtain ⟨m, hm, hlast⟩ := hround count (Nat.lt_succ_self count) l hl
      have hsplit : (List.range (count + 1)).forM round =
          ((List.range count).forM round >>= fun _ => round count) := by
        rw [List.range_succ]
        exact List.forM_append.trans (by simp)
      exact ⟨m, hm, by rw [hsplit, Tree.bind_of_ok hrounds, hlast]⟩

/-- The loop over the owners writes all of them, and is not refused, since each has a place in the tables. -/
theorem forM_setOwner_eq (h : Loaded s made 0 j t.links)
    (hgroups : s.parents.size ≤ made.groupCapacity) :
    ∃ l, Loaded s made s.parents.size j l ∧
      (List.range s.parents.size).forM (fun group => Tree.setOwner group (s.parents.getD group none)) t =
        .ok () { t with links := l } := by
  apply forM_range_eq (P := (Loaded s made · j)) h
  intro i hi l hl
  have hlt := hi.trans_le hgroups
  exact ⟨_, hl.setOwner hlt,
    Tree.setOwner_of_lt (t := { t with links := l }) (hlt.trans_eq hl.groupCapacity_eq.symm) _⟩

theorem forM_setFirstChild_eq (h : Loaded s made i 0 t.links)
    (hnodes : s.firstChildren.size ≤ made.capacity) :
    ∃ l, Loaded s made i s.firstChildren.size l ∧
      (List.range s.firstChildren.size).forM
        (fun node => Tree.setFirstChild node (s.firstChildren.getD node none)) t =
          .ok () { t with links := l } := by
  apply forM_range_eq (P := Loaded s made i) h
  intro j hj l hl
  have hlt := hj.trans_le hnodes
  exact ⟨_, hl.setFirstChild hlt,
    Tree.setFirstChild_of_lt (t := { t with links := l }) (hlt.trans_eq hl.nodeCapacity_eq.symm) _⟩

/-- **Loading.**  A snapshot is loaded into a new tree whose tables have a place for each of its entries. -/
theorem load_eq (groups : Nat) (hmade : made = Tree.rootOnly n groupRoom)
    (hgroups : s.parents.size ≤ made.groupCapacity)
    (hnodes : s.firstChildren.size ≤ made.capacity) :
    made.perform (load s groups) = .ok ((), fill s groups made) := by
  have hstart : Loaded s made 0 0 made.links := by
    rw [hmade]
    exact .start s n groupRoom
  obtain ⟨l, hl, howners⟩ := forM_setOwner_eq hstart hgroups
  obtain ⟨m, hm, hchildren⟩ := forM_setFirstChild_eq (t := { made with links := l }) hl hnodes
  obtain rfl := hm.eq_fill groups hgroups hnodes
  rw [Tree.perform, load, Tree.bind_of_ok howners, Tree.bind_of_ok hchildren]
  rfl

end Orthtree.Snapshot
