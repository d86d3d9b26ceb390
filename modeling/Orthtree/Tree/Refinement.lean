import Orthtree.Tree.Lemmas
import Orthtree.Tree.Traversal

/-!
# Refining and coarsening

A leaf is refined by giving it the lowest free group as its children, and coarsened again by freeing that group.  Both
check everything before they change anything.  All other nodes keep their numbers and their links.
-/

namespace Orthtree.Tree

variable {n : Nat}

/-! ## The range of groups in use -/

/-- The lowest free group from `group` on, or the first one past the `more` groups that are looked at.  The links of these
must have a place in the tables. -/
def freeFrom (t : Tree n) (group : Nat) : (more : Nat) → Except Fault Nat
  | 0 => .ok group
  | more + 1 => do
    if (← t.ownerAt group).isNone then return group else freeFrom t (group + 1) more

/-- The lowest free group from `group` on, or the number of groups if there is none. -/
def nextFree (t : Tree n) (group : Nat) : Except Fault Nat :=
  if group < t.groupCapacity then t.freeFrom group (t.groupCapacity - group) else .ok t.groupCapacity

/-- One past the highest group below `stop` that is in use; group 0 always is. -/
def usedEnd (l : Links) : (stop : Nat) → Nat
  | 0 => 0
  | 1 => 1
  | stop + 2 => if (l.owner (stop + 1)).isNone then usedEnd l (stop + 1) else stop + 2

/-- One past the highest group below `stop` that is in use.  The search goes down from the group before `stop`, whose
link must have a place in the tables unless it is the root's. -/
def lastInUse (t : Tree n) (stop : Nat) : Except Fault Nat :=
  if stop ≤ 1 ∨ stop ≤ t.groupCapacity then .ok (usedEnd t.links stop) else .error .outOfRange

/-- Lowers the end of the groups in use past those that are free. -/
def lowerGroupEnd : Edit n Unit := do
  let stop ← ask fun t => t.lastInUse t.groupEnd
  modify fun t => { t with groupEnd := stop }

/-- If the end lies inside the tables, the search downwards is not refused. -/
theorem lowerGroupEnd_of_le {t : Tree n} (h : t.groupEnd ≤ t.groupCapacity) :
    lowerGroupEnd t = .ok () { t with groupEnd := usedEnd t.links t.groupEnd } := by
  rw [lowerGroupEnd, bind_of_ok (ask_of_ok (if_pos (Or.inr h)))]
  rfl

/-- Looking at groups that all have a place in the tables ends at a free one or past the last of them, and those passed
over have owners. -/
theorem exists_freeFrom {t : Tree n} {group more : Nat} (h : group + more ≤ t.groupCapacity) :
    ∃ free, t.freeFrom group more = .ok free ∧ group ≤ free ∧ free ≤ group + more ∧
      (free < group + more → t.links.owner free = none) ∧
      ∀ g, group ≤ g → g < free → (t.links.owner g).isSome := by
  induction more generalizing group with
  | zero =>
    refine ⟨group, rfl, Nat.le_refl _, Nat.le_refl _, fun hlt => absurd hlt (Nat.lt_irrefl _), ?_⟩
    intro g hle hlt
    omega
  | succ more ih =>
    have hread : t.freeFrom group (more + 1) =
        if (t.links.owner group).isNone then .ok group else t.freeFrom (group + 1) more := by
      rw [freeFrom, ownerAt_of_lt (by omega)]
      rfl
    rw [hread]
    split
    · next hfree =>
      refine ⟨group, rfl, Nat.le_refl _, Nat.le_add_right _ _, ?_, ?_⟩
      · exact fun _ => Option.isNone_iff_eq_none.1 hfree
      · intro g hle hlt
        omega
    · next hused =>
      -- The search goes on behind a group in use.
      have hnext : group + 1 + more ≤ t.groupCapacity := by omega
      obtain ⟨free, hfound, hle, hbound, hfree, hpassed⟩ := ih hnext
      refine ⟨free, hfound, by omega, by omega, fun hlt => hfree (by omega), ?_⟩
      intro g hg hlt
      rcases Nat.eq_or_lt_of_le hg with rfl | hg
      · rwa [Option.isNone_iff_eq_none, ← ne_eq, ← Option.isSome_iff_ne_none] at hused
      · exact hpassed g hg hlt

/-- The search upwards is never refused.  The group it finds is free if it has a place in the tables, and no group passed
over is. -/
theorem exists_nextFree {t : Tree n} {group : Nat} (h : group ≤ t.groupCapacity) :
    ∃ free, t.nextFree group = .ok free ∧ group ≤ free ∧ t.links.owner free = none ∧
      ∀ g, group ≤ g → g < free → (t.links.owner g).isSome := by
  rw [nextFree]
  split
  · next hlt =>
    have hall : group + (t.groupCapacity - group) = t.groupCapacity := Nat.add_sub_of_le h
    obtain ⟨free, hfound, hle, hbound, hfree, hpassed⟩ := exists_freeFrom (Nat.le_of_eq hall)
    rw [hall] at hbound hfree
    refine ⟨free, hfound, hle, ?_, hpassed⟩
    rcases Nat.lt_or_eq_of_le hbound with hlt | rfl
    · exact hfree hlt
    · exact Links.owner_of_le (Nat.le_refl _)
  · exact ⟨_, rfl, h, Links.owner_of_le (Nat.le_refl _), fun g hle hlt => by omega⟩

/-- No group from the end of the groups in use up to the place where the search began has an owner. -/
theorem owner_of_usedEnd_le {l : Links} {stop g : Nat} (hle : usedEnd l stop ≤ g) (hlt : g < stop)
    (hg : g ≠ 0) : l.owner g = none := by
  fun_induction usedEnd l stop with
  | case1 => omega
  | case2 => omega
  | case3 stop hfree ih =>
    rcases Nat.eq_or_lt_of_le (Nat.le_of_lt_succ hlt) with rfl | hlt'
    · exact Option.isNone_iff_eq_none.1 hfree
    · exact ih hle (by omega)
  | case4 => omega

/-- The highest group in use has an owner, unless it is the root's. -/
theorem isSome_owner_usedEnd {l : Links} {stop : Nat} (h : 1 < usedEnd l stop) :
    (l.owner (usedEnd l stop - 1)).isSome := by
  fun_induction usedEnd l stop with
  | case1 => omega
  | case2 => omega
  | case3 stop _ ih => exact ih h
  | case4 stop hused =>
    rwa [Option.isNone_iff_eq_none, ← ne_eq, ← Option.isSome_iff_ne_none] at hused

/-! ## Refining -/

/-- Makes the free group `group` the children of `node`. -/
def attach (node group : Nat) : Edit n Unit := do
  let size ← ask fun t => Bounded.count (t.size + 2 ^ n)
  modify fun t => { t with size }
  setOwner group (some node)
  let first ← ask fun _ => Group.first n group
  setFirstChild node (some first)
  let next ← ask fun _ => Bounded.index (group + 1)
  let firstFree ← ask fun t => t.nextFree next
  modify fun t => { t with firstFree, groupEnd := max t.groupEnd next }

/-- Gives the leaf `node` children in the lowest free group, and answers with that group; a full tree stays as it is. -/
def refine (node : Nat) : Edit n (Option Nat) := do
  if ← ask (·.contains node) then
    if ← ask (·.isLeaf node) then
      let t ← get
      if t.size = t.capacity then
        return none
      else
        let group := t.firstFree
        attach node group
        return some group
    else
      throw (.refineBranch node)
  else
    throw (.refineFree node)

/-- A full tree refuses no leaf, and stays as it is. -/
theorem refine_of_full {t : Tree n} {node : Nat} (hnode : t.contains node = .ok true)
    (hleaf : t.isLeaf node = .ok true) (hfull : t.size = t.capacity) :
    refine node t = .ok none t := by
  have hget : (get : Edit n (Tree n)) t = .ok t t := rfl
  rw [refine, bind_of_ok (ask_of_ok hnode), if_pos rfl, bind_of_ok (ask_of_ok hleaf), if_pos rfl,
    bind_of_ok hget, if_pos hfull]
  rfl

/-- A free node is not refined. -/
theorem refine_of_free {t : Tree n} {node : Nat} (hnode : t.contains node = .ok false) :
    refine node t = .error (.refineFree node) t := by
  rw [refine, bind_of_ok (ask_of_ok hnode)]
  rfl

/-- A node with children is not refined. -/
theorem refine_of_branch {t : Tree n} {node : Nat} (hnode : t.contains node = .ok true)
    (hleaf : t.isLeaf node = .ok false) : refine node t = .error (.refineBranch node) t := by
  rw [refine, bind_of_ok (ask_of_ok hnode), if_pos rfl, bind_of_ok (ask_of_ok hleaf)]
  rfl

/-! ## Coarsening -/

/-- Frees the group `group`, which holds the children of `node`. -/
def detach (node group : Nat) : Edit n Unit := do
  let size ← ask fun t => Bounded.sub t.size (2 ^ n)
  modify fun t => { t with size, firstFree := min t.firstFree group }
  setOwner group none
  setFirstChild node none
  let next ← ask fun _ => Bounded.index (group + 1)
  if (← get).groupEnd = next then
    lowerGroupEnd

/-- Every child of `node` is a leaf. -/
def hasLeavesOnly (t : Tree n) (node : Nat) : Except Fault Bool := do
  (← t.children node).toList.allM t.isLeaf

/-- Removes the children of `node`, which must all be leaves. -/
def coarsen (node : Nat) : Edit n Unit := do
  if ← ask (·.contains node) then
    match ← ask (·.childrenGroup node) with
    | some group =>
      if ← ask (·.hasLeavesOnly node) then
        detach node group
      else
        throw (.coarsenDeep node)
    | none => throw (.coarsenLeaf node)
  else
    throw (.coarsenFree node)

end Orthtree.Tree
