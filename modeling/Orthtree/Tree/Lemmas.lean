import Orthtree.Tree.Basic

/-!
# What queries and steps answer

Inside the capacity every query answers from the links; past it, a query about a node is refused.  A step of an edit
inside the capacity changes the links it names and nothing else.
-/

namespace Orthtree.Tree

variable {n : Nat} {t : Tree n} {node group : Nat}

/-! ## Queries inside the capacity -/

theorem checkNode_of_lt (h : node < t.capacity) : t.checkNode node = .ok () := if_pos h

theorem checkGroup_of_lt (h : group < t.groupCapacity) : t.checkGroup group = .ok () := if_pos h

theorem ownerAt_of_lt (h : group < t.groupCapacity) :
    t.ownerAt group = .ok (t.links.owner group) := if_pos h

theorem firstChildAt_of_lt (h : node < t.capacity) :
    t.firstChildAt node = .ok (t.links.firstChild node) := if_pos h

/-- A group is in use iff it is the root's or some node owns it. -/
theorem isInUse_of_lt (h : group < t.groupCapacity) :
    t.isInUse group = .ok (decide (group = 0) || (t.links.owner group).isSome) := by
  simp only [isInUse, checkGroup_of_lt h, ownerAt_of_lt h, bind, Except.bind, pure, Except.pure]
  split <;> simp_all

/-- A node is in the tree iff its group is in use. -/
theorem contains_of_lt (h : node < t.capacity) :
    t.contains node = t.isInUse (Group.ofNode n node) := if_pos h

theorem firstChild_of_lt (h : node < t.capacity) :
    t.firstChild node = .ok (t.links.firstChild node) := by
  simp [firstChild, checkNode_of_lt h, firstChildAt_of_lt h, bind, Except.bind]

theorem isLeaf_of_lt (h : node < t.capacity) :
    t.isLeaf node = .ok (t.links.firstChild node).isNone := by
  simp [isLeaf, firstChild_of_lt h, bind, Except.bind, pure, Except.pure]

theorem childrenGroup_of_lt (h : node < t.capacity) :
    t.childrenGroup node = .ok ((t.links.firstChild node).map (Group.ofNode n)) := by
  simp [childrenGroup, firstChild_of_lt h, bind, Except.bind, pure, Except.pure]

theorem parent_root (h : 0 < t.capacity) : t.parent 0 = .ok none := by
  simp [parent, checkNode_of_lt h, bind, Except.bind, pure, Except.pure]

/-- The parent of a node is the owner of its group. -/
theorem parent_of_lt (h : node < t.capacity) (hnode : node ≠ 0)
    (hgroup : Group.ofNode n node < t.groupCapacity) :
    t.parent node = .ok (t.links.owner (Group.ofNode n node)) := by
  simp [parent, checkNode_of_lt h, hnode, ownerAt_of_lt hgroup, bind, Except.bind]

theorem positionInParent_of_lt (h : node < t.capacity) (hnode : node ≠ 0) :
    t.positionInParent node = .ok (some ((node - 1) % 2 ^ n)) := by
  simp [positionInParent, checkNode_of_lt h, hnode, bind, Except.bind, pure, Except.pure]

/-! ## Queries past the capacity -/

theorem checkNode_of_le (h : t.capacity ≤ node) :
    t.checkNode node = .error (.nodeRange node t.capacity) := if_neg (Nat.not_lt.2 h)

theorem checkGroup_of_le (h : t.groupCapacity ≤ group) :
    t.checkGroup group = .error (.groupRange group t.groupCapacity) := if_neg (Nat.not_lt.2 h)

theorem contains_of_le (h : t.capacity ≤ node) : t.contains node = .ok false :=
  if_neg (Nat.not_lt.2 h)

theorem isInUse_of_le (h : t.groupCapacity ≤ group) :
    t.isInUse group = .error (.groupRange group t.groupCapacity) := by
  simp [isInUse, checkGroup_of_le h, bind, Except.bind]

theorem isLeaf_of_le (h : t.capacity ≤ node) :
    t.isLeaf node = .error (.nodeRange node t.capacity) := by
  simp [isLeaf, firstChild, checkNode_of_le h, bind, Except.bind]

/-! ## Steps of an edit -/

variable {α β : Type}

/-- An edit goes on with the answer and the tree of its first part. -/
theorem bind_of_ok {edit : Edit n α} {next : α → Edit n β} {a : α} {u : Tree n}
    (h : edit t = .ok a u) : (edit >>= next) t = next a u := by
  simp [bind, EStateM.bind, h]

/-- An edit ends where its first part is refused. -/
theorem bind_of_error {edit : Edit n α} {next : α → Edit n β} {e : Fault} {u : Tree n}
    (h : edit t = .error e u) : (edit >>= next) t = .error e u := by
  simp [bind, EStateM.bind, h]

theorem bind_get (next : Tree n → Edit n α) (t : Tree n) :
    ((get : Edit n (Tree n)) >>= next) t = next t t := rfl

theorem bind_modify (f : Tree n → Tree n) (next : Unit → Edit n α) (t : Tree n) :
    ((modify f : Edit n Unit) >>= next) t = next () (f t) := rfl

theorem ask_of_ok {query : Tree n → Except Fault α} {a : α} (h : query t = .ok a) :
    ask query t = .ok a t := by
  simp [ask, h]

theorem ask_of_error {query : Tree n → Except Fault α} {e : Fault} (h : query t = .error e) :
    ask query t = .error e t := by
  simp [ask, h]

theorem setOwner_of_lt (h : group < t.groupCapacity) (owner : Option Nat) :
    setOwner group owner t = .ok () { t with links := t.links.setOwner group owner } := if_pos h

theorem setFirstChild_of_lt (h : node < t.capacity) (child : Option Nat) :
    setFirstChild node child t = .ok () { t with links := t.links.setFirstChild node child } :=
  if_pos h

theorem exchangeChildren_of_lt {a b : Nat} (ha : a < t.capacity) (hb : b < t.capacity) :
    exchangeChildren a b t = .ok () { t with links := t.links.exchangeChildren a b } :=
  if_pos ⟨ha, hb⟩

end Orthtree.Tree
