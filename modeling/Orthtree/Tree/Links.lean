/-!
# Links

The edges of a tree are stored twice: every sibling group has a link up to the node that owns it, and every node a link
down to its first child.  A link that is absent is `none`; so is a link asked for past the end of its table.  Each
update has one lemma for each table, which says what is found there afterwards.
-/

namespace Orthtree

/-- The links between nodes and sibling groups. -/
structure Links where
  /-- The node whose children each group holds. -/
  owners : Array (Option Nat)
  /-- The first child of each node. -/
  firstChildren : Array (Option Nat)
deriving DecidableEq

namespace Links

/-- Tables for `groups` groups and `nodes` nodes, without any link. -/
def empty (groups nodes : Nat) : Links :=
  ⟨Array.replicate groups none, Array.replicate nodes none⟩

/-- The number of groups that have a place in the tables. -/
def groupCapacity (l : Links) : Nat := l.owners.size

/-- The number of nodes that have a place in the tables. -/
def nodeCapacity (l : Links) : Nat := l.firstChildren.size

/-- The node whose children `group` holds. -/
def owner (l : Links) (group : Nat) : Option Nat := l.owners.getD group none

/-- The first child of `node`. -/
def firstChild (l : Links) (node : Nat) : Option Nat := l.firstChildren.getD node none

/-- Makes `owner` the node whose children `group` holds. -/
def setOwner (l : Links) (group : Nat) (owner : Option Nat) : Links :=
  { l with owners := l.owners.setIfInBounds group owner }

/-- Makes `child` the first child of `node`. -/
def setFirstChild (l : Links) (node : Nat) (child : Option Nat) : Links :=
  { l with firstChildren := l.firstChildren.setIfInBounds node child }

/-- Exchanges the links down from two nodes. -/
def exchangeChildren (l : Links) (a b : Nat) : Links :=
  { l with firstChildren := l.firstChildren.swapIfInBounds a b }

/-! ## What an update changes -/

@[simp]
theorem groupCapacity_empty (groups nodes : Nat) : (empty groups nodes).groupCapacity = groups := by
  simp [groupCapacity, empty]

@[simp]
theorem nodeCapacity_empty (groups nodes : Nat) : (empty groups nodes).nodeCapacity = nodes := by
  simp [nodeCapacity, empty]

@[simp]
theorem owner_empty (groups nodes group : Nat) : (empty groups nodes).owner group = none := by
  simp [owner, empty, Array.getD_eq_getD_getElem?, Array.getElem?_replicate]
  split <;> rfl

@[simp]
theorem firstChild_empty (groups nodes node : Nat) :
    (empty groups nodes).firstChild node = none := by
  simp [firstChild, empty, Array.getD_eq_getD_getElem?, Array.getElem?_replicate]
  split <;> rfl

/-- Past the end of the table no group has an owner. -/
theorem owner_of_le {l : Links} {group : Nat} (h : l.groupCapacity ≤ group) :
    l.owner group = none := by
  simp only [owner, Array.getD_eq_getD_getElem?]
  rw [Array.getElem?_eq_none h]
  rfl

/-- Past the end of the table no node has children. -/
theorem firstChild_of_le {l : Links} {node : Nat} (h : l.nodeCapacity ≤ node) :
    l.firstChild node = none := by
  simp only [firstChild, Array.getD_eq_getD_getElem?]
  rw [Array.getElem?_eq_none h]
  rfl

@[simp]
theorem groupCapacity_setOwner (l : Links) (group : Nat) (p : Option Nat) :
    (l.setOwner group p).groupCapacity = l.groupCapacity := by
  simp [groupCapacity, setOwner]

@[simp]
theorem nodeCapacity_setOwner (l : Links) (group : Nat) (p : Option Nat) :
    (l.setOwner group p).nodeCapacity = l.nodeCapacity := rfl

@[simp]
theorem firstChild_setOwner (l : Links) (group : Nat) (p : Option Nat) (node : Nat) :
    (l.setOwner group p).firstChild node = l.firstChild node := rfl

/-- Writing an owner changes one entry. -/
theorem owner_setOwner {l : Links} {group : Nat} (h : group < l.groupCapacity) (p : Option Nat)
    (g : Nat) : (l.setOwner group p).owner g = if g = group then p else l.owner g := by
  simp only [owner, setOwner, Array.getD_eq_getD_getElem?, Array.getElem?_setIfInBounds]
  have h' : group < l.owners.size := h
  by_cases hg : g = group
  · subst hg
    simp [h']
  · simp [hg, Ne.symm hg]

@[simp]
theorem groupCapacity_setFirstChild (l : Links) (node : Nat) (c : Option Nat) :
    (l.setFirstChild node c).groupCapacity = l.groupCapacity := rfl

@[simp]
theorem nodeCapacity_setFirstChild (l : Links) (node : Nat) (c : Option Nat) :
    (l.setFirstChild node c).nodeCapacity = l.nodeCapacity := by
  simp [nodeCapacity, setFirstChild]

@[simp]
theorem owner_setFirstChild (l : Links) (node : Nat) (c : Option Nat) (group : Nat) :
    (l.setFirstChild node c).owner group = l.owner group := rfl

/-- Writing a first child changes one entry. -/
theorem firstChild_setFirstChild {l : Links} {node : Nat} (h : node < l.nodeCapacity)
    (c : Option Nat) (v : Nat) :
    (l.setFirstChild node c).firstChild v = if v = node then c else l.firstChild v := by
  simp only [firstChild, setFirstChild, Array.getD_eq_getD_getElem?, Array.getElem?_setIfInBounds]
  have h' : node < l.firstChildren.size := h
  by_cases hv : v = node
  · subst hv
    simp [h']
  · simp [hv, Ne.symm hv]

@[simp]
theorem groupCapacity_exchangeChildren (l : Links) (a b : Nat) :
    (l.exchangeChildren a b).groupCapacity = l.groupCapacity := rfl

@[simp]
theorem nodeCapacity_exchangeChildren (l : Links) (a b : Nat) :
    (l.exchangeChildren a b).nodeCapacity = l.nodeCapacity := by
  simp [nodeCapacity, exchangeChildren]

@[simp]
theorem owner_exchangeChildren (l : Links) (a b group : Nat) :
    (l.exchangeChildren a b).owner group = l.owner group := rfl

/-- Exchanging children changes at most two entries. -/
theorem firstChild_exchangeChildren {l : Links} {a b : Nat} (ha : a < l.nodeCapacity)
    (hb : b < l.nodeCapacity) (v : Nat) :
    (l.exchangeChildren a b).firstChild v =
      if v = a then l.firstChild b else if v = b then l.firstChild a else l.firstChild v := by
  have ha' : a < l.firstChildren.size := ha
  have hb' : b < l.firstChildren.size := hb
  simp only [firstChild, exchangeChildren, Array.swapIfInBounds, ha', hb', dif_pos,
    Array.getD_eq_getD_getElem?, Array.getElem?_swap]
  by_cases hva : v = a <;> by_cases hvb : v = b <;> simp_all [eq_comm]

end Links

end Orthtree
