import Mathlib.Data.Finset.Range
import Orthtree.Proofs.Renumbering

/-!
# Depth-first walks

`Walk visited stack` says that the depth-first walk from the root has visited `visited`, in this order, and has
`stack` still to visit.  In a linked tree a walk never meets a node twice (`Walk.nodup`): a child is pushed when its
one parent is visited, and a parent is visited once.  So the walk ends within the steps that `depthFirst` allows, even
if the links of other nodes lead in a circle, and in a valid tree it visits all live nodes (`Walk.mem_iff_live`).  The
groups of the children in the order of the walk, `childrenGroups`, are what `isSorted` looks at.
-/

namespace Orthtree.Tree

variable {n : Nat} {t : Tree n} {skip : Nat → Bool} {node steps : Nat}
  {visited stack order rest : List Nat}

/-- The states of the depth-first walk from the root. -/
inductive Walk (t : Tree n) : List Nat → List Nat → Prop
  /-- At first the root is to be visited. -/
  | start : Walk t [] [0]
  /-- The first node of the stack is visited, and its children take its place. -/
  | step {visited stack : List Nat} {node : Nat} : Walk t visited (node :: stack) →
      Walk t (visited ++ [node]) (t.below node ++ stack)

/-- There is room for all nodes of a list that names only live nodes, each once. -/
theorem Sized.length_le (ht : t.Sized) (hnodup : order.Nodup) (hlive : ∀ x ∈ order, t.Live x) :
    order.length ≤ t.capacity := by
  have hsub : order.toFinset ⊆ Finset.range t.capacity := fun x hx =>
    Finset.mem_range.2 ((hlive x (List.mem_toFinset.1 hx)).lt_capacity ht)
  have hcard := Finset.card_le_card hsub
  rwa [List.toFinset_card_of_nodup hnodup, Finset.card_range] at hcard

/-! ## The invariant of a walk -/

/-- A step adds the children of the visited node to the nodes met. -/
theorem perm_step (visited stack children : List Nat) (node : Nat) :
    ((visited ++ [node]) ++ (children ++ stack)).Perm (children ++ (visited ++ node :: stack)) := by
  have hleft : (visited ++ [node]) ++ (children ++ stack) =
      ((visited ++ [node]) ++ children) ++ stack := (List.append_assoc _ _ _).symm
  have hright : children ++ (visited ++ node :: stack) =
      (children ++ (visited ++ [node])) ++ stack := by simp
  rw [hleft, hright]
  exact List.perm_append_comm.append_right stack

namespace Walk

/-- Every node met but the root is a child of a visited node. -/
theorem owner_mem (ht : t.Linked) (h : t.Walk visited stack) {x : Nat}
    (hx : x ∈ visited ++ stack) :
    x = 0 ∨ ∃ p ∈ visited, t.links.owner (Group.ofNode n x) = some p := by
  induction h with
  | start => simpa using hx
  | @step visited stack node h ih =>
      rcases List.mem_append.1 ((perm_step visited stack _ node).mem_iff.1 hx) with hx | hx
      · exact Or.inr ⟨node, by simp, (mem_below_iff_owner ht).1 hx⟩
      · rcases ih hx with hzero | ⟨p, hp, howner⟩
        · exact Or.inl hzero
        · exact Or.inr ⟨p, List.mem_append_left _ hp, howner⟩

/-- All nodes met are live. -/
theorem live (ht : t.Linked) (h : t.Walk visited stack) {x : Nat} (hx : x ∈ visited ++ stack) :
    t.Live x := by
  rcases h.owner_mem ht hx with rfl | ⟨p, -, howner⟩
  · exact t.live_zero
  · exact inUse_of_owner howner

/-- No node is met twice. -/
theorem nodup (ht : t.Linked) (h : t.Walk visited stack) : (visited ++ stack).Nodup := by
  induction h with
  | start => simp
  | @step visited stack node h ih =>
      rw [(perm_step visited stack _ node).nodup_iff, List.nodup_append]
      refine ⟨nodup_below t node, ih, ?_⟩
      rintro c hc _ hc' rfl
      have howner := (mem_below_iff_owner ht).1 hc
      -- A child met before would have a parent visited before, but its parent is `node`.
      rcases h.owner_mem ht hc' with rfl | ⟨p, hp, howner'⟩
      · rw [Group.ofNode_zero, ht.paired.owner_root] at howner
        cases howner
      · obtain rfl : p = node := Option.some_injective _ (howner'.symm.trans howner)
        exact (List.nodup_append.1 ih).2.2 p hp p List.mem_cons_self rfl

/-- The root is on the stack at first, and visited later. -/
theorem zero_mem (h : t.Walk visited stack) : 0 ∈ visited ++ stack := by
  induction h with
  | start => simp
  | @step visited stack node h ih =>
      exact (perm_step visited stack _ node).mem_iff.2 (List.mem_append_right _ ih)

/-- The children of visited nodes have been met. -/
theorem below_mem (h : t.Walk visited stack) {x c : Nat} (hx : x ∈ visited)
    (hc : c ∈ t.below x) : c ∈ visited ++ stack := by
  induction h with
  | start => cases hx
  | @step visited stack node h ih =>
      rw [(perm_step visited stack _ node).mem_iff]
      rcases List.mem_append.1 hx with hx | hx
      · exact List.mem_append_right _ (ih hx)
      · rw [List.mem_singleton.1 hx] at hc
        exact List.mem_append_left _ hc

/-- The nodes met fit the capacity. -/
theorem length_le (ht : t.Linked) (h : t.Walk visited stack) :
    visited.length + stack.length ≤ t.capacity := by
  rw [← List.length_append]
  exact ht.toSized.length_le (h.nodup ht) fun _ => h.live ht

/-- A finished walk of a valid tree has visited exactly the live nodes. -/
theorem mem_iff_live (ht : t.Valid) (h : t.Walk order []) {x : Nat} : x ∈ order ↔ t.Live x := by
  refine ⟨fun hx => h.live ht.toLinked (by simpa using hx), ?_⟩
  intro hx
  obtain ⟨path, hpath⟩ := ht.rooted hx
  clear hx
  -- The parent has been visited, and the stack is empty.
  induction path using List.reverseRecOn generalizing x with
  | nil =>
      cases hpath
      simpa using h.zero_mem
  | append_singleton path position ih =>
      obtain ⟨parent, hparent, hchild⟩ := follow_concat_eq_some_iff.1 hpath
      simpa using h.below_mem (ih hparent) (mem_below_iff.2 ⟨position, hchild⟩)

section Agreement

variable {u : Tree n} (hagree : ∀ x ∈ visited, t.links.firstChild x = u.links.firstChild x)

include hagree

/-- Trees that agree on the nodes visited are walked alike. -/
theorem of_firstChild (h : t.Walk visited stack) : u.Walk visited stack := by
  induction h with
  | start => exact .start
  | @step visited stack node h ih =>
      have hbelow : t.below node = u.below node := by
        rw [Tree.below, Tree.below, hagree node (by simp)]
      rw [hbelow]
      exact (ih fun x hx => hagree x (List.mem_append_left _ hx)).step

/-- Every node met is reached from the root, along the same path in all trees that agree on the nodes visited. -/
theorem exists_common_path (h : t.Walk visited stack) {x : Nat} (hx : x ∈ visited ++ stack) :
    ∃ path, t.follow path = some x ∧ u.follow path = some x := by
  induction h generalizing x with
  | start =>
      obtain rfl : x = 0 := by simpa using hx
      exact ⟨[], rfl, rfl⟩
  | @step visited stack node h ih =>
      have hvisited : ∀ x ∈ visited, t.links.firstChild x = u.links.firstChild x :=
        fun x hx => hagree x (List.mem_append_left _ hx)
      rcases List.mem_append.1 ((perm_step visited stack _ node).mem_iff.1 hx) with hx | hx
      · obtain ⟨position, hchild⟩ := mem_below_iff.1 hx
        have hchild' : u.childAt? node position = some x := by
          rwa [childAt?, ← hagree node (by simp)]
        obtain ⟨path, hpath, hpath'⟩ := ih hvisited (x := node) (by simp)
        exact ⟨path ++ [position], follow_concat_eq_some_iff.2 ⟨node, hpath, hchild⟩,
          follow_concat_eq_some_iff.2 ⟨node, hpath', hchild'⟩⟩
      · exact ih hvisited hx

end Agreement

/-- Every node met is reached from the root. -/
theorem exists_path (h : t.Walk visited stack) {x : Nat} (hx : x ∈ visited ++ stack) :
    ∃ path, t.follow path = some x := by
  obtain ⟨path, hpath, -⟩ := h.exists_common_path (fun _ _ => rfl) hx
  exact ⟨path, hpath⟩

/-! ## The end of a walk -/

/-- A walk can be finished, since it meets no more nodes than there is room for. -/
theorem exists_finished (ht : t.Linked) (h : t.Walk visited stack) :
    ∃ rest, t.Walk (visited ++ rest) [] := by
  -- The induction is on the number of nodes for which there is still room.
  induction hleft : t.capacity - visited.length generalizing visited stack with
  | zero =>
      have hlength := h.length_le ht
      obtain rfl : stack = [] := List.eq_nil_of_length_eq_zero (by omega)
      exact ⟨[], by simpa using h⟩
  | succ left ih =>
      cases stack with
      | nil => exact ⟨[], by simpa using h⟩
      | cons node stack =>
          obtain ⟨rest, hrest⟩ := ih h.step (by simp; omega)
          exact ⟨node :: rest, by simpa using hrest⟩

end Walk

/-- What a visit puts on the stack after `node`: its children, unless they are to be passed over. -/
def opened (t : Tree n) (skip : Nat → Bool) (node : Nat) : List Nat :=
  if skip node then [] else t.below node

@[simp]
theorem opened_false (t : Tree n) (node : Nat) : t.opened (fun _ => false) node = t.below node := rfl

/-- One step of a visit. -/
theorem visitStack_cons (ht : t.Linked) (hlt : node < t.capacity) (steps : Nat)
    (stack : List Nat) :
    t.visitStack skip (steps + 1) (node :: stack) =
      (t.visitStack skip steps (t.opened skip node ++ stack)).map (node :: ·) := by
  rw [visitStack, opened, children_eq ht hlt, ← toList_childSpan]
  cases skip node <;> rfl

theorem visitStack_nil (t : Tree n) (skip : Nat → Bool) (steps : Nat) :
    t.visitStack skip steps [] = .ok [] := by
  cases steps <;> rfl

/-- Yielding one node after the other takes the steps of visiting them all. -/
theorem yielded_eq_visitStack (t : Tree n) (steps : Nat) (stack : List Nat) :
    t.yielded steps stack = t.visitStack (fun _ => false) steps stack := by
  induction steps generalizing stack with
  | zero => cases stack <;> rfl
  | succ steps ih =>
      cases stack with
      | nil => rfl
      | cons node stack =>
          simp only [yielded, nextNode, visitStack, ih]
          cases t.children node <;> rfl

namespace Walk

/-- What is visited from the root on is what has been visited and what is visited from the stack on. -/
theorem visitStack_eq (ht : t.Linked) (h : t.Walk visited stack)
    (hrest : t.visitStack (fun _ => false) steps stack = .ok rest) :
    t.visitStack (fun _ => false) (visited.length + steps) [0] = .ok (visited ++ rest) := by
  induction h generalizing steps rest with
  | start => simpa using hrest
  | @step visited stack node h ih =>
      have hlt : node < t.capacity := (h.live ht (by simp)).lt_capacity ht.toSized
      have hnode : t.visitStack (fun _ => false) (steps + 1) (node :: stack) =
          .ok (node :: rest) := by
        rw [visitStack_cons ht hlt, opened_false, hrest]
        rfl
      have hroot := ih hnode
      rwa [List.append_cons, show visited.length + (steps + 1) =
        (visited ++ [node]).length + steps by simp; omega] at hroot

/-- The nodes of the finished walk are yielded in as many steps as there are nodes. -/
theorem yielded_eq (ht : t.Linked) (h : t.Walk order []) (hsteps : order.length ≤ steps) :
    t.yielded steps [0] = .ok order := by
  have hroot := h.visitStack_eq ht (t.visitStack_nil _ (steps - order.length))
  rwa [Nat.add_sub_cancel' hsteps, List.append_nil, ← yielded_eq_visitStack] at hroot

/-- `depthFirst` lists the nodes of the finished walk. -/
theorem depthFirst_eq (ht : t.Linked) (h : t.Walk order []) : t.depthFirst = .ok order :=
  h.yielded_eq ht (h.length_le ht)

/-- There is only one finished walk. -/
theorem unique (ht : t.Linked) {order' : List Nat} (h : t.Walk order []) (h' : t.Walk order' []) :
    order = order' :=
  Except.ok.inj ((h.depthFirst_eq ht).symm.trans (h'.depthFirst_eq ht))

/-- All other walks are beginnings of the finished one. -/
theorem exists_rest (ht : t.Linked) (h : t.Walk visited stack) (horder : t.Walk order []) :
    ∃ rest, order = visited ++ rest := by
  obtain ⟨rest, hrest⟩ := h.exists_finished ht
  exact ⟨rest, horder.unique ht hrest⟩

end Walk

/-- The depth-first walk ends. -/
theorem exists_walk (ht : t.Linked) : ∃ order, t.Walk order [] := by
  obtain ⟨order, horder⟩ := Walk.start.exists_finished ht
  exact ⟨order, horder⟩

/-! ## Groups of children -/

/-- The groups of the children of those nodes that have some. -/
def childrenGroups (t : Tree n) (nodes : List Nat) : List Nat :=
  nodes.filterMap fun node => (t.links.firstChild node).map (Group.ofNode n)

theorem childrenGroups_append (t : Tree n) (xs ys : List Nat) :
    t.childrenGroups (xs ++ ys) = t.childrenGroups xs ++ t.childrenGroups ys :=
  List.filterMap_append

/-- Visiting a leaf adds no group. -/
theorem childrenGroups_concat_leaf (hleaf : t.links.firstChild node = none) :
    t.childrenGroups (visited ++ [node]) = t.childrenGroups visited := by
  rw [childrenGroups_append]
  simp [childrenGroups, hleaf]

/-- Visiting a branch adds the group of its children. -/
theorem childrenGroups_concat_branch {group : Nat}
    (hfirst : t.links.firstChild node = some (Group.start n group)) :
    t.childrenGroups (visited ++ [node]) = t.childrenGroups visited ++ [group] := by
  rw [childrenGroups_append]
  simp [childrenGroups, hfirst, Group.ofNode_start]

/-- The groups listed are those that the nodes own. -/
theorem mem_childrenGroups_iff (ht : t.Linked) {nodes : List Nat} {group : Nat} :
    group ∈ t.childrenGroups nodes ↔ ∃ node ∈ nodes, t.links.owner group = some node := by
  simp only [childrenGroups, List.mem_filterMap, Option.map_eq_some_iff]
  apply exists_congr
  intro node
  apply and_congr_right
  intro _
  constructor
  · rintro ⟨first, hfirst, rfl⟩
    obtain ⟨group, -, rfl, howner⟩ := ht.paired.exists_owner hfirst
    rwa [Group.ofNode_start]
  · intro howner
    exact ⟨_, ((ht.paired.owner_iff group node).1 howner).2, Group.ofNode_start n group⟩

/-- The groups that `isSorted` looks at are those of the children of all nodes, in depth-first order. -/
theorem branchGroups_eq (ht : t.Linked) (h : t.Walk order []) :
    t.branchGroups = .ok (t.childrenGroups order) := by
  have hgroups : order.mapM t.childrenGroup =
      .ok (order.map fun node => (t.links.firstChild node).map (Group.ofNode n)) :=
    mapM_eq fun x hx => childrenGroup_of_lt ((h.live ht (by simpa using hx)).lt_capacity ht.toSized)
  rw [branchGroups, h.depthFirst_eq ht]
  simp only [bind, Except.bind, hgroups, pure, Except.pure, List.filterMap_map]
  rfl

/-- `isSorted` compares the groups with their ranks in the walk. -/
theorem isSorted_eq (ht : t.Linked) (h : t.Walk order []) : t.isSorted =
    .ok (decide (t.childrenGroups order = List.range' 1 (t.childrenGroups order).length)) := by
  rw [isSorted, branchGroups_eq ht h]
  rfl

/-! ## Renumbered walks -/

/-- A renumbered tree is walked in the same order. -/
theorem Renumbers.walk {u : Tree n} {σ : Equiv.Perm Nat} (h : Renumbers σ t u) (ht : t.Linked)
    (hwalk : t.Walk visited stack) :
    u.Walk (visited.map (Group.renumber n σ)) (stack.map (Group.renumber n σ)) := by
  induction hwalk with
  | start => simpa [h.root] using Walk.start (t := u)
  | step _ ih => simpa [h.below_apply ht] using ih.step

/-- Renumbering a tree renumbers the groups of the children. -/
theorem Renumbers.childrenGroups_map {u : Tree n} {σ : Equiv.Perm Nat} (h : Renumbers σ t u)
    (nodes : List Nat) :
    u.childrenGroups (nodes.map (Group.renumber n σ)) = (t.childrenGroups nodes).map σ := by
  rw [childrenGroups, childrenGroups, List.filterMap_map, List.map_filterMap]
  congr 1
  funext node
  rw [Function.comp_apply, h.firstChild_apply, Option.map_map, Option.map_map]
  exact congrArg (Option.map · _) (funext fun first => Group.ofNode_renumber h.root first)

end Orthtree.Tree
