import Mathlib.Data.List.Sort
import Orthtree.Proofs.DepthFirst
import Orthtree.Proofs.Histories
import Orthtree.Proofs.Places

/-!
# Visits that pass over descendants

A visit from a node meets what is `Shown` of its subtree: the nodes with no proper ancestor there whose descendants are
passed over.  `Visiting` is the invariant of its loop.  The nodes met so far stand in the order of their paths, those on
the stack branch off beside each other, so that whole subtrees do, and every node shown has been visited or is shown
from a node on the stack.  The order is that of the paths, whatever is passed over: so a visit is the part of the
depth-first order that is shown (`Reachable.visit_exact`).
-/

namespace Orthtree

variable {n : Nat} {p q r : List Nat} {i j : Nat}

/-! ## The order of paths -/

/-- `q` branches off from `p`, to a later child. -/
def LeftOf (p q : List Nat) : Prop :=
  ∃ w i j r s, i < j ∧ p = w ++ i :: r ∧ q = w ++ j :: s

theorem leftOf_concat (p : List Nat) (h : i < j) : LeftOf (p ++ [i]) (p ++ [j]) :=
  ⟨p, i, j, [], [], h, rfl, rfl⟩

/-- What has branched off stays apart further down. -/
theorem LeftOf.append (h : LeftOf p q) (r : List Nat) : LeftOf (p ++ r) q := by
  obtain ⟨w, i, j, s, s', hij, rfl, rfl⟩ := h
  exact ⟨w, i, j, s ++ r, s', hij, by simp, rfl⟩

theorem LeftOf.lt (h : LeftOf p q) : p < q := by
  obtain ⟨w, i, j, r, s, hij, rfl, rfl⟩ := h
  exact List.append_left_lt (List.cons_lt_cons_iff.2 (Or.inl hij))

theorem lt_concat (p : List Nat) (i : Nat) : p < p ++ [i] := by
  have h : p ++ [] < p ++ [i] := List.append_left_lt (List.nil_lt_cons i [])
  rwa [List.append_nil] at h

namespace Tree

variable {t : Tree n} {skip : Nat → Bool} {a b c x y z node steps : Nat}
  {visited stack xs ys : List Nat} {R : List Nat → List Nat → Prop}

/-- The paths to two nodes are related. -/
def Along (t : Tree n) (R : List Nat → List Nat → Prop) (x y : Nat) : Prop :=
  ∃ p q, t.follow p = some x ∧ t.follow q = some y ∧ R p q

/-- The order of nodes by their paths is transitive. -/
theorem Along.trans_lt (ht : t.Linked) (hxy : t.Along (· < ·) x y) (hyz : t.Along (· < ·) y z) :
    t.Along (· < ·) x z := by
  obtain ⟨p, q, hp, hq, hpq⟩ := hxy
  obtain ⟨q', r, hq', hr, hqr⟩ := hyz
  obtain rfl := follow_injective ht hq hq'
  exact ⟨p, r, hp, hr, List.lt_trans hpq hqr⟩

theorem Along.lt_of_leftOf (h : t.Along LeftOf x y) : t.Along (· < ·) x y := by
  obtain ⟨p, q, hp, hq, hpq⟩ := h
  exact ⟨p, q, hp, hq, hpq.lt⟩

/-- No node comes before itself. -/
theorem not_along_lt_self (ht : t.Linked) (x : Nat) : ¬t.Along (· < ·) x x := by
  rintro ⟨p, q, hp, hq, h⟩
  rw [follow_injective ht hp hq] at h
  exact List.lt_irrefl q h

/-- No two nodes come before each other. -/
theorem antisymm_along_lt (ht : t.Linked) : Std.Antisymm (t.Along (· < ·)) where
  antisymm x _ hxy hyx := absurd (hxy.trans_lt ht hyx) (not_along_lt_self ht x)

/-- A list in the order of paths names no node twice. -/
theorem nodup_of_pairwise_lt (ht : t.Linked) (h : xs.Pairwise (t.Along (· < ·))) : xs.Nodup := by
  refine h.imp ?_
  rintro x _ hlt rfl
  exact not_along_lt_self ht x hlt

/-- Of two lists in the order of paths, the one whose nodes are all in the other is a part of it. -/
theorem sublist_of_pairwise_lt (ht : t.Linked) (hxs : xs.Pairwise (t.Along (· < ·)))
    (hys : ys.Pairwise (t.Along (· < ·))) (hsub : xs ⊆ ys) : xs.Sublist ys :=
  have := antisymm_along_lt ht
  List.sublist_of_subperm_of_pairwise (List.subperm_of_subset (nodup_of_pairwise_lt ht hxs) hsub)
    hxs hys

/-- Two lists in the order of paths that name the same nodes are equal. -/
theorem eq_of_pairwise_lt (ht : t.Linked) (hxs : xs.Pairwise (t.Along (· < ·)))
    (hys : ys.Pairwise (t.Along (· < ·))) (hmem : ∀ x, x ∈ xs ↔ x ∈ ys) : xs = ys := by
  apply List.Sublist.antisymm
  · exact sublist_of_pairwise_lt ht hxs hys fun x => (hmem x).1
  · exact sublist_of_pairwise_lt ht hys hxs fun x => (hmem x).2

/-- The children of a node branch off from each other. -/
theorem pairwise_below (hp : t.follow p = some node) : (t.below node).Pairwise (t.Along LeftOf) := by
  rw [below_eq_filterMap]
  refine List.pairwise_lt_range.filterMap _ ?_
  intro i j hij c hc d hd
  exact ⟨p ++ [i], p ++ [j], follow_concat_eq_some_iff.2 ⟨node, hp, hc⟩,
    follow_concat_eq_some_iff.2 ⟨node, hp, hd⟩, leftOf_concat p hij⟩

/-! ## Nodes that are shown -/

/-- `x` lies in the subtree of `a`, and no proper ancestor of it there is one whose descendants are passed over. -/
def Shown (t : Tree n) (skip : Nat → Bool) (a x : Nat) : Prop :=
  t.IsAbove a x ∧ ∀ b, b ≠ x → t.IsAbove a b → t.IsAbove b x → skip b = false

/-- `x` is reached from `a`, from node to child, without passing over descendants. -/
def Reached (t : Tree n) (skip : Nat → Bool) : Nat → Nat → Prop :=
  Relation.ReflTransGen fun b c => c ∈ t.opened skip b

theorem mem_opened_iff : c ∈ t.opened skip b ↔ skip b = false ∧ c ∈ t.below b := by
  rw [opened]
  cases skip b <;> simp

/-- The children that a visit puts on the stack stand from left to right. -/
theorem pairwise_opened (hp : t.follow p = some node) :
    (t.opened skip node).Pairwise (t.Along LeftOf) := by
  rw [opened]
  split
  · exact .nil
  · exact pairwise_below hp

/-- What a visit puts on the stack is one step further down. -/
theorem exists_follow_of_mem_opened (hp : t.follow p = some node) (hc : c ∈ t.opened skip node) :
    ∃ i, t.follow (p ++ [i]) = some c := by
  obtain ⟨-, hbelow⟩ := mem_opened_iff.1 hc
  obtain ⟨i, hchild⟩ := mem_below_iff.1 hbelow
  exact ⟨i, follow_concat_eq_some_iff.2 ⟨node, hp, hchild⟩⟩

/-- A node comes before what it opens. -/
theorem along_lt_of_mem_opened (hp : t.follow p = some node) (hc : c ∈ t.opened skip node) :
    t.Along (· < ·) node c := by
  obtain ⟨i, hi⟩ := exists_follow_of_mem_opened hp hc
  exact ⟨p, p ++ [i], hp, hi, lt_concat p i⟩

/-- What has branched off from a node has branched off from what it opens. -/
theorem along_leftOf_of_mem_opened (h : t.Along LeftOf node y)
    (hc : c ∈ t.opened skip node) : t.Along LeftOf c y := by
  obtain ⟨p, q, hp, hq, hpq⟩ := h
  obtain ⟨i, hi⟩ := exists_follow_of_mem_opened hp hc
  exact ⟨p ++ [i], q, hi, hq, hpq.append [i]⟩

/-- What is reached is reached at once or by way of a child. -/
theorem reached_iff : t.Reached skip a x ↔ x = a ∨ ∃ c ∈ t.opened skip a, t.Reached skip c x := by
  rw [Reached, Relation.ReflTransGen.cases_head_iff, eq_comm]

/-- What is reached from a node is a node. -/
theorem Reached.live (ht : t.Linked) (h : t.Reached skip a x) (ha : t.Live a) : t.Live x := by
  induction h with
  | refl => exact ha
  | tail _ hc _ =>
      obtain ⟨-, hbelow⟩ := mem_opened_iff.1 hc
      obtain ⟨i, hchild⟩ := mem_below_iff.1 hbelow
      exact live_of_childAt? ht hchild

/-- The nodes below a node are those whose parent it is. -/
theorem mem_below_iff_parent (ht : t.Linked) : c ∈ t.below b ↔ t.parent c = .ok (some b) := by
  rcases Nat.lt_or_ge c t.capacity with hlt | hge
  · rw [mem_below_iff_owner ht, parent_eq ht hlt, Except.ok.injEq]
  · have hparent : t.parent c = .error (.nodeRange c t.capacity) := by
      rw [parent, checkNode_of_le hge]
      rfl
    have hnone : ¬t.parent c = .ok (some b) := by simp [hparent]
    exact iff_of_false (fun h => Nat.not_lt.2 hge (lt_capacity_of_mem_below ht h)) hnone

/-- No node lies above its parent. -/
theorem not_isAbove_parent (ht : t.Valid) (hc : c ∈ t.below b) : ¬t.IsAbove c b := by
  intro habove
  obtain ⟨i, hchild⟩ := mem_below_iff.1 hc
  have hb : t.Live b := by
    obtain ⟨first, hfirst, -⟩ := childAt?_eq_some_iff.1 hchild
    exact ht.live_of_firstChild hfirst
  obtain ⟨p, hp⟩ := ht.rooted hb
  have hq : t.follow (p ++ [i]) = some c := follow_concat_eq_some_iff.2 ⟨b, hp, hchild⟩
  have hle := ((isAbove_iff ht.toLinked hq hp).1 habove).length_le
  rw [List.length_append, List.length_singleton] at hle
  exact Nat.not_succ_le_self _ hle

/-- Only a node itself lies above and below it. -/
theorem isAbove_antisymm (ht : t.Valid) (hab : t.IsAbove a b) (hba : t.IsAbove b a) : a = b := by
  rcases Relation.ReflTransGen.cases_head hab with rfl | ⟨c, hup, hac⟩
  · rfl
  · exact absurd (hac.trans hba) (not_isAbove_parent ht ((mem_below_iff_parent ht.toLinked).2 hup))

/-- Exactly the nodes that are shown are reached. -/
theorem reached_iff_shown (ht : t.Valid) : t.Reached skip a x ↔ t.Shown skip a x := by
  constructor
  · intro h
    induction h with
    | refl =>
        exact ⟨.refl, fun b hb hab hba => absurd (isAbove_antisymm ht hba hab) hb⟩
    | @tail b c hab hc ih =>
        obtain ⟨hskip, hbelow⟩ := mem_opened_iff.1 hc
        have hup := (mem_below_iff_parent ht.toLinked).1 hbelow
        refine ⟨.head hup ih.1, ?_⟩
        intro d hd had hdc
        -- What is above the child is the child, its parent, or above that one.
        rcases Relation.ReflTransGen.cases_head hdc with rfl | ⟨b', hup', hdb⟩
        · exact absurd rfl hd
        · obtain rfl := Option.some_injective _ (Except.ok.inj (hup.symm.trans hup'))
          rcases eq_or_ne d b with rfl | hne
          · exact hskip
          · exact ih.2 d hne had hdb
  · rintro ⟨habove, hskip⟩
    induction habove using Relation.ReflTransGen.head_induction_on with
    | refl => exact .refl
    | @head x b hup hba ih =>
        have hbelow := (mem_below_iff_parent ht.toLinked).2 hup
        have hne : ∀ d, t.IsAbove d b → d ≠ x := by
          rintro d hdb rfl
          exact not_isAbove_parent ht hbelow hdb
        refine (ih fun d _ had hdb => hskip d (hne d hdb) had (.head hup hdb)).tail ?_
        exact mem_opened_iff.2 ⟨hskip b (hne b .refl) hba (.single hup), hbelow⟩

/-! ## The invariant of a visit -/

/-- `visited` has been visited from `a` on, and `stack` is still to be visited. -/
structure Visiting (t : Tree n) (skip : Nat → Bool) (a : Nat) (visited stack : List Nat) : Prop where
  /-- The nodes met stand in the order of their paths. -/
  ordered : (visited ++ stack).Pairwise (t.Along (· < ·))
  /-- The subtrees of the nodes on the stack lie beside each other. -/
  beside : stack.Pairwise (t.Along LeftOf)
  /-- Every node to be visited has been visited or is reached from the stack. -/
  reached_iff (x : Nat) : t.Reached skip a x ↔ x ∈ visited ∨ ∃ s ∈ stack, t.Reached skip s x

namespace Visiting

/-- A visit begins with its first node on the stack. -/
theorem start (t : Tree n) (skip : Nat → Bool) (a : Nat) : t.Visiting skip a [] [a] where
  ordered := List.pairwise_singleton _ a
  beside := List.pairwise_singleton _ a
  reached_iff x := by simp

/-- All that is on the stack or has been on it is reached. -/
theorem reached (h : t.Visiting skip a visited stack) (hx : x ∈ visited ++ stack) :
    t.Reached skip a x := by
  rw [h.reached_iff]
  exact (List.mem_append.1 hx).imp_right fun hx => ⟨x, hx, .refl⟩

/-- The nodes met fit the capacity. -/
theorem length_le (ht : t.Linked) (h : t.Visiting skip a visited stack) (ha : t.Live a) :
    visited.length + stack.length ≤ t.capacity := by
  rw [← List.length_append]
  exact ht.toSized.length_le (nodup_of_pairwise_lt ht h.ordered) fun _ hx => (h.reached hx).live ht ha

/-- The first node of the stack is visited, and what it opens takes its place. -/
theorem step (ht : t.Valid) (h : t.Visiting skip a visited (node :: stack)) (ha : t.Live a) :
    t.Visiting skip a (visited ++ [node]) (t.opened skip node ++ stack) := by
  have hl := ht.toLinked
  obtain ⟨p, hp⟩ := ht.rooted ((h.reached (x := node) (by simp)).live hl ha)
  obtain ⟨hvisited, hstack, hbefore⟩ := List.pairwise_append.1 h.ordered
  obtain ⟨hafter, hstack⟩ := List.pairwise_cons.1 hstack
  obtain ⟨hright, hbeside⟩ := List.pairwise_cons.1 h.beside
  -- What the node opens comes right after it, and all of the stack lies to the right of both.
  have hnew : (t.opened skip node ++ stack).Pairwise (t.Along LeftOf) :=
    List.pairwise_append.2 ⟨pairwise_opened hp, hbeside, fun c hc s hs =>
      along_leftOf_of_mem_opened (hright s hs) hc⟩
  have hnode : ∀ s ∈ t.opened skip node ++ stack, t.Along (· < ·) node s := by
    intro s hs
    rcases List.mem_append.1 hs with hs | hs
    · exact along_lt_of_mem_opened hp hs
    · exact hafter s hs
  refine ⟨?_, hnew, ?_⟩
  · rw [List.append_assoc, List.singleton_append, List.pairwise_append, List.pairwise_cons]
    refine ⟨hvisited, ⟨hnode, hnew.imp Along.lt_of_leftOf⟩, ?_⟩
    intro v hv s hs
    have hvn : t.Along (· < ·) v node := hbefore v hv node List.mem_cons_self
    rcases List.mem_cons.1 hs with rfl | hs
    · exact hvn
    · exact hvn.trans_lt hl (hnode s hs)
  · intro x
    rw [h.reached_iff, List.exists_mem_cons_iff, Tree.reached_iff]
    simp only [List.mem_append, List.mem_singleton, or_and_right, exists_or, or_assoc]

/-- From any state of a visit on it ends, within the steps that are left for nodes not yet visited. -/
theorem exists_rest (ht : t.Valid) (h : t.Visiting skip a visited stack) (ha : t.Live a)
    (hsteps : t.capacity ≤ visited.length + steps) :
    ∃ rest, t.visitStack skip steps stack = .ok rest ∧ t.Visiting skip a (visited ++ rest) [] := by
  induction steps generalizing visited stack with
  | zero =>
      have hlength := h.length_le ht.toLinked ha
      obtain rfl : stack = [] := List.eq_nil_of_length_eq_zero (by omega)
      exact ⟨[], rfl, by simpa using h⟩
  | succ steps ih =>
      cases stack with
      | nil => exact ⟨[], rfl, by simpa using h⟩
      | cons node stack =>
          have hlive := (h.reached (x := node) (by simp)).live ht.toLinked ha
          obtain ⟨rest, hrest, hend⟩ := ih (h.step ht ha) (by
            rw [List.length_append, List.length_singleton]
            omega)
          refine ⟨node :: rest, ?_, by simpa using hend⟩
          rw [visitStack_cons ht.toLinked (hlive.lt_capacity ht.toSized), hrest]
          rfl

end Visiting

/-- A visit ends, and it has visited what is reached, in the order of paths. -/
theorem exists_visit (ht : t.Valid) (ha : t.Live a) (skip : Nat → Bool) :
    ∃ visited, t.visit a skip = .ok visited ∧ visited.Pairwise (t.Along (· < ·)) ∧
      ∀ x, x ∈ visited ↔ t.Reached skip a x := by
  obtain ⟨visited, hvisit, hend⟩ := (Visiting.start t skip a).exists_rest ht ha (Nat.le_add_left _ _)
  refine ⟨visited, hvisit, by simpa using hend.ordered, ?_⟩
  intro x
  rw [hend.reached_iff]
  simp

/-- The depth-first order is that of a visit from the root that passes over nothing. -/
theorem depthFirst_eq_visit (t : Tree n) : t.depthFirst = t.visit 0 fun _ => false :=
  t.yielded_eq_visitStack t.capacity [0]

/-- Below a live node there are only live nodes. -/
theorem live_of_isAbove (ht : t.Linked) (h : t.IsAbove a x) (ha : t.Live a) : t.Live x := by
  rcases Relation.ReflTransGen.cases_head h with rfl | ⟨b, hup, -⟩
  · exact ha
  · obtain ⟨i, hchild⟩ := mem_below_iff.1 ((mem_below_iff_parent ht).2 hup)
    exact live_of_childAt? ht hchild

/-- From the root every live node is reached if no live node is passed over. -/
theorem reached_zero_iff (ht : t.Valid) (hskip : ∀ x, t.Live x → skip x = false) :
    t.Reached skip 0 x ↔ t.Live x := by
  refine ⟨fun h => h.live ht.toLinked t.live_zero, ?_⟩
  intro hx
  obtain ⟨p, hp⟩ := ht.rooted hx
  refine (reached_iff_shown ht).2 ⟨isAbove_of_append ht.toLinked t.follow_nil hp, ?_⟩
  exact fun b _ hb _ => hskip b (live_of_isAbove ht.toLinked hb t.live_zero)

/-- The depth-first order is that of the paths, and it names exactly the live nodes. -/
theorem exists_depthFirst (ht : t.Valid) :
    ∃ order, t.depthFirst = .ok order ∧ order.Pairwise (t.Along (· < ·)) ∧
      ∀ x, x ∈ order ↔ t.Live x := by
  obtain ⟨order, horder, hsorted, hmem⟩ := exists_visit ht t.live_zero fun _ => false
  refine ⟨order, t.depthFirst_eq_visit.trans horder, hsorted, ?_⟩
  exact fun x => (hmem x).trans (reached_zero_iff ht fun _ _ => rfl)

/-- **Visits.**  A visit from any node ends.  It visits what is shown of the subtree, no node twice, in the order in which
the depth-first listing yields them; from the root, passing over nothing, it visits the whole listing. -/
theorem Reachable.visit_exact (h : t.Reachable) :
    (∀ a, t.contains a = .ok true → ∀ skip : Nat → Bool, ∃ visited order,
      t.visit a skip = .ok visited ∧ t.depthFirst = .ok order ∧ visited.Sublist order ∧
      visited.Nodup ∧ ∀ x, x ∈ visited ↔ t.Shown skip a x) ∧
    ∀ skip : Nat → Bool, (∀ x, t.contains x = .ok true → skip x = false) →
      t.visit 0 skip = t.depthFirst := by
  have ht := h.valid
  obtain ⟨order, horder, hsorted, hmem⟩ := exists_depthFirst ht
  constructor
  · intro a ha skip
    rw [contains_eq_true_iff ht.toSized] at ha
    obtain ⟨visited, hvisit, hvisited, hreached⟩ := exists_visit ht ha skip
    refine ⟨visited, order, hvisit, horder, ?_, nodup_of_pairwise_lt ht.toLinked hvisited, ?_⟩
    · apply sublist_of_pairwise_lt ht.toLinked hvisited hsorted
      exact fun x hx => (hmem x).2 (((hreached x).1 hx).live ht.toLinked ha)
    · exact fun x => (hreached x).trans (reached_iff_shown ht)
  · intro skip hskip
    simp only [contains_eq_true_iff ht.toSized] at hskip
    obtain ⟨visited, hvisit, hvisited, hreached⟩ := exists_visit ht t.live_zero skip
    have hall : ∀ x, x ∈ visited ↔ x ∈ order := fun x =>
      (hreached x).trans ((reached_zero_iff ht hskip).trans (hmem x).symm)
    rw [hvisit, horder, eq_of_pairwise_lt ht.toLinked hvisited hsorted hall]

/-- A binary tree in which the children of node 1 were made last: without them, the others stay in their order. -/
theorem Reachable.visit_exact_passing :
    ((rootOnly 1 5).afterCalls [.refine 0, .refine 2, .refine 1]).visit 0 (· = 1) =
      .ok [0, 1, 2, 3, 4] ∧
    ((rootOnly 1 5).afterCalls [.refine 0, .refine 2, .refine 1]).depthFirst =
      .ok [0, 1, 5, 6, 2, 3, 4] ∧
    ∀ x, x ∈ [0, 1, 2, 3, 4] ↔
      ((rootOnly 1 5).afterCalls [.refine 0, .refine 2, .refine 1]).Shown (· = 1) 0 x := by
  obtain ⟨hvisits, -⟩ := Reachable.visit_exact
    ((Reachable.new (t := rootOnly 1 5) 9 rfl).afterCalls [.refine 0, .refine 2, .refine 1])
  obtain ⟨visited, order, hvisit, -, -, -, hshown⟩ := hvisits 0 (by decide) (· = 1)
  have hvisited : ((rootOnly 1 5).afterCalls [.refine 0, .refine 2, .refine 1]).visit 0 (· = 1) =
      .ok [0, 1, 2, 3, 4] := by decide +kernel
  obtain rfl := Except.ok.inj (hvisited.symm.trans hvisit)
  exact ⟨hvisited, by decide +kernel, hshown⟩

end Tree

end Orthtree
