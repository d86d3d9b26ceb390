import Orthtree.Proofs.Making

/-!
# Restoring always answers

A snapshot may hold any numbers that fit their types.  Whatever they are, `restore` makes a tree or ends in an error: no
number leaves its range, no index lies past its table, and the walk that looks for unreachable nodes ends
(`Snapshot.restore_total`).  Each check is preceded by those that it needs: the sizes bound the indices of the groups,
and the mutual links keep the walk from meeting a node twice, even where the links lead in a circle.
-/

namespace Orthtree

variable {α β : Type} {n groups count : Nat}

/-! ## Steps that answer -/

/-- A step of restoring comes to its end: it is accepted, or it ends in an error, but not in a fault. -/
def Answers (step : Restore α) : Prop := ∃ answer, step = .ok answer

theorem answers_throw (e : SnapshotError) : Answers (throw e : Restore α) := ⟨.error e, rfl⟩

theorem answers_pure (a : α) : Answers (pure a : Restore α) := ⟨.ok a, rfl⟩

/-- A step that goes on with another one answers if the other one does whenever the first is accepted. -/
theorem Answers.bind {step : Restore α} {next : α → Restore β} (h : Answers step)
    (hnext : ∀ a, step = .ok (.ok a) → Answers (next a)) : Answers (step >>= next) := by
  obtain ⟨answer, hstep⟩ := h
  cases answer with
  | error e => exact ⟨.error e, by rw [hstep]; rfl⟩
  | ok a =>
      rw [bind_of_accepted hstep]
      exact hnext a hstep

/-- A query that is answered does no harm. -/
theorem answers_bind_query {query : Except Fault α} {next : α → Restore β} {a : α}
    (h : query = .ok a) (hnext : Answers (next a)) :
    Answers ((liftM query : Restore α) >>= next) := by
  rwa [bind_of_query h]

/-- A loop of checks answers if each check does: it ends with the first that is not accepted. -/
theorem answers_forM {check : α → Restore Unit} {xs : List α} (h : ∀ x ∈ xs, Answers (check x)) :
    Answers (xs.forM check) := by
  induction xs with
  | nil => exact answers_pure ()
  | cons x xs ih =>
      rw [List.forM]
      exact (h x List.mem_cons_self).bind fun _ _ => ih fun y hy => h y (List.mem_cons_of_mem x hy)

namespace Snapshot

variable {s : Snapshot} {asked : Option Nat}

/-! ## Snapshots of any contents -/

/-- The numbers of the snapshot fit their types: a byte, a 64-bit count and 32-bit indices. -/
structure Fits (s : Snapshot) : Prop where
  dimension_lt : s.dimension < Bounded.byteLimit
  size_lt : s.size < Bounded.countLimit
  parents_lt : ∀ entry ∈ s.parents, ∀ parent ∈ entry, parent < Bounded.indexLimit
  firstChildren_lt : ∀ entry ∈ s.firstChildren, ∀ first ∈ entry, first < Bounded.indexLimit

/-- What is looked up in the snapshot fits an index. -/
theorem Fits.firstChild_lt (hs : s.Fits) {node first : Nat}
    (h : s.firstChildren.getD node none = some first) : first < Bounded.indexLimit := by
  have hnode := lt_of_getD_eq_some h
  rw [Array.getD_eq_getD_getElem?, Array.getElem?_eq_getElem hnode, Option.getD_some] at h
  exact hs.firstChildren_lt _ (Array.getElem_mem hnode) first h

/-- The integers that can be read are the natural numbers below the limit. -/
theorem natBelow?_eq_some_iff {limit y : Nat} {x : Int} :
    natBelow? limit x = some y ↔ x = y ∧ y < limit := by
  rw [natBelow?, Option.ite_none_right_eq_some, Option.some_inj]
  omega

/-- The links that can be read are the absent one and those that fit an index. -/
theorem link?_eq_some_iff {x : Option Int} {y : Option Nat} :
    link? x = some y ↔ x = y.map Int.ofNat ∧ ∀ i ∈ y, i < Bounded.indexLimit := by
  cases x with
  | none => cases y <;> simp [link?]
  | some x =>
      cases y with
      | none => simp [link?]
      | some y => simp [link?, natBelow?_eq_some_iff]

/-- A table can be read iff each of its links can. -/
theorem mapM_link?_eq_some_iff {xs : List (Option Int)} {ys : List (Option Nat)} :
    xs.mapM link? = some ys ↔
      xs = ys.map (Option.map Int.ofNat) ∧ ∀ y ∈ ys, ∀ i ∈ y, i < Bounded.indexLimit := by
  induction xs generalizing ys with
  | nil => cases ys <;> simp
  | cons x xs ih =>
      rw [List.mapM_cons]
      cases ys with
      | nil => simp [Option.bind_eq_some_iff]
      | cons y ys =>
          simp only [Option.bind_eq_bind, Option.bind_eq_some_iff, link?_eq_some_iff, ih, List.map_cons,
            List.forall_mem_cons]
          constructor
          · rintro ⟨y', ⟨rfl, hy⟩, ys', ⟨rfl, hys⟩, heq⟩
            obtain ⟨rfl, rfl⟩ := List.cons.inj (Option.some_injective _ heq)
            exact ⟨rfl, hy, hys⟩
          · rintro ⟨heq, hy, hys⟩
            obtain ⟨rfl, rfl⟩ := List.cons.inj heq
            exact ⟨y, ⟨rfl, hy⟩, ys, ⟨rfl, hys⟩, rfl⟩

/-- The snapshots that fit are those that can be read. -/
theorem fits_iff : s.Fits ↔ ∃ dimension size parents firstChildren,
    ofInts? dimension size parents firstChildren = some s := by
  constructor
  · intro h
    refine ⟨s.dimension, s.size, s.parents.toList.map (Option.map Int.ofNat),
      s.firstChildren.toList.map (Option.map Int.ofNat), ?_⟩
    have hparents : ∀ entry ∈ s.parents.toList, ∀ i ∈ entry, i < Bounded.indexLimit :=
      fun entry hentry => h.parents_lt entry (Array.mem_toList_iff.1 hentry)
    have hchildren : ∀ entry ∈ s.firstChildren.toList, ∀ i ∈ entry, i < Bounded.indexLimit :=
      fun entry hentry => h.firstChildren_lt entry (Array.mem_toList_iff.1 hentry)
    rw [ofInts?, natBelow?_eq_some_iff.2 ⟨rfl, h.dimension_lt⟩,
      natBelow?_eq_some_iff.2 ⟨rfl, h.size_lt⟩, mapM_link?_eq_some_iff.2 ⟨rfl, hparents⟩,
      mapM_link?_eq_some_iff.2 ⟨rfl, hchildren⟩]
    rfl
  · rintro ⟨dimension, size, parents, firstChildren, h⟩
    simp only [ofInts?, Option.bind_eq_bind, Option.bind_eq_some_iff, natBelow?_eq_some_iff,
      mapM_link?_eq_some_iff] at h
    obtain ⟨_, ⟨-, hdimension⟩, _, ⟨-, hsize⟩, _, ⟨-, hparents⟩, _, ⟨-, hchildren⟩, h⟩ := h
    obtain rfl := Option.some_injective _ h
    exact ⟨hdimension, hsize, by simpa using hparents, by simpa using hchildren⟩

/-! ## The checks -/

section Checks

variable (hn : Corner.supported n = true) (hs : s.Fits)

include hn in
/-- A size that passes the first checks is an index, so that rounding it up to whole groups stays inside 64 bits. -/
theorem answers_checkSizes : Answers (checkSizes n s) := by
  unfold checkSizes
  split
  · exact answers_throw _
  split
  · exact answers_throw _
  split
  · exact answers_throw _
  next hlimit =>
  have hwidth : 2 ^ n ≤ 8 := Nat.pow_le_pow_right Nat.two_pos (Corner.supported_iff.1 hn).2
  have hcount : Group.nodeCount n (Group.covering n s.size) < Bounded.countLimit := by
    have hrounded := Group.nodeCount_covering_lt n s.size
    unfold Tree.nodeLimit Bounded.indexLimit at hlimit
    unfold Bounded.countLimit
    omega
  obtain ⟨hgroups, hnodes⟩ := Group.counts_eq hn hcount
  apply answers_bind_query hgroups
  apply answers_bind_query hnodes
  split
  · exact answers_throw _
  split
  · exact answers_throw _
  · exact answers_pure _

/-- The root group has an entry, since a snapshot without groups has been rejected. -/
theorem answers_checkRoot (h : s.parents.size ≠ 0) : Answers (checkRoot s) := by
  unfold checkRoot
  split
  · next hnone =>
    rw [Array.getElem?_eq_none_iff] at hnone
    exact absurd (Nat.eq_zero_of_le_zero hnone) h
  · exact answers_throw _
  · exact answers_pure ()

/-- The first node of a group is asked for only where it has an index. -/
theorem answers_checkGroup {group : Nat} (hlt : group < groups)
    (hsize : Group.nodeCount n groups < Tree.nodeLimit) : Answers (checkGroup n s group) := by
  unfold checkGroup
  split
  · exact answers_throw _
  · apply answers_bind_query (Group.first_eq hlt hsize)
    split
    · exact answers_pure ()
    · exact answers_throw _

include hs in
/-- The group of any index begins at an index. -/
theorem answers_checkNode (node : Nat) : Answers (checkNode n s node) := by
  unfold checkNode
  split
  · exact answers_pure ()
  · next first hfirst =>
    have hindex := hs.firstChild_lt hfirst
    have hle : Group.start n (Group.ofNode n first) ≤ first :=
      (Nat.le_add_right _ _).trans_eq (Group.start_add_position n first)
    apply answers_bind_query (Bounded.below_of_lt (hle.trans_lt hindex))
    split
    · exact answers_pure ()
    · exact answers_throw _

include hs in
/-- Every group and every node is checked inside the sizes that were accepted before. -/
theorem answers_checkLinks (hsizes : checkSizes n s = .ok (.ok groups)) :
    Answers (checkLinks n s) := by
  obtain ⟨-, hne, hlimit, -, hgroups, hwhole, hparents⟩ := checkSizes_accepted hsizes
  have hroot : s.parents.size ≠ 0 := by
    rw [hparents, hgroups]
    exact Group.covering_ne_zero hne
  unfold checkLinks
  refine (answers_checkRoot hroot).bind fun _ _ => Answers.bind ?_ fun _ _ => ?_
  · apply answers_forM
    intro group hgroup
    obtain ⟨-, hlt⟩ := List.mem_range'_1.1 hgroup
    exact answers_checkGroup (by omega : group < groups) (hwhole.trans_lt hlimit)
  · exact answers_forM fun node _ => answers_checkNode hs node

end Checks

/-! ## The walk -/

namespace Checked

variable {made : Tree n} {room : Nat}

/-- Links that have passed the checks are walked without meeting a node twice, in at most as many steps as there are
nodes, though not all of them need be reached. -/
theorem exists_yielded (h : Checked n s groups) (hroom : s.size ≤ room)
    (hmade : Tree.ofCapacity n room = .ok made) :
    ∃ order, (fill s groups made).yielded s.size [0] = .ok order ∧
      (fill s groups made).depthFirst = .ok order ∧ order.Nodup ∧ order.length ≤ s.size := by
  have hlinked := h.linked (h.sized hroom hmade)
  obtain ⟨order, hwalk⟩ := Tree.exists_walk hlinked
  obtain ⟨hnodup, hsub⟩ := h.nodup_subset hlinked hwalk
  have hlength : order.length ≤ s.size := by
    rw [← List.toFinset_card_of_nodup hnodup, ← Finset.card_range s.size]
    exact Finset.card_le_card hsub
  exact ⟨order, hwalk.yielded_eq hlinked hlength, hwalk.depthFirst_eq hlinked, hnodup, hlength⟩

end Checked

/-- **Totality of restoring.**  Along 1, 2 or 3 axes any snapshot, whatever its numbers, is restored to a tree or refused
with an error, in its own room or in any room that is rounded to a number of nodes that fit an index.  Links that have
passed the checks are loaded without a fault, and the walk of the loaded tree meets no node twice: it ends within as many
steps as the snapshot has nodes. -/
theorem restore_total (hn : Corner.supported n = true) (hs : s.Fits)
    (hroom : ∀ room, asked = some room →
      Group.nodeCount n (Group.covering n room) < Tree.nodeLimit) :
    (∃ answer, restore n s asked = .ok answer) ∧
    ∀ groups room, ∀ made : Tree n, checkSizes n s = .ok (.ok groups) →
      checkLinks n s = .ok (.ok ()) → s.size ≤ room → Tree.ofCapacity n room = .ok made →
      ∃ t order, made.perform (load s groups) = .ok ((), t) ∧ t.yielded s.size [0] = .ok order ∧
        t.depthFirst = .ok order ∧ order.Nodup ∧ order.length ≤ s.size := by
  constructor
  · unfold restore
    refine (answers_checkSizes hn).bind fun groups hsizes => ?_
    dsimp only
    split
    · exact answers_throw _
    next hfits =>
    rw [Nat.not_lt] at hfits
    refine (answers_checkLinks hs hsizes).bind fun _ hlinks => ?_
    have hchecked := checked_of_accepted hsizes hlinks
    -- If no capacity is asked for, it is the size, which has passed its own check.
    have hrounded : Group.nodeCount n (Group.covering n (asked.getD s.size)) < Tree.nodeLimit := by
      cases hasked : asked with
      | none =>
          rw [Option.getD_none, ← hchecked.groups_eq, hchecked.whole]
          exact hchecked.size_lt
      | some room => exact hroom room hasked
    have hne : asked.getD s.size ≠ 0 :=
      Nat.ne_of_gt ((Nat.pos_of_ne_zero hchecked.size_ne).trans_le hfits)
    have hmade := Tree.ofCapacity_eq hn hne hrounded
    obtain ⟨order, -, horder, -⟩ := hchecked.exists_yielded hfits hmade
    apply answers_bind_query hmade
    apply answers_bind_query (hchecked.load_eq hfits hmade)
    apply answers_bind_query horder
    split
    · exact answers_pure _
    · exact answers_throw _
  · intro groups room made hsizes hlinks hfits hmade
    have hchecked := checked_of_accepted hsizes hlinks
    obtain ⟨order, hyielded, horder, hnodup, hlength⟩ := hchecked.exists_yielded hfits hmade
    exact ⟨_, order, hchecked.load_eq hfits hmade, hyielded, horder, hnodup, hlength⟩

/-- A snapshot with two groups whose owners are in each other: its links are mutual, but they lead in a circle. -/
def circle : Snapshot :=
  ⟨1, 7, #[none, some 0, some 5, some 3], #[some 1, none, none, some 5, none, some 3, none]⟩

/-- The links of the circle are loaded, and the walk ends without having come there. -/
theorem restore_total_circle :
    (∃ answer, restore 1 circle none = .ok answer) ∧
    ∃ t order, (Tree.rootOnly 1 4).perform (load circle 4) = .ok ((), t) ∧
      t.yielded 7 [0] = .ok order ∧ t.depthFirst = .ok order ∧ order.Nodup ∧ order.length ≤ 7 := by
  have hsizes : checkSizes 1 circle = .ok (.ok 4) := rfl
  have hlinks : checkLinks 1 circle = .ok (.ok ()) := rfl
  have hmade : Tree.ofCapacity 1 7 = .ok (Tree.rootOnly 1 4) := rfl
  have hfits : circle.Fits := fits_iff.2 ⟨1, 7, [none, some 0, some 5, some 3],
    [some 1, none, none, some 5, none, some 3, none], rfl⟩
  obtain ⟨hanswer, hwalk⟩ : (∃ answer, restore 1 circle none = .ok answer) ∧ _ :=
    restore_total rfl hfits nofun
  exact ⟨hanswer, hwalk 4 7 (Tree.rootOnly 1 4) hsizes hlinks (Nat.le_refl 7) hmade⟩

/-- What the walk has not come to is reported. -/
example : restore 1 circle none = .ok (.error (.corrupt (.unreachable 3 7))) := by
  cbv

/-- The greatest index is no node of a snapshot, and it is looked up in vain. -/
example : restore 1 ⟨1, 3, #[none, some 4294967295], #[some 4294967295, none, none]⟩ none =
    .ok (.error (.corrupt (.strayParent 4294967295 1 1))) := by
  cbv

end Snapshot

end Orthtree
