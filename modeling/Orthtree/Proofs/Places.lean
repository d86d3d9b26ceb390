import Mathlib.Data.Fintype.Card
import Mathlib.Logic.Relation
import Orthtree.Proofs.Cells
import Orthtree.Proofs.Queries
import Orthtree.Tree.Place

/-!
# Places of nodes

A node is known by the path that leads to it from the root.  Its level is the length of the path (`level_eq`), its
location packs the path (`exists_location`), and it lies above another node iff its path is a beginning of the other's
(`isAbove_iff`).  Looking for a location finds the node at the longest beginning of its path that the tree has
(`exists_deepestAt`).
-/

namespace Orthtree

namespace Tree

variable {n : Nat} {t : Tree n} {node a b c position steps : Nat} {path p q : List Nat}

/-! ## The last step of a path -/

/-- The last step of a path tells the parent and the position there. -/
theorem parent_of_follow_concat (ht : t.Linked) (h : t.follow (path ++ [position]) = some c) :
    ∃ parent, t.follow path = some parent ∧ t.parent c = .ok (some parent) ∧
      t.positionInParent c = .ok (some position) := by
  obtain ⟨parent, hparent, hchild⟩ := follow_concat_eq_some_iff.1 h
  have hlt : c < t.capacity := (live_of_childAt? ht hchild).lt_capacity ht.toSized
  obtain ⟨howner, hposition⟩ := (childAt?_eq_some_iff_owner ht).1 hchild
  have hc : c ≠ 0 := by
    rintro rfl
    exact childAt?_ne_zero ht hchild
  refine ⟨parent, hparent, ?_, ?_⟩
  · rw [parent_eq ht hlt, howner]
  · rw [positionInParent_of_lt hlt hc, ← hposition]
    rfl

theorem parent_zero (ht : t.Linked) : t.parent 0 = .ok none := by
  have hlt : 0 < t.capacity := t.live_zero.lt_capacity ht.toSized
  exact parent_root hlt

/-- The positions of a path are in range. -/
theorem lt_of_mem_of_follow (h : t.follow path = some node) : ∀ c ∈ path, c < 2 ^ n := by
  induction path using List.reverseRecOn generalizing node with
  | nil => exact fun c hc => absurd hc List.not_mem_nil
  | append_singleton path position ih =>
      obtain ⟨parent, hparent, hchild⟩ := follow_concat_eq_some_iff.1 h
      obtain ⟨-, -, hlt, -⟩ := childAt?_eq_some_iff.1 hchild
      intro c hc
      rcases List.mem_append.1 hc with hc | hc
      · exact ih hparent c hc
      · rwa [List.mem_singleton.1 hc]

/-- A path passes through a node after each of its steps. -/
theorem exists_follow_of_append (h : t.follow (p ++ q) = some node) :
    ∃ a, t.follow p = some a := by
  rw [follow, List.foldlM_append] at h
  obtain ⟨a, ha, -⟩ := Option.bind_eq_some_iff.1 h
  exact ⟨a, ha⟩

/-- A path has fewer steps than there is room for nodes, since it passes no node twice. -/
theorem length_lt_capacity (ht : t.Linked) (h : t.follow path = some node) :
    path.length < t.capacity := by
  have hpassed : ∀ i : Fin (path.length + 1), ∃ a : Fin t.capacity,
      t.follow (path.take i) = some a.val := by
    intro i
    rw [← List.take_append_drop i path] at h
    obtain ⟨a, ha⟩ := exists_follow_of_append h
    exact ⟨⟨a, lt_capacity_of_follow ht ha⟩, ha⟩
  choose passed hpassed using hpassed
  have hinj : Function.Injective passed := by
    intro i j hij
    have htake := follow_injective ht (hpassed i) (hij ▸ hpassed j)
    have hlength := congrArg List.length htake
    rw [List.length_take, List.length_take] at hlength
    apply Fin.ext
    omega
  have hcard := Fintype.card_le_of_injective passed hinj
  rwa [Fintype.card_fin, Fintype.card_fin] at hcard

/-! ## Levels -/

/-- The number of steps up is the length of the path. -/
theorem stepsUp_eq (ht : t.Linked) (h : t.follow path = some node) (budget : Nat) :
    t.stepsUp budget node =
      if path.length ≤ budget then .ok path.length else .error .overflow := by
  induction path using List.reverseRecOn generalizing node budget with
  | nil =>
      obtain rfl := Option.some_injective _ h
      cases budget <;> simp [stepsUp, parent_zero ht, bind, Except.bind, pure, Except.pure]
  | append_singleton path position ih =>
      -- One step up takes the last position off the path and one step off the budget.
      obtain ⟨parent, hparent, hup, -⟩ := parent_of_follow_concat ht h
      rw [List.length_append, List.length_singleton]
      cases budget with
      | zero =>
          rw [stepsUp, hup, if_neg (Nat.not_succ_le_zero _)]
          rfl
      | succ budget =>
          rw [stepsUp, hup]
          simp only [bind, Except.bind, ih hparent budget, Nat.add_le_add_iff_right]
          by_cases hle : path.length ≤ budget
          · simp only [if_pos hle]
            rfl
          · simp only [if_neg hle]

/-- The level of a node is the length of its path, as far as levels are counted. -/
theorem level_eq (ht : t.Linked) (h : t.follow path = some node) :
    t.level node = if path.length ≤ 255 then .ok path.length else .error .overflow := by
  rw [level, contains_eq ht.toSized, decide_eq_true (live_of_follow ht h), ← stepsUp_eq ht h]
  rfl

/-- The level of a node is the length of the path to it. -/
theorem length_of_level {level : Nat} (ht : t.Linked) (h : t.follow path = some node)
    (hlevel : t.level node = .ok level) : path.length = level := by
  rw [level_eq ht h] at hlevel
  split at hlevel
  · exact Except.ok.inj hlevel
  · cases hlevel

/-- Nodes that are no deeper than locations have a level. -/
theorem level_of_le (ht : t.Linked) (h : t.follow path = some node)
    (hlength : path.length ≤ maxLevel n) : t.level node = .ok path.length := by
  have hmax := maxLevel_lt n
  rw [level_eq ht h, if_pos (by omega)]

/-! ## Locations -/

/-- Going up collects the positions in front of those below, if there are steps enough for the whole path. -/
theorem positionsTo_eq (ht : t.Linked) (h : t.follow path = some node)
    (hsteps : path.length < steps) (below : List Nat) :
    t.positionsTo steps node below = .ok (path ++ below) := by
  induction path using List.reverseRecOn generalizing node steps below with
  | nil =>
      obtain rfl := Option.some_injective _ h
      obtain ⟨steps, rfl⟩ := Nat.exists_eq_succ_of_ne_zero (Nat.ne_zero_of_lt hsteps)
      rw [positionsTo, parent_zero ht]
      rfl
  | append_singleton path position ih =>
      obtain ⟨parent, hparent, hup, hposition⟩ := parent_of_follow_concat ht h
      obtain ⟨steps, rfl⟩ := Nat.exists_eq_succ_of_ne_zero (Nat.ne_zero_of_lt hsteps)
      rw [List.length_append, List.length_singleton] at hsteps
      rw [positionsTo, hup]
      simp only [bind, Except.bind, hposition]
      rw [ih hparent (Nat.lt_of_succ_lt_succ hsteps), List.append_assoc]
      rfl

/-- The positions from the root down to a node are its path. -/
theorem pathTo_eq (ht : t.Linked) (h : t.follow path = some node) : t.pathTo node = .ok path := by
  rw [pathTo, contains_eq ht.toSized, decide_eq_true (live_of_follow ht h)]
  simp only [bind, Except.bind, if_pos]
  rw [positionsTo_eq ht h (length_lt_capacity ht h), List.append_nil]

/-- The location of a node packs its path. -/
theorem exists_location (ht : t.Linked) (h : t.follow path = some node)
    (hlength : path.length ≤ maxLevel n) :
    ∃ l : Location n, t.location node = .ok l ∧ l.path = path := by
  obtain ⟨l, hl, hpath⟩ := Location.exists_ofPath (lt_of_mem_of_follow h) hlength
  refine ⟨l, ?_, hpath⟩
  rw [location, pathTo_eq ht h]
  exact hl

/-! ## Ancestors -/

/-- The way up from `node`, from parent to parent, meets `above`; it begins at `node` itself. -/
def IsAbove (t : Tree n) (above node : Nat) : Prop :=
  Relation.ReflTransGen (fun x y => t.parent x = .ok (some y)) node above

/-- The nodes on the way to a node are above it. -/
theorem isAbove_of_append (ht : t.Linked) (hp : t.follow p = some a)
    (hq : t.follow (p ++ q) = some b) : t.IsAbove a b := by
  induction q using List.reverseRecOn generalizing b with
  | nil =>
      rw [List.append_nil] at hq
      obtain rfl := Option.some_injective _ (hp.symm.trans hq)
      exact .refl
  | append_singleton q position ih =>
      rw [← List.append_assoc] at hq
      obtain ⟨parent, hparent, hup, -⟩ := parent_of_follow_concat ht hq
      exact .head hup (ih hparent)

/-- A node lies above another one iff its path is a beginning of the other's path. -/
theorem isAbove_iff (ht : t.Linked) (hp : t.follow p = some a) (hq : t.follow q = some b) :
    t.IsAbove a b ↔ p <+: q := by
  constructor
  · intro h
    induction h using Relation.ReflTransGen.head_induction_on generalizing q with
    | refl => rw [follow_injective ht hp hq]
    | @head b parent hup _ ih =>
        rcases List.eq_nil_or_concat' q with rfl | ⟨q, position, rfl⟩
        · obtain rfl := Option.some_injective _ hq
          rw [parent_zero ht] at hup
          cases hup
        · obtain ⟨parent', hparent', hup', -⟩ := parent_of_follow_concat ht hq
          obtain rfl := Option.some_injective _ (Except.ok.inj (hup.symm.trans hup'))
          exact (ih hparent').trans (List.prefix_append q [position])
  · rintro ⟨q, rfl⟩
    exact isAbove_of_append ht hp hq

/-! ## Looking for a location -/

theorem childAt?_of_leaf (h : t.links.firstChild node = none) (position : Nat) :
    t.childAt? node position = none := by
  rw [childAt?, h, Option.bind_none]

/-- The children are what is found at the positions. -/
theorem below_eq_filterMap (t : Tree n) (node : Nat) :
    t.below node = (List.range (2 ^ n)).filterMap (t.childAt? node) := by
  cases hfirst : t.links.firstChild node with
  | none =>
      rw [below_of_leaf hfirst, eq_comm, List.filterMap_eq_nil_iff]
      intro i _
      exact childAt?_of_leaf hfirst i
  | some first =>
      have hchild : ∀ i ∈ List.range (2 ^ n), t.childAt? node i = some (first + i) := by
        intro i hi
        exact childAt?_eq_some_iff.2 ⟨first, hfirst, List.mem_range.1 hi, rfl⟩
      rw [below_of_branch hfirst, List.filterMap_congr hchild, List.range'_eq_map_range,
        ← List.filterMap_eq_map]
      rfl

/-- No path goes on from a leaf. -/
theorem eq_nil_of_leaf (hp : t.follow p = some a) (hleaf : t.links.firstChild a = none)
    (h : t.follow (p ++ q) = some b) : q = [] := by
  cases q with
  | nil => rfl
  | cons position q =>
      rw [List.append_cons] at h
      obtain ⟨c, hc⟩ := exists_follow_of_append h
      obtain ⟨a', ha', hchild⟩ := follow_concat_eq_some_iff.1 hc
      obtain rfl := Option.some_injective _ (hp.symm.trans ha')
      rw [childAt?_of_leaf hleaf] at hchild
      cases hchild

/-- A branch has a child at every position. -/
theorem childAt?_isSome (h : t.links.firstChild node ≠ none) (hlt : position < 2 ^ n) :
    ∃ c, t.childAt? node position = some c := by
  obtain ⟨first, hfirst⟩ := Option.ne_none_iff_exists'.1 h
  exact ⟨_, childAt?_eq_some_iff.2 ⟨first, hfirst, hlt, rfl⟩⟩

/-- Going down along `q` from the node at `p` ends at the end of `q` or at a leaf before. -/
theorem exists_descend (ht : t.Linked) (hp : t.follow p = some node) (hq : ∀ c ∈ q, c < 2 ^ n)
    (hlength : (p ++ q).length ≤ maxLevel n) :
    ∃ met rest found, t.descend ⟨node, p.length⟩ q = .ok ⟨found, (p ++ met).length⟩ ∧
      q = met ++ rest ∧ t.follow (p ++ met) = some found ∧
      (rest ≠ [] → t.links.firstChild found = none) := by
  induction q generalizing p node with
  | nil => exact ⟨[], [], node, by rw [List.append_nil]; rfl, rfl, by rwa [List.append_nil], by simp⟩
  | cons position q ih =>
      have hlt := lt_capacity_of_follow ht hp
      have hposition : position < 2 ^ n := hq position List.mem_cons_self
      cases hchild : t.childAt? node position with
      | none =>
          -- A branch would have a child at this position, too.
          have hleaf : t.links.firstChild node = none := by
            by_contra hbranch
            obtain ⟨c, hc⟩ := childAt?_isSome hbranch hposition
            rw [hchild] at hc
            cases hc
          refine ⟨[], position :: q, node, ?_, rfl, by rwa [List.append_nil], fun _ => hleaf⟩
          rw [descend, child_eq ht hlt hposition, hchild, List.append_nil]
          rfl
      | some c =>
          have hassoc : p ++ position :: q = (p ++ [position]) ++ q := by simp
          have hfollow : t.follow (p ++ [position]) = some c :=
            follow_concat_eq_some_iff.2 ⟨node, hp, hchild⟩
          rw [hassoc] at hlength
          obtain ⟨met, rest, found, hdescend, rfl, hfound, hrest⟩ :=
            ih hfollow (fun x hx => hq x (List.mem_cons_of_mem position hx)) hlength
          have hlevel : Bounded.level (p.length + 1) = .ok (p ++ [position]).length := by
            rw [List.length_append] at hlength
            rw [← boundedLevel_eq (Nat.le_of_add_right_le hlength), List.length_append,
              List.length_singleton]
          refine ⟨position :: met, rest, found, ?_, rfl, by simpa using hfound, hrest⟩
          rw [descend, child_eq ht hlt hposition, hchild]
          simp only [bind, Except.bind, hlevel, hdescend]
          simp

/-- The deepest node on the way to a location: the one at the location, or a leaf above it. -/
theorem exists_deepestAt (ht : t.Linked) (l : Location n) :
    ∃ met rest found, t.deepestAt l = .ok ⟨found, met.length⟩ ∧ l.path = met ++ rest ∧
      t.follow met = some found ∧ (rest ≠ [] → t.links.firstChild found = none) := by
  have hlength : ([] ++ l.path).length ≤ maxLevel n := by
    rw [List.nil_append, Location.length_path]
    exact l.level_le
  exact exists_descend ht t.follow_nil (fun _ => Location.lt_of_mem_path) hlength

/-- Looking for a location finds the node at which the way to it ends. -/
theorem deepestAt_eq (ht : t.Linked) {l : Location n} {met rest : List Nat} {found : Nat}
    (hpath : l.path = met ++ rest) (hfound : t.follow met = some found)
    (hrest : rest ≠ [] → t.links.firstChild found = none) :
    t.deepestAt l = .ok ⟨found, met.length⟩ := by
  obtain ⟨met', rest', found', hdeepest, hpath', hfound', hrest'⟩ := exists_deepestAt ht l
  -- Where one way ends before the other, it ends at a leaf, from which the other cannot go on.
  have hsame : met = met' := by
    rcases List.append_eq_append_iff.1 (hpath.symm.trans hpath') with
      ⟨s, rfl, rfl⟩ | ⟨s, rfl, rfl⟩
    · cases s with
      | nil => rw [List.append_nil]
      | cons c s => exact absurd (eq_nil_of_leaf hfound (hrest (by simp)) hfound') (by simp)
    · cases s with
      | nil => rw [List.append_nil]
      | cons c s => exact absurd (eq_nil_of_leaf hfound' (hrest' (by simp)) hfound) (by simp)
  subst hsame
  rw [hdeepest, Option.some_injective _ (hfound.symm.trans hfound')]

end Tree

end Orthtree
