import Orthtree.Proofs.Counters
import Orthtree.Proofs.Exchange
import Orthtree.Proofs.Renumbering

/-!
# Exchanging two groups

`swap` succeeds on any two groups other than the root's and renumbers the tree by the transposition of the two
(`swap_eq`).  Its loop exchanges the children of one pair of nodes after the other.  What holds between two rounds is
`Links.ChildrenMoved`: the links down are those of the exchanged nodes, the links up name the exchanged owners.  Stated
so, a round needs no case for groups that hold each other's owners, and the owners read after the loop are the final
ones.
-/

namespace Orthtree

/-! ## Rounds of the loop -/

namespace Links

variable {n : Nat} {l m k : Links} {π ρ : Equiv.Perm Nat}

/-- `m` has the links of `l`, except that nodes have exchanged their children as `π` says. -/
structure ChildrenMoved (π : Equiv.Perm Nat) (l m : Links) : Prop where
  groupCapacity_eq : m.groupCapacity = l.groupCapacity
  nodeCapacity_eq : m.nodeCapacity = l.nodeCapacity
  owner_eq (group : Nat) : m.owner group = (l.owner group).map π.symm
  firstChild_eq (node : Nat) : m.firstChild node = l.firstChild (π node)

namespace ChildrenMoved

theorem refl (l : Links) : ChildrenMoved 1 l l where
  groupCapacity_eq := rfl
  nodeCapacity_eq := rfl
  owner_eq group := by cases h : l.owner group <;> rfl
  firstChild_eq _ := rfl

/-- Exchanges of children come one after the other. -/
theorem mul (h : ChildrenMoved π l m) (h' : ChildrenMoved ρ m k) : ChildrenMoved (π * ρ) l k where
  groupCapacity_eq := h'.groupCapacity_eq.trans h.groupCapacity_eq
  nodeCapacity_eq := h'.nodeCapacity_eq.trans h.nodeCapacity_eq
  owner_eq group := by
    rw [h'.owner_eq, h.owner_eq, Option.map_map]
    rfl
  firstChild_eq node := by rw [h'.firstChild_eq, h.firstChild_eq, Equiv.Perm.mul_apply]

/-- Exchanging children keeps both records of each edge. -/
theorem paired (h : ChildrenMoved π l m) (hl : l.Paired n) : m.Paired n where
  owner_iff group node := by
    rw [h.owner_eq, h.firstChild_eq, ← hl.owner_iff, Option.map_eq_some_iff]
    simp only [Equiv.symm_apply_eq, exists_eq_right]
  begins {node first} hfirst := hl.begins (by rwa [h.firstChild_eq] at hfirst)

end ChildrenMoved

end Links

namespace Tree

variable {n : Nat} {t u : Tree n} {node group first a b x y : Nat} {σ : Equiv.Perm Nat}

/-- After `readopt` the group that the first child of `node` begins is owned by `node`. -/
theorem readopt_eq (node : Nat) (hnode : node < t.capacity)
    (hbegins : ∀ first, t.links.firstChild node = some first →
      ∃ group, group ≠ 0 ∧ group < t.groupCapacity ∧ Group.start n group = first) :
    ∃ l : Links, readopt node t = .ok () { t with links := l } ∧
      l.groupCapacity = t.groupCapacity ∧ l.nodeCapacity = t.capacity ∧
      (∀ v, l.firstChild v = t.links.firstChild v) ∧
      ∀ g, l.owner g =
        if g ≠ 0 ∧ t.links.firstChild node = some (Group.start n g) then some node
        else t.links.owner g := by
  have hask : ask (·.firstChildAt node) t = .ok (t.links.firstChild node) t :=
    ask_of_ok (firstChildAt_of_lt hnode)
  cases hfirst : t.links.firstChild node with
  | none =>
      refine ⟨t.links, ?_, rfl, rfl, fun _ => rfl, ?_⟩
      · rw [readopt, bind_of_ok hask, hfirst]
        rfl
      · intro g
        simp
  | some first =>
      obtain ⟨group, hgroup, hlt, rfl⟩ := hbegins first hfirst
      refine ⟨t.links.setOwner group (some node), ?_, by simp [groupCapacity], rfl,
        fun _ => rfl, ?_⟩
      · rw [readopt, bind_of_ok hask, hfirst]
        simp only [Group.ofNode_start]
        exact setOwner_of_lt hlt _
      · intro g
        have hiff : g = group ↔ g ≠ 0 ∧ some (Group.start n group) = some (Group.start n g) := by
          rw [Option.some_inj, (Group.start_injective n).eq_iff]
          constructor
          · rintro rfl
            exact ⟨hgroup, rfl⟩
          · exact fun h => h.2.symm
        rw [Links.owner_setOwner hlt]
        simp only [hiff]

/-- One round exchanges the children of one pair of nodes. -/
theorem exchangeNodes_eq (ht : t.links.Paired n) (hx : x < t.capacity) (hy : y < t.capacity) :
    ∃ l : Links, exchangeNodes (x, y) t = .ok () { t with links := l } ∧
      Links.ChildrenMoved (Equiv.swap x y) t.links l := by
  have hchild : ∀ v, (t.links.exchangeChildren x y).firstChild v =
      t.links.firstChild (Equiv.swap x y v) := by
    intro v
    rw [Links.firstChild_exchangeChildren hx hy, Equiv.swap_apply_def]
    split_ifs <;> rfl
  have hbegins : ∀ v first, (t.links.exchangeChildren x y).firstChild v = some first →
      ∃ group, group ≠ 0 ∧ group < t.groupCapacity ∧ Group.start n group = first := by
    intro v first hfirst
    rw [hchild] at hfirst
    obtain ⟨group, hgroup, rfl, howner⟩ := ht.exists_owner hfirst
    exact ⟨group, hgroup, Links.lt_groupCapacity_of_owner howner, rfl⟩
  obtain ⟨l, hl, hlg, hln, hlf, hlo⟩ := readopt_eq
    (t := { t with links := t.links.exchangeChildren x y }) x (by simpa [capacity] using hx) (hbegins x)
  have hbegins' : ∀ first, l.firstChild y = some first →
      ∃ group, group ≠ 0 ∧ group < l.groupCapacity ∧ Group.start n group = first := by
    intro first hfirst
    simpa [groupCapacity, hlg] using hbegins y first (hlf y ▸ hfirst)
  obtain ⟨m, hm, hmg, hmn, hmf, hmo⟩ := readopt_eq (t := { t with links := l }) y
    (by simpa [capacity, hln] using hy) hbegins'
  refine ⟨m, ?_, hmg.trans hlg, ?_, ?_, ?_⟩
  · rw [exchangeNodes, bind_of_ok (exchangeChildren_of_lt hx hy), bind_of_ok hl]
    exact hm
  · rw [hmn, capacity, hln]
    simp [capacity]
  · intro g
    -- The two groups whose owner changes are told apart by their old owner.
    simp only [hmo, hlo, hlf, hchild, Links.owner_exchangeChildren, Equiv.swap_apply_left,
      Equiv.swap_apply_right, ← ht.owner_iff, Equiv.symm_swap]
    cases t.links.owner g with
    | none => simp
    | some p =>
        rw [Option.map_some, Equiv.swap_apply_def]
        simp only [Option.some_inj]
        split_ifs <;> rfl
  · intro v
    rw [hmf, hlf, hchild]

/-- The loop exchanges the children of all pairs of nodes. -/
theorem forM_exchangeNodes_eq (pairs : List (Nat × Nat)) (ht : t.links.Paired n)
    (hpairs : ∀ pair ∈ pairs, pair.1 < t.capacity ∧ pair.2 < t.capacity) :
    ∃ l : Links, pairs.forM exchangeNodes t = .ok () { t with links := l } ∧
      Links.ChildrenMoved (Group.exchanged pairs) t.links l := by
  induction pairs generalizing t with
  | nil => exact ⟨t.links, rfl, .refl t.links⟩
  | cons pair pairs ih =>
      obtain ⟨hx, hy⟩ := hpairs pair List.mem_cons_self
      obtain ⟨l, hl, hmoved⟩ := exchangeNodes_eq ht hx hy
      let t₁ : Tree n := { t with links := l }
      have hrest : ∀ p ∈ pairs, p.1 < t₁.capacity ∧ p.2 < t₁.capacity := by
        intro p hp
        rw [capacity, hmoved.nodeCapacity_eq]
        exact hpairs p (List.mem_cons_of_mem pair hp)
      obtain ⟨m, hm, hmoved'⟩ := ih (hmoved.paired ht) hrest
      refine ⟨m, ?_, ?_⟩
      · exact (bind_of_ok hl).trans hm
      · rw [Group.exchanged_cons]
        exact hmoved.mul hmoved'

/-! ## The owners of the two groups -/

/-- After `handOver` the group and its owner, if there is one, name each other. -/
theorem handOver_eq (owner : Option Nat) (ht : t.Sized) (hgroup : group ≠ 0)
    (hlt : group < t.groupCapacity) (howner : ∀ node, owner = some node → node < t.capacity) :
    ∃ l : Links, handOver group owner t = .ok () { t with links := l } ∧
      l.groupCapacity = t.groupCapacity ∧ l.nodeCapacity = t.capacity ∧
      (∀ g, l.owner g = if g = group then owner else t.links.owner g) ∧
      ∀ v, l.firstChild v =
        if owner = some v then some (Group.start n group) else t.links.firstChild v := by
  cases owner with
  | none =>
      refine ⟨t.links.setOwner group none, setOwner_of_lt hlt none, ?_, rfl,
        Links.owner_setOwner hlt none, ?_⟩
      · simp [groupCapacity]
      · intro v
        simp
  | some node =>
      have hnode : node < t.capacity := howner node rfl
      have hset := setFirstChild_of_lt hnode (some (Group.start n group))
      refine ⟨(t.links.setFirstChild node (some (Group.start n group))).setOwner group (some node),
        ?_, ?_, ?_, ?_, ?_⟩
      · rw [handOver]
        dsimp only
        rw [bind_of_ok (ask_of_ok (ht.first_eq hgroup hlt)), bind_of_ok hset]
        exact setOwner_of_lt (by simpa [groupCapacity] using hlt) _
      · simp [groupCapacity]
      · simp [capacity]
      · intro g
        rw [Links.owner_setOwner (by rwa [Links.groupCapacity_setFirstChild]),
          Links.owner_setFirstChild]
      · intro v
        rw [Links.firstChild_setOwner, Links.firstChild_setFirstChild hnode]
        simp only [Option.some_inj, eq_comm]

/-- The pairs that `swap` exchanges, one for each position. -/
theorem memberPairs_eq (ht : t.Sized) (ha : a ≠ 0) (hb : b ≠ 0) (hac : a < t.groupCapacity)
    (hbc : b < t.groupCapacity) : memberPairs n a b =
      .ok (Group.runPairs (Group.start n a) (Group.start n b) (2 ^ n)) := by
  rw [memberPairs, ht.members_eq ha hac, ht.members_eq hb hbc]
  simp only [bind, Except.bind, pure, Except.pure, Span.toList, Nat.add_sub_cancel_left]
  rw [List.range'_eq_map_range, List.range'_eq_map_range, List.zip_map']
  rfl

/-- The pairs of two groups inside the tables lie inside the tables. -/
theorem mem_runPairs_lt {pair : Nat × Nat} (ht : t.Sized) (ha : a ≠ 0) (hb : b ≠ 0)
    (hac : a < t.groupCapacity) (hbc : b < t.groupCapacity)
    (h : pair ∈ Group.runPairs (Group.start n a) (Group.start n b) (2 ^ n)) :
    pair.1 < t.capacity ∧ pair.2 < t.capacity := by
  obtain ⟨i, hi, rfl⟩ := List.mem_map.1 h
  have hale := ht.start_add_le ha hac
  have hble := ht.start_add_le hb hbc
  have hi' := List.mem_range.1 hi
  exact ⟨by omega, by omega⟩

/-- Exchanged children and handed-over groups are a renumbering by the transposition. -/
theorem renumbers_swap {l m : Links} (ht : t.Linked) (ha : a ≠ 0) (hb : b ≠ 0) (hab : a ≠ b)
    (hl : Links.ChildrenMoved
      (Group.exchanged (Group.runPairs (Group.start n a) (Group.start n b) (2 ^ n))) t.links l)
    (hg : m.groupCapacity = t.groupCapacity) (hn : m.nodeCapacity = t.capacity)
    (ho : ∀ g, m.owner g = if g = a then l.owner b else if g = b then l.owner a else l.owner g)
    (hf : ∀ v, m.firstChild v =
      if l.owner b = some v then some (Group.start n a)
      else if l.owner a = some v then some (Group.start n b) else l.firstChild v) :
    Renumbers (Equiv.swap a b) t { t with links := m } := by
  have hroot : Equiv.swap a b 0 = 0 := Group.swap_zero ha hb
  -- The loop has renumbered the owners, but each group is still in its old place.
  have howner : ∀ g, l.owner g =
      (t.links.owner g).map (Group.renumber n (Equiv.swap a b)) := by
    intro g
    rw [hl.owner_eq]
    congr 1
    funext v
    rw [Equiv.symm_apply_eq, Group.exchanged_groups ha hb hab,
      Group.renumber_swap_renumber_swap ha hb]
  have howns : ∀ g v, l.owner g = some (Group.renumber n (Equiv.swap a b) v) ↔
      t.links.owner g = some v := by
    intro g v
    rw [howner, ← Option.map_some,
      (Option.map_injective (Group.renumber_injective hroot)).eq_iff]
  refine ⟨hroot, hg, hn, ?_, ?_⟩
  · intro g
    rw [ho, ← howner, Equiv.swap_apply_def]
    split_ifs <;> simp_all
  · intro v
    rw [hf, hl.firstChild_eq, Group.exchanged_groups ha hb hab,
      Group.renumber_swap_renumber_swap ha hb]
    simp only [howns]
    cases hfirst : t.links.firstChild v with
    | none =>
        have hnone : ∀ g, t.links.owner g ≠ some v := by
          intro g hg
          rw [((ht.paired.owner_iff g v).1 hg).2] at hfirst
          cases hfirst
        rw [if_neg (hnone b), if_neg (hnone a)]
        rfl
    | some first =>
        obtain ⟨g, hgroup, rfl, hown⟩ := ht.paired.exists_owner hfirst
        have heq : ∀ h, t.links.owner h = some v ↔ g = h := fun h =>
          ⟨fun hh => ht.paired.owner_injective hown hh, fun hh => hh ▸ hown⟩
        simp only [heq, Option.map_some, Group.renumber_start hroot, Equiv.swap_apply_def]
        split_ifs <;> simp_all

theorem ask_ownerAt (h : group < t.groupCapacity) :
    ask (·.ownerAt group) t = .ok (t.links.owner group) t :=
  ask_of_ok (ownerAt_of_lt h)

/-- `exchangeGroups` renumbers the links and then corrects the counters. -/
theorem exchangeGroups_eq (ht : t.Linked) (ha : a ≠ 0) (hb : b ≠ 0) (hab : a ≠ b)
    (hac : a < t.groupCapacity) (hbc : b < t.groupCapacity) (aInUse bInUse : Bool) :
    ∃ l : Links, Renumbers (Equiv.swap a b) t { t with links := l } ∧
      exchangeGroups a b aInUse bInUse t =
        (if aInUse && !bInUse then moveUse a b
          else if bInUse && !aInUse then moveUse b a else pure ()) { t with links := l } := by
  obtain ⟨l, hloop, hmoved⟩ := forM_exchangeNodes_eq _ ht.paired fun _ hpair =>
    mem_runPairs_lt ht.toSized ha hb hac hbc hpair
  have hlg : l.groupCapacity = t.groupCapacity := hmoved.groupCapacity_eq
  have hln : l.nodeCapacity = t.capacity := hmoved.nodeCapacity_eq
  have hlpaired : l.Paired n := hmoved.paired ht.paired
  have hls : Sized { t with links := l } := ht.toSized.congr hlg hln
  have hlowner : ∀ {g v}, l.owner g = some v → v < l.nodeCapacity := fun {g v} h =>
    Links.lt_nodeCapacity_of_firstChild ((hlpaired.owner_iff g v).1 h).2
  -- The owners read after the loop are handed over one after the other.
  obtain ⟨k, hk, hkg, hkn, hko, hkf⟩ := handOver_eq (l.owner a) hls hb
    (hbc.trans_eq hlg.symm) fun v hv => hlowner hv
  have hks : Sized { t with links := k } := hls.congr hkg hkn
  obtain ⟨m, hm, hmg, hmn, hmo, hmf⟩ := handOver_eq (l.owner b) hks ha
    (hac.trans_eq (hkg.trans hlg).symm) fun v hv => (hlowner hv).trans_eq hkn.symm
  refine ⟨m, renumbers_swap ht ha hb hab hmoved (hmg.trans (hkg.trans hlg))
    (hmn.trans (hkn.trans hln)) ?_ ?_, ?_⟩
  · intro g
    rw [hmo]
    simp only [hko]
  · intro v
    rw [hmf]
    simp only [hkf]
  · have hla := ask_ownerAt (n := n) (t := { t with links := l }) (hac.trans_eq hlg.symm)
    have hlb := ask_ownerAt (n := n) (t := { t with links := l }) (hbc.trans_eq hlg.symm)
    rw [exchangeGroups, bind_of_ok (ask_of_ok (memberPairs_eq ht.toSized ha hb hac hbc)),
      bind_of_ok hloop, bind_of_ok hla, bind_of_ok hlb, bind_of_ok hk, bind_of_ok hm]

/-- `moveUse` writes the counters if the search for the lowest free group finds one. -/
theorem moveUse_eq (ht : t.Sized) {freed taken free : Nat} (htaken : taken < t.groupCapacity)
    (hend : t.groupEnd ≤ t.groupCapacity)
    (hfound : (if min t.firstFree freed = taken then t.nextFree (taken + 1)
      else .ok (min t.firstFree freed)) = .ok free) :
    moveUse freed taken t = .ok () { t with
      firstFree := free
      groupEnd := usedEnd t.links (max t.groupEnd (taken + 1)) } := by
  rw [moveUse, bind_of_ok (ask_of_ok (ht.index_succ_eq htaken)), bind_of_ok (ask_of_ok hfound),
    bind_modify, lowerGroupEnd_of_le]
  exact max_le hend htaken

/-- After exchanging a group in use with a free one, the other one is in use. -/
theorem Renumbers.inUse_swap_iff (h : Renumbers (Equiv.swap a b) t u) (ha : t.InUse a)
    (hb : ¬t.InUse b) (g : Nat) : u.InUse g ↔ t.InUse g ∧ g ≠ a ∨ g = b := by
  rw [← Equiv.swap_apply_self a b g, h.inUse_apply, Equiv.swap_apply_self]
  rcases eq_or_ne g a with rfl | hga
  · have hne : g ≠ b := fun heq => hb (heq ▸ ha)
    simp [hb, hne]
  · rcases eq_or_ne g b with rfl | hgb
    · simp [ha]
    · simp [Equiv.swap_apply_of_ne_of_ne hga hgb, hga, hgb]

/-- Moving the one group in use to the free one keeps the counters exact. -/
theorem moveUse_counted {l : Links} (ht : t.Valid)
    (h : Renumbers (Equiv.swap a b) t { t with links := l }) (ha : t.InUse a) (hb : ¬t.InUse b)
    (hbc : b < t.groupCapacity) : ∃ u : Tree n, moveUse a b { t with links := l } = .ok () u ∧
      u.links = l ∧ u.size = t.size ∧ u.Counted := by
  have hlt : b < Tree.groupCapacity { t with links := l } := hbc.trans_eq h.groupCapacity_eq.symm
  have hused := h.inUse_swap_iff ha hb
  have hend : t.groupEnd ≤ Tree.groupCapacity { t with links := l } :=
    (ht.last.le_groupCapacity ht.toSized).trans_eq h.groupCapacity_eq.symm
  obtain ⟨free, hfound, hlowest⟩ := ht.lowest.moved ha hb hlt hused
  refine ⟨_, moveUse_eq (h.sized ht.toSized) hlt hend hfound, rfl, rfl, ?_, hlowest, ?_⟩
  · have hcard := h.card_usedGroups ht.toSized
    exact ht.size_eq.trans (congrArg (Group.nodeCount n) hcard.symm)
  · exact ht.last.moved fun g hg => ((hused g).1 hg).imp And.left id

/-- The counters play no part in renumbering. -/
theorem Renumbers.of_links {v : Tree n} (h : Renumbers σ t u) (hlinks : v.links = u.links) :
    Renumbers σ t v where
  root := h.root
  groupCapacity_eq := by rw [← h.groupCapacity_eq, groupCapacity, hlinks, groupCapacity]
  capacity_eq := by rw [← h.capacity_eq, capacity, hlinks, capacity]
  owner_apply group := by rw [hlinks, h.owner_apply]
  firstChild_apply node := by rw [hlinks, h.firstChild_apply]

/-- What `swap` does after its checks. -/
theorem swap_eq_exchangeGroups (ha : a ≠ 0) (hb : b ≠ 0) (hab : a ≠ b)
    (hac : a < t.groupCapacity) (hbc : b < t.groupCapacity) (hused : t.InUse a ∨ t.InUse b) :
    swap a b t = exchangeGroups a b (decide (t.InUse a)) (decide (t.InUse b)) t := by
  rw [swap, if_neg (not_or.2 ⟨ha, hb⟩), if_neg hab, bind_of_ok (ask_of_ok (isInUse_eq hac)),
    bind_of_ok (ask_of_ok (isInUse_eq hbc)), if_pos]
  simpa using hused

/-- Two free groups stay as they are. -/
theorem swap_of_free (ha : a ≠ 0) (hb : b ≠ 0) (hab : a ≠ b) (hac : a < t.groupCapacity)
    (hbc : b < t.groupCapacity) (hfa : ¬t.InUse a) (hfb : ¬t.InUse b) :
    swap a b t = .ok () t := by
  rw [swap, if_neg (not_or.2 ⟨ha, hb⟩), if_neg hab, bind_of_ok (ask_of_ok (isInUse_eq hac)),
    bind_of_ok (ask_of_ok (isInUse_eq hbc)), if_neg]
  · rfl
  · simp [hfa, hfb]

/-- **Exchanging two groups.**  `swap` accepts any two groups other than the root's and renumbers
the tree by their transposition; the counters stay exact. -/
theorem swap_eq (ht : t.Valid) (ha : a ≠ 0) (hb : b ≠ 0) (hab : a ≠ b)
    (hac : a < t.groupCapacity) (hbc : b < t.groupCapacity) :
    ∃ u : Tree n, swap a b t = .ok () u ∧ Renumbers (Equiv.swap a b) t u ∧ u.size = t.size ∧
      u.Valid := by
  obtain ⟨l, hl, hrun⟩ := exchangeGroups_eq ht.toLinked ha hb hab hac hbc
    (decide (t.InUse a)) (decide (t.InUse b))
  by_cases hau : t.InUse a
  · have hswap := swap_eq_exchangeGroups ha hb hab hac hbc (Or.inl hau)
    by_cases hbu : t.InUse b
    · -- Both are in use afterwards as before, so no counter has to change.
      have hused : ∀ g, t.InUse g ↔ Tree.InUse (n := n) { t with links := l } g := by
        intro g
        rw [← Equiv.swap_apply_self a b g, hl.inUse_apply, Equiv.swap_apply_self,
          Equiv.swap_apply_def]
        split_ifs <;> simp_all
      refine ⟨{ t with links := l }, ?_, hl, rfl, hl.valid ht ?_⟩
      · rw [hswap, hrun, decide_eq_true hau, decide_eq_true hbu]
        rfl
      · exact ht.toCounted.congr ht.toSized (hl.sized ht.toSized) hused rfl rfl rfl
    · obtain ⟨u, hu, hlinks, hsize, hcounted⟩ := moveUse_counted ht hl hau hbu hbc
      have hrenumbers : Renumbers (Equiv.swap a b) t u := hl.of_links hlinks
      refine ⟨u, ?_, hrenumbers, hsize, hrenumbers.valid ht hcounted⟩
      rw [hswap, hrun, decide_eq_true hau, decide_eq_false hbu]
      exact hu
  · by_cases hbu : t.InUse b
    · have hl' : Renumbers (Equiv.swap b a) t { t with links := l } := Equiv.swap_comm a b ▸ hl
      obtain ⟨u, hu, hlinks, hsize, hcounted⟩ := moveUse_counted ht hl' hbu hau hac
      have hrenumbers : Renumbers (Equiv.swap a b) t u := hl.of_links hlinks
      refine ⟨u, ?_, hrenumbers, hsize, hrenumbers.valid ht hcounted⟩
      rw [swap_eq_exchangeGroups ha hb hab hac hbc (Or.inr hbu), hrun, decide_eq_false hau,
        decide_eq_true hbu]
      exact hu
    · refine ⟨t, swap_of_free ha hb hab hac hbc hau hbu, ?_, rfl, ht⟩
      apply Renumbers.of_fixed ht.toLinked
      intro g hg
      exact Equiv.swap_apply_of_ne_of_ne (fun h => hau (h ▸ hg)) (fun h => hbu (h ▸ hg))

/-- All that `swap` can do: it refuses the root's group, a group with itself, and groups past the
tables. -/
theorem swap_cases (ht : t.Valid) (a b : Nat) :
    (∃ e, swap a b t = .error e t ∧
      e ∈ [Fault.swapRoot, .swapSelf a, .groupRange a t.groupCapacity,
        .groupRange b t.groupCapacity] ∧
      (a = 0 ∨ b = 0 ∨ a = b ∨ t.groupCapacity ≤ a ∨ t.groupCapacity ≤ b)) ∨
    ¬(a = 0 ∨ b = 0 ∨ a = b ∨ t.groupCapacity ≤ a ∨ t.groupCapacity ≤ b) ∧
      ∃ u : Tree n, swap a b t = .ok () u ∧ Renumbers (Equiv.swap a b) t u ∧ u.size = t.size ∧
        u.Valid := by
  by_cases hroot : a = 0 ∨ b = 0
  · refine Or.inl ⟨.swapRoot, ?_, by simp, hroot.imp_right Or.inl⟩
    rw [swap, if_pos hroot]
    rfl
  rcases eq_or_ne a b with rfl | hab
  · refine Or.inl ⟨.swapSelf a, ?_, by simp, Or.inr (Or.inr (Or.inl rfl))⟩
    rw [swap, if_neg hroot, if_pos rfl]
    rfl
  rcases Nat.lt_or_ge a t.groupCapacity with hac | hac
  · rcases Nat.lt_or_ge b t.groupCapacity with hbc | hbc
    · obtain ⟨ha, hb⟩ := not_or.1 hroot
      exact Or.inr ⟨by omega, swap_eq ht ha hb hab hac hbc⟩
    · refine Or.inl ⟨.groupRange b t.groupCapacity, ?_, by simp, by simp [hbc]⟩
      rw [swap, if_neg hroot, if_neg hab, bind_of_ok (ask_of_ok (isInUse_eq hac)),
        bind_of_error (ask_of_error (isInUse_of_le hbc))]
  · refine Or.inl ⟨.groupRange a t.groupCapacity, ?_, by simp, by simp [hac]⟩
    rw [swap, if_neg hroot, if_neg hab, bind_of_error (ask_of_error (isInUse_of_le hac))]

end Tree

end Orthtree
