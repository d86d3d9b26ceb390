import Orthtree.Proofs.Undoing

/-!
# Refining two leaves in either order

Two refinements take the two lowest free groups, one after the other, whichever leaf comes first (`exists_refine_twice`).
So the orders differ in which of the two leaves has which group.  As edges, the two can be attached in either order
without changing what comes out (`Attached.comm`); what remains is the exchange of two groups that are free at first,
which one `swap` makes up for.
-/

namespace Orthtree.Tree

variable {n : Nat} {t u v w : Tree n} {a b g g' : Nat}

/-! ## Two edges -/

/-- Two edges can be attached in the other order. -/
theorem Attached.comm (h : Attached a g t u) (h' : Attached b g' u w) (ht : t.Sized)
    (hb : t.Live b) : ∃ v, Attached b g' t v ∧ Attached a g v w := by
  have hgroups : g ≠ g' := by
    rintro rfl
    exact h'.not_inUse ((h.inUse_iff g).2 (Or.inr rfl))
  have hnodes : a ≠ b := by
    rintro rfl
    have hleaf := h'.leaf
    rw [h.firstChild_eq, if_pos rfl] at hleaf
    cases hleaf
  have hfree : ¬t.InUse g' := fun hused => h'.not_inUse ((h.inUse_iff g').2 (Or.inl hused))
  have hleaf : t.links.firstChild b = none := by
    rw [← h'.leaf, h.firstChild_eq, if_neg hnodes.symm]
  -- Group and node of the second edge are as free without the first edge as with it.
  let v : Tree n := { t with links := edgeLinks t.links b g' (some b) (some (Group.start n g')) }
  have hv : Attached b g' t v := attached_of_leaf ht h'.group_ne_zero
    (h'.group_lt.trans_eq h.groupCapacity_eq) hfree hb hleaf rfl
  refine ⟨v, hv, ?_⟩
  exact {
    groupCapacity_eq := by rw [h'.groupCapacity_eq, h.groupCapacity_eq, hv.groupCapacity_eq]
    capacity_eq := by rw [h'.capacity_eq, h.capacity_eq, hv.capacity_eq]
    group_ne_zero := h.group_ne_zero
    group_lt := h.group_lt.trans_eq hv.groupCapacity_eq.symm
    live := (hv.live_iff a).2 (Or.inl h.live)
    leaf := by rw [hv.firstChild_eq, if_neg hnodes, h.leaf]
    free := by rw [hv.owner_eq, if_neg hgroups, h.free]
    owner_eq := by
      intro x
      rw [h'.owner_eq, h.owner_eq, hv.owner_eq]
      split_ifs with hx hx'
      · exact absurd (hx'.symm.trans hx) hgroups
      all_goals rfl
    firstChild_eq := by
      intro x
      rw [h'.firstChild_eq, h.firstChild_eq, hv.firstChild_eq]
      split_ifs with hx hx'
      · exact absurd (hx'.symm.trans hx) hnodes
      all_goals rfl }

/-- Two edges whose groups have changed places make trees that differ by the exchange of the groups. -/
theorem Attached.renumbers_exchanged {tab tba ta tb : Tree n} (ha : Attached a g t ta)
    (hab : Attached b g' ta tab) (hb : Attached b g t tb) (hba : Attached a g' tb tba)
    (ht : t.Linked) : Renumbers (Equiv.swap g g') tab tba := by
  obtain ⟨v, hv, hva⟩ := ha.comm hab ht.toSized hb.live
  have hnode : Group.renumber n (Equiv.swap g g') a = a := by
    apply Group.renumber_of_fixed
    apply Equiv.swap_apply_of_ne_of_ne
    · rintro hg
      exact ha.not_inUse (hg ▸ ha.live)
    · rintro hg
      exact hv.not_inUse (hg ▸ ha.live)
  apply (hv.renumbers_swap hb ht).attach hva
  rwa [hnode, Equiv.swap_apply_left]

/-! ## Two refinements -/

/-- A group that is free leaves room for nodes. -/
theorem Valid.size_lt_of_free (ht : t.Valid) (hlt : g < t.groupCapacity) (hfree : ¬t.InUse g) :
    t.size < t.capacity := by
  refine ht.size_le_capacity.lt_of_ne ?_
  intro hfull
  exact hfree (ht.size_eq_capacity_iff.1 hfull g hlt)

/-- Where two groups are free, two leaves are refined into the two lowest ones. -/
theorem exists_refine_twice (ht : t.Valid) (hg : g < t.groupCapacity) (hg' : g' < t.groupCapacity)
    (hfree : ¬t.InUse g) (hfree' : ¬t.InUse g') (hgroups : g ≠ g') (ha : t.Live a) (hb : t.Live b)
    (hla : t.links.firstChild a = none) (hlb : t.links.firstChild b = none) (hnodes : a ≠ b) :
    ∃ u w, refine a t = .ok (some t.firstFree) u ∧ Attached a t.firstFree t u ∧ u.Valid ∧
      refine b u = .ok (some u.firstFree) w ∧ Attached b u.firstFree u w ∧ w.Valid ∧
      t.firstFree < u.firstFree := by
  obtain ⟨u, hau, hattached, -, hu⟩ := refine_eq ht ha hla (ht.size_lt_of_free hg hfree)
  -- One of the two groups is still free after the first refinement.
  obtain ⟨left, hleft, hunused⟩ : ∃ left, left < u.groupCapacity ∧ ¬u.InUse left := by
    rw [hattached.groupCapacity_eq]
    rcases eq_or_ne g t.firstFree with hfirst | hfirst
    · refine ⟨g', hg', ?_⟩
      rw [hattached.inUse_iff, not_or]
      exact ⟨hfree', fun h => hgroups (hfirst.trans h.symm)⟩
    · refine ⟨g, hg, ?_⟩
      rw [hattached.inUse_iff, not_or]
      exact ⟨hfree, hfirst⟩
  have hbu : u.Live b := (hattached.live_iff b).2 (Or.inl hb)
  have hlbu : u.links.firstChild b = none := by
    rw [hattached.firstChild_eq, if_neg hnodes.symm, hlb]
  obtain ⟨w, hbw, hattached', -, hw⟩ := refine_eq hu hbu hlbu (hu.size_lt_of_free hleft hunused)
  refine ⟨u, w, hau, hattached, hu, hbw, hattached', hw, ?_⟩
  by_contra hle
  rcases Nat.lt_or_eq_of_le (Nat.not_lt.1 hle) with hlt | heq
  · exact hu.lowest.1 ((hattached.inUse_iff _).2 (Or.inl (ht.lowest.2 _ hlt)))
  · exact hu.lowest.1 ((hattached.inUse_iff _).2 (Or.inr heq))

/-! ## Sorting afterwards -/

/-- Trees with the same paths and the same room become equal when they are sorted. -/
theorem exists_sort_of_paths (ht : t.Valid) (hu : u.Valid) (hpaths : t.paths = u.paths)
    (hcapacity : t.capacity = u.capacity) : ∃ s, sort t = .ok () s ∧ sort u = .ok () s := by
  obtain ⟨_, σ, _, _, s, hrun, hmoved, hsorted⟩ := sortWith_eq ht
  obtain ⟨_, σ', _, _, s', hrun', hmoved', hsorted'⟩ := sortWith_eq hu
  have hsame : SameLinks s s' := by
    rw [sameLinks_iff_paths hmoved.valid hmoved'.valid hsorted hsorted',
      hmoved.renumbers.paths_eq ht.toLinked, hmoved'.renumbers.paths_eq hu.toLinked, hpaths]
  have hroom : s.capacity = s'.capacity := by
    rw [hmoved.renumbers.capacity_eq, hmoved'.renumbers.capacity_eq, hcapacity]
  refine ⟨s, sort_eq hrun, ?_⟩
  rw [hsame.eq_of_capacity hmoved.valid hmoved'.valid hroom]
  exact sort_eq hrun'

/-- **Refining two leaves.**  If two groups are free in a reachable tree, two leaves can be refined in either order.  The
first one gets the lower of the same two groups each time, and exchanging these turns one result into the other.  When
they are sorted, the two trees are equal. -/
theorem Reachable.refine_comm (h : t.Reachable) {f : Nat} (hf : t.isInUse f = .ok false)
    (hg : t.isInUse g = .ok false) (hgroups : f ≠ g) (ha : t.contains a = .ok true)
    (hla : t.isLeaf a = .ok true) (hb : t.contains b = .ok true) (hlb : t.isLeaf b = .ok true)
    (hnodes : a ≠ b) :
    ∃ g₁ g₂, g₁ < g₂ ∧ ∃ ta tab tb tba s : Tree n,
      refine a t = .ok (some g₁) ta ∧ refine b ta = .ok (some g₂) tab ∧
      refine b t = .ok (some g₁) tb ∧ refine a tb = .ok (some g₂) tba ∧
      swap g₁ g₂ tab = .ok () tba ∧ swap g₁ g₂ tba = .ok () tab ∧
      sort tab = .ok () s ∧ sort tba = .ok () s := by
  have ht := h.valid
  obtain ⟨hlt, hfree⟩ := (isInUse_eq_false_iff f).1 hf
  obtain ⟨hlt', hfree'⟩ := (isInUse_eq_false_iff g).1 hg
  rw [contains_eq_true_iff ht.toSized] at ha hb
  rw [isLeaf_eq_true_iff (ha.lt_capacity ht.toSized)] at hla
  rw [isLeaf_eq_true_iff (hb.lt_capacity ht.toSized)] at hlb
  obtain ⟨ta, tab, hrun, hta, hvalid, hrun₂, htab, htabv, hfirst⟩ :=
    exists_refine_twice ht hlt hlt' hfree hfree' hgroups ha hb hla hlb hnodes
  obtain ⟨tb, tba, hrun', htb, hvalid', hrun₂', htba, htbav, -⟩ :=
    exists_refine_twice ht hlt hlt' hfree hfree' hgroups hb ha hlb hla hnodes.symm
  -- After either first step the same groups are in use, so the second step finds the same one free.
  have hsecond : tb.firstFree = ta.firstFree :=
    hvalid'.lowest.unique hvalid.lowest fun x => by rw [htb.inUse_iff, hta.inUse_iff]
  rw [hsecond] at hrun₂' htba
  have hexchanged := hta.renumbers_exchanged htab htb htba ht.toLinked
  have hexchanged' := htb.renumbers_exchanged htba hta htab ht.toLinked
  have hroom : tab.groupCapacity = ta.groupCapacity := htab.groupCapacity_eq
  have hroom' : tba.groupCapacity = tab.groupCapacity := hexchanged.groupCapacity_eq
  have hsecondlt : ta.firstFree < tab.groupCapacity := htab.group_lt.trans_eq hroom.symm
  have hfirstlt : t.firstFree < tab.groupCapacity := hfirst.trans hsecondlt
  obtain ⟨s, hsort, hsort'⟩ := exists_sort_of_paths htabv htbav
    (hexchanged'.paths_eq htbav.toLinked) hexchanged'.capacity_eq
  refine ⟨t.firstFree, ta.firstFree, hfirst, ta, tab, tb, tba, s, hrun, hrun₂, hrun', hrun₂', ?_, ?_,
    hsort, hsort'⟩
  · exact swap_of_swap htbav htabv hta.group_ne_zero htab.group_ne_zero hfirst.ne
      (hfirstlt.trans_eq hroom'.symm) (hsecondlt.trans_eq hroom'.symm) hexchanged'
  · exact swap_of_swap htabv htbav hta.group_ne_zero htab.group_ne_zero hfirst.ne hfirstlt
      hsecondlt hexchanged

/-- Group 2 has become free below group 3, so the two leaves get the groups 2 and 4. -/
theorem Reachable.refine_comm_hole :
    ∃ g₁ g₂, g₁ < g₂ ∧ ∃ ta tab tb tba s : Tree 2,
      refine 3 ((rootOnly 2 6).afterCalls [.refine 0, .refine 1, .refine 2, .coarsen 1]) =
        .ok (some g₁) ta ∧
      refine 9 ta = .ok (some g₂) tab ∧
      refine 9 ((rootOnly 2 6).afterCalls [.refine 0, .refine 1, .refine 2, .coarsen 1]) =
        .ok (some g₁) tb ∧
      refine 3 tb = .ok (some g₂) tba ∧
      swap g₁ g₂ tab = .ok () tba ∧ swap g₁ g₂ tba = .ok () tab ∧
      sort tab = .ok () s ∧ sort tba = .ok () s :=
  Reachable.refine_comm (f := 4) (g := 5)
    ((Reachable.new 21 rfl).afterCalls [.refine 0, .refine 1, .refine 2, .coarsen 1])
    (by decide) (by decide) (by decide) (by decide) (by decide) (by decide) (by decide) (by decide)

end Orthtree.Tree
