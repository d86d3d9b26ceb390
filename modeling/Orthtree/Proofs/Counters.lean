import Orthtree.Proofs.Invariant
import Orthtree.Tree.Refinement

/-!
# Searching for free groups

`nextFree` is never refused, and finds the lowest free group if all groups before its start are in use; `usedEnd` finds
the end if no group from its start on is in use.  Coming into use and becoming free change the lowest free group and the
end in the way that the edits record it.
-/

namespace Orthtree.Tree

variable {n : Nat} {t u : Tree n} {group stop freed taken : Nat}

/-- The search upwards finds the lowest free group if it starts past groups in use only. -/
theorem exists_isLowestFree (hle : group ≤ t.groupCapacity) (hpos : 0 < group)
    (h : ∀ g, g < group → t.InUse g) :
    ∃ free, t.nextFree group = .ok free ∧ t.IsLowestFree free := by
  obtain ⟨free, hfound, hstart, hfree, hpassed⟩ := exists_nextFree hle
  refine ⟨free, hfound, ?_, ?_⟩
  · rintro (hzero | hsome)
    · omega
    · rw [hfree] at hsome
      cases hsome
  · intro g hg
    rcases Nat.lt_or_ge g group with hlt | hge
    · exact h g hlt
    · exact Or.inr (hpassed g hge hg)

/-- The root's group is never passed over. -/
theorem usedEnd_pos (l : Links) (h : 0 < stop) : 0 < usedEnd l stop := by
  fun_induction usedEnd l stop with
  | case1 => exact h
  | case2 => exact h
  | case3 stop _ ih => exact ih (Nat.succ_pos _)
  | case4 stop _ => exact Nat.succ_pos _

/-- The search downwards finds the end if it starts at or past it. -/
theorem isEnd_usedEnd (h : ∀ g, t.InUse g → g < stop) : t.IsEnd (usedEnd t.links stop) := by
  have hpos : 0 < usedEnd t.links stop := usedEnd_pos _ (h 0 t.inUse_zero)
  constructor
  · rcases Nat.lt_or_ge 1 (usedEnd t.links stop) with hlt | hge
    · exact Or.inr (isSome_owner_usedEnd hlt)
    · exact Or.inl (by omega)
  · intro g hg
    by_contra hge
    have hne : g ≠ 0 := by omega
    have hfree := owner_of_usedEnd_le (Nat.not_lt.1 hge) (h g hg) hne
    rw [InUse, hfree] at hg
    simp [hne] at hg

/-! ## Coming into use and becoming free -/

/-- Putting the lowest free group to use leaves the next one as the lowest. -/
theorem IsLowestFree.nextFree_succ (h : t.IsLowestFree group) (hlt : group < u.groupCapacity)
    (hused : ∀ g, u.InUse g ↔ t.InUse g ∨ g = group) :
    ∃ free, u.nextFree (group + 1) = .ok free ∧ u.IsLowestFree free := by
  refine exists_isLowestFree hlt (Nat.succ_pos group) fun g hg => (hused g).2 ?_
  rcases Nat.lt_succ_iff_lt_or_eq.1 hg with hg | hg
  · exact Or.inl (h.2 g hg)
  · exact Or.inr hg

/-- A group that comes into use is below the end, or makes a new end. -/
theorem IsEnd.max_succ (h : t.IsEnd stop) (hused : ∀ g, u.InUse g ↔ t.InUse g ∨ g = group) :
    u.IsEnd (max stop (group + 1)) := by
  refine ⟨(hused _).2 ?_, ?_⟩
  · rcases Nat.le_total stop (group + 1) with hle | hle
    · right
      omega
    · left
      rw [Nat.max_eq_left hle]
      exact h.1
  · intro g hg
    rcases (hused g).1 hg with hg | rfl
    · have hlt := h.2 g hg
      omega
    · omega

/-- A group that becomes free is the lowest free one, or above it. -/
theorem IsLowestFree.min_freed {lowest : Nat} (h : t.IsLowestFree lowest)
    (hused : ∀ g, u.InUse g ↔ t.InUse g ∧ g ≠ freed) : u.IsLowestFree (min lowest freed) := by
  constructor
  · intro hmin
    obtain ⟨hmin, hne⟩ := (hused _).1 hmin
    rcases Nat.le_total lowest freed with hle | hle
    · rw [Nat.min_eq_left hle] at hmin
      exact h.1 hmin
    · exact hne (Nat.min_eq_right hle)
  · intro g hg
    exact (hused g).2 ⟨h.2 g (by omega), by omega⟩

/-- One group becomes free and another comes into use. -/
theorem IsLowestFree.moved {lowest : Nat} (h : t.IsLowestFree lowest) (hfreed : t.InUse freed)
    (htaken : ¬t.InUse taken) (hlt : taken < u.groupCapacity)
    (hused : ∀ g, u.InUse g ↔ t.InUse g ∧ g ≠ freed ∨ g = taken) :
    ∃ free, (if min lowest freed = taken then u.nextFree (taken + 1) else .ok (min lowest freed)) =
      .ok free ∧ u.IsLowestFree free := by
  have hne : freed ≠ taken := fun heq => htaken (heq ▸ hfreed)
  split
  · next hmin =>
    -- The lowest free group is the one that was taken, and all below it stay in use.
    refine exists_isLowestFree hlt (Nat.succ_pos taken) fun g hg => (hused g).2 ?_
    rcases Nat.lt_succ_iff_lt_or_eq.1 hg with hg | hg
    · exact Or.inl ⟨h.2 g (by omega), by omega⟩
    · exact Or.inr hg
  · next hmin =>
    refine ⟨_, rfl, ?_, ?_⟩
    · intro hused'
      rcases (hused _).1 hused' with ⟨hold, hold'⟩ | heq
      · rcases Nat.le_total lowest freed with hle | hle
        · rw [Nat.min_eq_left hle] at hold
          exact h.1 hold
        · exact hold' (Nat.min_eq_right hle)
      · exact hmin heq
    · intro g hg
      exact (hused g).2 (Or.inl ⟨h.2 g (by omega), by omega⟩)

/-- The end is searched for from the old end, or from past the group that came into use. -/
theorem IsEnd.moved (h : t.IsEnd stop) (hused : ∀ g, u.InUse g → t.InUse g ∨ g = taken) :
    u.IsEnd (usedEnd u.links (max stop (taken + 1))) := by
  apply isEnd_usedEnd
  intro g hg
  rcases hused g hg with hg | rfl
  · have hlt := h.2 g hg
    omega
  · omega

end Orthtree.Tree
