import Mathlib.Data.Fintype.BigOperators
import Mathlib.Data.Nat.Choose.Bounds
import Mathlib.Data.Nat.Choose.Sum
import Orthtree.Stencil.Count

/-!
# Counting offsets

The counts of neighbors are those of offsets.  An offset of rank `r` picks `r` axes and a side on each of them, so there
are `2 ^ r * n.choose r` of them (`card_offsetsOfRank`).  The loop that chooses axes multiplies before it divides: after
`k` rounds it holds `n.choose k`, and the next product is a multiple of the next divisor (`choose_eq_ok_iff`).

Moving a count up by some bits can lose bits without a fault.  The sum over all ranks is still never wrong
(`neighborBound_eq_ok_iff`): up to 32 axes nothing is lost, and with more axes some other step is refused.
-/

namespace Orthtree.Stencil

open Finset

variable {axes rank k ways count more total bound : Nat}

/-! ## Choosing axes -/

/-- The products of the loop that chooses `rank` axes fit 64 bits. -/
def ProductsFit (axes rank : Nat) : Prop :=
  ∀ k < rank, axes.choose k * (axes - k) < Bounded.countLimit

/-- In each round of the loop that chooses `rank` axes, the division leaves no remainder. -/
def DividesExactly (axes rank : Nat) : Prop :=
  ∀ k < rank, ∃ before after, choose axes k = .ok before ∧ choose axes (k + 1) = .ok after ∧
    after * (k + 1) = before * (axes - k)

theorem productsFit_succ_iff : ProductsFit axes (k + 1) ↔
    ProductsFit axes k ∧ axes.choose k * (axes - k) < Bounded.countLimit :=
  Nat.forall_lt_succ_right

theorem ProductsFit.mono (h : ProductsFit axes rank) (hle : k ≤ rank) : ProductsFit axes k :=
  fun i hi => h i (hi.trans_le hle)

/-- A positive multiple of `2 ^ k` fits 64 bits only if `k` is below 64. -/
theorem lt_of_two_pow_mul_lt {x : Nat} (hx : 0 < x) (h : 2 ^ k * x < Bounded.countLimit) : k < 64 :=
  (Nat.pow_lt_pow_iff_right Nat.one_lt_two).1 ((Nat.le_mul_of_pos_right _ hx).trans_lt h)

theorem choose_mul_div (axes k : Nat) :
    axes.choose k * (axes - k) / (k + 1) = axes.choose (k + 1) := by
  rw [← Nat.choose_succ_right_eq, Nat.mul_div_cancel _ k.succ_pos]

/-- The loop ends, and then with the number of choices, iff its products fit. -/
theorem choose_eq_ok_iff :
    choose axes k = .ok ways ↔ ProductsFit axes k ∧ ways = axes.choose k := by
  induction k generalizing ways with
  | zero => simp [choose, ProductsFit, eq_comm]
  | succ k ih =>
      simp only [choose, bind_eq_ok_iff, ih, Bounded.count, Bounded.below_eq_ok_iff,
        productsFit_succ_iff]
      constructor
      · rintro ⟨_, ⟨hfits, rfl⟩, _, ⟨hlt, rfl⟩, hways⟩
        refine ⟨⟨hfits, hlt⟩, ?_⟩
        rw [← choose_mul_div]
        exact (Except.ok.inj hways).symm
      · rintro ⟨⟨hfits, hlt⟩, rfl⟩
        refine ⟨_, ⟨hfits, rfl⟩, _, ⟨hlt, rfl⟩, ?_⟩
        rw [choose_mul_div]
        rfl

/-- Every product that fits is a multiple of the number it is divided by, for the quotient is the number of larger
choices. -/
theorem ProductsFit.dividesExactly (h : ProductsFit axes rank) : DividesExactly axes rank := by
  intro k hk
  have hbefore := choose_eq_ok_iff.2 ⟨h.mono (Nat.le_of_lt hk), rfl⟩
  have hafter := choose_eq_ok_iff.2 ⟨h.mono (Nat.succ_le_of_lt hk), rfl⟩
  exact ⟨_, _, hbefore, hafter, Nat.choose_succ_right_eq axes k⟩

/-! ## Offsets of a rank -/

/-- The axes along which an offset goes to one side. -/
def moved (offset : Fin axes → Int) : Finset (Fin axes) := {d | offset d ≠ 0}

/-- The offsets of -1, 0 or 1 along each axis that go to one side along exactly `rank` axes. -/
def offsetsOfRank (axes rank : Nat) : Finset (Fin axes → Int) :=
  {offset ∈ Fintype.piFinset fun _ => {-1, 0, 1} | (moved offset).card = rank}

section Sides

variable {offset : Fin axes → Int} {chosen : Finset (Fin axes)} {d : Fin axes}

theorem mem_moved_iff : d ∈ moved offset ↔ offset d ≠ 0 := by
  rw [moved, mem_filter_univ]

theorem mem_offsetsOfRank_iff : offset ∈ offsetsOfRank axes rank ↔
    (∀ d, offset d = -1 ∨ offset d = 0 ∨ offset d = 1) ∧ (moved offset).card = rank := by
  simp only [offsetsOfRank, mem_filter, Fintype.mem_piFinset, mem_insert, mem_singleton]

/-- An offset takes one of two sides along the axes it moves on, and none along the others. -/
theorem mem_sides_iff : offset d ∈ (if d ∈ chosen then {-1, 1} else {0} : Finset Int) ↔
    (offset d = -1 ∨ offset d = 0 ∨ offset d = 1) ∧ (d ∈ moved offset ↔ d ∈ chosen) := by
  rw [mem_moved_iff]
  split
  · next hmem =>
    simp only [mem_insert, mem_singleton, hmem, iff_true]
    omega
  · next hmem =>
    simp only [mem_singleton, hmem, iff_false]
    omega

/-- The offsets that move along the chosen axes are given by a side for each of these. -/
theorem filter_moved_eq (hchosen : chosen.card = rank) :
    {offset ∈ offsetsOfRank axes rank | moved offset = chosen} =
      Fintype.piFinset fun d => if d ∈ chosen then {-1, 1} else {0} := by
  ext offset
  simp only [mem_filter, mem_offsetsOfRank_iff, Fintype.mem_piFinset, mem_sides_iff, forall_and,
    ← Finset.ext_iff, and_assoc]
  apply and_congr_right
  intro _
  exact ⟨And.right, fun hmoved => ⟨hmoved ▸ hchosen, hmoved⟩⟩

/-- Along each of the chosen axes an offset goes to one of two sides. -/
theorem card_filter_moved (hchosen : chosen.card = rank) :
    card {offset ∈ offsetsOfRank axes rank | moved offset = chosen} = 2 ^ rank := by
  have hsides (d : Fin axes) :
      card (if d ∈ chosen then {-1, 1} else {0} : Finset Int) = if d ∈ chosen then 2 else 1 := by
    split <;> rfl
  rw [filter_moved_eq hchosen, Fintype.card_piFinset, ← hchosen]
  simp only [hsides]
  rw [prod_ite_mem, univ_inter, prod_const]

end Sides

/-- The offsets of a rank are counted by the axes that they move along. -/
theorem card_offsetsOfRank (axes rank : Nat) :
    (offsetsOfRank axes rank).card = 2 ^ rank * axes.choose rank := by
  have hmaps : Set.MapsTo moved (offsetsOfRank axes rank : Set (Fin axes → Int))
      (powersetCard rank univ : Finset (Finset (Fin axes))) := by
    intro offset hoffset
    exact mem_powersetCard.2 ⟨subset_univ _, (mem_offsetsOfRank_iff.1 hoffset).2⟩
  calc (offsetsOfRank axes rank).card
      = ∑ chosen ∈ powersetCard rank univ,
          card {offset ∈ offsetsOfRank axes rank | moved offset = chosen} :=
        card_eq_sum_card_fiberwise hmaps
    _ = (powersetCard rank (univ : Finset (Fin axes))).card * 2 ^ rank :=
        sum_const_nat fun chosen hchosen => card_filter_moved (mem_powersetCard.1 hchosen).2
    _ = 2 ^ rank * axes.choose rank := by
        rw [card_powersetCard, card_univ, Fintype.card_fin, Nat.mul_comm]

/-! ## Neighbors of one rank -/

/-- The neighbors of a rank are counted iff no product leaves 64 bits. -/
theorem sameLevelCount_eq_ok_iff (hle : rank ≤ axes) : sameLevelCount axes rank = .ok count ↔
    ProductsFit axes rank ∧ (offsetsOfRank axes rank).card < Bounded.countLimit ∧
      count = (offsetsOfRank axes rank).card := by
  simp only [card_offsetsOfRank, sameLevelCount, if_neg (Nat.not_lt.2 hle), bind_eq_ok_iff,
    Bounded.bit_eq_ok_iff, choose_eq_ok_iff, Bounded.count, Bounded.below_eq_ok_iff]
  constructor
  · rintro ⟨_, ⟨-, rfl⟩, _, ⟨hfits, rfl⟩, hlt, rfl⟩
    exact ⟨hfits, hlt, rfl⟩
  · rintro ⟨hfits, hlt, rfl⟩
    have hbits : rank < 64 := lt_of_two_pow_mul_lt (Nat.choose_pos hle) hlt
    exact ⟨_, ⟨hbits, rfl⟩, _, ⟨hfits, rfl⟩, hlt, rfl⟩

/-- A neighbor has a child on the shared element for each choice of sides along the axes it does not move on. -/
theorem card_offsetsOfRank_mul (hle : rank ≤ axes) :
    (offsetsOfRank axes rank).card * 2 ^ (axes - rank) = 2 ^ axes * axes.choose rank := by
  rw [card_offsetsOfRank, Nat.mul_right_comm, ← Nat.pow_add, Nat.add_sub_cancel' hle]

/-- The half-size neighbors of a rank are counted if no product leaves 64 bits, the last one not even by its shift. -/
theorem finerLevelCount_eq (hle : rank ≤ axes) (hfits : ProductsFit axes rank)
    (hlt : 2 ^ axes * axes.choose rank < Bounded.countLimit) :
    finerLevelCount axes rank = .ok (2 ^ axes * axes.choose rank) := by
  have hbits : axes < 64 := lt_of_two_pow_mul_lt (Nat.choose_pos hle) hlt
  have hcard : (offsetsOfRank axes rank).card < Bounded.countLimit := by
    rw [← card_offsetsOfRank_mul hle] at hlt
    exact (Nat.le_mul_of_pos_right _ (Nat.two_pow_pos _)).trans_lt hlt
  rw [finerLevelCount, if_neg (Nat.not_lt.2 hle), bind_eq_ok_iff]
  refine ⟨_, (sameLevelCount_eq_ok_iff hle).2 ⟨hfits, hcard, rfl⟩, ?_⟩
  rw [Bounded.shiftLeft_eq_ok_iff, card_offsetsOfRank_mul hle, Nat.mod_eq_of_lt hlt]
  exact ⟨(Nat.sub_le axes rank).trans_lt hbits, rfl⟩

/-- With 64 axes the half-size neighbors across faces are so many that the shift loses every bit of their number. -/
example : finerLevelCount 64 1 = .ok 0 := by decide

/-! ## Neighbors of all ranks -/

/-- The number of half-size neighbors of `more` ranks from `rank` on. -/
def finerSum (axes rank more : Nat) : Nat :=
  ∑ i ∈ range more, 2 ^ axes * axes.choose (rank + i)

/-- One more rank adds the half-size nodes of its offsets. -/
theorem finerSum_succ (axes rank more : Nat) : finerSum axes rank (more + 1) =
    2 ^ axes * axes.choose rank + finerSum axes (rank + 1) more := by
  rw [finerSum, sum_range_succ', Nat.add_comm, finerSum]
  simp only [Nat.add_zero, Nat.add_assoc, Nat.add_comm 1]

/-- By the binomial theorem, the half-size neighbors of all ranks fill the block of `4 ^ axes` half-size nodes around the
node, but for the node's own place. -/
theorem finerSum_one (axes : Nat) : finerSum axes 1 axes = 4 ^ axes - 2 ^ axes := by
  have hsum := Nat.sum_range_choose axes
  rw [sum_range_succ', Nat.choose_zero_right] at hsum
  have hranks : ∑ i ∈ range axes, axes.choose (1 + i) = 2 ^ axes - 1 := by
    simp only [Nat.add_comm 1]
    omega
  have hpow : 4 ^ axes = 2 ^ axes * 2 ^ axes := by rw [← Nat.mul_pow]
  rw [finerSum, ← mul_sum, hranks, Nat.mul_sub, Nat.mul_one, hpow]

/-- Adding rank after rank gives their sum if it fits. -/
theorem addRanks_eq (hfits : ∀ r ≤ axes, ProductsFit axes r) (hranks : rank + more ≤ axes + 1)
    (hlt : total + finerSum axes rank more < Bounded.countLimit) :
    addRanks axes more rank total = .ok (total + finerSum axes rank more) := by
  induction more generalizing rank total with
  | zero => rfl
  | succ more ih =>
      rw [finerSum_succ, ← Nat.add_assoc] at hlt ⊢
      have hle : rank ≤ axes := by omega
      have hfiner := finerLevelCount_eq hle (hfits rank hle) (by omega)
      have hsum : Bounded.count (total + 2 ^ axes * axes.choose rank) = .ok _ :=
        Bounded.below_of_lt (by omega)
      rw [addRanks, bind_eq_ok_iff]
      refine ⟨_, hfiner, bind_eq_ok_iff.2 ⟨_, hsum, ?_⟩⟩
      exact ih (by omega) hlt

/-- Up to 32 axes no product leaves 64 bits. -/
theorem productsFit_of_le (h : axes ≤ 32) (rank : Nat) : ProductsFit axes rank := by
  intro k _
  calc axes.choose k * (axes - k)
      ≤ 2 ^ axes * axes := Nat.mul_le_mul (Nat.choose_le_two_pow axes k) (Nat.sub_le axes k)
    _ ≤ 2 ^ 32 * 32 := Nat.mul_le_mul (Nat.pow_le_pow_right Nat.two_pos h) h
    _ < Bounded.countLimit := by decide

/-- Up to 32 axes the half-size nodes of all ranks are fewer than `4 ^ axes`, which is at most `2 ^ 64`. -/
theorem finerSum_one_lt (h : axes ≤ 32) : finerSum axes 1 axes < Bounded.countLimit := by
  have hpow : 2 ^ axes ≤ 2 ^ 32 := Nat.pow_le_pow_right Nat.two_pos h
  have hsquare : 4 ^ axes = 2 ^ axes * 2 ^ axes := by rw [← Nat.mul_pow]
  calc finerSum axes 1 axes
      = 2 ^ axes * (2 ^ axes - 1) := by rw [finerSum_one, hsquare, Nat.mul_sub, Nat.mul_one]
    _ ≤ 2 ^ 32 * (2 ^ 32 - 1) := Nat.mul_le_mul hpow (Nat.sub_le_sub_right hpow 1)
    _ < Bounded.countLimit := by decide

/-- Up to 32 axes the loop over the ranks adds up all of them. -/
theorem neighborBound_of_le (h : axes ≤ 32) : neighborBound axes = .ok (4 ^ axes - 2 ^ axes) := by
  have hlt : 0 + finerSum axes 1 axes < Bounded.countLimit := by
    rw [Nat.zero_add]
    exact finerSum_one_lt h
  rw [neighborBound, addRanks_eq (fun r _ => productsFit_of_le h r) (by omega) hlt, Nat.zero_add,
    finerSum_one]

/-- With 33 to 64 axes some product or sum leaves 64 bits, whatever bits the shifts have lost. -/
theorem neighborBound_eq_error :
    ∀ axes ∈ List.range' 33 32, neighborBound axes = .error .overflow := by
  decide +kernel

/-- With more axes, the children of a neighbor of rank 1 are too many for one shift. -/
theorem axes_le_of_neighborBound (h : neighborBound axes = .ok bound) : axes ≤ 64 := by
  cases axes with
  | zero => exact Nat.zero_le 64
  | succ axes =>
      rw [neighborBound, addRanks, bind_eq_ok_iff] at h
      obtain ⟨finer, hfiner, -⟩ := h
      rw [finerLevelCount, if_neg (by omega), bind_eq_ok_iff] at hfiner
      obtain ⟨same, -, hshift⟩ := hfiner
      have hbits := (Bounded.shiftLeft_eq_ok_iff.1 hshift).1
      omega

/-- The bound on the number of neighbors is answered up to 32 axes, and then it is exact. -/
theorem neighborBound_eq_ok_iff :
    neighborBound axes = .ok bound ↔ axes ≤ 32 ∧ bound = 4 ^ axes - 2 ^ axes := by
  constructor
  · intro h
    -- Beyond 32 axes the bound is refused, up to 64 by evaluation and from there on by the first shift.
    have hle : axes ≤ 32 := by
      by_contra hgt
      have hmem : axes ∈ List.range' 33 32 := by
        have hle := axes_le_of_neighborBound h
        rw [List.mem_range'_1]
        omega
      rw [neighborBound_eq_error axes hmem] at h
      cases h
    exact ⟨hle, Except.ok.inj (h.symm.trans (neighborBound_of_le hle))⟩
  · rintro ⟨hle, rfl⟩
    exact neighborBound_of_le hle

/-- **How many neighbors there are.**  Along any number of axes, the counts of one rank are answered as long as no product
leaves 64 bits.  Then every division has come out even, the neighbors of the same size are as many as the offsets, and
those of half the size have as many children on the shared elements.  The bound over all ranks is answered for up to 32
axes, where no sum leaves 64 bits, and it is never wrong. -/
theorem counts_exact (hle : rank ≤ axes) :
    (∀ ways, choose axes rank = .ok ways ↔ ProductsFit axes rank ∧ ways = axes.choose rank) ∧
    (ProductsFit axes rank → DividesExactly axes rank) ∧
    (∀ count, sameLevelCount axes rank = .ok count ↔
      ProductsFit axes rank ∧ (offsetsOfRank axes rank).card < Bounded.countLimit ∧
        count = (offsetsOfRank axes rank).card) ∧
    (ProductsFit axes rank → 2 ^ axes * axes.choose rank < Bounded.countLimit →
      finerLevelCount axes rank = .ok (2 ^ axes * axes.choose rank)) ∧
    ∀ bound, neighborBound axes = .ok bound ↔ axes ≤ 32 ∧ bound = 4 ^ axes - 2 ^ axes :=
  ⟨fun _ => choose_eq_ok_iff, ProductsFit.dividesExactly, fun _ => sameLevelCount_eq_ok_iff hle,
    finerLevelCount_eq hle, fun _ => neighborBound_eq_ok_iff⟩

/-- Choosing 16 of 32 axes, the most for which the bound is answered. -/
theorem counts_exact_middle :
    DividesExactly 32 16 ∧ (offsetsOfRank 32 16).card = 2 ^ 16 * 601080390 ∧
      finerLevelCount 32 16 = .ok (2 ^ 32 * 601080390) ∧
      neighborBound 32 = .ok (2 ^ 64 - 2 ^ 32) := by
  obtain ⟨hchoose, hdivides, hsame, hfiner, hbound⟩ :=
    counts_exact (show 16 ≤ 32 by decide)
  have hways : choose 32 16 = .ok 601080390 := by decide +kernel
  have hcount : sameLevelCount 32 16 = .ok (2 ^ 16 * 601080390) := by decide +kernel
  obtain ⟨hfits, hchosen⟩ := (hchoose _).1 hways
  rw [← hchosen] at hfiner
  exact ⟨hdivides hfits, ((hsame _).1 hcount).2.2.symm, hfiner hfits (by decide),
    (hbound _).2 ⟨by decide, by decide⟩⟩

end Orthtree.Stencil
