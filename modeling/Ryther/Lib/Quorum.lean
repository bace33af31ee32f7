import Mathlib.Algebra.BigOperators.Group.Finset.Basic
import Mathlib.Algebra.Order.BigOperators.Group.Finset
import Mathlib.Algebra.Order.Ring.Nat

/-!
# Weighted two-thirds quorums

Voters with natural weights; a set of voters is a quorum when it holds more than two thirds of the
weight of all members.

* `quorum_le_iff` — the integer threshold `2 * n / 3 + 1` is the rule `> 2/3`, without rounding.
* `third_lt_inter` — two quorums share more than a third of the weight.
* `exists_inter_sdiff` — so they share a member outside every set of at most a third.
* `quorum_le_sub_iff` — what is left without `x ≤ n / 3` is a quorum unless `x` is exactly a third.
-/

namespace Ryther.Lib

/-! ### Thresholds -/

/-- Rounding down and adding one is the strict two-thirds rule. Kind: L -/
theorem quorum_le_iff (n x : ℕ) : 2 * n / 3 + 1 ≤ x ↔ 2 * n < 3 * x := by
  omega

/-- The rest after removing at most a third of the weight. Kind: L -/
theorem quorum_le_sub_iff {n x : ℕ} (h : x ≤ n / 3) : 2 * n / 3 + 1 ≤ n - x ↔ 3 * x ≠ n := by
  omega

/-! ### Intersections -/

section intersection

variable {ι : Type*} [DecidableEq ι] (w : ι → ℕ) {M Q₁ Q₂ F : Finset ι}

/-- Two sets of members weigh no more than all members and what they share. Kind: L -/
theorem sum_add_sum_le (h₁ : Q₁ ⊆ M) (h₂ : Q₂ ⊆ M) :
    ∑ i ∈ Q₁, w i + ∑ i ∈ Q₂, w i ≤ ∑ i ∈ M, w i + ∑ i ∈ Q₁ ∩ Q₂, w i := by
  have hunion : ∑ i ∈ Q₁ ∪ Q₂, w i ≤ ∑ i ∈ M, w i :=
    Finset.sum_le_sum_of_subset (Finset.union_subset h₁ h₂)
  rw [← Finset.sum_union_inter]
  exact Nat.add_le_add_right hunion _

/-- Two quorums share more than a third. Kind: P -/
theorem third_lt_inter (h₁ : Q₁ ⊆ M) (h₂ : Q₂ ⊆ M)
    (hq₁ : 2 * ∑ i ∈ M, w i < 3 * ∑ i ∈ Q₁, w i)
    (hq₂ : 2 * ∑ i ∈ M, w i < 3 * ∑ i ∈ Q₂, w i) :
    ∑ i ∈ M, w i < 3 * ∑ i ∈ Q₁ ∩ Q₂, w i := by
  have hle := sum_add_sum_le w h₁ h₂
  omega

/-- A set that weighs more than another has a member outside of it. Kind: L -/
theorem exists_mem_notMem_of_sum_lt {Q : Finset ι} (h : ∑ i ∈ F, w i < ∑ i ∈ Q, w i) :
    ∃ i ∈ Q, i ∉ F := by
  by_contra hnone
  push Not at hnone
  have hle : ∑ i ∈ Q, w i ≤ ∑ i ∈ F, w i := Finset.sum_le_sum_of_subset fun i hi => hnone i hi
  exact absurd h (Nat.not_lt.mpr hle)

/-- Two quorums share a member outside every set of at most a third. Kind: P -/
theorem exists_inter_sdiff (h₁ : Q₁ ⊆ M) (h₂ : Q₂ ⊆ M)
    (hq₁ : 2 * ∑ i ∈ M, w i < 3 * ∑ i ∈ Q₁, w i)
    (hq₂ : 2 * ∑ i ∈ M, w i < 3 * ∑ i ∈ Q₂, w i)
    (hF : ∑ i ∈ F, w i ≤ (∑ i ∈ M, w i) / 3) : ∃ i ∈ Q₁ ∩ Q₂, i ∉ F := by
  apply exists_mem_notMem_of_sum_lt w
  have hthird := third_lt_inter w h₁ h₂ hq₁ hq₂
  omega

end intersection

end Ryther.Lib
