import Ryther.Lib.Quorum
import Ryther.Types.Validator

/-!
# Quorums of validators

What `has_quorum` decides, in exact integers. The source adds stakes and computes the threshold
`total * 2 / 3 + 1` in `u64`.

* `hasQuorum_iff` — the decision of the source for any set whose stakes sum to a `u64`: the product
  `total * 2` wraps, so the threshold is that of `2 * total mod 2^64`.
* `hasQuorum_iff_of_fits` — with room for the product it is the two-thirds rule.
* `QuorumMonotone` — more voters never lose a quorum; `quorumMonotone_of_fits` for stakes that sum
  to a `u64`.
* `quorums_share_honest_member` — quorum intersection.
* `hasQuorum_exact_iff` — for which voters the wrapped threshold still gives the rule's answer.
* `hasQuorum_without_faulty_iff` — the members outside a set that `fault_threshold` tolerates.
-/

namespace Ryther

open Lib

/-! ### Exact stakes -/

/-- The `u64` sum is the exact one modulo `2^64`. Kind: L -/
theorem toNat_wrappingSum (stakes : List UInt64) :
    (wrappingSum stakes).toNat = (stakes.map UInt64.toNat).sum % 2 ^ 64 := by
  induction stakes with
  | nil => rfl
  | cons stake stakes ih =>
      rw [wrappingSum_cons, UInt64.toNat_add, ih, List.map_cons, List.sum_cons, Nat.add_mod_mod]

namespace ValidatorSet

/-- The stake of a validator, none for a non-member.
Kind: D -/
def weight (set : ValidatorSet) (id : ValidatorId) : ℕ := ((set.stake id).map UInt64.toNat).getD 0

/-- The exact stake the members among the voters hold.
Kind: D -/
def memberStake (set : ValidatorSet) (voters : List ValidatorId) : ℕ := (voters.map set.weight).sum

/-- The exact sum of the current stakes.
Kind: D -/
def stakeSum (set : ValidatorSet) : ℕ := ((stakesOf set.validators).map UInt64.toNat).sum

/-- The cached total is the exact sum modulo `2^64`. Kind: L -/
theorem toNat_totalStake (set : ValidatorSet) : set.totalStake.toNat = set.stakeSum % 2 ^ 64 := by
  rw [set.total_eq, toNat_wrappingSum]
  rfl

/-- Voters outside the set are filtered out and weigh nothing. Kind: L -/
theorem sum_filterMap_stake (set : ValidatorSet) (voters : List ValidatorId) :
    ((voters.filterMap set.stake).map UInt64.toNat).sum = set.memberStake voters := by
  unfold memberStake
  induction voters with
  | nil => rfl
  | cons id voters ih =>
      rcases hstake : set.stake id with _ | stake <;>
        simp [hstake, weight, ih]

/-- A set has every validator once. Kind: L -/
theorem nodup_validatorIds (set : ValidatorSet) : set.validatorIds.Nodup :=
  set.validators.nodupKeys

/-- The stakes are those of the members. Kind: L -/
theorem memberStake_validatorIds (set : ValidatorSet) :
    set.memberStake set.validatorIds = set.stakeSum := by
  unfold memberStake stakeSum stakesOf validatorIds AList.keys List.keys
  rw [List.map_map, List.map_map]
  refine congrArg List.sum (List.map_congr_left fun entry hmem => ?_)
  have hlook : set.validators.lookup entry.1 = some entry.2 :=
    List.mem_dlookup set.validators.nodupKeys hmem
  simp [weight, stake, hlook]

/-- Who is not in the set has no weight. Kind: L -/
theorem weight_eq_zero {set : ValidatorSet} {id : ValidatorId} (h : id ∉ set.validatorIds) :
    set.weight id = 0 := by
  have hnone : set.validators.lookup id = none := by
    rw [AList.lookup_eq_none]
    exact h
  simp [weight, stake, hnone]

/-! ### Voters as finite sets -/

/-- The members among the voters.
Kind: D -/
def voting (set : ValidatorSet) (voters : List ValidatorId) : Finset ValidatorId :=
  voters.toFinset ∩ set.validatorIds.toFinset

/-- The stake of distinct voters is the sum of the weights of those in the set. Kind: L -/
theorem memberStake_eq_sum (set : ValidatorSet) {voters : List ValidatorId} (h : voters.Nodup) :
    set.memberStake voters = ∑ id ∈ set.voting voters, set.weight id := by
  rw [memberStake, ← List.sum_toFinset _ h]
  refine (Finset.sum_subset Finset.inter_subset_left fun id hin hnot => ?_).symm
  apply weight_eq_zero
  intro hmem
  exact hnot (Finset.mem_inter.mpr ⟨hin, List.mem_toFinset.mpr hmem⟩)

/-- The sum of the stakes is that of the weights of all validators. Kind: L -/
theorem stakeSum_eq_sum (set : ValidatorSet) :
    set.stakeSum = ∑ id ∈ set.validatorIds.toFinset, set.weight id := by
  rw [← memberStake_validatorIds, memberStake, List.sum_toFinset _ set.nodup_validatorIds]

/-- Voters hold at most the whole stake. Kind: L -/
theorem memberStake_le (set : ValidatorSet) {voters : List ValidatorId} (h : voters.Nodup) :
    set.memberStake voters ≤ set.stakeSum := by
  rw [memberStake_eq_sum set h, stakeSum_eq_sum]
  exact Finset.sum_le_sum_of_subset Finset.inter_subset_right

/-! ### What `has_quorum` decides -/

/-- The threshold of the code: the doubled stake wraps before it is divided. Kind: L -/
theorem toNat_quorumThreshold (set : ValidatorSet) :
    set.quorumThreshold.toNat = (set.totalStake.toNat * 2 % 2 ^ 64) / 3 + 1 := by
  have hlt : (set.totalStake * 2).toNat < 2 ^ 64 := UInt64.toNat_lt _
  unfold quorumThreshold
  rw [UInt64.toNat_add, UInt64.toNat_div, UInt64.toNat_mul] at *
  simp only [UInt64.reduceToNat] at *
  omega

/-- The decision of the source for any stakes: every sum and product wraps. Kind: P -/
theorem hasQuorum_iff_wrapped (set : ValidatorSet) (voters : List ValidatorId) :
    set.hasQuorum voters = true ↔
      2 * set.stakeSum % 2 ^ 64 < 3 * (set.memberStake voters % 2 ^ 64) := by
  have hdoubled : set.stakeSum % 2 ^ 64 * 2 % 2 ^ 64 = 2 * set.stakeSum % 2 ^ 64 := by
    rw [Nat.mod_mul_mod, Nat.mul_comm]
  unfold hasQuorum
  rw [decide_eq_true_iff, UInt64.le_iff_toNat_le, toNat_quorumThreshold, toNat_totalStake,
    toNat_wrappingSum, sum_filterMap_stake, hdoubled]
  generalize 2 * set.stakeSum % 2 ^ 64 = doubled
  omega

/-- These validators hold more than two thirds of the stake.
Kind: D -/
def HoldQuorum (set : ValidatorSet) (voters : Finset ValidatorId) : Prop :=
  2 * set.stakeSum < 3 * ∑ id ∈ voters, set.weight id

/-- The comparison that `has_quorum` makes of their stake: every sum and product wraps.
Kind: D -/
def PassQuorum (set : ValidatorSet) (voters : Finset ValidatorId) : Prop :=
  2 * set.stakeSum % 2 ^ 64 < 3 * ((∑ id ∈ voters, set.weight id) % 2 ^ 64)

/-- Distinct voters outside the set add nothing, so the sum may range over all voters. Kind: L -/
theorem memberStake_toFinset (set : ValidatorSet) {voters : List ValidatorId}
    (hnodup : voters.Nodup) :
    set.memberStake voters = ∑ id ∈ voters.toFinset, set.weight id :=
  (List.sum_toFinset _ hnodup).symm

/-- For distinct voters the check of the code is that of the set of voters. Kind: L -/
theorem hasQuorum_iff_passQuorum (set : ValidatorSet) {voters : List ValidatorId}
    (hnodup : voters.Nodup) : set.hasQuorum voters = true ↔ set.PassQuorum voters.toFinset := by
  rw [hasQuorum_iff_wrapped, memberStake_toFinset set hnodup]
  rfl

/-- The product `total * 2` is the only wrapping step when the stakes sum to a `u64`. Kind: P -/
theorem hasQuorum_iff {set : ValidatorSet} (hfit : set.stakeSum < 2 ^ 64)
    {voters : List ValidatorId} (hnodup : voters.Nodup) :
    set.hasQuorum voters = true ↔
      2 * set.stakeSum % 2 ^ 64 < 3 * set.memberStake voters := by
  have hle := memberStake_le set hnodup
  rw [hasQuorum_iff_wrapped, Nat.mod_eq_of_lt (lt_of_le_of_lt hle hfit)]

/-- With room for the product, a quorum is more than two thirds. Kind: P -/
theorem hasQuorum_iff_of_fits {set : ValidatorSet} (hfit : 2 * set.stakeSum < 2 ^ 64)
    {voters : List ValidatorId} (hnodup : voters.Nodup) :
    set.hasQuorum voters = true ↔ 2 * set.stakeSum < 3 * set.memberStake voters := by
  rw [hasQuorum_iff (by omega) hnodup, Nat.mod_eq_of_lt hfit]

/-- With room for the product, the wrapping comparison is the exact one. Kind: L -/
theorem passQuorum_iff_of_fits {set : ValidatorSet} (hfit : 2 * set.stakeSum < 2 ^ 64)
    (voters : Finset ValidatorId) : set.PassQuorum voters ↔ set.HoldQuorum voters := by
  have hiff := hasQuorum_iff_of_fits hfit voters.nodup_toList
  rw [hasQuorum_iff_passQuorum set voters.nodup_toList,
    memberStake_toFinset set voters.nodup_toList, Finset.toList_toFinset] at hiff
  exact hiff

/-! ### More voters -/

/-- Voters that are accepted stay accepted when others join them.
Kind: D -/
def QuorumMonotone (set : ValidatorSet) : Prop :=
  ∀ voters voters' : List ValidatorId, voters.Nodup → voters'.Nodup → voters ⊆ voters' →
    set.hasQuorum voters = true → set.hasQuorum voters' = true

/-- The stakes of two lists of voters are added, also those of a voter in both. Kind: L -/
theorem memberStake_append (set : ValidatorSet) (voters voters' : List ValidatorId) :
    set.memberStake (voters ++ voters') = set.memberStake voters + set.memberStake voters' := by
  unfold memberStake
  rw [List.map_append, List.sum_append]

/-- Voters weigh the same in any order. Kind: L -/
theorem memberStake_perm (set : ValidatorSet) {voters voters' : List ValidatorId}
    (h : voters.Perm voters') : set.memberStake voters = set.memberStake voters' :=
  (h.map set.weight).sum_eq

/-- More voters are the voters and the others. Kind: L -/
theorem perm_append_filter {voters voters' : List ValidatorId} (hnodup : voters.Nodup)
    (hnodup' : voters'.Nodup) (hsub : voters ⊆ voters') :
    (voters ++ voters'.filter (· ∉ voters)).Perm voters' := by
  have happend : (voters ++ voters'.filter (· ∉ voters)).Nodup := by
    refine hnodup.append (hnodup'.filter _) fun id hin hout => ?_
    simpa [hin] using List.of_mem_filter hout
  rw [List.perm_ext_iff_of_nodup happend hnodup']
  intro id
  by_cases hin : id ∈ voters
  · simp [hin, hsub hin]
  · simp [hin]

/-- **With stakes that sum to a `u64`, more voters never lose a quorum.** Kind: P -/
theorem quorumMonotone_of_fits {set : ValidatorSet} (hfit : set.stakeSum < 2 ^ 64) :
    set.QuorumMonotone := by
  intro voters voters' hnodup hnodup' hsub hquorum
  have hsplit := set.memberStake_perm (perm_append_filter hnodup hnodup' hsub)
  rw [memberStake_append] at hsplit
  rw [hasQuorum_iff hfit hnodup] at hquorum
  rw [hasQuorum_iff hfit hnodup']
  omega

/-! ### Intersection of quorums -/

/-- The voters of both sets. Kind: L -/
theorem voting_filter_mem (set : ValidatorSet) (q₁ q₂ : List ValidatorId) :
    set.voting (q₁.filter (· ∈ q₂)) = set.voting q₁ ∩ set.voting q₂ := by
  ext id
  simp only [voting, Finset.mem_inter, List.mem_toFinset, List.mem_filter, decide_eq_true_eq]
  tauto

/-- **Quorum intersection.** Two quorums share members with more than a third of the stake, so they
share a member outside every set of stake at most `fault_threshold`.
Source: `types/validator.rs`, `quorum_intersection_guaranteed`
Kind: P -/
theorem quorums_share_honest_member (set : ValidatorSet) (hfit : 2 * set.stakeSum < 2 ^ 64)
    (q₁ q₂ : List ValidatorId) (hnodup₁ : q₁.Nodup) (hnodup₂ : q₂.Nodup)
    (hq₁ : set.hasQuorum q₁ = true) (hq₂ : set.hasQuorum q₂ = true) :
    set.totalStake.toNat < 3 * set.memberStake (q₁.filter (· ∈ q₂)) ∧
      ∀ faulty : List ValidatorId, faulty.Nodup →
        set.memberStake faulty ≤ set.faultThreshold.toNat →
        ∃ id ∈ set.validatorIds, id ∈ q₁ ∧ id ∈ q₂ ∧ id ∉ faulty := by
  have hsum : set.totalStake.toNat = ∑ id ∈ set.validatorIds.toFinset, set.weight id := by
    rw [toNat_totalStake, Nat.mod_eq_of_lt (by omega), stakeSum_eq_sum]
  rw [hasQuorum_iff_of_fits hfit hnodup₁, memberStake_eq_sum set hnodup₁, stakeSum_eq_sum] at hq₁
  rw [hasQuorum_iff_of_fits hfit hnodup₂, memberStake_eq_sum set hnodup₂, stakeSum_eq_sum] at hq₂
  have hsub : ∀ q : List ValidatorId, set.voting q ⊆ set.validatorIds.toFinset :=
    fun q => Finset.inter_subset_right
  refine ⟨?_, fun faulty hnodup hfaulty => ?_⟩
  · rw [hsum, memberStake_eq_sum set (hnodup₁.filter _), voting_filter_mem]
    exact third_lt_inter set.weight (hsub q₁) (hsub q₂) hq₁ hq₂
  · have hthird : ∑ id ∈ set.voting faulty, set.weight id ≤
        (∑ id ∈ set.validatorIds.toFinset, set.weight id) / 3 := by
      rw [← hsum, ← memberStake_eq_sum set hnodup]
      exact hfaulty
    obtain ⟨id, hid, hnot⟩ :=
      exists_inter_sdiff set.weight (hsub q₁) (hsub q₂) hq₁ hq₂ hthird
    simp only [voting, Finset.mem_inter, List.mem_toFinset] at hid hnot
    exact ⟨id, hid.1.2, hid.1.1, hid.2.1, fun hin => hnot ⟨hin, hid.1.2⟩⟩

/-- Four equal validators: two quorums of three. Kind: L -/
theorem quorums_share_honest_member_four :
    let set := fromValidators ([1, 2, 3, 4].map fun i => (makeValidator i, 100, makeAddress i))
    set.totalStake.toNat < 3 * set.memberStake
        ([makeValidator 1, makeValidator 2, makeValidator 3].filter
          (· ∈ [makeValidator 2, makeValidator 3, makeValidator 4])) ∧
      ∀ faulty : List ValidatorId, faulty.Nodup →
        set.memberStake faulty ≤ set.faultThreshold.toNat →
        ∃ id ∈ set.validatorIds, id ∈ [makeValidator 1, makeValidator 2, makeValidator 3] ∧
          id ∈ [makeValidator 2, makeValidator 3, makeValidator 4] ∧ id ∉ faulty :=
  quorums_share_honest_member _ (by decide) _ _ (by decide) (by decide) (by decide) (by decide)

/-! ### The full range of stakes -/

/-- For which voters `has_quorum` is the two-thirds rule: the doubled total fits in a `u64`, or the
voters fall short of even the wrapped threshold, or they meet the rule itself.
Source: `types/validator.rs`, "INVARIANT: quorum_threshold > (2 * total_stake) / 3"
Kind: P -/
theorem hasQuorum_exact_iff (set : ValidatorSet) (hfit : set.stakeSum < 2 ^ 64)
    (voters : List ValidatorId) (hnodup : voters.Nodup) :
    (set.hasQuorum voters = true ↔ 2 * set.stakeSum < 3 * set.memberStake voters) ↔
      2 * set.stakeSum < 2 ^ 64 ∨ 3 * set.memberStake voters ≤ 2 * set.stakeSum - 2 ^ 64 ∨
        2 * set.stakeSum < 3 * set.memberStake voters := by
  rcases Nat.lt_or_ge (2 * set.stakeSum) (2 ^ 64) with hsmall | hlarge
  · exact iff_of_true (hasQuorum_iff_of_fits hsmall hnodup) (.inl hsmall)
  · -- the threshold is lower than it should be, so only voters between the two are misjudged
    have hwrap : 2 * set.stakeSum % 2 ^ 64 = 2 * set.stakeSum - 2 ^ 64 := by
      rw [Nat.mod_eq_sub_mod hlarge, Nat.mod_eq_of_lt (by omega)]
    rw [hasQuorum_iff hfit hnodup, hwrap]
    omega

/-- The rule holds for the large validator of two. Kind: L -/
theorem hasQuorum_exact_large :
    let set := fromValidators
      [(makeValidator 1, 0x8000000000000000, makeAddress 1), (makeValidator 2, 1, makeAddress 2)]
    (set.hasQuorum [makeValidator 1, makeValidator 2] = true ↔
      2 * set.stakeSum < 3 * set.memberStake [makeValidator 1, makeValidator 2]) :=
  (hasQuorum_exact_iff _ (by decide) _ (by decide)).mpr (.inr (.inr (by decide)))

/-- A single unit of stake out of `2^63 + 1` is a quorum. Kind: P -/
theorem hasQuorum_of_one_unit :
    let set := fromValidators
      [(makeValidator 1, 0x8000000000000000, makeAddress 1), (makeValidator 2, 1, makeAddress 2)]
    set.stakeSum = 2 ^ 63 + 1 ∧ set.memberStake [makeValidator 2] = 1 ∧
      set.hasQuorum [makeValidator 2] = true := by
  decide

/-! ### What the fault threshold tolerates -/

/-- The stake of a set of members and of the other members. Kind: L -/
theorem memberStake_filter_notMem (set : ValidatorSet) {faulty : List ValidatorId}
    (hnodup : faulty.Nodup) :
    set.memberStake (set.validatorIds.filter (· ∉ faulty)) =
      set.stakeSum - set.memberStake faulty := by
  have hrest : set.voting (set.validatorIds.filter (· ∉ faulty)) =
      set.validatorIds.toFinset \ set.voting faulty := by
    ext id
    simp only [voting, Finset.mem_inter, Finset.mem_sdiff, List.mem_toFinset, List.mem_filter,
      decide_eq_true_eq]
    tauto
  rw [memberStake_eq_sum set (set.nodup_validatorIds.filter _), memberStake_eq_sum set hnodup,
    stakeSum_eq_sum, hrest,
    ← Finset.sum_sdiff (show set.voting faulty ⊆ set.validatorIds.toFinset from
      Finset.inter_subset_right), Nat.add_sub_cancel]

/-- The members outside a set of stake at most `fault_threshold` are a quorum unless that set holds
exactly a third, which the documentation excludes and the integer division does not.
Source: `types/validator.rs`, "Maximum Byzantine stake tolerable: <1/3 of total."
Kind: P -/
theorem hasQuorum_without_faulty_iff (set : ValidatorSet) (hfit : 2 * set.stakeSum < 2 ^ 64)
    (faulty : List ValidatorId) (hnodup : faulty.Nodup)
    (hfaulty : set.memberStake faulty ≤ set.faultThreshold.toNat) :
    set.hasQuorum (set.validatorIds.filter (· ∉ faulty)) = true ↔
      3 * set.memberStake faulty ≠ set.stakeSum := by
  have hthird : set.memberStake faulty ≤ set.stakeSum / 3 := by
    rw [faultThreshold, UInt64.toNat_div, toNat_totalStake, Nat.mod_eq_of_lt (by omega)] at hfaulty
    exact hfaulty
  rw [hasQuorum_iff_of_fits hfit (set.nodup_validatorIds.filter _),
    memberStake_filter_notMem set hnodup, ← quorum_le_iff]
  exact quorum_le_sub_iff hthird

/-- Four equal validators tolerate one. Kind: L -/
theorem hasQuorum_without_one_of_four :
    let set := fromValidators ([1, 2, 3, 4].map fun i => (makeValidator i, 100, makeAddress i))
    set.hasQuorum (set.validatorIds.filter (· ∉ [makeValidator 1])) = true :=
  (hasQuorum_without_faulty_iff _ (by decide) [makeValidator 1] (by decide) (by decide)).mpr
    (by decide)

/-- Three equal validators do not, though the threshold says so. Kind: P -/
theorem not_hasQuorum_without_one_of_three :
    let set := fromValidators ([1, 2, 3].map fun i => (makeValidator i, 100, makeAddress i))
    set.memberStake [makeValidator 1] ≤ set.faultThreshold.toNat ∧
      set.hasQuorum (set.validatorIds.filter (· ∉ [makeValidator 1])) = false := by
  decide

end ValidatorSet

end Ryther
