import Ryther.Consensus.Leader
import Ryther.Lib.Weighted
import Ryther.Types.Quorum

/-!
# Elections by stake

Every validator set carries that its cached total is the sum of its stakes and that no stake is
zero, whatever additions and removals led to it. With stakes that sum to a `u64`, the election is
exact.

* `stakeDraw`, `holderOf` — the two halves of an election: a position among the stakes, and the
  validator who holds it.
* `selectByStake_eq_pick` — the loop over the cumulated stakes picks the holder of the position.
* `electLeader_stake_exact` — an election returns a member, no sum of it overflows, the order of the
  map does not matter, and every validator holds as many positions as it has stake.
-/

namespace Ryther

open Lib

/-! ### A position and its holder -/

/-- The position among the stakes that a round and a seed draw.
Source: `consensus/leader.rs`, `target` in `elect_leader`
Kind: D -/
def stakeDraw (sha256 : List UInt8 → Bytes 32) (set : ValidatorSet) (round : UInt64)
    (seed : Bytes 32) : UInt64 :=
  UInt64.ofNat (ofLeBytes ((sha256 (leBytes 8 round.toNat ++ seed.toList)).toList.take 8)) %
    set.totalStake

/-- The validator who holds a position among the stakes.
Kind: D -/
def holderOf (set : ValidatorSet) (position : UInt64) : Option ValidatorId :=
  selectByStake position 0 (sortedValidators set)

/-- With some stake in the set the leader is the validator on whose stake the draw falls. Kind: L -/
theorem electLeader_eq {sha256 : List UInt8 → Bytes 32} {set : ValidatorSet}
    (hempty : set.isEmpty = false) (htotal : set.totalStake ≠ 0) (round : UInt64)
    (seed : Bytes 32) :
    electLeader sha256 set round seed = .ok (holderOf set (stakeDraw sha256 set round seed)) := by
  unfold electLeader
  rw [if_neg (by rw [hempty]; exact Bool.false_ne_true)]
  simp only [if_neg htotal]
  rfl

/-! ### The loop in exact integers -/

/-- The stakes as numbers.
Kind: D -/
def weightsOf (validators : List (ValidatorId × UInt64)) : List (ValidatorId × ℕ) :=
  validators.map fun v => (v.1, v.2.toNat)

/-- The weights sum up to the exact sum of the stakes. Kind: L -/
theorem totalWeight_weightsOf (validators : List (ValidatorId × UInt64)) :
    totalWeight (weightsOf validators) = (validators.map fun v => v.2.toNat).sum := by
  rw [totalWeight, weightsOf, List.map_map]
  rfl

/-- **The loop picks the holder of the position**, as long as its sums do not overflow. Kind: P -/
theorem selectByStake_eq_pick {target : UInt64} (validators : List (ValidatorId × UInt64)) :
    ∀ cumulative : UInt64, cumulative ≤ target →
      cumulative.toNat + totalWeight (weightsOf validators) < 2 ^ 64 →
      selectByStake target cumulative validators =
        pick (weightsOf validators) (target.toNat - cumulative.toNat) := by
  induction validators with
  | nil => exact fun _ _ _ => rfl
  | cons v validators ih =>
      intro cumulative hle hfits
      have hcons : weightsOf (v :: validators) = (v.1, v.2.toNat) :: weightsOf validators := rfl
      rw [hcons, totalWeight_cons] at hfits
      have hle' := UInt64.le_iff_toNat_le.mp hle
      have hsum : (cumulative + v.2).toNat = cumulative.toNat + v.2.toNat := by
        rw [UInt64.toNat_add]
        exact Nat.mod_eq_of_lt (by omega)
      rw [hcons, selectByStake, pick]
      by_cases hgt : cumulative + v.2 > target
      · have hgt' := UInt64.lt_iff_toNat_lt.mp hgt
        rw [if_pos hgt, if_pos (by omega)]
      · have hnext : cumulative + v.2 ≤ target := UInt64.not_lt.mp hgt
        have hnext' := UInt64.le_iff_toNat_le.mp hnext
        rw [if_neg hgt, if_neg (by omega), ih _ hnext (by omega), hsum, Nat.sub_add_eq]

/-! ### Exact elections -/

section

variable {set : ValidatorSet}

/-- Sorting the validators only reorders their weights. Kind: L -/
theorem weightsOf_sortedValidators_perm (set : ValidatorSet) :
    (weightsOf (sortedValidators set)).Perm (weightsOf set.iter) :=
  (List.perm_insertionSort idLe set.iter).map _

/-- The sorted stakes sum to the exact total. Kind: L -/
theorem totalWeight_sortedValidators (set : ValidatorSet) :
    totalWeight (weightsOf (sortedValidators set)) = set.stakeSum := by
  have hperm := (weightsOf_sortedValidators_perm set).map Prod.snd
  rw [totalWeight, hperm.sum_eq, ValidatorSet.stakeSum]
  simp only [weightsOf, ValidatorSet.iter, stakesOf, List.map_map]
  rfl

/-- The sorted validators are those of the set, in another order. Kind: L -/
theorem fst_weightsOf_sortedValidators_perm (set : ValidatorSet) :
    ((weightsOf (sortedValidators set)).map Prod.fst).Perm set.validatorIds := by
  refine ((weightsOf_sortedValidators_perm set).map Prod.fst).trans (List.Perm.of_eq ?_)
  simp only [weightsOf, ValidatorSet.iter, ValidatorSet.validatorIds, AList.keys, List.keys,
    List.map_map]
  rfl

/-- Every validator of the set has its stake among the weights of the election. Kind: L -/
theorem weight_mem_weightsOf {id : ValidatorId} (hid : id ∈ set.validatorIds) :
    (id, set.weight id) ∈ weightsOf (sortedValidators set) := by
  obtain ⟨entry, hentry, rfl⟩ := List.mem_map.mp hid
  have hlook : set.validators.lookup entry.1 = some entry.2 :=
    List.mem_dlookup set.validators.nodupKeys hentry
  refine (weightsOf_sortedValidators_perm set).mem_iff.mpr (List.mem_map.mpr ?_)
  refine ⟨(entry.1, entry.2.stake), List.mem_map.mpr ⟨entry, hentry, rfl⟩, ?_⟩
  simp [ValidatorSet.weight, ValidatorSet.stake, hlook]

section

variable (hfits : set.stakeSum ≤ u64Max.toNat)
include hfits

/-- Without overflow the total stake is the sum of the stakes. Kind: L -/
theorem totalStake_exact : set.totalStake.toNat = set.stakeSum := by
  rw [set.toNat_totalStake]
  have hmax : u64Max.toNat = 2 ^ 64 - 1 := rfl
  exact Nat.mod_eq_of_lt (by omega)

/-- Who holds a position, in exact integers. Kind: L -/
theorem holderOf_eq_pick (position : UInt64) :
    holderOf set position = pick (weightsOf (sortedValidators set)) position.toNat := by
  have hmax : u64Max.toNat = 2 ^ 64 - 1 := rfl
  refine (selectByStake_eq_pick _ 0 (UInt64.zero_le) ?_).trans ?_
  · rw [totalWeight_sortedValidators]
    show 0 + set.stakeSum < 2 ^ 64
    omega
  · rfl

/-- A set with members has stake. Kind: L -/
theorem totalStake_pos (hempty : set.isEmpty = false) : 0 < set.totalStake.toNat := by
  obtain ⟨entry, rest, hentries⟩ : ∃ entry rest, set.validators.entries = entry :: rest := by
    unfold ValidatorSet.isEmpty at hempty
    exact List.exists_cons_of_ne_nil (by simpa using hempty)
  have hlook : set.validators.lookup entry.1 = some entry.2 :=
    List.mem_dlookup set.validators.nodupKeys (hentries ▸ List.mem_cons_self)
  have hpos : 0 < entry.2.stake.toNat := by
    refine Nat.pos_of_ne_zero fun hzero => set.stake_ne_zero _ _ hlook ?_
    exact UInt64.toNat_inj.mp hzero
  have hsum : set.stakeSum = entry.2.stake.toNat + (rest.map fun e => e.2.stake.toNat).sum := by
    simp [ValidatorSet.stakeSum, stakesOf, hentries, Function.comp_def]
  rw [totalStake_exact hfits, hsum]
  omega

/-- Positions below the total are held by members. Kind: L -/
theorem exists_holderOf {position : UInt64} (h : position < set.totalStake) :
    ∃ id ∈ set.validatorIds, holderOf set position = some id := by
  have hlt := UInt64.lt_iff_toNat_lt.mp h
  rw [totalStake_exact hfits, ← totalWeight_sortedValidators] at hlt
  rw [holderOf_eq_pick hfits]
  cases hpick : pick (weightsOf (sortedValidators set)) position.toNat with
  | none => exact absurd ((pick_eq_none_iff _ _).mp hpick) (Nat.not_le.mpr hlt)
  | some id =>
      obtain ⟨w, hw⟩ := mem_of_pick hpick
      refine ⟨id, (fst_weightsOf_sortedValidators_perm set).mem_iff.mp ?_, rfl⟩
      exact List.mem_map.mpr ⟨_, hw, rfl⟩

/-- Every validator holds as many positions as it has stake. Kind: L -/
theorem card_holderOf {id : ValidatorId} (hid : id ∈ set.validatorIds) :
    ((Finset.range set.totalStake.toNat).filter fun t =>
      holderOf set (UInt64.ofNat t) = some id).card = set.weight id := by
  have hnodup : ((weightsOf (sortedValidators set)).map Prod.fst).Nodup :=
    (fst_weightsOf_sortedValidators_perm set).nodup_iff.mpr set.nodup_validatorIds
  rw [← totalWeight_filter_of_nodup hnodup (weight_mem_weightsOf hid), ← card_pick,
    totalWeight_sortedValidators, totalStake_exact hfits]
  refine congrArg Finset.card (Finset.filter_congr fun t ht => ?_)
  have hmax : u64Max.toNat = 2 ^ 64 - 1 := rfl
  have hlt : t < 2 ^ 64 := by
    have := Finset.mem_range.mp ht
    omega
  rw [holderOf_eq_pick hfits, UInt64.toNat_ofNat_of_lt' hlt]

/-- No sum of the loop overflows. Kind: L -/
theorem cumulative_fits {front rest : List (ValidatorId × UInt64)} {id : ValidatorId}
    {stake : UInt64} (h : sortedValidators set = front ++ (id, stake) :: rest) :
    (wrappingSum (front.map Prod.snd)).toNat + stake.toNat < 2 ^ 64 := by
  have hmax : u64Max.toNat = 2 ^ 64 - 1 := rfl
  have htotal := totalWeight_sortedValidators set
  rw [h, totalWeight_weightsOf, List.map_append, List.sum_append, List.map_cons,
    List.sum_cons] at htotal
  dsimp only at htotal
  have hfront : (wrappingSum (front.map Prod.snd)).toNat ≤ (front.map fun v => v.2.toNat).sum := by
    rw [toNat_wrappingSum, List.map_map]
    exact Nat.mod_le _ _
  omega

end

/-- **Elections are total, exact and independent of the order of the map.** For a set with members
whose stakes sum to a `u64`: the election returns a member; its remainder is by a positive number
and none of its sums overflows; a map that iterates in another order gives the same result; the
result is the holder of the reduced target; and of the targets below the total every validator
holds as many as it has stake.
Source: `consensus/leader.rs`, `elect_leader`
Kind: P -/
theorem electLeader_stake_exact (sha256 : List UInt8 → Bytes 32) (set : ValidatorSet)
    (hempty : set.isEmpty = false) (hfits : set.stakeSum ≤ u64Max.toNat) (round : UInt64)
    (seed : Bytes 32) :
    (∃ id ∈ set.validatorIds, electLeader sha256 set round seed = .ok (some id)) ∧
      (set.totalStake.toNat = set.stakeSum ∧ set.totalStake ≠ 0 ∧
        ∀ front id stake rest, sortedValidators set = front ++ (id, stake) :: rest →
          (wrappingSum (front.map Prod.snd)).toNat + stake.toNat < 2 ^ 64) ∧
      (∀ set' : ValidatorSet, set'.validators.entries.Perm set.validators.entries →
        electLeader sha256 set' round seed = electLeader sha256 set round seed) ∧
      (electLeader sha256 set round seed =
          .ok (selectByStake (stakeDraw sha256 set round seed) 0 (sortedValidators set)) ∧
        stakeDraw sha256 set round seed < set.totalStake) ∧
      ∀ id ∈ set.validatorIds, ((Finset.range set.totalStake.toNat).filter fun target =>
        selectByStake (UInt64.ofNat target) 0 (sortedValidators set) = some id).card =
          set.weight id := by
  have hpos := totalStake_pos hfits hempty
  have hne : set.totalStake ≠ 0 := by
    intro hzero
    rw [hzero] at hpos
    exact absurd hpos (Nat.lt_irrefl 0)
  have hdraw : stakeDraw sha256 set round seed < set.totalStake := by
    rw [UInt64.lt_iff_toNat_lt, stakeDraw, UInt64.toNat_mod]
    exact Nat.mod_lt _ hpos
  have hheld : electLeader sha256 set round seed =
      .ok (holderOf set (stakeDraw sha256 set round seed)) := electLeader_eq hempty hne round seed
  refine ⟨?_, ⟨totalStake_exact hfits, hne, fun _ _ _ _ h => cumulative_fits hfits h⟩,
    fun set' h => ?_, ⟨hheld, hdraw⟩, fun id hid => card_holderOf hfits hid⟩
  · obtain ⟨id, hid, hholder⟩ := exists_holderOf hfits hdraw
    exact ⟨id, hid, by rw [hheld, hholder]⟩
  · exact electLeader_congr (.of_perm h) round seed

/-- A set built by additions, a replacement and a removal. Kind: L -/
theorem electLeader_stake_exact_three :
    let set := ((((ValidatorSet.new.add (makeValidator 1) 100 (makeAddress 1)).add
      (makeValidator 2) 7 (makeAddress 2)).add (makeValidator 3) 5 (makeAddress 3)).add
        (makeValidator 1) 10 (makeAddress 1)).remove (makeValidator 3) |>.2
    set.totalStake = 17 ∧
      ((Finset.range 17).filter fun target =>
        selectByStake (UInt64.ofNat target) 0 (sortedValidators set) =
          some (makeValidator 2)).card = 7 := by
  intro set
  have htotal : set.totalStake = 17 := by decide +kernel
  have hweight : set.weight (makeValidator 2) = 7 := by decide +kernel
  have hcard := (electLeader_stake_exact (fun _ => .fill 32 0) set (by decide +kernel)
    (by decide +kernel) 0 (.fill 32 0)).2.2.2.2 (makeValidator 2) (by decide +kernel)
  rw [hweight, htotal] at hcard
  exact ⟨htotal, hcard⟩

end

end Ryther
