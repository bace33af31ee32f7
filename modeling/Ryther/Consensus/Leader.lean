import Ryther.Types.Validator

/-!
# Leader election

The deterministic stake-weighted election of `src/consensus/leader.rs`.

* `electLeader` — sorts the validators, hashes round and seed, and walks the cumulated stakes. The
  remainder by the total stake panics if that is zero, which takes stakes that wrap around.
* `electLeader_congr` — nodes whose validator sets have the same members elect the same leader,
  whatever the iteration order of their maps.
-/

namespace Ryther

open Lib

/-- A panic of the program.
Kind: D -/
inductive Panic where
  | remainderByZero
  deriving DecidableEq

/-- The order of the ids, byte by byte.
Source: `consensus/leader.rs`, the key of `sort_by_key` in `elect_leader`
Kind: D -/
def idLe (a b : ValidatorId × UInt64) : Prop := a.1.bytes.toList ≤ b.1.bytes.toList

instance : DecidableRel idLe := fun a b =>
  inferInstanceAs (Decidable (a.1.bytes.toList ≤ b.1.bytes.toList))

instance : Std.Total idLe := ⟨fun _ _ => List.le_total _ _⟩

instance : IsTrans (ValidatorId × UInt64) idLe := ⟨fun _ _ _ => List.le_trans⟩

/-- The validators in canonical order.
Source: `consensus/leader.rs`, `validators` in `elect_leader`
Kind: D -/
def sortedValidators (set : ValidatorSet) : List (ValidatorId × UInt64) :=
  set.iter.insertionSort idLe

/-- The first validator whose cumulated stake exceeds the target.
Source: `consensus/leader.rs`, the loop of `elect_leader`
Kind: D -/
def selectByStake (target : UInt64) : UInt64 → List (ValidatorId × UInt64) → Option ValidatorId
  | _, [] => none
  | cumulative, (id, stake) :: validators =>
      let cumulative := cumulative + stake
      if cumulative > target then some id else selectByStake target cumulative validators

/-- A draw by stake: the digest of round and seed picks a place in the cumulative stakes. A set
without stake makes the remainder panic.
Source: `consensus/leader.rs`, `elect_leader`
Kind: D -/
def electLeader (sha256 : List UInt8 → Bytes 32) (set : ValidatorSet) (round : UInt64)
    (seed : Bytes 32) : Except Panic (Option ValidatorId) :=
  if set.isEmpty then .ok none
  else
    let input := leBytes 8 round.toNat ++ seed.toList
    let hash := sha256 input
    let randomValue := UInt64.ofNat (ofLeBytes (hash.toList.take 8))
    if set.totalStake = 0 then .error .remainderByZero
    else
      let target := randomValue % set.totalStake
      .ok (selectByStake target 0 (sortedValidators set))

/-- The canonical order depends on the members only. Kind: L -/
theorem sortedValidators_congr {set set' : ValidatorSet} (h : set.SameMembers set') :
    sortedValidators set = sortedValidators set' := by
  have hperm : set.iter.Perm set'.iter := h.entries_perm.map _
  have hnodup : (set.iter.map Prod.fst).Nodup := by
    have hkeys := set.validators.keys_nodup
    simpa [ValidatorSet.iter, AList.keys, List.keys, Function.comp_def] using hkeys
  refine List.Perm.eq_of_pairwise (fun a b ha hb hab hba => ?_)
    (List.pairwise_insertionSort idLe _) (List.pairwise_insertionSort idLe _)
    (((List.perm_insertionSort _ _).trans hperm).trans (List.perm_insertionSort _ _).symm)
  -- equal ids belong to one entry of the map
  have hid : a.1 = b.1 := by
    have hbytes : a.1.bytes = b.1.bytes :=
      List.Vector.toList_injective (List.le_antisymm hab hba)
    cases ha' : a.1
    cases hb' : b.1
    simpa [ha', hb'] using hbytes
  refine List.inj_on_of_nodup_map hnodup ?_ ?_ hid
  · exact (List.perm_insertionSort _ _).mem_iff.mp ha
  · exact hperm.mem_iff.mpr ((List.perm_insertionSort _ _).mem_iff.mp hb)

/-- **The election depends on the members only.** Kind: P -/
theorem electLeader_congr {sha256 : List UInt8 → Bytes 32} {set set' : ValidatorSet}
    (h : set.SameMembers set') (round : UInt64) (seed : Bytes 32) :
    electLeader sha256 set round seed = electLeader sha256 set' round seed := by
  unfold electLeader
  rw [h.isEmpty_eq, h.totalStake_eq, sortedValidators_congr h]

end Ryther
