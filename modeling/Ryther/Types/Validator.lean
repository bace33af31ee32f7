import Mathlib.Data.List.Sort
import Ryther.Types.Basic

/-!
# Validator sets

The stake-weighted validator sets of `src/types/validator.rs`. The two invariants its documentation
states are fields of the structure: the cached total is the sum of the stakes (wrapping, as the
source adds them) and no stake is zero.

* `ValidatorSet.add`, `ValidatorSet.remove` — keep the invariants.
* `SameMembers` — the same validators, whatever the iteration order of the maps; the total stake
  depends on the members only (`SameMembers.totalStake_eq`).

A `HashSet` of voters is a list without repetitions.
-/

namespace Ryther

open Lib

/-! ### Sums of stakes -/

/-- `Iterator::sum` on `u64`.
Kind: D -/
def wrappingSum (stakes : List UInt64) : UInt64 := stakes.foldl (· + ·) 0

/-- The order of addition does not matter. Kind: L -/
theorem wrappingSum_perm {l l' : List UInt64} (h : l.Perm l') : wrappingSum l = wrappingSum l' := by
  have : RightCommutative (fun a b : UInt64 => a + b) :=
    ⟨fun a b c => by rw [UInt64.add_assoc, UInt64.add_comm b c, ← UInt64.add_assoc]⟩
  exact h.foldl_eq 0

/-- The first stake is added to the sum of the others. Kind: L -/
theorem wrappingSum_cons (a : UInt64) (l : List UInt64) :
    wrappingSum (a :: l) = a + wrappingSum l := by
  have hshift : ∀ (l : List UInt64) (b : UInt64), l.foldl (· + ·) b = b + l.foldl (· + ·) 0 := by
    intro l
    induction l with
    | nil => intro b; simp
    | cons c l ih =>
        intro b
        rw [List.foldl_cons, List.foldl_cons, ih (b + c), ih (0 + c), UInt64.zero_add,
          UInt64.add_assoc]
  unfold wrappingSum
  rw [List.foldl_cons, hshift, UInt64.zero_add]

/-! ### Validators -/

/-- A validator's public key, 48 bytes.
Source: `types/mod.rs`, `ValidatorId`
Kind: D -/
structure ValidatorId where
  bytes : Bytes 48
  deriving DecidableEq

/-- A validator's id is written with a fixed number of bytes, so its end is known. Kind: L -/
theorem selfDelimiting_validatorId : SelfDelimiting fun id : ValidatorId => id.bytes.toList := by
  refine (selfDelimiting_vector 48).comp fun a b h => ?_
  rcases a
  rcases b
  exact congrArg ValidatorId.mk h

/-- A validator of the unit tests.
Source: `types/validator.rs`, `make_validator` of the tests
Kind: D -/
def makeValidator (id : UInt8) : ValidatorId := ⟨⟨id :: List.replicate 47 0, by simp⟩⟩

/-- An address of the unit tests.
Source: `types/validator.rs`, `make_address` of the tests
Kind: D -/
def makeAddress (id : UInt8) : Address := ⟨⟨id :: List.replicate 19 0, by simp⟩⟩

/-- The stake and the account of a validator.
Source: `types/validator.rs`, `ValidatorData`
Kind: D -/
structure ValidatorData where
  stake : UInt64
  address : Address
  deriving DecidableEq

/-- The stakes of the entries of a map.
Kind: D -/
def stakesOf (validators : HashMap ValidatorId ValidatorData) : List UInt64 :=
  validators.entries.map fun entry => entry.2.stake

/-- The active validators with their stakes. The fields are private in the source, so every set is
built by the operations below.
Source: `types/validator.rs`, `ValidatorSet`
Kind: D -/
structure ValidatorSet where
  validators : HashMap ValidatorId ValidatorData
  totalStake : UInt64
  total_eq : totalStake = wrappingSum (stakesOf validators)
  stake_ne_zero : ∀ id data, validators.lookup id = some data → data.stake ≠ 0

/-- The stakes after an insertion: the new one and those of the other validators. Kind: L -/
theorem wrappingSum_stakesOf_insert (validators : HashMap ValidatorId ValidatorData)
    (id : ValidatorId) (data : ValidatorData) :
    wrappingSum (stakesOf (validators.insert id data)) =
      data.stake + wrappingSum (stakesOf (validators.erase id)) := by
  have hentries : stakesOf (validators.insert id data) =
      data.stake :: stakesOf (validators.erase id) := rfl
  rw [hentries, wrappingSum_cons]

/-- The stakes with and without a member. Kind: L -/
theorem wrappingSum_stakesOf_erase {validators : HashMap ValidatorId ValidatorData}
    {id : ValidatorId} {data : ValidatorData} (h : validators.lookup id = some data) :
    wrappingSum (stakesOf validators) =
      data.stake + wrappingSum (stakesOf (validators.erase id)) := by
  have hmem : id ∈ validators.entries.keys := by
    rw [← List.dlookup_isSome]
    exact Option.isSome_iff_exists.mpr ⟨data, h⟩
  obtain ⟨data', l₁, l₂, hnot, hentries, herase⟩ := List.exists_of_kerase hmem
  have hdata : data' = data := by
    have hlook : validators.entries.dlookup id = some data := h
    rw [hentries, List.dlookup_append, List.dlookup_eq_none.mpr hnot] at hlook
    simpa using hlook
  have hstakes : (stakesOf validators).Perm (data.stake :: stakesOf (validators.erase id)) := by
    have herase' : (validators.erase id).entries = l₁ ++ l₂ := herase
    unfold stakesOf
    rw [hentries, herase', hdata, List.map_append, List.map_append, List.map_cons]
    exact List.perm_middle
  rw [wrappingSum_perm hstakes, wrappingSum_cons]

namespace ValidatorSet

/-- A set without validators.
Source: `types/validator.rs`, `ValidatorSet::new`
Kind: D -/
def new : ValidatorSet where
  validators := ∅
  totalStake := 0
  total_eq := rfl
  stake_ne_zero _ _ h := by simp at h

/-- A validator is added or replaced; a stake of 0 is ignored.
Source: `types/validator.rs`, `ValidatorSet::add`
Kind: D -/
def add (set : ValidatorSet) (id : ValidatorId) (stake : UInt64) (address : Address) :
    ValidatorSet :=
  if hstake : stake = 0 then set
  else
    { validators := set.validators.insert id ⟨stake, address⟩
      totalStake :=
        match set.validators.lookup id with
        | some existing => set.totalStake - existing.stake + stake
        | none => set.totalStake + stake
      total_eq := by
        rw [wrappingSum_stakesOf_insert]
        cases hlook : set.validators.lookup id with
        | some existing =>
            simp only
            rw [set.total_eq, wrappingSum_stakesOf_erase hlook, UInt64.add_comm existing.stake,
              UInt64.add_sub_cancel, UInt64.add_comm]
        | none =>
            have herase : set.validators.erase id = set.validators :=
              AList.ext (List.kerase_of_notMem_keys (List.dlookup_eq_none.mp hlook))
            simp only
            rw [herase, set.total_eq, UInt64.add_comm]
      stake_ne_zero := by
        intro id' data hlook
        by_cases hid : id' = id
        · subst hid
          rw [AList.lookup_insert] at hlook
          cases hlook
          exact hstake
        · rw [AList.lookup_insert_ne hid] at hlook
          exact set.stake_ne_zero id' data hlook }

/-- The set of a list, in which a later entry for a validator replaces an earlier one.
Source: `types/validator.rs`, `ValidatorSet::from_validators`
Kind: D -/
def fromValidators (validators : List (ValidatorId × UInt64 × Address)) : ValidatorSet :=
  validators.foldl (fun set v => set.add v.1 v.2.1 v.2.2) new

/-- The validator leaves the set with its stake, which is returned.
Source: `types/validator.rs`, `ValidatorSet::remove`
Kind: D -/
def remove (set : ValidatorSet) (id : ValidatorId) : Option UInt64 × ValidatorSet :=
  match hlook : set.validators.lookup id with
  | some data =>
      (some data.stake,
        { validators := set.validators.erase id
          totalStake := set.totalStake - data.stake
          total_eq := by
            rw [set.total_eq, wrappingSum_stakesOf_erase hlook, UInt64.add_comm,
              UInt64.add_sub_cancel]
          stake_ne_zero := by
            intro id' data' hlook'
            by_cases hid : id' = id
            · subst hid
              simp at hlook'
            · rw [AList.lookup_erase_ne hid] at hlook'
              exact set.stake_ne_zero id' data' hlook' })
  | none => (none, set)

/-- The stake of a validator.
Source: `types/validator.rs`, `ValidatorSet::stake`
Kind: D -/
def stake (set : ValidatorSet) (id : ValidatorId) : Option UInt64 :=
  (set.validators.lookup id).map ValidatorData.stake

/-- The account of a validator.
Source: `types/validator.rs`, `ValidatorSet::get_address`
Kind: D -/
def getAddress (set : ValidatorSet) (id : ValidatorId) : Option Address :=
  (set.validators.lookup id).map ValidatorData.address

/-- Whether the set has no validators.
Source: `types/validator.rs`, `ValidatorSet::is_empty`
Kind: D -/
def isEmpty (set : ValidatorSet) : Bool := set.validators.entries.isEmpty

/-- The validators with their stakes, in the order of the map.
Source: `types/validator.rs`, `ValidatorSet::iter`
Kind: D -/
def iter (set : ValidatorSet) : List (ValidatorId × UInt64) :=
  set.validators.entries.map fun entry => (entry.1, entry.2.stake)

/-- The validators of the set.
Source: `types/validator.rs`, `ValidatorSet::validator_ids`
Kind: D -/
def validatorIds (set : ValidatorSet) : List ValidatorId := set.validators.keys

/-! ### Quorums -/

/-- More than two thirds of the stake; the doubling wraps as a `u64`.
Source: `types/validator.rs`, `ValidatorSet::quorum_threshold`
Kind: D -/
def quorumThreshold (set : ValidatorSet) : UInt64 := set.totalStake * 2 / 3 + 1

/-- A third of the stake, rounded down.
Source: `types/validator.rs`, `ValidatorSet::fault_threshold`
Kind: D -/
def faultThreshold (set : ValidatorSet) : UInt64 := set.totalStake / 3

/-- Whether the stakes of the voters reach the threshold; a voter that is listed twice counts twice.
Source: `types/validator.rs`, `ValidatorSet::has_quorum`
Kind: D -/
def hasQuorum (set : ValidatorSet) (voters : List ValidatorId) : Bool :=
  set.quorumThreshold ≤ wrappingSum (voters.filterMap set.stake)

/-! ### Sets with the same members -/

/-- The same validators with the same data.
Kind: D -/
def SameMembers (set set' : ValidatorSet) : Prop :=
  ∀ id, set.validators.lookup id = set'.validators.lookup id

/-- Sets with the same members have the same entries in some order. Kind: L -/
theorem SameMembers.entries_perm {set set' : ValidatorSet} (h : set.SameMembers set') :
    set.validators.entries.Perm set'.validators.entries := by
  refine List.lookup_ext set.validators.nodupKeys set'.validators.nodupKeys fun id data => ?_
  have hid : set.validators.entries.dlookup id = set'.validators.entries.dlookup id := h id
  rw [hid]

/-- Permuted entries are the same members. Kind: L -/
theorem SameMembers.of_perm {set set' : ValidatorSet}
    (h : set.validators.entries.Perm set'.validators.entries) : set.SameMembers set' :=
  fun _ => AList.perm_lookup h

/-- Sets with the same members are both empty or both not. Kind: L -/
theorem SameMembers.isEmpty_eq {set set' : ValidatorSet} (h : set.SameMembers set') :
    set.isEmpty = set'.isEmpty := by
  have hlen := h.entries_perm.length_eq
  unfold isEmpty
  rw [Bool.eq_iff_iff, List.isEmpty_iff_length_eq_zero, List.isEmpty_iff_length_eq_zero, hlen]

/-- The total stake is a function of the members. Kind: P -/
theorem SameMembers.totalStake_eq {set set' : ValidatorSet} (h : set.SameMembers set') :
    set.totalStake = set'.totalStake := by
  rw [set.total_eq, set'.total_eq]
  exact wrappingSum_perm (h.entries_perm.map _)

end ValidatorSet

end Ryther
