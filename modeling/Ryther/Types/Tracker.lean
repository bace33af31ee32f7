import Ryther.Types.Quorum

/-!
# Progress towards a quorum

`QuorumTracker` of `src/types/validator.rs` collects the supporters of a target and says, for each
of them, whether they completed a quorum. The three quantities it reports are computed separately:
the answer of `add_support` from `has_quorum` before and after, `stake_needed` from the current
stake and the threshold.

* `QuorumTracker.stakeNeeded_eq_zero_iff` — nothing is needed exactly if there is a quorum, for any
  stakes.
* `QuorumTracker.hasQuorum_addSupports` — support is never lost, for stakes that sum to a `u64`.
* `QuorumTracker.signalled_once` — in any sequence of calls the quorum is announced once, by the
  call that completes it.
-/

namespace Ryther

open Lib

/-- The stake of some validators, added as `u64`s.
Source: `types/validator.rs`, `ValidatorSet::stake_for`
Kind: D -/
def ValidatorSet.stakeFor (set : ValidatorSet) (validators : List ValidatorId) : UInt64 :=
  wrappingSum (validators.filterMap set.stake)

/-- The supporters of a target so far.
Source: `types/validator.rs`, `QuorumTracker`
Kind: D -/
structure QuorumTracker where
  target : Bytes 32
  supporters : List ValidatorId
  validatorSet : ValidatorSet
  /-- The supporters are a `HashSet`. -/
  nodup : supporters.Nodup

namespace QuorumTracker

/-- A tracker without supporters.
Source: `types/validator.rs`, `QuorumTracker::new`
Kind: D -/
def new (target : Bytes 32) (validatorSet : ValidatorSet) : QuorumTracker :=
  ⟨target, [], validatorSet, List.nodup_nil⟩

/-- Whether the supporters are a quorum.
Source: `types/validator.rs`, `QuorumTracker::has_quorum`
Kind: D -/
def hasQuorum (tracker : QuorumTracker) : Bool :=
  tracker.validatorSet.hasQuorum tracker.supporters

/-- `self.supporters.insert(validator)`.
Kind: D -/
def insertSupporter (tracker : QuorumTracker) (validator : ValidatorId) : QuorumTracker where
  target := tracker.target
  supporters := tracker.supporters.insert validator
  validatorSet := tracker.validatorSet
  nodup := tracker.nodup.insert

/-- The tracker after the call, and whether the call completed a quorum.
Source: `types/validator.rs`, `QuorumTracker::add_support`
Kind: D -/
def addSupport (tracker : QuorumTracker) (validator : ValidatorId) : QuorumTracker × Bool :=
  let wasQuorum := tracker.hasQuorum
  let tracker := tracker.insertSupporter validator
  (tracker, !wasQuorum && tracker.hasQuorum)

/-- The stake of the supporters.
Source: `types/validator.rs`, `QuorumTracker::current_stake`
Kind: D -/
def currentStake (tracker : QuorumTracker) : UInt64 :=
  tracker.validatorSet.stakeFor tracker.supporters

/-- The stake that is missing to the threshold, 0 above it.
Source: `types/validator.rs`, `QuorumTracker::stake_needed`
Kind: D -/
def stakeNeeded (tracker : QuorumTracker) : UInt64 :=
  let threshold := tracker.validatorSet.quorumThreshold
  let current := tracker.currentStake
  -- `saturating_sub`
  if current ≤ threshold then threshold - current else 0

/-- The number of supporters.
Source: `types/validator.rs`, `QuorumTracker::supporter_count`
Kind: D -/
def supporterCount (tracker : QuorumTracker) : ℕ := tracker.supporters.length

/-! ### Sequences of calls -/

/-- The tracker after some calls of `add_support`.
Kind: D -/
def addSupports (tracker : QuorumTracker) (calls : List ValidatorId) : QuorumTracker :=
  calls.foldl (fun tracker validator => (tracker.addSupport validator).1) tracker

/-- The answers to some calls of `add_support`.
Kind: D -/
def answers (tracker : QuorumTracker) : List ValidatorId → List Bool
  | [] => []
  | validator :: calls =>
      let (tracker, answer) := tracker.addSupport validator
      answer :: tracker.answers calls

/-- **Nothing is needed exactly if there is a quorum.** Both compare the same sum with the same
threshold, so this holds for any stakes. Kind: P -/
theorem stakeNeeded_eq_zero_iff (tracker : QuorumTracker) :
    tracker.stakeNeeded = 0 ↔ tracker.hasQuorum = true := by
  have hquorum : tracker.hasQuorum = true ↔
      tracker.validatorSet.quorumThreshold ≤ tracker.currentStake := decide_eq_true_iff
  rw [hquorum, stakeNeeded]
  generalize tracker.validatorSet.quorumThreshold = threshold
  generalize tracker.currentStake = current
  split_ifs with hle
  · rw [← UInt64.toNat_inj, UInt64.toNat_sub_of_le _ _ hle, UInt64.toNat_zero,
      Nat.sub_eq_zero_iff_le, UInt64.le_iff_toNat_le]
  · refine iff_of_true rfl ?_
    exact UInt64.le_of_lt (UInt64.not_le.mp hle)

/-- A call reports a quorum exactly if it is the one that reaches it. Kind: L -/
theorem addSupport_eq_true_iff (tracker : QuorumTracker) (validator : ValidatorId) :
    (tracker.addSupport validator).2 = true ↔
      tracker.hasQuorum = false ∧ (tracker.addSupport validator).1.hasQuorum = true := by
  show (!tracker.hasQuorum && (tracker.insertSupporter validator).hasQuorum) = true ↔ _
  rw [Bool.and_eq_true, Bool.not_eq_true']
  rfl

/-- Calls do not change the set of validators. Kind: L -/
@[simp] theorem validatorSet_addSupports (tracker : QuorumTracker) (calls : List ValidatorId) :
    (tracker.addSupports calls).validatorSet = tracker.validatorSet := by
  induction calls generalizing tracker with
  | nil => rfl
  | cons validator calls ih => exact ih (tracker.addSupport validator).1

/-- Further calls are made on the tracker after the first ones. Kind: L -/
theorem addSupports_append (tracker : QuorumTracker) (calls more : List ValidatorId) :
    tracker.addSupports (calls ++ more) = (tracker.addSupports calls).addSupports more :=
  List.foldl_append

/-- The answer to a call is that of the tracker after the calls before it. Kind: L -/
theorem getElem?_answers (tracker : QuorumTracker) (calls : List ValidatorId) (n : ℕ) :
    (tracker.answers calls)[n]? = calls[n]?.map fun validator =>
      ((tracker.addSupports (calls.take n)).addSupport validator).2 := by
  induction calls generalizing tracker n with
  | nil => rfl
  | cons validator calls ih =>
      rcases n with _ | n
      · rfl
      · exact ih (tracker.addSupport validator).1 n

/-- One more supporter does not lose a quorum. Kind: L -/
theorem hasQuorum_addSupport {tracker : QuorumTracker}
    (hfit : tracker.validatorSet.stakeSum < 2 ^ 64) (validator : ValidatorId)
    (h : tracker.hasQuorum = true) : (tracker.addSupport validator).1.hasQuorum = true := by
  refine ValidatorSet.quorumMonotone_of_fits hfit _ _ tracker.nodup ?_ ?_ h
  · exact tracker.nodup.insert
  · exact fun id hid => List.mem_insert_of_mem hid

/-- **Further supporters do not lose a quorum.** By induction on the calls. Kind: P -/
theorem hasQuorum_addSupports {tracker : QuorumTracker}
    (hfit : tracker.validatorSet.stakeSum < 2 ^ 64) (calls : List ValidatorId)
    (h : tracker.hasQuorum = true) : (tracker.addSupports calls).hasQuorum = true := by
  induction calls generalizing tracker with
  | nil => exact h
  | cons validator calls ih => exact ih hfit (hasQuorum_addSupport hfit validator h)

/-- There is a quorum after more calls if there is one after fewer. Kind: L -/
theorem hasQuorum_take {tracker : QuorumTracker}
    (hfit : tracker.validatorSet.stakeSum < 2 ^ 64) (calls : List ValidatorId) {m n : ℕ}
    (hle : m ≤ n) (h : (tracker.addSupports (calls.take m)).hasQuorum = true) :
    (tracker.addSupports (calls.take n)).hasQuorum = true := by
  have hsplit : calls.take n = calls.take m ++ (calls.take n).drop m := by
    conv_lhs => rw [← List.take_append_drop m (calls.take n), List.take_take, Nat.min_eq_left hle]
  rw [hsplit, addSupports_append]
  refine hasQuorum_addSupports ?_ _ h
  rwa [validatorSet_addSupports]

/-- **A call answers `true` exactly if it is the first one after which there is a quorum.** Without
a quorum before the call there was none earlier. Kind: P -/
theorem getElem?_answers_eq_true_iff {tracker : QuorumTracker}
    (hfit : tracker.validatorSet.stakeSum < 2 ^ 64) (calls : List ValidatorId) (n : ℕ) :
    (tracker.answers calls)[n]? = some true ↔ n < calls.length ∧
      (tracker.addSupports (calls.take (n + 1))).hasQuorum = true ∧
      ∀ m ≤ n, (tracker.addSupports (calls.take m)).hasQuorum = false := by
  rw [getElem?_answers]
  rcases Nat.lt_or_ge n calls.length with hn | hn
  · have hnext : ((tracker.addSupports (calls.take n)).addSupport calls[n]).1 =
        tracker.addSupports (calls.take (n + 1)) := by
      rw [List.take_add_one, addSupports_append, List.getElem?_eq_getElem hn]
      rfl
    rw [List.getElem?_eq_getElem hn, Option.map_some, Option.some.injEq, addSupport_eq_true_iff,
      hnext]
    constructor
    · rintro ⟨hbefore, hquorum⟩
      refine ⟨hn, hquorum, fun m hle => ?_⟩
      by_contra hm
      rw [Bool.not_eq_false] at hm
      exact absurd (hasQuorum_take hfit calls hle hm) (Bool.eq_false_iff.mp hbefore)
    · rintro ⟨-, hquorum, hbefore⟩
      exact ⟨hbefore n le_rfl, hquorum⟩
  · rw [List.getElem?_eq_none hn]
    exact iff_of_false (by simp) fun h => absurd h.1 (by omega)

/-- **A quorum is announced once.** For stakes with room for the doubled sum and any calls, with
repeated and unknown validators among them: a quorum is never lost, no two calls answer `true`, the
call that does is the first one after which there is a quorum, and `stake_needed` is zero exactly
while there is one.
Source: `types/validator.rs`, "Returns true if this caused quorum to be reached."
Kind: P -/
theorem signalled_once (target : Bytes 32) (set : ValidatorSet)
    (hfit : 2 * set.stakeSum < 2 ^ 64) (calls : List ValidatorId) :
    let after := fun n => (new target set).addSupports (calls.take n)
    let answers := (new target set).answers calls
    (∀ m n, m ≤ n → (after m).hasQuorum = true → (after n).hasQuorum = true) ∧
      (∀ m n : ℕ, answers[m]? = some true → answers[n]? = some true → m = n) ∧
      (∀ n, answers[n]? = some true ↔ n < calls.length ∧ (after (n + 1)).hasQuorum = true ∧
        ∀ m ≤ n, (after m).hasQuorum = false) ∧
      ∀ n, (after n).stakeNeeded = 0 ↔ (after n).hasQuorum = true := by
  intro after answers
  have hset : (new target set).validatorSet.stakeSum < 2 ^ 64 := by
    show set.stakeSum < 2 ^ 64
    omega
  have hanswer := getElem?_answers_eq_true_iff hset calls
  have hlater : ∀ {m n : ℕ}, answers[m]? = some true → answers[n]? = some true → n ≤ m := by
    intro m n hm hn
    by_contra hlt
    have hquorum := ((hanswer m).mp hm).2.1
    rw [((hanswer n).mp hn).2.2 (m + 1) (by omega)] at hquorum
    cases hquorum
  refine ⟨fun m n hle => hasQuorum_take hset calls hle, ?_, hanswer, ?_⟩
  · exact fun m n hm hn => Nat.le_antisymm (hlater hn hm) (hlater hm hn)
  · exact fun n => stakeNeeded_eq_zero_iff _

/-- Four equal validators: a repeated and an unknown supporter do not count, the third member
completes the quorum.
Source: `types/validator.rs`, `test_quorum_tracker`
Kind: L -/
theorem signalled_once_four :
    let set := ValidatorSet.fromValidators
      ([1, 2, 3, 4].map fun i => (makeValidator i, 100, makeAddress i))
    let calls := [1, 2, 2, 9, 3, 4].map makeValidator
    let answers := (new (.fill 32 0) set).answers calls
    answers = [false, false, false, false, true, false] ∧
      ∀ m n : ℕ, answers[m]? = some true → answers[n]? = some true → m = n :=
  ⟨by decide, (signalled_once (.fill 32 0) _ (by decide) _).2.1⟩

end QuorumTracker

end Ryther
