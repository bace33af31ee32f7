import Ryther.Types.Validator

/-!
# DAG events

The events of `src/types/event.rs` with the encrypted batches they carry. A validator contributes
one event per round; `strongParents` are the events it depends on.

* `Pool` — a set of events as the consensus assumes it: ids tell events apart, and no creator has
  two events at one round.
-/

namespace Ryther

open Lib

/-- An event is known by a digest.
Source: `types/mod.rs`, `EventId`
Kind: D -/
abbrev EventId := Bytes 32

/-- The encrypted key of a transaction.
Source: `types/transaction.rs`, `ThresholdCapsule`
Kind: D -/
structure ThresholdCapsule where
  ephemeralPubkey : List UInt8
  encryptedShares : List UInt8
  deriving DecidableEq

/-- A transaction that only a quorum can read.
Source: `types/transaction.rs`, `EncryptedTransaction`
Kind: D -/
structure EncryptedTransaction where
  ciphertext : List UInt8
  capsule : ThresholdCapsule
  commitment : Bytes 32
  deriving DecidableEq

/-- The transactions of an event and the root of their commitments.
Source: `types/transaction.rs`, `EncryptedBatch`
Kind: D -/
structure EncryptedBatch where
  transactions : List EncryptedTransaction
  batchRoot : Bytes 32
  deriving DecidableEq

/-- The batch without transactions has the zero root.
Source: `types/transaction.rs`, `EncryptedBatch::empty`
Kind: D -/
def EncryptedBatch.empty : EncryptedBatch := ⟨[], .fill 32 0⟩

/-- An event of the DAG.
Source: `types/event.rs`, `DagEvent`
Kind: D -/
structure DagEvent where
  id : EventId
  creator : ValidatorId
  lamportTime : UInt64
  round : UInt64
  strongParents : List EventId
  weakParents : List EventId
  payload : EncryptedBatch
  signature : Bytes 96
  deriving DecidableEq

/-- An event of round 0 without strong parents.
Source: `types/event.rs`, `DagEvent::is_genesis`
Kind: D -/
def DagEvent.isGenesis (event : DagEvent) : Bool :=
  event.strongParents.isEmpty && event.round == 0

/-- The errors of `validate_structure`.
Source: `types/event.rs`, `EventValidationError`
Kind: D -/
inductive EventValidationError where
  | invalidGenesisTimestamp
  | noParents
  | zeroLamportTime
  | zeroRound
  deriving DecidableEq

/-- Neither the id nor the signature is looked at.
Source: `types/event.rs`, `DagEvent::validate_structure`
Kind: D -/
def DagEvent.validateStructure (event : DagEvent) : Except EventValidationError Unit :=
  if event.isGenesis then
    if event.lamportTime ≠ 0 then .error .invalidGenesisTimestamp else .ok ()
  else if event.strongParents.isEmpty then .error .noParents
  else if event.lamportTime = 0 then .error .zeroLamportTime
  else if event.round = 0 then .error .zeroRound
  else .ok ()

/-- `validate_structure().is_ok()`.
Kind: D -/
def DagEvent.isValid (event : DagEvent) : Bool := event.validateStructure.toBool

/-- The flag says whether the check of the structure passes. Kind: L -/
theorem DagEvent.isValid_iff (event : DagEvent) :
    event.isValid = true ↔ event.validateStructure = .ok () := by
  unfold isValid
  cases event.validateStructure with
  | error e => simp [Except.toBool]
  | ok u => simp [Except.toBool]

/-- What `validate_structure` accepts: a genesis event of time 0, or an event with parents whose
time and round are positive. Kind: L -/
theorem DagEvent.validateStructure_eq_ok_iff (event : DagEvent) :
    event.validateStructure = .ok () ↔
      (event.strongParents = [] ∧ event.round = 0 ∧ event.lamportTime = 0) ∨
        (event.strongParents ≠ [] ∧ event.round ≠ 0 ∧ event.lamportTime ≠ 0) := by
  unfold validateStructure isGenesis
  by_cases hparents : event.strongParents = [] <;> by_cases hround : event.round = 0 <;>
    by_cases htime : event.lamportTime = 0 <;> simp [hparents, hround, htime]

/-- An event of the unit tests: its id is the digest of creator and round.
Source: `consensus/commit.rs`, `make_event` of the tests
Kind: D -/
def makeEvent (sha256 : List UInt8 → Bytes 32) (creator : UInt8) (round : UInt64)
    (parents : List EventId) : DagEvent where
  id := sha256 [creator, round.toUInt8]
  creator := makeValidator creator
  lamportTime := round
  round := round
  strongParents := parents
  weakParents := []
  payload := .empty
  signature := .fill 96 0

/-- Events without equivocation: distinct events have distinct ids, and a creator has at most one
event at a round.
Kind: D -/
structure Pool where
  events : Set DagEvent
  id_injective : ∀ e ∈ events, ∀ e' ∈ events, e.id = e'.id → e = e'
  one_per_round : ∀ e ∈ events, ∀ e' ∈ events, e.creator = e'.creator → e.round = e'.round → e = e'

end Ryther
