import Ryther.Types.BatchRoot

/-!
# The event builder

`EventBuilder` of `src/types/event.rs`: an event from its parents, with a time and a round one above
the highest of the parents. Both additions wrap, and an event without parents gets time 1.

* `EventBuilder.build` — as in the source; the event comes with the bytes to sign.
* `EventBuilder.validateStructure_build_iff` — which built events `validate_structure` accepts.
-/

namespace Ryther

open Lib

/-! ### The highest of the parents -/

/-- One more than the highest of some numbers wraps exactly if the largest `u64` is among them.
Kind: L -/
theorem max?_getD_succ_eq_zero_iff (l : List UInt64) : l.max?.getD 0 + 1 = 0 ↔ u64Max ∈ l := by
  rw [succ_eq_zero_iff]
  cases l with
  | nil =>
      refine iff_of_false ?_ List.not_mem_nil
      decide
  | cons a l =>
      rw [List.max?_cons', Option.getD_some, foldl_max_eq_u64Max_iff, List.mem_cons, eq_comm]

/-! ### The builder -/

/-- A parent is added together with its time.
Source: `types/event.rs`, `EventBuilder`
Kind: D -/
structure EventBuilder where
  creator : ValidatorId
  strongParents : List EventId
  weakParents : List EventId
  payload : EncryptedBatch
  parentTimes : List UInt64
  length_parentTimes : parentTimes.length = strongParents.length

namespace EventBuilder

/-- A builder without parents and with an empty batch.
Source: `types/event.rs`, `EventBuilder::new`
Kind: D -/
def new (creator : ValidatorId) : EventBuilder := ⟨creator, [], [], .empty, [], rfl⟩

/-- One more strong parent with its time.
Source: `types/event.rs`, `EventBuilder::add_strong_parent`
Kind: D -/
def addStrongParent (builder : EventBuilder) (id : EventId) (lamportTime : UInt64) :
    EventBuilder :=
  { builder with
    strongParents := builder.strongParents ++ [id]
    parentTimes := builder.parentTimes ++ [lamportTime]
    length_parentTimes := by simp [builder.length_parentTimes] }

/-- One more weak parent.
Source: `types/event.rs`, `EventBuilder::add_weak_parent`
Kind: D -/
def addWeakParent (builder : EventBuilder) (id : EventId) : EventBuilder :=
  { builder with weakParents := builder.weakParents ++ [id] }

/-- The batch of the event.
Source: `types/event.rs`, `EventBuilder::with_payload`
Kind: D -/
def withPayload (builder : EventBuilder) (payload : EncryptedBatch) : EventBuilder :=
  { builder with payload := payload }

/-- One more than the largest round of the parents; 1 without parents.
Source: `types/event.rs`, `EventBuilder::compute_round`
Kind: D -/
def computeRound (parentRounds : List UInt64) : UInt64 := parentRounds.max?.getD 0 + 1

/-- The event, without a signature, and the bytes to sign.
Source: `types/event.rs`, `EventBuilder::build`
Kind: D -/
def build (sha256 : List UInt8 → Bytes 32) (builder : EventBuilder) (parentRounds : List UInt64) :
    DagEvent × List UInt8 :=
  let lamportTime := builder.parentTimes.max?.getD 0 + 1
  let round := computeRound parentRounds
  let id := DagEvent.computeId sha256 builder.creator round builder.payload.batchRoot
    builder.strongParents
  let event : DagEvent :=
    { id := id
      creator := builder.creator
      lamportTime := lamportTime
      round := round
      strongParents := builder.strongParents
      weakParents := builder.weakParents
      payload := builder.payload
      signature := .fill 96 0 }
  (event, event.signingMessage)

/-- **Which built events are accepted**: those with a parent, unless the time or the round wraps. An
event without parents is refused also where its round wraps to 0, because its time is 1. Kind: P -/
theorem validateStructure_build_iff (sha256 : List UInt8 → Bytes 32) (builder : EventBuilder)
    (parentRounds : List UInt64) :
    (builder.build sha256 parentRounds).1.validateStructure = .ok () ↔
      builder.strongParents ≠ [] ∧ u64Max ∉ parentRounds ∧ u64Max ∉ builder.parentTimes := by
  have hround : (builder.build sha256 parentRounds).1.round = 0 ↔ u64Max ∈ parentRounds :=
    max?_getD_succ_eq_zero_iff parentRounds
  have htime : (builder.build sha256 parentRounds).1.lamportTime = 0 ↔
      u64Max ∈ builder.parentTimes := max?_getD_succ_eq_zero_iff builder.parentTimes
  have hparents : (builder.build sha256 parentRounds).1.strongParents = builder.strongParents := rfl
  rw [DagEvent.validateStructure_eq_ok_iff, ne_eq, ne_eq, ne_eq, hround, htime, hparents]
  constructor
  · rintro (⟨hnil, -, htop⟩ | hvalid)
    · -- without parents there are no times, and the time is 1
      have hlen := builder.length_parentTimes
      rw [hnil, List.length_nil, List.length_eq_zero_iff] at hlen
      rw [hlen] at htop
      cases htop
    · exact hvalid
  · exact .inr

end EventBuilder

end Ryther
