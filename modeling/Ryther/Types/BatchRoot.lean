import Ryther.Lib.BlockFile
import Ryther.Lib.PairTree
import Ryther.Types.Event

/-!
# The root of a batch

The Merkle root of `src/types/transaction.rs` over the commitments of a batch, and the id of
`src/types/event.rs`, which covers the batch through this root only.

* `EncryptedBatch.computeMerkleRoot` — as in the source: an odd last element is hashed with itself.
* `hashInputs` — the strings that are hashed on the way.
* `batchRoot_eq_iff` — without collisions, two batches have one root exactly if their commitments
  have one padding (`Lib.padded`).
* `batchRoot_binds_iff` — so the root determines the commitments except where different lists have
  the same padding, as `a, b, c` and `a, b, c, c` do.
* `computeId_eq_iff`, `signingMessage_eq_iff` — what the id and the signature of an event cover: of
  its batch, the root only.
-/

namespace Ryther

open Lib

/-! ### The root -/

/-- The digest of two digests in a row.
Source: `types/transaction.rs`, `hash` in `EncryptedBatch::compute_merkle_root`
Kind: D -/
def hashPair (sha256 : List UInt8 → Bytes 32) (a b : Bytes 32) : Bytes 32 :=
  sha256 (a.toList ++ b.toList)

namespace EncryptedBatch

variable (sha256 : List UInt8 → Bytes 32)

/-- The layers shrink to one element within as many turns as there are transactions.
Source: `types/transaction.rs`, `EncryptedBatch::compute_merkle_root`
Kind: D -/
def computeMerkleRoot (txs : List EncryptedTransaction) : Bytes 32 :=
  match txs with
  | [] => .fill 32 0
  | [tx] => tx.commitment
  | txs =>
      let layer := txs.map EncryptedTransaction.commitment
      (pairLoop (hashPair sha256) txs.length layer).headD (.fill 32 0)

/-- A batch with the root of its commitments.
Source: `types/transaction.rs`, `EncryptedBatch::from_transactions`
Kind: D -/
def fromTransactions (txs : List EncryptedTransaction) : EncryptedBatch :=
  ⟨txs, computeMerkleRoot sha256 txs⟩

/-- The strings that are hashed for a list of commitments.
Kind: D -/
def hashInputs (commitments : List (Bytes 32)) : List (List UInt8) :=
  (loopPairs (hashPair sha256) commitments.length commitments).map fun p =>
    p.1.toList ++ p.2.toList

variable {sha256}

/-- The special cases are those of the loop. Kind: L -/
theorem computeMerkleRoot_eq (txs : List EncryptedTransaction) :
    computeMerkleRoot sha256 txs =
      (pairLoop (hashPair sha256) (txs.map EncryptedTransaction.commitment).length
        (txs.map EncryptedTransaction.commitment)).headD (.fill 32 0) := by
  rw [List.length_map]
  rcases txs with _ | ⟨tx, _ | ⟨tx', txs⟩⟩ <;> rfl

/-! ### What the root determines -/

/-- The strings that are hashed for two batches.
Kind: D -/
def usedInputs (sha256 : List UInt8 → Bytes 32) (txs txs' : List EncryptedTransaction) :
    List (List UInt8) :=
  hashInputs sha256 (txs.map EncryptedTransaction.commitment) ++
    hashInputs sha256 (txs'.map EncryptedTransaction.commitment)

/-- What is assumed of the hash function and the commitments of two batches: no collision among the
strings hashed for them, no hash and no commitment that is zero, and no commitment that is one of
the hashes.
Kind: D -/
structure Collisionless (sha256 : List UInt8 → Bytes 32) (txs txs' : List EncryptedTransaction) :
    Prop where
  injective : InjectiveOn sha256 (usedInputs sha256 txs txs')
  hash_ne_zero : ∀ input ∈ usedInputs sha256 txs txs', sha256 input ≠ .fill 32 0
  commitment_ne_zero : ∀ tx ∈ txs ++ txs', tx.commitment ≠ .fill 32 0
  commitment_ne_hash : ∀ tx ∈ txs ++ txs', ∀ input ∈ usedInputs sha256 txs txs',
    tx.commitment ≠ sha256 input

/-- Concatenations of 32-byte strings tell pairs apart. Kind: L -/
theorem pair_eq_of_append_eq {p q : Bytes 32 × Bytes 32}
    (h : p.1.toList ++ p.2.toList = q.1.toList ++ q.2.toList) : p = q := by
  obtain ⟨hleft, hright⟩ := selfDelimiting_vector 32 h
  exact Prod.ext hleft (List.Vector.toList_injective hright)

section

variable {txs txs' : List EncryptedTransaction}

/-- Every pair that is combined on the way to one of the two roots is among the hashed inputs. Kind:
L -/
theorem input_mem_usedInputs {p : Bytes 32 × Bytes 32}
    (hp : p ∈ loopPairs (hashPair sha256) (txs.map EncryptedTransaction.commitment).length
        (txs.map EncryptedTransaction.commitment) ++
      loopPairs (hashPair sha256) (txs'.map EncryptedTransaction.commitment).length
        (txs'.map EncryptedTransaction.commitment)) :
    p.1.toList ++ p.2.toList ∈ usedInputs sha256 txs txs' := by
  rw [usedInputs, hashInputs, hashInputs, ← List.map_append]
  exact List.mem_map.mpr ⟨p, hp, rfl⟩

/-- A root is not the root of the empty batch. Kind: L -/
theorem Collisionless.exists_root (h : Collisionless sha256 txs txs')
    {batch : List EncryptedTransaction} (hbatch : batch = txs ∨ batch = txs') (hne : batch ≠ []) :
    ∃ r, pairLoop (hashPair sha256) (batch.map EncryptedTransaction.commitment).length
      (batch.map EncryptedTransaction.commitment) = [r] ∧ r ≠ .fill 32 0 := by
  have hne' : batch.map EncryptedTransaction.commitment ≠ [] := by simpa using hne
  obtain ⟨r, hr, hcase⟩ := exists_pairLoop (hashPair sha256) hne'
  refine ⟨r, hr, ?_⟩
  rcases hcase with hmem | ⟨p, hp, rfl⟩
  · obtain ⟨tx, htx, rfl⟩ := List.mem_map.mp hmem
    refine h.commitment_ne_zero tx (List.mem_append.mpr ?_)
    rcases hbatch with rfl | rfl
    · exact .inl htx
    · exact .inr htx
  · refine h.hash_ne_zero _ (input_mem_usedInputs (List.mem_append.mpr ?_))
    rcases hbatch with rfl | rfl
    · exact .inl hp
    · exact .inr hp

/-- **Two batches have one root exactly if their commitments have one padding.** Kind: P -/
theorem batchRoot_eq_iff (h : Collisionless sha256 txs txs') :
    (fromTransactions sha256 txs).batchRoot = (fromTransactions sha256 txs').batchRoot ↔
      padded (txs.map EncryptedTransaction.commitment) =
        padded (txs'.map EncryptedTransaction.commitment) := by
  have hloop := @pairLoop_eq_iff _ (hashPair sha256)
    (txs.map EncryptedTransaction.commitment) (txs'.map EncryptedTransaction.commitment)
    (fun p hp q hq heq => pair_eq_of_append_eq
      (h.injective _ (input_mem_usedInputs hp) _ (input_mem_usedInputs hq) heq))
    (fun c hc p hp => by
      rw [← List.map_append] at hc
      obtain ⟨tx, htx, rfl⟩ := List.mem_map.mp hc
      exact h.commitment_ne_hash tx htx _ (input_mem_usedInputs hp))
  rw [← hloop]
  simp only [fromTransactions, computeMerkleRoot_eq]
  -- the roots are the heads of the two results, and the head of an empty one is zero
  by_cases hnil : txs = []
  · by_cases hnil' : txs' = []
    · simp [hnil, hnil']
    · obtain ⟨r, hr, hne⟩ := h.exists_root (.inr rfl) hnil'
      rw [hr, hnil]
      simpa [pairLoop] using hne.symm
  · obtain ⟨r, hr, hne⟩ := h.exists_root (.inl rfl) hnil
    by_cases hnil' : txs' = []
    · rw [hr, hnil']
      simpa [pairLoop] using hne
    · obtain ⟨r', hr', -⟩ := h.exists_root (.inr rfl) hnil'
      rw [hr, hr']
      simp

/-- **When the root binds the batch**: equal roots mean equal lists of commitments, unless the lists
have different lengths and one padding.
Source: `types/transaction.rs`, "Merkle root of transaction commitments"
Kind: P -/
theorem batchRoot_binds_iff (sha256 : List UInt8 → Bytes 32)
    (txs txs' : List EncryptedTransaction) (h : Collisionless sha256 txs txs') :
    ((fromTransactions sha256 txs).batchRoot = (fromTransactions sha256 txs').batchRoot →
        txs.map EncryptedTransaction.commitment = txs'.map EncryptedTransaction.commitment) ↔
      (txs.length = txs'.length ∨
        padded (txs.map EncryptedTransaction.commitment) ≠
          padded (txs'.map EncryptedTransaction.commitment)) := by
  rw [batchRoot_eq_iff h]
  constructor
  · intro hbinds
    by_cases hpadded : padded (txs.map EncryptedTransaction.commitment) =
        padded (txs'.map EncryptedTransaction.commitment)
    · have hlen := congrArg List.length (hbinds hpadded)
      rw [List.length_map, List.length_map] at hlen
      exact .inl hlen
    · exact .inr hpadded
  · rintro (hlen | hne) hpadded
    · exact eq_of_padded_eq (by rw [List.length_map, List.length_map, hlen]) hpadded
    · exact absurd hpadded hne

end

/-! ### Batches in closed form -/

/-- A transaction with a commitment of equal bytes.
Source: `types/transaction.rs`, after the transactions of the tests
Kind: D -/
def makeEncrypted (id : UInt8) : EncryptedTransaction := ⟨[id], ⟨[], []⟩, .fill 32 id⟩

/-- SHA-256 on the strings hashed for the batches below.
Kind: D -/
def batchHash : List UInt8 → Bytes 32 :=
  let one := (Bytes.fill 32 1).toList
  let two := (Bytes.fill 32 2).toList
  let three := (Bytes.fill 32 3).toList
  let left := 0xf818afd37a6dc3bc92fb44731011277006db4efa6e9023cd7468c02335d22a4d
  let right := 0x6aa56c4bcd208911792ad24c7681fefb93bed51903afc54860c9bd37e41e5a31
  tableHash
    [(one ++ two, left), (three ++ three, right),
      ((digest left).toList ++ (digest right).toList,
        0x831e18b32b5392c031f24c715086821d7532fcb6cac0bb815a1a647990cff261),
      (two ++ one, 0xc57d4f59c961b13e406cd991b0f342ec79e571dc2c1415ff72c6550645a3b198)]

/-- Two transactions in the other order have another root. Kind: L -/
theorem batchRoot_binds_swapped :
    (fromTransactions batchHash [makeEncrypted 1, makeEncrypted 2]).batchRoot ≠
      (fromTransactions batchHash [makeEncrypted 2, makeEncrypted 1]).batchRoot := by
  have hcollisionless : Collisionless batchHash [makeEncrypted 1, makeEncrypted 2]
      [makeEncrypted 2, makeEncrypted 1] :=
    ⟨by decide +kernel, by decide +kernel, by decide +kernel, by decide +kernel⟩
  intro heq
  have hcommitments := (batchRoot_binds_iff batchHash _ _ hcollisionless).mpr (.inl rfl) heq
  exact absurd hcommitments (by decide +kernel)

/-- The last of three transactions once more: a batch of four has the root of the batch of three.
Kind: P -/
theorem batchRoot_of_repeated_last :
    let txs := [makeEncrypted 1, makeEncrypted 2, makeEncrypted 3]
    let txs' := [makeEncrypted 1, makeEncrypted 2, makeEncrypted 3, makeEncrypted 3]
    Collisionless batchHash txs txs' ∧
      (fromTransactions batchHash txs).batchRoot = (fromTransactions batchHash txs').batchRoot ∧
      txs.map EncryptedTransaction.commitment ≠ txs'.map EncryptedTransaction.commitment := by
  intro txs txs'
  refine ⟨⟨?_, ?_, ?_, ?_⟩, ?_, ?_⟩ <;> decide +kernel

end EncryptedBatch

/-! ### The id of an event -/

/-- The order of 32-byte strings, byte by byte.
Source: `types/event.rs`, `sorted_parents.sort()`
Kind: D -/
def bytesLe (a b : Bytes 32) : Prop := a.toList ≤ b.toList

instance : DecidableRel bytesLe := fun a b =>
  inferInstanceAs (Decidable (a.toList ≤ b.toList))

instance : Std.Total bytesLe := ⟨fun _ _ => List.le_total _ _⟩

instance : IsTrans (Bytes 32) bytesLe := ⟨fun _ _ _ => List.le_trans⟩

namespace DagEvent

/-- The string that is hashed for an id.
Source: `types/event.rs`, `data` in `DagEvent::compute_id`
Kind: D -/
def canonicalIdInput (creator : ValidatorId) (round : UInt64) (payloadHash : Bytes 32)
    (strongParents : List EventId) : List UInt8 :=
  let sortedParents := strongParents.insertionSort bytesLe
  creator.bytes.toList ++ (leBytes 8 round.toNat ++ (payloadHash.toList ++
    sortedParents.flatMap List.Vector.toList))

/-- The digest of the canonical form of an event.
Source: `types/event.rs`, `DagEvent::compute_id`
Kind: D -/
def computeId (sha256 : List UInt8 → Bytes 32) (creator : ValidatorId) (round : UInt64)
    (payloadHash : Bytes 32) (strongParents : List EventId) : EventId :=
  sha256 (canonicalIdInput creator round payloadHash strongParents)

/-- The bytes that a signature is meant to cover.
Source: `types/event.rs`, `DagEvent::signing_message`
Kind: D -/
def signingMessage (event : DagEvent) : List UInt8 :=
  event.id.toList ++ leBytes 8 event.lamportTime.toNat ++ leBytes 8 event.round.toNat ++
    event.strongParents.flatMap List.Vector.toList ++ event.payload.batchRoot.toList

/-- Sorted lists of parents are equal exactly if the lists are rearrangements. Kind: L -/
theorem insertionSort_bytesLe_eq_iff (l l' : List (Bytes 32)) :
    l.insertionSort bytesLe = l'.insertionSort bytesLe ↔ l.Perm l' := by
  constructor
  · intro heq
    have hperm := List.perm_insertionSort bytesLe l
    rw [heq] at hperm
    exact hperm.symm.trans (List.perm_insertionSort bytesLe l')
  · intro hperm
    refine List.Perm.eq_of_pairwise (fun a b _ _ hab hba => ?_)
      (List.pairwise_insertionSort bytesLe l) (List.pairwise_insertionSort bytesLe l')
      (((List.perm_insertionSort _ l).trans hperm).trans (List.perm_insertionSort _ l').symm)
    exact List.Vector.toList_injective (List.le_antisymm hab hba)

/-- **What an id determines**: creator, round and root, and the parents up to their order.
Source: `types/event.rs`, "Unique identifier: sha256(creator || round || payload_hash || parents)"
Kind: P -/
theorem computeId_eq_iff {sha256 : List UInt8 → Bytes 32} {creator creator' : ValidatorId}
    {round round' : UInt64} {root root' : Bytes 32} {parents parents' : List EventId}
    (hinj : InjectiveOn sha256
      [canonicalIdInput creator round root parents,
        canonicalIdInput creator' round' root' parents']) :
    computeId sha256 creator round root parents = computeId sha256 creator' round' root' parents' ↔
      creator = creator' ∧ round = round' ∧ root = root' ∧ parents.Perm parents' := by
  rw [← insertionSort_bytesLe_eq_iff]
  constructor
  · intro heq
    have hinput := hinj _ List.mem_cons_self _ (List.mem_cons_of_mem _ List.mem_cons_self) heq
    obtain ⟨hcreator, hrest⟩ := selfDelimiting_validatorId hinput
    obtain ⟨hround, hrest⟩ := selfDelimiting_u64 hrest
    obtain ⟨hroot, hparents⟩ := selfDelimiting_vector 32 hrest
    exact ⟨hcreator, hround, hroot, concat_injective (by decide) hparents⟩
  · rintro ⟨rfl, rfl, rfl, hparents⟩
    rw [computeId, computeId, canonicalIdInput, canonicalIdInput, hparents]

/-- The order of the parents does not matter.
Source: `types/event.rs`, `test_parent_order_independence`
Kind: L -/
theorem computeId_swapped_parents :
    computeId EncryptedBatch.batchHash (makeValidator 1) 5 (.fill 32 0)
        [.fill 32 1, .fill 32 2] =
      computeId EncryptedBatch.batchHash (makeValidator 1) 5 (.fill 32 0)
        [.fill 32 2, .fill 32 1] := by
  refine (computeId_eq_iff ?_).mpr ⟨rfl, rfl, rfl, List.Perm.swap _ _ _⟩
  decide +kernel

/-- **What a signature covers**: the id, the times, the parents in their order and the root, and
nothing else of the event.
Source: `types/event.rs`, "BLS signature over event contents"
Kind: P -/
theorem signingMessage_eq_iff (event event' : DagEvent) :
    event.signingMessage = event'.signingMessage ↔
      event.id = event'.id ∧ event.lamportTime = event'.lamportTime ∧
        event.round = event'.round ∧ event.strongParents = event'.strongParents ∧
        event.payload.batchRoot = event'.payload.batchRoot := by
  unfold signingMessage
  constructor
  · intro heq
    obtain ⟨heq, hroot⟩ := List.append_inj' heq (by simp)
    rw [List.append_assoc, List.append_assoc, List.append_assoc, List.append_assoc] at heq
    obtain ⟨hid, heq⟩ := selfDelimiting_vector 32 heq
    obtain ⟨hlamport, heq⟩ := selfDelimiting_u64 heq
    obtain ⟨hround, hparents⟩ := selfDelimiting_u64 heq
    exact ⟨hid, hlamport, hround, concat_injective (by decide) hparents,
      List.Vector.toList_injective hroot⟩
  · rintro ⟨hid, hlamport, hround, hparents, hroot⟩
    rw [hid, hlamport, hround, hparents, hroot]

end DagEvent

end Ryther
