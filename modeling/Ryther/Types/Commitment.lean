import Ryther.Types.Transaction

/-!
# Commitments of transactions

`src/types/transaction.rs`: an encrypted transaction carries the hash of its decrypted form, and
`verify_commitment` compares the two. The hashed string is a concatenation without lengths, with an
optional field inside and the call data at the end.

* `DecryptedTransaction.hashInput` — the string; `hashInput_eq_iff` says that it determines every
  field it has.
* `CommittedTransaction.verifyCommitment` — as in the source.
* `CommittedTransaction.commitment_binds` — two transactions that pass with one commitment agree.
-/

namespace Ryther

open Lib

/-! ### The hash of a transaction -/

namespace DecryptedTransaction

/-- The string that is hashed: byte 1 and the recipient, or byte 0 for a creation.
Source: `types/transaction.rs`, the updates in `DecryptedTransaction::compute_hash`
Kind: D -/
def hashInput (tx : DecryptedTransaction) : List UInt8 :=
  tx.from.bytes.toList ++ (encodeOption 1 0 (fun a : Address => a.bytes.toList) tx.to ++
    (tx.value.toBeBytes.toList ++ (leBytes 8 tx.gasLimit.toNat ++
      (tx.gasPrice.toBeBytes.toList ++ (leBytes 8 tx.nonce.toNat ++ tx.data)))))

/-- The digest of the transaction's fields.
Source: `types/transaction.rs`, `DecryptedTransaction::compute_hash`
Kind: D -/
def computeHash (keccak256 : List UInt8 → Bytes 32) (tx : DecryptedTransaction) : Bytes 32 :=
  keccak256 tx.hashInput

/-- **The string determines the fields**: all but the sequence number, which is not hashed. The mark
in front of the recipient tells a creation from a call, and the call data is what is left at the
end.
Kind: L -/
theorem hashInput_eq_iff (tx tx' : DecryptedTransaction) :
    tx.hashInput = tx'.hashInput ↔
      tx.from = tx'.from ∧ tx.to = tx'.to ∧ tx.value = tx'.value ∧ tx.gasLimit = tx'.gasLimit ∧
        tx.gasPrice = tx'.gasPrice ∧ tx.nonce = tx'.nonce ∧ tx.data = tx'.data := by
  constructor
  · intro heq
    -- the fields are taken off the front, one after the other
    obtain ⟨hfrom, heq⟩ := selfDelimiting_address heq
    obtain ⟨hto, heq⟩ := selfDelimiting_address.option (by decide) heq
    obtain ⟨hvalue, heq⟩ := selfDelimiting_u256 heq
    obtain ⟨hgasLimit, heq⟩ := selfDelimiting_u64 heq
    obtain ⟨hgasPrice, heq⟩ := selfDelimiting_u256 heq
    obtain ⟨hnonce, hdata⟩ := selfDelimiting_u64 heq
    exact ⟨hfrom, hto, hvalue, hgasLimit, hgasPrice, hnonce, hdata⟩
  · rintro ⟨hfrom, hto, hvalue, hgasLimit, hgasPrice, hnonce, hdata⟩
    rw [hashInput, hashInput, hfrom, hto, hvalue, hgasLimit, hgasPrice, hnonce, hdata]

end DecryptedTransaction

/-! ### Commitments -/

/-- A decrypted transaction with the commitment of its encrypted form, which execution does not
read.
Source: `types/transaction.rs`, `DecryptedTransaction`
Kind: D -/
structure CommittedTransaction extends DecryptedTransaction where
  sourceCommitment : Bytes 32
  deriving DecidableEq

namespace CommittedTransaction

/-- Whether the commitment is the digest of the fields.
Source: `types/transaction.rs`, `DecryptedTransaction::verify_commitment`
Kind: D -/
def verifyCommitment (keccak256 : List UInt8 → Bytes 32) (tx : CommittedTransaction) : Bool :=
  tx.computeHash keccak256 = tx.sourceCommitment

/-- **A commitment binds the transaction.** The hash function has no collision on the two strings.
Source: `types/transaction.rs`, "Verify this transaction matches the encrypted commitment."
Kind: P -/
theorem commitment_binds (keccak256 : List UInt8 → Bytes 32) (tx tx' : CommittedTransaction)
    (hinj : InjectiveOn keccak256 [tx.hashInput, tx'.hashInput])
    (hsame : tx.sourceCommitment = tx'.sourceCommitment)
    (hverify : tx.verifyCommitment keccak256 = true)
    (hverify' : tx'.verifyCommitment keccak256 = true) :
    tx.from = tx'.from ∧ tx.to = tx'.to ∧ tx.value = tx'.value ∧ tx.gasLimit = tx'.gasLimit ∧
      tx.gasPrice = tx'.gasPrice ∧ tx.nonce = tx'.nonce ∧ tx.data = tx'.data := by
  have hhash : keccak256 tx.hashInput = keccak256 tx'.hashInput :=
    calc keccak256 tx.hashInput
        = tx.sourceCommitment := of_decide_eq_true hverify
      _ = tx'.sourceCommitment := hsame
      _ = keccak256 tx'.hashInput := (of_decide_eq_true hverify').symm
  apply (DecryptedTransaction.hashInput_eq_iff _ _).mp
  exact hinj _ List.mem_cons_self _ (List.mem_cons_of_mem _ List.mem_cons_self) hhash

/-- Keccak-256 on the string of a transfer.
Kind: D -/
def transferKeccak256 : List UInt8 → Bytes 32 :=
  tableHash [((makeTx 1 (some 2) 1000 0 0).hashInput,
    78972220938550159658077013028613372966940332731597391289791799786783611044785)]

/-- One transfer at two places of the final order. Kind: L -/
theorem commitment_binds_transfer :
    let commitment := digest
      78972220938550159658077013028613372966940332731597391289791799786783611044785
    let tx : CommittedTransaction := ⟨makeTx 1 (some 2) 1000 0 0, commitment⟩
    let tx' : CommittedTransaction := ⟨makeTx 1 (some 2) 1000 0 7, commitment⟩
    tx.from = tx'.from ∧ tx.to = tx'.to ∧ tx.value = tx'.value ∧ tx.gasLimit = tx'.gasLimit ∧
      tx.gasPrice = tx'.gasPrice ∧ tx.nonce = tx'.nonce ∧ tx.data = tx'.data := by
  intro commitment tx tx'
  apply commitment_binds transferKeccak256 tx tx'
  · decide +kernel
  · rfl
  · decide +kernel
  · decide +kernel

end CommittedTransaction

end Ryther
