import Ryther.Types.Basic

/-!
# Decrypted transactions

`src/types/transaction.rs`: the form of a transaction that is executed.
-/

namespace Ryther

open Lib

/-- A transaction after decryption, with its place in the final order.
Source: `types/transaction.rs`, `DecryptedTransaction`
Kind: D -/
structure DecryptedTransaction where
  «from» : Address
  /-- `none` is a contract creation. -/
  «to» : Option Address
  value : U256
  gasLimit : UInt64
  gasPrice : U256
  nonce : UInt64
  data : List UInt8
  sequenceNumber : UInt64
  deriving DecidableEq

/-- A transaction of the unit tests.
Source: `evm/vm.rs`, `make_tx` of the tests
Kind: D -/
def makeTx (sender : UInt8) (recipient : Option UInt8) (value nonce seq : UInt64) :
    DecryptedTransaction where
  «from» := .fill sender
  «to» := recipient.map Address.fill
  value := .fromU64 value
  gasLimit := 100000
  gasPrice := .fromU64 1000000000
  nonce := nonce
  data := []
  sequenceNumber := seq

end Ryther
