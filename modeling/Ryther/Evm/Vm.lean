import Ryther.Execution.Mvcc
import Ryther.Types.Transaction

/-!
# The transaction virtual machine

`src/evm/vm.rs`. The machine reads and writes the shared multi-version state and records what it
reads and writes; here the three mutable things are passed along as a `Frame`.

* `subU256`, `compareU256` — the arithmetic helpers, limb by limb as the source computes them.
* `executeCall`, `executeCreate`, `executeInner`, `RytherVm.execute` — every path of the source.

`keccak256` is a parameter.
-/

namespace Ryther

open Lib

/-! ### Slots and keys -/

/-- The slot of the balance.
Source: `evm/vm.rs`, `SLOT_BALANCE`
Kind: D -/
def slotBalance : UInt64 := 0

/-- The slot of the nonce.
Source: `evm/vm.rs`, `SLOT_NONCE`
Kind: D -/
def slotNonce : UInt64 := 1

/-- The slot of the hash of the code.
Source: `evm/vm.rs`, `SLOT_CODE_HASH`
Kind: D -/
def slotCodeHash : UInt64 := 2

/-- The key of a slot of an account.
Kind: D -/
def slotKey (slot : UInt64) (address : Address) : StateKey := ⟨address.bytes, .fromU64 slot⟩

/-- Where the balance of an account is stored.
Source: `evm/vm.rs`, `RytherVm::balance_key`
Kind: D -/
def balanceKey (address : Address) : StateKey := slotKey slotBalance address

/-- Where the nonce of an account is stored.
Source: `evm/vm.rs`, `RytherVm::nonce_key`
Kind: D -/
def nonceKey (address : Address) : StateKey := slotKey slotNonce address

/-- The key `execute_create` stores the code hash under.
Source: `evm/vm.rs`, `code_hash_key` in `RytherVm::execute_create`
Kind: D -/
def codeHashKey (address : Address) : StateKey := slotKey slotCodeHash address

/-- Slots of accounts are told apart by slot and account. Kind: L -/
@[simp] theorem slotKey_inj {s s' : UInt64} {a a' : Address} :
    slotKey s a = slotKey s' a' ↔ s = s' ∧ a = a' := by
  cases a
  cases a'
  simp [slotKey, U256.fromU64_injective.eq_iff, and_comm]

/-! ### Errors and results -/

/-- Why an execution fails.
Source: `evm/vm.rs`, `VmError`
Kind: D -/
inductive VmError where
  | insufficientBalance
  | invalidNonce (expected got : UInt64)
  | outOfGas
  | invalidOpcode (opcode : UInt8)
  | stackUnderflow
  | stackOverflow
  | invalidJump
  | revert (reason : String)
  | internal (reason : String)
  deriving DecidableEq

/-- The message of an error.
Source: `evm/vm.rs`, the `#[error]` texts of `VmError`
Kind: D -/
def VmError.display : VmError → String
  | .insufficientBalance => "Insufficient balance"
  | .invalidNonce expected got =>
      "Invalid nonce: expected " ++ toString expected.toNat ++ ", got " ++ toString got.toNat
  | .outOfGas => "Out of gas"
  | .invalidOpcode opcode => "Invalid opcode: " ++ toString opcode.toNat
  | .stackUnderflow => "Stack underflow"
  | .stackOverflow => "Stack overflow"
  | .invalidJump => "Invalid jump destination"
  | .revert reason => "Revert: " ++ reason
  | .internal reason => "Internal error: " ++ reason

/-- What an execution that does not fail returns.
Source: `evm/vm.rs`, `VmResult`
Kind: D -/
structure VmResult where
  success : Bool
  gasUsed : UInt64
  output : List UInt8
  logs : List Log
  deriving DecidableEq

/-- The field of the context that the VM reads: who receives the fees.
Source: `evm/vm.rs`, `BlockContext`
Kind: D -/
structure BlockContext where
  coinbase : Address

/-- The code of the contracts.
Source: `evm/vm.rs`, `RytherVm`
Kind: D -/
structure RytherVm where
  codeStorage : HashMap Address (List UInt8)

/-- The mutable things an execution carries along: the shared state and the two sets.
Kind: D -/
structure Frame where
  state : MultiVersionState
  readSet : ReadSet
  writeSet : WriteSet

/-! ### State access helpers -/

namespace Frame

/-- A tracked read of a balance; a missing one is 0.
Source: `evm/vm.rs`, `RytherVm::read_balance`
Kind: D -/
def readBalance (f : Frame) (addr : Address) (seq : UInt64) : U256 × Frame :=
  let (value, readSet) := f.state.readTracked (balanceKey addr) seq f.readSet
  (value.getD .zero, { f with readSet := readSet })

/-- A tracked read of a nonce, the lowest limb of the value; a missing one is 0.
Source: `evm/vm.rs`, `RytherVm::read_nonce`
Kind: D -/
def readNonce (f : Frame) (addr : Address) (seq : UInt64) : UInt64 × Frame :=
  let (value, readSet) := f.state.readTracked (nonceKey addr) seq f.readSet
  ((value.map U256.limb0).getD 0, { f with readSet := readSet })

/-- A tracked write of a balance.
Source: `evm/vm.rs`, `RytherVm::write_balance`
Kind: D -/
def writeBalance (f : Frame) (addr : Address) (seq : UInt64) (value : U256) : Frame :=
  let (state, writeSet) := f.state.writeTracked (balanceKey addr) seq (some value) f.writeSet
  { f with state := state, writeSet := writeSet }

/-- A tracked write of a nonce.
Source: `evm/vm.rs`, `RytherVm::write_nonce`
Kind: D -/
def writeNonce (f : Frame) (addr : Address) (seq nonce : UInt64) : Frame :=
  let (state, writeSet) :=
    f.state.writeTracked (nonceKey addr) seq (some (.fromU64 nonce)) f.writeSet
  { f with state := state, writeSet := writeSet }

end Frame

/-! ### Arithmetic helpers -/

/-- The lowest limb; the others are dropped.
Source: `evm/vm.rs`, `RytherVm::u256_to_u64`
Kind: D -/
def u256ToU64 (val : U256) : UInt64 := val.limb0

/-- Addition modulo `2 ^ 256`.
Source: `evm/vm.rs`, `RytherVm::add_u256`
Kind: D -/
def addU256 (a b : U256) : U256 := a.wrappingAdd b

/-- Subtraction in the lowest limb, with a borrow from the second limb if that is not zero.
Source: `evm/vm.rs`, `RytherVm::sub_u256`
Kind: D -/
def subU256 (a b : U256) : U256 :=
  let diff := a.limb0 - b.limb0
  let borrow := a.limb0 < b.limb0
  { a with limb0 := diff, limb1 := if borrow ∧ a.limb1 > 0 then a.limb1 - 1 else a.limb1 }

/-- The comparison loop, over the pairs of limbs from the top one down.
Kind: D -/
def compareLimbs : List (UInt64 × UInt64) → ℤ
  | [] => 0
  | (x, y) :: rest => if x > y then 1 else if x < y then -1 else compareLimbs rest

/-- The comparison from the highest limb down, as −1, 0 or 1.
Source: `evm/vm.rs`, `RytherVm::compare_u256`
Kind: D -/
def compareU256 (a b : U256) : ℤ :=
  compareLimbs [(a.limb3, b.limb3), (a.limb2, b.limb2), (a.limb1, b.limb1), (a.limb0, b.limb0)]

/-- The limit times the lowest limb of the price, as a `u64` that wraps.
Source: `evm/vm.rs`, `RytherVm::calculate_gas_cost`
Kind: D -/
def calculateGasCost (tx : DecryptedTransaction) : U256 :=
  .fromU64 (tx.gasLimit * u256ToU64 tx.gasPrice)

/-! ### Execution -/

/-- The nonce as `compute_create_address` encodes it.
Kind: D -/
def createNonceBytes (nonce : UInt64) : List UInt8 :=
  if nonce = 0 then [0x80]
  else if nonce < 128 then [nonce.toUInt8]
  else
    let nonceBytes := (beBytes 8 nonce.toNat).dropWhile (· = 0)
    (0x80 + UInt8.ofNat nonceBytes.length) :: nonceBytes

/-- The last 20 bytes of the digest of a fixed header, the sender and the nonce.
Source: `evm/vm.rs`, `RytherVm::compute_create_address`
Kind: D -/
def computeCreateAddress (keccak256 : List UInt8 → Bytes 32) (sender : Address) (nonce : UInt64) :
    Address :=
  let data := [0xd6, 0x94] ++ sender.bytes.toList ++ createNonceBytes nonce
  ⟨(keccak256 data).drop 12⟩

namespace RytherVm

variable (keccak256 : List UInt8 → Bytes 32)

/-- What a call or a creation returns: success, gas used, output and logs.
Kind: D -/
abbrev CallOutcome := Bool × UInt64 × List UInt8 × List Log

/-- The value moves to the recipient. No code is run: a recipient with code costs gas for the bytes
of the data, any other the base amount.
Source: `evm/vm.rs`, `RytherVm::execute_call`
Kind: D -/
def executeCall (vm : RytherVm) (tx : DecryptedTransaction) (recipient : Address) (f : Frame) :
    Except VmError CallOutcome × Frame :=
  let f :=
    if tx.value ≠ .zero then
      let (toBalance, f) := f.readBalance recipient tx.sequenceNumber
      let newToBalance := addU256 toBalance tx.value
      f.writeBalance recipient tx.sequenceNumber newToBalance
    else f
  match vm.codeStorage.lookup recipient with
  | some code =>
      if code ≠ [] then
        let gasUsed := 21000 + UInt64.ofNat tx.data.length * 16
        (.ok (true, min gasUsed tx.gasLimit, [], []), f)
      else (.ok (true, 21000, [], []), f)
  | none => (.ok (true, 21000, [], []), f)

/-- The value becomes the balance of the new account, and the hash of the code is written.
Source: `evm/vm.rs`, `RytherVm::execute_create`
Kind: D -/
def executeCreate (tx : DecryptedTransaction) (f : Frame) : Except VmError CallOutcome × Frame :=
  let contractAddress := computeCreateAddress keccak256 tx.from tx.nonce
  let f :=
    if tx.value ≠ .zero then f.writeBalance contractAddress tx.sequenceNumber tx.value else f
  let codeHash := keccak256 tx.data
  -- this write is not recorded in the write set
  let f := { f with state := f.state.write (codeHashKey contractAddress) tx.sequenceNumber
                      (some (.fromBeBytes codeHash)) }
  let gasUsed := 32000 + UInt64.ofNat tx.data.length * 200
  (.ok (true, min gasUsed tx.gasLimit, contractAddress.bytes.toList, []), f)

/-- Nonce and balance are checked, the cost is taken, the call or creation runs, and the gas that
was not used is given back.
Source: `evm/vm.rs`, `RytherVm::execute_inner`
Kind: D -/
def executeInner (vm : RytherVm) (tx : DecryptedTransaction) (block : BlockContext) (f : Frame) :
    Except VmError VmResult × Frame :=
  let (senderBalance, f) := f.readBalance tx.from tx.sequenceNumber
  let (senderNonce, f) := f.readNonce tx.from tx.sequenceNumber
  if senderNonce ≠ tx.nonce then (.error (.invalidNonce senderNonce tx.nonce), f)
  else
    let gasCost := calculateGasCost tx
    let totalCost := addU256 tx.value gasCost
    if compareU256 senderBalance totalCost < 0 then (.error .insufficientBalance, f)
    else
      let newSenderBalance := subU256 senderBalance totalCost
      let f := f.writeBalance tx.from tx.sequenceNumber newSenderBalance
      let f := f.writeNonce tx.from tx.sequenceNumber (senderNonce + 1)
      let (outcome, f) := match tx.to with
        | some recipient => vm.executeCall tx recipient f
        | none => executeCreate keccak256 tx f
      match outcome with
      | .error e => (.error e, f)
      | .ok (success, gasUsed, output, logs) =>
          let gasRefund := (tx.gasLimit - gasUsed) * u256ToU64 tx.gasPrice
          let finalBalance := addU256 newSenderBalance (.fromU64 gasRefund)
          let f := f.writeBalance tx.from tx.sequenceNumber finalBalance
          let (coinbaseBalance, f) := f.readBalance block.coinbase tx.sequenceNumber
          let coinbaseFee := U256.fromU64 (gasUsed * u256ToU64 tx.gasPrice)
          let newCoinbaseBalance := addU256 coinbaseBalance coinbaseFee
          let f := f.writeBalance block.coinbase tx.sequenceNumber newCoinbaseBalance
          (.ok ⟨success, gasUsed, output, logs⟩, f)

/-- The result of a transaction with its recorded reads and writes, and the state with the writes in
it.
Source: `evm/vm.rs`, `RytherVm::execute`
Kind: D -/
def execute (vm : RytherVm) (tx : DecryptedTransaction) (state : MultiVersionState)
    (block : BlockContext) : ExecutionResult × MultiVersionState :=
  let (result, f) := vm.executeInner keccak256 tx block ⟨state, .new, .new⟩
  match result with
  | .ok r =>
      ({ txSeq := tx.sequenceNumber
         status := if r.success then .success else .revert
         readSet := f.readSet
         writeSet := f.writeSet
         gasUsed := r.gasUsed
         logs := r.logs
         output := r.output }, f.state)
  | .error e =>
      ({ txSeq := tx.sequenceNumber
         status := .failure
         readSet := f.readSet
         writeSet := f.writeSet
         gasUsed := tx.gasLimit
         logs := []
         output := e.display.toUTF8.toList }, f.state)

end RytherVm

/-- A state in which the given accounts hold `10 ^ 18` each.
Source: after `make_funded_state` of the tests in `execution/executor.rs`
Kind: D -/
def fundedState (addresses : List UInt8) : MultiVersionState :=
  .withBaseState (addresses.map fun a =>
    (balanceKey (.fill a), .fromU64 1000000000000000000))

end Ryther
