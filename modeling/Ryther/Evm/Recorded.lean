import Ryther.Evm.Accounts
import Ryther.Lib.Traced

/-!
# The execution with its arithmetic recorded

The functions of `src/evm/vm.rs` once more, with every addition, subtraction and multiplication on
record.

* `ArithOp`, `ArithOp.InRange` — an operation with its operands, and that it does not wrap.
* `executeInnerT` — the recorded execution; `value_executeInnerT` says that it computes what
  `execute_inner` does.
* `arithOps`, `trace_executeInnerT` — the operations of an accepted transaction, in order.
-/

namespace Ryther

open Lib

/-! ### Recorded arithmetic -/

/-- An arithmetic operation with its operands, on `u64` or on 256-bit words.
Kind: D -/
inductive ArithOp where
  | add (a b : UInt64)
  | sub (a b : UInt64)
  | mul (a b : UInt64)
  | addWide (a b : U256)
  | subWide (a b : U256)
  deriving DecidableEq

/-- The operation does not wrap. `sub_u256` wraps as well if its low limb does and the borrow is
dropped.
Kind: D -/
def ArithOp.InRange : ArithOp → Prop
  | .add a b => a.toNat + b.toNat < 2 ^ 64
  | .sub a b => b.toNat ≤ a.toNat
  | .mul a b => a.toNat * b.toNat < 2 ^ 64
  | .addWide a b => a.toNat + b.toNat < 2 ^ 256
  | .subWide a b => b.toNat ≤ a.toNat ∧ ¬ LostBorrow a b

/-! The operations, recorded. -/

/-- An addition of `u64`s that leaves a record. Kind: D -/
def addT (a b : UInt64) : Traced ArithOp UInt64 := ⟨a + b, [.add a b]⟩

/-- A subtraction of `u64`s that leaves a record. Kind: D -/
def subT (a b : UInt64) : Traced ArithOp UInt64 := ⟨a - b, [.sub a b]⟩

/-- A multiplication of `u64`s that leaves a record. Kind: D -/
def mulT (a b : UInt64) : Traced ArithOp UInt64 := ⟨a * b, [.mul a b]⟩

/-- An addition of 256-bit numbers that leaves a record. Kind: D -/
def addU256T (a b : U256) : Traced ArithOp U256 := ⟨addU256 a b, [.addWide a b]⟩

/-- A subtraction of 256-bit numbers that leaves a record. Kind: D -/
def subU256T (a b : U256) : Traced ArithOp U256 := ⟨subU256 a b, [.subWide a b]⟩

@[simp] theorem value_addT (a b : UInt64) : (addT a b).value = a + b := rfl

@[simp] theorem value_subT (a b : UInt64) : (subT a b).value = a - b := rfl

@[simp] theorem value_mulT (a b : UInt64) : (mulT a b).value = a * b := rfl

@[simp] theorem value_addU256T (a b : U256) : (addU256T a b).value = addU256 a b := rfl

@[simp] theorem value_subU256T (a b : U256) : (subU256T a b).value = subU256 a b := rfl

/-- The price of the gas limit, with its multiplication recorded.
Source: `evm/vm.rs`, `RytherVm::calculate_gas_cost`
Kind: D -/
def calculateGasCostT (tx : DecryptedTransaction) : Traced ArithOp U256 := do
  let gasCost ← mulT tx.gasLimit (u256ToU64 tx.gasPrice)
  return .fromU64 gasCost

/-- The record does not change the price of the gas limit. Kind: L -/
@[simp] theorem value_calculateGasCostT (tx : DecryptedTransaction) :
    (calculateGasCostT tx).value = calculateGasCost tx := rfl

namespace RytherVm

variable (keccak256 : List UInt8 → Bytes 32)

/-- The transfer of a call.
Source: `evm/vm.rs`, first part of `RytherVm::execute_call`
Kind: D -/
def transferT (tx : DecryptedTransaction) (recipient : Address) (f : Frame) :
    Traced ArithOp Frame :=
  if tx.value ≠ .zero then do
    let (toBalance, f) := f.readBalance recipient tx.sequenceNumber
    let newToBalance ← addU256T toBalance tx.value
    return f.writeBalance recipient tx.sequenceNumber newToBalance
  else return f

/-- A call, with its arithmetic recorded.
Source: `evm/vm.rs`, `RytherVm::execute_call`
Kind: D -/
def executeCallT (vm : RytherVm) (tx : DecryptedTransaction) (recipient : Address) (f : Frame) :
    Traced ArithOp (Except VmError CallOutcome × Frame) := do
  let f ← transferT tx recipient f
  match vm.codeStorage.lookup recipient with
  | some code =>
      if code ≠ [] then do
        let dataGas ← mulT (UInt64.ofNat tx.data.length) 16
        let gasUsed ← addT 21000 dataGas
        return (.ok (true, min gasUsed tx.gasLimit, [], []), f)
      else return (.ok (true, 21000, [], []), f)
  | none => return (.ok (true, 21000, [], []), f)

/-- A creation, with its arithmetic recorded.
Source: `evm/vm.rs`, `RytherVm::execute_create`
Kind: D -/
def executeCreateT (tx : DecryptedTransaction) (f : Frame) :
    Traced ArithOp (Except VmError CallOutcome × Frame) := do
  let contractAddress := computeCreateAddress keccak256 tx.from tx.nonce
  let f :=
    if tx.value ≠ .zero then f.writeBalance contractAddress tx.sequenceNumber tx.value else f
  let codeHash := keccak256 tx.data
  let f := { f with state := f.state.write (codeHashKey contractAddress) tx.sequenceNumber
                      (some (.fromBeBytes codeHash)) }
  let dataGas ← mulT (UInt64.ofNat tx.data.length) 200
  let gasUsed ← addT 32000 dataGas
  return (.ok (true, min gasUsed tx.gasLimit, contractAddress.bytes.toList, []), f)

/-- The refund and the fee.
Source: `evm/vm.rs`, last part of `RytherVm::execute_inner`
Kind: D -/
def settleT (tx : DecryptedTransaction) (block : BlockContext) (newSenderBalance : U256)
    (gasUsed : UInt64) (f : Frame) : Traced ArithOp Frame := do
  let unused ← subT tx.gasLimit gasUsed
  let gasRefund ← mulT unused (u256ToU64 tx.gasPrice)
  let finalBalance ← addU256T newSenderBalance (.fromU64 gasRefund)
  let f := f.writeBalance tx.from tx.sequenceNumber finalBalance
  let (coinbaseBalance, f) := f.readBalance block.coinbase tx.sequenceNumber
  let coinbaseFee ← mulT gasUsed (u256ToU64 tx.gasPrice)
  let newCoinbaseBalance ← addU256T coinbaseBalance (.fromU64 coinbaseFee)
  return f.writeBalance block.coinbase tx.sequenceNumber newCoinbaseBalance

/-- A call or a creation, by whether there is a recipient.
Source: `evm/vm.rs`, call or creation in `RytherVm::execute_inner`
Kind: D -/
def dispatchT (vm : RytherVm) (tx : DecryptedTransaction) (f : Frame) :
    Traced ArithOp (Except VmError CallOutcome × Frame) :=
  match tx.to with
  | some recipient => vm.executeCallT tx recipient f
  | none => executeCreateT keccak256 tx f

/-- The part after the checks: the cost is taken, the nonce goes up, the call or creation runs, and
the gas is settled.
Source: `evm/vm.rs`, `RytherVm::execute_inner` after its checks
Kind: D -/
def executeCheckedT (vm : RytherVm) (tx : DecryptedTransaction) (block : BlockContext)
    (senderBalance totalCost : U256) (senderNonce : UInt64) (f : Frame) :
    Traced ArithOp (Except VmError VmResult × Frame) := do
  let newSenderBalance ← subU256T senderBalance totalCost
  let f := f.writeBalance tx.from tx.sequenceNumber newSenderBalance
  let newNonce ← addT senderNonce 1
  let f := f.writeNonce tx.from tx.sequenceNumber newNonce
  let (outcome, f) ← vm.dispatchT keccak256 tx f
  match outcome with
  | .error e => return (.error e, f)
  | .ok (success, gasUsed, output, logs) => do
      let f ← settleT tx block newSenderBalance gasUsed f
      return (.ok ⟨success, gasUsed, output, logs⟩, f)

/-- The whole execution of a transaction, with its arithmetic recorded.
Source: `evm/vm.rs`, `RytherVm::execute_inner`
Kind: D -/
def executeInnerT (vm : RytherVm) (tx : DecryptedTransaction) (block : BlockContext) (f : Frame) :
    Traced ArithOp (Except VmError VmResult × Frame) :=
  let (senderBalance, f) := f.readBalance tx.from tx.sequenceNumber
  let (senderNonce, f) := f.readNonce tx.from tx.sequenceNumber
  if senderNonce ≠ tx.nonce then return (.error (.invalidNonce senderNonce tx.nonce), f)
  else do
    let gasCost ← calculateGasCostT tx
    let totalCost ← addU256T tx.value gasCost
    if compareU256 senderBalance totalCost < 0 then return (.error .insufficientBalance, f)
    else vm.executeCheckedT keccak256 tx block senderBalance totalCost senderNonce f

end RytherVm

/-! ### The recorded execution is the execution -/

section

variable {keccak256 : List UInt8 → Bytes 32} {vm : RytherVm} {tx : DecryptedTransaction}
  {block : BlockContext}

/-- The recorded call computes what the call computes. Kind: L -/
theorem value_executeCallT (recipient : Address) (f : Frame) :
    (vm.executeCallT tx recipient f).value = vm.executeCall tx recipient f := by
  have htransfer : (RytherVm.transferT tx recipient f).value =
      if tx.value ≠ .zero then
        let (toBalance, f) := f.readBalance recipient tx.sequenceNumber
        f.writeBalance recipient tx.sequenceNumber (addU256 toBalance tx.value)
      else f := by
    unfold RytherVm.transferT
    rw [Traced.value_ite]
    rfl
  unfold RytherVm.executeCallT RytherVm.executeCall
  rw [Traced.value_bind, htransfer]
  cases vm.codeStorage.lookup recipient with
  | none => rfl
  | some code => by_cases hcode : code = [] <;> simp [hcode]

/-- The recorded dispatch computes the call or the creation. Kind: L -/
theorem value_dispatchT (f : Frame) :
    (vm.dispatchT keccak256 tx f).value =
      match tx.to with
      | some recipient => vm.executeCall tx recipient f
      | none => RytherVm.executeCreate keccak256 tx f := by
  unfold RytherVm.dispatchT
  cases tx.to with
  | some recipient => exact value_executeCallT recipient f
  | none => rfl

/-- **The recorded execution computes what `execute_inner` does.** Kind: P -/
theorem value_executeInnerT (f : Frame) :
    (vm.executeInnerT keccak256 tx block f).value = vm.executeInner keccak256 tx block f := by
  unfold RytherVm.executeInnerT RytherVm.executeInner
  dsimp only
  rw [Traced.value_ite]
  split_ifs with hnonce hbalance
  · rfl
  · rw [Traced.value_bind, Traced.value_bind, value_calculateGasCostT, value_addU256T,
      if_pos hbalance]
    rfl
  · rw [Traced.value_bind, Traced.value_bind, value_calculateGasCostT, value_addU256T,
      if_neg hbalance]
    unfold RytherVm.executeCheckedT
    simp only [Traced.value_bind, value_subU256T, value_addT, value_dispatchT]
    cases tx.to with
    | none => rfl
    | some recipient =>
        simp only
        generalize vm.executeCall tx recipient _ = dispatched
        rcases dispatched with ⟨_ | ⟨success, gasUsed, output, logs⟩, f'⟩ <;> rfl

/-! ### The operations of an accepted transaction -/

/-- Whether an account has code.
Source: `evm/vm.rs`, the condition in `RytherVm::execute_call`
Kind: D -/
def RytherVm.hasCode (vm : RytherVm) (addr : Address) : Bool :=
  match vm.codeStorage.lookup addr with
  | some code => code ≠ []
  | none => false

/-- The addition of a transfer.
Kind: D -/
def transferOps (tx : DecryptedTransaction) (view : View) : List ArithOp :=
  match tx.to with
  | some recipient =>
      if tx.value ≠ .zero then [.addWide (balanceIn view recipient) tx.value] else []
  | none => []

/-- The operations on the size of the data, with its two rates.
Kind: D -/
def gasOps (vm : RytherVm) (tx : DecryptedTransaction) : List ArithOp :=
  let size := UInt64.ofNat tx.data.length
  match tx.to with
  | some recipient =>
      if vm.hasCode recipient then [.mul size 16, .add 21000 (size * 16)] else []
  | none => [.mul size 200, .add 32000 (size * 200)]

/-- The operations of the refund and the fee.
Kind: D -/
def settleOps (vm : RytherVm) (tx : DecryptedTransaction) (block : BlockContext) (view : View) :
    List ArithOp :=
  [.sub tx.gasLimit (gasUsedBy vm tx),
    .mul (tx.gasLimit - gasUsedBy vm tx) (u256ToU64 tx.gasPrice),
    .addWide (deducted tx (balanceIn view tx.from)) (.fromU64 (gasRefund vm tx)),
    .mul (gasUsedBy vm tx) (u256ToU64 tx.gasPrice),
    .addWide (balanceIn view block.coinbase) (.fromU64 (gasFee vm tx))]

/-- The operations of an accepted transaction, in order.
Kind: D -/
def arithOps (vm : RytherVm) (tx : DecryptedTransaction) (block : BlockContext) (view : View) :
    List ArithOp :=
  [.mul tx.gasLimit (u256ToU64 tx.gasPrice), .addWide tx.value (calculateGasCost tx),
    .subWide (balanceIn view tx.from) (totalCost tx), .add (nonceIn view tx.from) 1] ++
  transferOps tx view ++ gasOps vm tx ++ settleOps vm tx block view

/-- A transfer records the addition to the recipient, if there is a value. Kind: L -/
theorem trace_transferT (recipient : Address) (f : Frame) (hto : tx.to = some recipient) :
    (RytherVm.transferT tx recipient f).trace =
      transferOps tx (viewOf f.state tx.sequenceNumber) := by
  unfold RytherVm.transferT transferOps
  rw [Traced.trace_ite, hto]
  rfl

/-- A call or creation records its transfer and then its gas. Kind: L -/
theorem trace_dispatchT (f : Frame) :
    (vm.dispatchT keccak256 tx f).trace =
      transferOps tx (viewOf f.state tx.sequenceNumber) ++ gasOps vm tx := by
  unfold RytherVm.dispatchT
  cases hto : tx.to with
  | none =>
      unfold transferOps gasOps
      simp only [hto]
      rfl
  | some recipient =>
      simp only [RytherVm.executeCallT, Traced.trace_bind, trace_transferT recipient f hto]
      congr 1
      unfold gasOps RytherVm.hasCode
      simp only [hto]
      cases vm.codeStorage.lookup recipient with
      | none => rfl
      | some code =>
          by_cases hcode : code = []
          · simp [hcode]
          · simp [hcode]
            rfl

/-- A call or a creation succeeds with the gas used and keeps the view. Kind: L -/
theorem exists_dispatchT (f : Frame) :
    ∃ output f', (vm.dispatchT keccak256 tx f).value =
        (.ok (true, gasUsedBy vm tx, output, []), f') ∧
      viewOf f'.state tx.sequenceNumber = viewOf f.state tx.sequenceNumber := by
  rw [value_dispatchT]
  cases hto : tx.to with
  | none =>
      refine ⟨_, _, @executeCreate_eq keccak256 vm tx hto f, ?_⟩
      exact viewOf_after _ _ _ _
  | some recipient =>
      refine ⟨_, _, @executeCall_eq keccak256 vm tx recipient hto f, ?_⟩
      exact viewOf_after _ _ _ _

/-- Settling records the refund to the sender and the fee for the coinbase. Kind: L -/
theorem trace_settleT (balance : U256) (gasUsed : UInt64) (f : Frame) :
    (RytherVm.settleT tx block balance gasUsed f).trace =
      [.sub tx.gasLimit gasUsed, .mul (tx.gasLimit - gasUsed) (u256ToU64 tx.gasPrice),
        .addWide balance (.fromU64 ((tx.gasLimit - gasUsed) * u256ToU64 tx.gasPrice)),
        .mul gasUsed (u256ToU64 tx.gasPrice),
        .addWide (balanceIn (viewOf f.state tx.sequenceNumber) block.coinbase)
          (.fromU64 (gasUsed * u256ToU64 tx.gasPrice))] := by
  unfold RytherVm.settleT
  simp only [writeBalance_eq, readBalance_eq, viewOf_after]
  rfl

/-- What an accepted transaction records, in the order of the code. Kind: L -/
theorem trace_executeCheckedT (balance : U256) (nonce : UInt64) (f : Frame) :
    (vm.executeCheckedT keccak256 tx block balance (totalCost tx) nonce f).trace =
      [.subWide balance (totalCost tx), .add nonce 1] ++
        transferOps tx (viewOf f.state tx.sequenceNumber) ++ gasOps vm tx ++
        (RytherVm.settleT tx block (subU256 balance (totalCost tx)) (gasUsedBy vm tx) f).trace := by
  unfold RytherVm.executeCheckedT
  simp only [writeBalance_eq, writeNonce_eq, after_after, Traced.trace_bind, value_subU256T,
    value_addT, trace_dispatchT, viewOf_after]
  generalize hframe : f.after tx.sequenceNumber _ _ = f₁
  obtain ⟨output, f', hvalue, hview⟩ := @exists_dispatchT keccak256 vm tx f₁
  have hview' : viewOf f'.state tx.sequenceNumber = viewOf f.state tx.sequenceNumber := by
    rw [hview, ← hframe, viewOf_after]
  simp only [hvalue, Traced.trace_bind, trace_settleT, hview', Traced.trace_pure, List.append_nil]
  simp [subU256T, addT]

/-- **The operations of an accepted transaction.** Kind: P -/
theorem trace_executeInnerT {f : Frame}
    (hacc : Accepted tx (viewOf f.state tx.sequenceNumber)) :
    (vm.executeInnerT keccak256 tx block f).trace =
      arithOps vm tx block (viewOf f.state tx.sequenceNumber) := by
  obtain ⟨hnonce, hbalance⟩ := hacc
  unfold RytherVm.executeInnerT
  simp only [readBalance_eq, readNonce_eq, viewOf_after, after_after]
  rw [if_neg (not_not_intro hnonce), Traced.trace_bind, Traced.trace_bind, value_addU256T,
    value_calculateGasCostT]
  change _ ++ (_ ++ (if compareU256 _ (totalCost tx) < 0 then _ else
    vm.executeCheckedT keccak256 tx block _ (totalCost tx) _ _).trace) = _
  rw [if_neg hbalance, trace_executeCheckedT, trace_settleT, viewOf_after]
  simp [arithOps, settleOps, deducted, gasRefund, gasFee, calculateGasCostT, mulT, addU256T]

end

end Ryther
