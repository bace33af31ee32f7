import Ryther.Evm.Recorded

/-!
# Gas accounting

The amounts of an execution in exact integers, against the 64-bit and 256-bit arithmetic of
`src/evm/vm.rs`.

* `GasInRange` — the bounds on the amounts of a transaction.
* `arithOps_inRange_iff` — they say that no operation of an accepted transaction wraps.
* `gas_in_range_iff` — the gas used is at most the limit and no operation of a successful execution
  wraps exactly if an accepted transaction keeps the bounds.
-/

namespace Ryther

open Lib

/-! ### Bounds -/

section

variable (vm : RytherVm) (tx : DecryptedTransaction)

/-- The price that is charged: the low limb.
Kind: D -/
def lowPrice : ℕ := tx.gasPrice.limb0.toNat

/-- `tx.data.len() as u64`.
Kind: D -/
def dataSize : ℕ := (UInt64.ofNat tx.data.length).toNat

/-- The gas charged, in exact integers.
Kind: D -/
def exactGas : ℕ :=
  match tx.to with
  | some recipient =>
      if vm.hasCode recipient then min (21000 + 16 * dataSize tx) tx.gasLimit.toNat else 21000
  | none => min (32000 + 200 * dataSize tx) tx.gasLimit.toNat

/-- The gas for the data fits.
Kind: D -/
def DataFits : Prop :=
  match tx.to with
  | some recipient => vm.hasCode recipient = true → 21000 + 16 * dataSize tx < 2 ^ 64
  | none => 32000 + 200 * dataSize tx < 2 ^ 64

/-- A call to an account without code has the gas of a transfer.
Kind: D -/
def EnoughGas : Prop :=
  ∀ recipient, tx.to = some recipient → vm.hasCode recipient = false → 21000 ≤ tx.gasLimit.toNat

/-- The bounds on the amounts of a transaction.
Kind: D -/
structure GasInRange (block : BlockContext) (view : View) : Prop where
  cost : tx.gasLimit.toNat * lowPrice tx < 2 ^ 64
  total : tx.value.toNat + tx.gasLimit.toNat * lowPrice tx < 2 ^ 256
  /-- `sub_u256` finds a borrow for the low limb if it needs one. -/
  borrow : ¬ ((balanceIn view tx.from).toNat % 2 ^ 64 <
      (tx.value.toNat + tx.gasLimit.toNat * lowPrice tx) % 2 ^ 64 ∧
    (balanceIn view tx.from).limb1 = 0)
  nonce : tx.nonce ≠ u64Max
  enough : EnoughGas vm tx
  data : DataFits vm tx
  credit : ∀ recipient, tx.to = some recipient →
    (balanceIn view recipient).toNat + tx.value.toNat < 2 ^ 256
  refund : (balanceIn view tx.from).toNat -
      (tx.value.toNat + tx.gasLimit.toNat * lowPrice tx) % 2 ^ 64 +
    (tx.gasLimit.toNat - exactGas vm tx) * lowPrice tx < 2 ^ 256
  fee : (balanceIn view block.coinbase).toNat + exactGas vm tx * lowPrice tx < 2 ^ 256

variable {vm tx}

/-- Gas used in terms of the code of the recipient. Kind: L -/
theorem gasUsedBy_of_call {recipient : Address} (hto : tx.to = some recipient) :
    gasUsedBy vm tx =
      if vm.hasCode recipient then min (21000 + UInt64.ofNat tx.data.length * 16) tx.gasLimit
      else 21000 := by
  unfold gasUsedBy RytherVm.hasCode
  simp only [hto]
  cases vm.codeStorage.lookup recipient with
  | none => rfl
  | some code => by_cases hcode : code = [] <;> simp [hcode]

/-- A creation uses its base cost and 200 per byte of code, up to the limit. Kind: L -/
theorem gasUsedBy_of_create (hto : tx.to = none) :
    gasUsedBy vm tx = min (32000 + UInt64.ofNat tx.data.length * 200) tx.gasLimit := by
  simp [gasUsedBy, hto]

/-- The gas used is within the limit unless a plain call has too little. Kind: L -/
theorem gasUsedBy_le_iff : gasUsedBy vm tx ≤ tx.gasLimit ↔ EnoughGas vm tx := by
  unfold EnoughGas
  rw [UInt64.le_iff_toNat_le]
  cases hto : tx.to with
  | none =>
      rw [gasUsedBy_of_create hto, toNat_min]
      simp
  | some recipient =>
      rw [gasUsedBy_of_call hto]
      cases hcode : vm.hasCode recipient with
      | true =>
          rw [if_pos rfl, toNat_min]
          simp [hcode]
      | false => simp [hcode]

/-- A base fee and a fee per byte, in exact integers and in `u64`. Kind: L -/
theorem dataGas_inRange_iff {base rate : UInt64} (size : UInt64) :
    (∀ op ∈ [ArithOp.mul size rate, .add base (size * rate)], op.InRange) ↔
      size.toNat * rate.toNat < 2 ^ 64 ∧ base.toNat + size.toNat * rate.toNat < 2 ^ 64 := by
  simp only [List.forall_mem_cons, ArithOp.InRange, UInt64.toNat_mul]
  constructor
  · rintro ⟨hmul, hadd, -⟩
    rw [Nat.mod_eq_of_lt hmul] at hadd
    exact ⟨hmul, hadd⟩
  · rintro ⟨hmul, hadd⟩
    rw [Nat.mod_eq_of_lt hmul]
    exact ⟨hmul, hadd, fun _ h => absurd h List.not_mem_nil⟩

/-- The operations on the size of the data are in range exactly if the data fit. Kind: L -/
theorem gasOps_inRange_iff : (∀ op ∈ gasOps vm tx, op.InRange) ↔ DataFits vm tx := by
  unfold gasOps DataFits
  cases tx.to with
  | none =>
      refine (dataGas_inRange_iff (UInt64.ofNat tx.data.length)).trans ?_
      show dataSize tx * 200 < 2 ^ 64 ∧ 32000 + dataSize tx * 200 < 2 ^ 64 ↔ _
      omega
  | some recipient =>
      cases hcode : vm.hasCode recipient with
      | false => simp [hcode]
      | true =>
          simp only [hcode, if_true, true_imp_iff]
          refine (dataGas_inRange_iff (UInt64.ofNat tx.data.length)).trans ?_
          show dataSize tx * 16 < 2 ^ 64 ∧ 21000 + dataSize tx * 16 < 2 ^ 64 ↔ _
          omega

/-- The sum of a transfer is in range exactly if the recipient's balance has room for the value.
Kind: L -/
theorem transferOps_inRange_iff (view : View) :
    (∀ op ∈ transferOps tx view, op.InRange) ↔
      ∀ recipient, tx.to = some recipient →
        (balanceIn view recipient).toNat + tx.value.toNat < 2 ^ 256 := by
  unfold transferOps
  cases tx.to with
  | none => simp
  | some recipient =>
      by_cases hvalue : tx.value = .zero
      · have hlt := (balanceIn view recipient).toNat_lt
        simpa [hvalue] using hlt
      · simp [hvalue, ArithOp.InRange]

/-- With data that fit the gas used is the exact one. Kind: L -/
theorem toNat_gasUsedBy (h : DataFits vm tx) : (gasUsedBy vm tx).toNat = exactGas vm tx := by
  unfold DataFits dataSize at h
  unfold exactGas dataSize
  cases hto : tx.to with
  | none =>
      simp only [hto] at h
      rw [gasUsedBy_of_create hto, toNat_min, UInt64.toNat_add, UInt64.toNat_mul]
      show min ((32000 + (UInt64.ofNat tx.data.length).toNat * 200 % 2 ^ 64) % 2 ^ 64) _ = min _ _
      congr 1
      omega
  | some recipient =>
      rw [gasUsedBy_of_call hto]
      cases hcode : vm.hasCode recipient with
      | false => simp [hcode]
      | true =>
          simp only [hto, hcode, true_imp_iff] at h
          simp only [hcode, if_true]
          rw [toNat_min, UInt64.toNat_add, UInt64.toNat_mul]
          show min ((21000 + (UInt64.ofNat tx.data.length).toNat * 16 % 2 ^ 64) % 2 ^ 64) _ =
            min _ _
          congr 1
          omega

/-! ### The operations in exact integers -/

/-- A price of the limit below `2 ^ 64` is computed exactly. Kind: L -/
theorem toNat_calculateGasCost (h : tx.gasLimit.toNat * lowPrice tx < 2 ^ 64) :
    (calculateGasCost tx).toNat = tx.gasLimit.toNat * lowPrice tx := by
  rw [calculateGasCost, U256.toNat_fromU64, UInt64.toNat_mul]
  exact Nat.mod_eq_of_lt h

/-- A balance that is checked and in range loses the low limb of the total. Kind: L -/
theorem toNat_deducted {balance : U256} (h : ¬ LostBorrow balance (totalCost tx)) :
    (deducted tx balance).toNat = balance.toNat - (totalCost tx).toNat % 2 ^ 64 := by
  have hsub := toNat_subU256 balance (totalCost tx)
  rw [if_neg h, U256.toNat_limb0] at hsub
  unfold deducted
  omega

/-- With the gas within the limit, unused and used gas cost no more than the limit. Kind: L -/
theorem toNat_gasRefund (hcost : tx.gasLimit.toNat * lowPrice tx < 2 ^ 64)
    (hle : gasUsedBy vm tx ≤ tx.gasLimit) :
    (gasRefund vm tx).toNat =
        (tx.gasLimit.toNat - (gasUsedBy vm tx).toNat) * lowPrice tx ∧
      (tx.gasLimit - gasUsedBy vm tx).toNat * lowPrice tx < 2 ^ 64 := by
  have hsub : (tx.gasLimit - gasUsedBy vm tx).toNat =
      tx.gasLimit.toNat - (gasUsedBy vm tx).toNat := UInt64.toNat_sub_of_le _ _ hle
  have hlt : (tx.gasLimit.toNat - (gasUsedBy vm tx).toNat) * lowPrice tx < 2 ^ 64 :=
    lt_of_le_of_lt (Nat.mul_le_mul_right _ (Nat.sub_le _ _)) hcost
  rw [hsub]
  refine ⟨?_, hlt⟩
  rw [gasRefund, UInt64.toNat_mul, hsub]
  exact Nat.mod_eq_of_lt hlt

/-- The fee is exact and a `u64` where the price of the whole limit is. Kind: L -/
theorem toNat_gasFee (hcost : tx.gasLimit.toNat * lowPrice tx < 2 ^ 64)
    (hle : gasUsedBy vm tx ≤ tx.gasLimit) :
    (gasFee vm tx).toNat = (gasUsedBy vm tx).toNat * lowPrice tx ∧
      (gasUsedBy vm tx).toNat * lowPrice tx < 2 ^ 64 := by
  have hlt : (gasUsedBy vm tx).toNat * lowPrice tx < 2 ^ 64 :=
    lt_of_le_of_lt (Nat.mul_le_mul_right _ (UInt64.le_iff_toNat_le.mp hle)) hcost
  refine ⟨?_, hlt⟩
  rw [gasFee, UInt64.toNat_mul]
  exact Nat.mod_eq_of_lt hlt

/-- Value and gas are added exactly where the product and the sum fit. Kind: L -/
theorem toNat_totalCost_of_fits (hcost : tx.gasLimit.toNat * lowPrice tx < 2 ^ 64)
    (htotal : tx.value.toNat + tx.gasLimit.toNat * lowPrice tx < 2 ^ 256) :
    (totalCost tx).toNat = tx.value.toNat + tx.gasLimit.toNat * lowPrice tx := by
  rw [totalCost, toNat_addU256, toNat_calculateGasCost hcost, Nat.mod_eq_of_lt htotal]

/-- A borrow is lost where the lowest limb needs one and the limb above it is 0. Kind: L -/
theorem lostBorrow_iff (a b : U256) :
    LostBorrow a b ↔ a.toNat % 2 ^ 64 < b.toNat % 2 ^ 64 ∧ a.limb1 = 0 := by
  rw [LostBorrow, UInt64.lt_iff_toNat_lt, U256.toNat_limb0, U256.toNat_limb0]

/-- The next nonce overflows after `u64::MAX` only. Kind: L -/
theorem add_one_inRange_iff (nonce : UInt64) :
    (ArithOp.add nonce 1).InRange ↔ nonce ≠ u64Max := by
  have hlt := nonce.toNat_lt
  have hinj : nonce = u64Max ↔ nonce.toNat = 2 ^ 64 - 1 := UInt64.toNat_inj.symm
  rw [ne_eq, hinj]
  show nonce.toNat + 1 < 2 ^ 64 ↔ _
  omega

/-- **No operation of an accepted transaction wraps exactly if the amounts are in range.**
Kind: P -/
theorem arithOps_inRange_iff {block : BlockContext} {view : View} (hacc : Accepted tx view) :
    (gasUsedBy vm tx ≤ tx.gasLimit ∧ ∀ op ∈ arithOps vm tx block view, op.InRange) ↔
      GasInRange vm tx block view := by
  obtain ⟨hnonce, hbalance⟩ := hacc
  rw [compareU256_lt_iff, Nat.not_lt] at hbalance
  simp only [arithOps, settleOps, List.forall_mem_append, List.forall_mem_cons, gasOps_inRange_iff,
    transferOps_inRange_iff, hnonce, add_one_inRange_iff]
  simp only [ArithOp.InRange, lostBorrow_iff, hbalance, true_and]
  constructor
  · rintro ⟨hle, ⟨⟨⟨hcost, htotal, hborrow, hmax, -⟩, hcredit⟩, hdata⟩, -, -, hrefund, -, hfee, -⟩
    have hcost : tx.gasLimit.toNat * lowPrice tx < 2 ^ 64 := hcost
    rw [toNat_calculateGasCost hcost] at htotal
    have hgas := toNat_gasUsedBy hdata
    have hlost := fun h => hborrow ((lostBorrow_iff _ _).mp h)
    rw [toNat_deducted hlost, toNat_totalCost_of_fits hcost htotal, U256.toNat_fromU64,
      (toNat_gasRefund hcost hle).1, hgas] at hrefund
    rw [U256.toNat_fromU64, (toNat_gasFee hcost hle).1, hgas] at hfee
    rw [toNat_totalCost_of_fits hcost htotal] at hborrow
    exact ⟨hcost, htotal, hborrow, hmax, gasUsedBy_le_iff.mp hle, hdata, hcredit, hrefund, hfee⟩
  · rintro ⟨hcost, htotal, hborrow, hmax, henough, hdata, hcredit, hrefund, hfee⟩
    have hle := gasUsedBy_le_iff.mpr henough
    have hgas := toNat_gasUsedBy hdata
    rw [← toNat_totalCost_of_fits hcost htotal] at hborrow hrefund
    have hlost := fun h => hborrow ((lostBorrow_iff _ _).mp h)
    obtain ⟨hrefundEq, hrefundLt⟩ := toNat_gasRefund hcost hle
    obtain ⟨hfeeEq, hfeeLt⟩ := toNat_gasFee hcost hle
    rw [← hgas] at hrefund hfee
    refine ⟨hle, ⟨⟨⟨hcost, ?_, hborrow, hmax, ?_⟩, hcredit⟩, hdata⟩, ?_, hrefundLt, ?_, hfeeLt,
      ?_, ?_⟩
    · rw [toNat_calculateGasCost hcost]
      exact htotal
    · simp
    · exact UInt64.le_iff_toNat_le.mp hle
    · rw [toNat_deducted hlost, U256.toNat_fromU64, hrefundEq]
      exact hrefund
    · rw [U256.toNat_fromU64, hfeeEq]
      exact hfee
    · simp

/-- **When gas accounting stays in range.** The gas used is at most the limit, and no addition,
subtraction or multiplication of a successful execution wraps, exactly if an accepted transaction
keeps the bounds of `GasInRange`.
Source: `evm/vm.rs`, `RytherVm::execute_inner`, `calculate_gas_cost`, `execute_call`,
`execute_create`
Kind: P -/
theorem gas_in_range_iff (keccak256 : List UInt8 → Bytes 32) (vm : RytherVm)
    (tx : DecryptedTransaction) (block : BlockContext) (state : MultiVersionState) :
    ((vm.execute keccak256 tx state block).1.gasUsed ≤ tx.gasLimit ∧
        ((vm.execute keccak256 tx state block).1.status = .success →
          ∀ op ∈ (vm.executeInnerT keccak256 tx block ⟨state, .new, .new⟩).trace, op.InRange)) ↔
      (Accepted tx (viewOf state tx.sequenceNumber) →
        GasInRange vm tx block (viewOf state tx.sequenceNumber)) := by
  have hgas : (vm.execute keccak256 tx state block).1.gasUsed =
      if Accepted tx (viewOf state tx.sequenceNumber) then gasUsedBy vm tx else tx.gasLimit := by
    rw [execute_eq]
    show (txOutcome keccak256 vm tx (viewOf state tx.sequenceNumber)).gasUsed = _
    unfold txOutcome
    split_ifs <;> rfl
  by_cases hacc : Accepted tx (viewOf state tx.sequenceNumber)
  · have htrace := @trace_executeInnerT keccak256 vm tx block ⟨state, .new, .new⟩ hacc
    rw [hgas, if_pos hacc, status_execute, htrace]
    simp only [hacc, true_imp_iff]
    exact arithOps_inRange_iff hacc
  · rw [hgas, if_neg hacc, status_execute]
    simp only [hacc, false_imp_iff, and_true, iff_true]
    exact UInt64.le_refl _

end

/-- A transfer with one unit of gas less than it takes: the code-less call charges 21000 anyway, so
more gas is used than the limit and the subtraction of the refund wraps. Kind: P -/
theorem plain_call_exceeds_gas_limit :
    let tx := { makeTx 1 (some 2) 100 0 1 with gasLimit := 20999, gasPrice := .fromU64 1 }
    let state := fundedState [1]
    let result := (RytherVm.execute (fun _ => .fill 32 0) ⟨∅⟩ tx state ⟨.fill 9⟩).1
    result.status = .success ∧ result.gasUsed = 21000 ∧ tx.gasLimit = 20999 ∧
      ArithOp.sub 20999 21000 ∈
        (RytherVm.executeInnerT (fun _ => .fill 32 0) ⟨∅⟩ tx ⟨.fill 9⟩ ⟨state, .new, .new⟩).trace ∧
      ¬ (ArithOp.sub 20999 21000).InRange := by
  intro tx state result
  refine ⟨?_, ?_, rfl, ?_, ?_⟩
  · decide +kernel
  · decide +kernel
  · decide +kernel
  · show ¬ (21000 ≤ 20999)
    decide

end Ryther
