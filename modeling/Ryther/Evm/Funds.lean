import Ryther.Evm.Accounts

/-!
# Funds of the sender

The balance check of `execute_inner` against the exact cost. The price is cut to its low limb, the
cost is a 64-bit product and the total a 256-bit sum, and all of them wrap.

* `exactCost`, `wrappedCost` — the cost in unbounded integers, and what is left of it.
* `accepted_iff` — the checks of the source in these terms.
* `success_only_with_funds_iff` — when a success means that the sender held the exact cost.
-/

namespace Ryther

open Lib

section

variable (tx : DecryptedTransaction)

/-- The exact cost: the value and the full price of the gas limit.
Kind: D -/
def exactCost : ℕ := tx.value.toNat + tx.gasLimit.toNat * tx.gasPrice.toNat

/-- Price, cost of the gas and total fit their types.
Kind: D -/
def CostFits : Prop :=
  tx.gasPrice.toNat < 2 ^ 64 ∧ tx.gasLimit.toNat * tx.gasPrice.toNat < 2 ^ 64 ∧
    exactCost tx < 2 ^ 256

/-- What is left of the cost once the price is cut to 64 bits, the product to 64 and the sum to
256.
Kind: D -/
def wrappedCost : ℕ :=
  (tx.value.toNat + tx.gasLimit.toNat * (tx.gasPrice.toNat % 2 ^ 64) % 2 ^ 64) % 2 ^ 256

variable {tx}

/-- The total the code compares with. Kind: L -/
theorem toNat_totalCost (tx : DecryptedTransaction) : (totalCost tx).toNat = wrappedCost tx := by
  rw [totalCost, toNat_addU256, calculateGasCost, U256.toNat_fromU64, UInt64.toNat_mul, u256ToU64,
    U256.toNat_limb0]
  rfl

/-- A cost that fits its types is computed exactly. Kind: L -/
theorem wrappedCost_of_fits (h : CostFits tx) : wrappedCost tx = exactCost tx := by
  obtain ⟨hprice, hcost, htotal⟩ := h
  unfold exactCost at htotal ⊢
  rw [wrappedCost, Nat.mod_eq_of_lt hprice, Nat.mod_eq_of_lt hcost, Nat.mod_eq_of_lt htotal]

/-- A transaction is accepted if its nonce is the sender's and the wrapped cost is within the
balance. Kind: L -/
theorem accepted_iff (tx : DecryptedTransaction) (view : View) :
    Accepted tx view ↔
      nonceIn view tx.from = tx.nonce ∧ wrappedCost tx ≤ (balanceIn view tx.from).toNat := by
  rw [Accepted, compareU256_lt_iff, toNat_totalCost, Nat.not_lt]

/-- **When a success means that the funds were there**: the cost fits its types, or the balance is
not between what is left of it and the exact cost. Kind: P -/
theorem success_only_with_funds_iff (keccak256 : List UInt8 → Bytes 32) (vm : RytherVm)
    (tx : DecryptedTransaction) (block : BlockContext) (state : MultiVersionState) :
    ((vm.execute keccak256 tx state block).1.status = .success →
        tx.value.toNat + tx.gasLimit.toNat * tx.gasPrice.toNat ≤
          (balanceIn (viewOf state tx.sequenceNumber) tx.from).toNat) ↔
      (¬ CostFits tx → nonceIn (viewOf state tx.sequenceNumber) tx.from = tx.nonce →
        wrappedCost tx ≤ (balanceIn (viewOf state tx.sequenceNumber) tx.from).toNat →
        exactCost tx ≤ (balanceIn (viewOf state tx.sequenceNumber) tx.from).toNat) := by
  rw [status_execute, accepted_iff]
  constructor
  · exact fun hfunds _ hnonce hcost => hfunds ⟨hnonce, hcost⟩
  · rintro hfunds ⟨hnonce, hcost⟩
    by_cases hfits : CostFits tx
    · rw [wrappedCost_of_fits hfits] at hcost
      exact hcost
    · exact hfunds hfits hnonce hcost

/-- A gas price of `2 ^ 64` is cut to zero: an empty account sends a transaction whose gas alone
costs `21000 * 2 ^ 64`. Kind: P -/
theorem success_without_funds :
    let tx := { makeTx 1 (some 2) 0 0 1 with gasLimit := 21000, gasPrice := ⟨0, 1, 0, 0⟩ }
    (RytherVm.execute (fun _ => .fill 32 0) ⟨∅⟩ tx .new ⟨.fill 9⟩).1.status = .success ∧
      (balanceIn (viewOf .new tx.sequenceNumber) tx.from).toNat = 0 ∧
      tx.value.toNat + tx.gasLimit.toNat * tx.gasPrice.toNat = 21000 * 2 ^ 64 := by
  intro tx
  refine ⟨?_, ?_, ?_⟩ <;> decide +kernel

end

end Ryther
