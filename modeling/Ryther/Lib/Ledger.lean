import Mathlib.Algebra.BigOperators.Group.Finset.Piecewise
import Mathlib.Algebra.Order.BigOperators.Group.Finset

/-!
# Ledgers

Accounts with balances and counters, in exact numbers, and payments between them.

* `Payment` — an amount for a payee and a fee for a collector; the sender has to hold the amount and
  a reserve for the fee.
* `Ledger.pay` — a payment is made if the sender can, and otherwise changes nothing.
* `Ledger.supply_pay` — payments move balances and neither make nor destroy them, also when sender,
  payee and collector coincide.
-/

namespace Ryther.Lib

/-- Balances and counters of accounts.
Kind: D -/
@[ext] structure Ledger (A : Type) where
  balance : A → ℕ
  nonce : A → ℕ

/-- A payment. The fee is within the reserve.
Kind: D -/
structure Payment (A : Type) where
  sender : A
  payee : A
  collector : A
  nonce : ℕ
  amount : ℕ
  fee : ℕ
  reserve : ℕ
  fee_le : fee ≤ reserve

namespace Ledger

variable {A : Type}

/-- The sum of all balances.
Kind: D -/
def supply [Fintype A] (ledger : Ledger A) : ℕ := ∑ a, ledger.balance a

/-- No account has more than there is. Kind: L -/
theorem balance_le_supply [Fintype A] (ledger : Ledger A) (a : A) :
    ledger.balance a ≤ ledger.supply :=
  Finset.single_le_sum (fun _ _ => Nat.zero_le _) (Finset.mem_univ a)

variable [DecidableEq A]

/-- The payment has the counter of its sender, who holds the amount and the reserve.
Kind: D -/
def Accepts (ledger : Ledger A) (p : Payment A) : Prop :=
  ledger.nonce p.sender = p.nonce ∧ p.amount + p.reserve ≤ ledger.balance p.sender

instance (ledger : Ledger A) (p : Payment A) : Decidable (ledger.Accepts p) :=
  inferInstanceAs (Decidable (_ ∧ _))

/-- What an account has after a payment.
Kind: D -/
def paid (ledger : Ledger A) (p : Payment A) (a : A) : ℕ :=
  ledger.balance a - (if a = p.sender then p.amount + p.fee else 0) +
    ((if a = p.payee then p.amount else 0) + if a = p.collector then p.fee else 0)

/-- An accepted payment moves its amount and fee and counts the sender's nonce up; a rejected one
changes nothing. Kind: D -/
def pay (ledger : Ledger A) (p : Payment A) : Ledger A :=
  if ledger.Accepts p then
    ⟨ledger.paid p, fun a => if a = p.sender then p.nonce + 1 else ledger.nonce a⟩
  else ledger

variable [Fintype A]

/-- **A payment keeps the supply.** Kind: P -/
theorem supply_pay (ledger : Ledger A) (p : Payment A) : (ledger.pay p).supply = ledger.supply := by
  unfold pay
  split_ifs with haccepts
  · have hfee := p.fee_le
    have hcovered : ∀ a, (if a = p.sender then p.amount + p.fee else 0) ≤ ledger.balance a := by
      intro a
      split_ifs with heq
      · rw [heq]
        exact (Nat.add_le_add_left hfee _).trans haccepts.2
      · exact Nat.zero_le _
    have hspent : p.amount + p.fee ≤ ledger.supply :=
      ((Nat.add_le_add_left hfee _).trans haccepts.2).trans (ledger.balance_le_supply _)
    calc ∑ a, ledger.paid p a
        = ∑ a, (ledger.balance a - if a = p.sender then p.amount + p.fee else 0) +
            (∑ a, (if a = p.payee then p.amount else 0) +
              ∑ a, if a = p.collector then p.fee else 0) := by
          simp only [paid, Finset.sum_add_distrib]
      _ = ledger.supply - (p.amount + p.fee) + (p.amount + p.fee) := by
          rw [Finset.sum_tsub_distrib _ fun a _ => hcovered a]
          simp [supply]
      _ = ledger.supply := Nat.sub_add_cancel hspent
  · rfl

/-- So do any payments. Kind: L -/
theorem supply_foldl_pay (payments : List (Payment A)) (ledger : Ledger A) :
    (payments.foldl pay ledger).supply = ledger.supply := by
  induction payments generalizing ledger with
  | nil => rfl
  | cons p payments ih => rw [List.foldl_cons, ih, supply_pay]

end Ledger

end Ryther.Lib
