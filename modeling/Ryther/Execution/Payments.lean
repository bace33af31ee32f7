import Ryther.Evm.Funds
import Ryther.Evm.Gas
import Ryther.Execution.Replay
import Ryther.Lib.Ledger

/-!
# Chains as ledgers

What blocks of transactions do to the accounts, against a ledger in exact numbers: the machine
words, the versions and the two values that one balance may get in one transaction are gone there.

* `ledgerOf`, `paymentOf` — the accounts of a state, and a transaction as a payment.
* `Ordinary` — transactions on which the code keeps to the ledger: amounts that fit their types, gas
  for what is charged, a nonce below `u64::MAX`, whose successor the code would wrap to 0, creations
  without value, accounts that do not coincide.
* `Ordinary.ledgerOf_step` — such a transaction does what its payment does, as long as balances
  have one limb.
* `chain_refines_ledger` — over any blocks of such transactions, executed in parallel and validated,
  the accounts are those of the ledger, and the supply never changes.
-/

namespace Ryther

open Lib

/-! ### Accounts and payments -/

/-- The accounts that a view shows.
Kind: D -/
def ledgerOf (view : View) : Ledger Address :=
  ⟨fun a => (balanceIn view a).toNat, fun a => (nonceIn view a).toNat⟩

/-- A transaction as a payment; the fee is the price of the gas used, and at most the reserve.
Kind: D -/
def paymentOf (keccak256 : List UInt8 → Bytes 32) (vm : RytherVm) (block : BlockContext)
    (tx : DecryptedTransaction) : Payment Address where
  sender := tx.from
  payee := payee keccak256 tx
  collector := block.coinbase
  nonce := tx.nonce.toNat
  amount := tx.value.toNat
  fee := min ((gasUsedBy vm tx).toNat * tx.gasPrice.toNat) (tx.gasLimit.toNat * tx.gasPrice.toNat)
  reserve := tx.gasLimit.toNat * tx.gasPrice.toNat
  fee_le := min_le_right _ _

/-- The transactions on which the code keeps to the ledger.
Kind: D -/
structure Ordinary (keccak256 : List UInt8 → Bytes 32) (vm : RytherVm) (block : BlockContext)
    (tx : DecryptedTransaction) : Prop where
  cost : CostFits tx
  enough : EnoughGas vm tx
  /-- The nonce after `u64::MAX` would be 0. -/
  nonce : tx.nonce ≠ u64Max
  /-- A creation overwrites the balance of the new account. -/
  creation : tx.to = none → tx.value = .zero
  sender_ne_collector : tx.from ≠ block.coinbase
  sender_ne_payee : tx.value ≠ .zero → tx.from ≠ payee keccak256 tx
  payee_ne_collector : tx.value ≠ .zero → payee keccak256 tx ≠ block.coinbase

section Step

variable {keccak256 : List UInt8 → Bytes 32} {vm : RytherVm} {block : BlockContext}
  {tx : DecryptedTransaction} {view : View}

/-- The price of an ordinary transaction has only its lowest limb. Kind: L -/
theorem Ordinary.lowPrice_eq (h : Ordinary keccak256 vm block tx) :
    lowPrice tx = tx.gasPrice.toNat := by
  rw [lowPrice, U256.toNat_limb0, Nat.mod_eq_of_lt h.cost.1]

/-- The fee is the price of the gas used. Kind: L -/
theorem Ordinary.fee_eq (h : Ordinary keccak256 vm block tx) :
    (paymentOf keccak256 vm block tx).fee = (gasUsedBy vm tx).toNat * tx.gasPrice.toNat := by
  have hle := UInt64.le_iff_toNat_le.mp (gasUsedBy_le_iff.mpr h.enough)
  exact min_eq_left (Nat.mul_le_mul_right _ hle)

/-- The checks of the code are those of the ledger. Kind: L -/
theorem Ordinary.accepted_iff_accepts (h : Ordinary keccak256 vm block tx) :
    Accepted tx view ↔ (ledgerOf view).Accepts (paymentOf keccak256 vm block tx) := by
  rw [accepted_iff, wrappedCost_of_fits h.cost, ← UInt64.toNat_inj]
  rfl

/-- **What a transaction leaves as the balance of an account.** Kind: L -/
theorem balanceIn_step (tx : DecryptedTransaction) (view : View) (a : Address) :
    balanceIn (Memory.overlay view (rowOf (txWrites keccak256 vm tx block view))) a =
      if Accepted tx view then
        (visible (balanceWrites keccak256 vm tx block view a)).getD (balanceIn view a)
      else balanceIn view a := by
  unfold balanceIn Memory.overlay
  rw [rowOf, valuesAt_balanceKey]
  split_ifs
  · rcases visible (balanceWrites keccak256 vm tx block view a) with _ | v <;> rfl
  · rfl

/-- The balance of the sender in exact numbers. Kind: L -/
theorem Ordinary.toNat_refunded (h : Ordinary keccak256 vm block tx)
    (hsmall : (balanceIn view tx.from).toNat < 2 ^ 64) (hacc : Accepted tx view) :
    (refunded vm tx (balanceIn view tx.from)).toNat =
      (balanceIn view tx.from).toNat -
        (tx.value.toNat + (gasUsedBy vm tx).toNat * tx.gasPrice.toNat) := by
  obtain ⟨hprice, hcost, htotal⟩ := h.cost
  have hle := gasUsedBy_le_iff.mpr h.enough
  have hused := UInt64.le_iff_toNat_le.mp hle
  have hfunds : (totalCost tx).toNat ≤ (balanceIn view tx.from).toNat := by
    rw [toNat_totalCost]
    exact ((accepted_iff tx view).mp hacc).2
  have hexact : (totalCost tx).toNat = tx.value.toNat + tx.gasLimit.toNat * tx.gasPrice.toNat := by
    rw [toNat_totalCost, wrappedCost_of_fits h.cost]
    rfl
  have hborrow : ¬ LostBorrow (balanceIn view tx.from) (totalCost tx) := by
    rw [lostBorrow_iff, Nat.mod_eq_of_lt hsmall, Nat.mod_eq_of_lt (hfunds.trans_lt hsmall)]
    exact fun hlost => Nat.not_lt.mpr hfunds hlost.1
  have hrefund := (@toNat_gasRefund vm tx (h.lowPrice_eq ▸ hcost) hle).1
  rw [h.lowPrice_eq, Nat.sub_mul] at hrefund
  have hmul := Nat.mul_le_mul_right tx.gasPrice.toNat hused
  show (addU256 (deducted tx (balanceIn view tx.from)) (.fromU64 (gasRefund vm tx))).toNat = _
  rw [toNat_addU256, U256.toNat_fromU64, toNat_deducted hborrow, hrefund,
    Nat.mod_eq_of_lt (hfunds.trans_lt hsmall), hexact, Nat.mod_eq_of_lt (by omega)]
  omega

/-- The balance of the collector in exact numbers. Kind: L -/
theorem Ordinary.toNat_withFee (h : Ordinary keccak256 vm block tx) {balance : U256}
    (hsmall : balance.toNat < 2 ^ 64) :
    (withFee vm tx balance).toNat =
      balance.toNat + (gasUsedBy vm tx).toNat * tx.gasPrice.toNat := by
  obtain ⟨hfee, hlt⟩ := @toNat_gasFee vm tx (h.lowPrice_eq ▸ h.cost.2.1)
    (gasUsedBy_le_iff.mpr h.enough)
  rw [h.lowPrice_eq] at hfee hlt
  show (addU256 balance (.fromU64 (gasFee vm tx))).toNat = _
  rw [toNat_addU256, U256.toNat_fromU64, hfee, Nat.mod_eq_of_lt (by omega)]

/-- The balance of the payee in exact numbers. Kind: L -/
theorem Ordinary.toNat_credited (h : Ordinary keccak256 vm block tx) {balance : U256}
    (hsmall : balance.toNat < 2 ^ 64) (hvalue : tx.value ≠ .zero)
    (hamount : tx.value.toNat < 2 ^ 64) :
    (credited tx balance).toNat = balance.toNat + tx.value.toNat := by
  unfold credited
  rcases hto : tx.to with _ | recipient
  · exact absurd (h.creation hto) hvalue
  · rw [toNat_addU256, Nat.mod_eq_of_lt (by omega)]

/-- With accounts that do not coincide one value counts for each of them. Kind: L -/
theorem Ordinary.visible_balanceWrites (h : Ordinary keccak256 vm block tx) (a : Address) :
    (visible (balanceWrites keccak256 vm tx block view a)).getD (balanceIn view a) =
      if a = tx.from then refunded vm tx (balanceIn view a)
      else if tx.value ≠ .zero ∧ a = payee keccak256 tx then credited tx (balanceIn view a)
      else if a = block.coinbase then withFee vm tx (balanceIn view a)
      else balanceIn view a := by
  have hcollector := h.sender_ne_collector
  unfold balanceWrites
  by_cases hsender : a = tx.from
  · subst hsender
    have hpayee : ¬ (tx.value ≠ .zero ∧ payee keccak256 tx = tx.from) :=
      fun hpay => h.sender_ne_payee hpay.1 hpay.2.symm
    simp only [if_true, if_neg hpayee, if_neg hcollector.symm]
    rfl
  · rw [if_neg hsender]
    by_cases hpay : tx.value ≠ .zero ∧ a = payee keccak256 tx
    · obtain ⟨hvalue, rfl⟩ := hpay
      have hne := h.payee_ne_collector hvalue
      simp only [if_neg (Ne.symm hsender), if_neg hne.symm, hvalue, ne_eq, not_false_eq_true,
        and_self, if_true]
      rfl
    · have hpay' : ¬ (tx.value ≠ .zero ∧ payee keccak256 tx = a) :=
        fun hboth => hpay ⟨hboth.1, hboth.2.symm⟩
      rw [if_neg hpay]
      simp only [if_neg (Ne.symm hsender), if_neg hpay']
      by_cases hcoinbase : a = block.coinbase
      · subst hcoinbase
        simp only [if_true]
        rfl
      · simp only [if_neg hcoinbase, if_neg (Ne.symm hcoinbase)]
        rfl

/-- The one 256-bit number with the value 0 is zero. Kind: L -/
theorem toNat_eq_zero_iff (a : U256) : a.toNat = 0 ↔ a = .zero := by
  constructor
  · intro h
    apply U256.toNat_injective
    rw [h]
    rfl
  · rintro rfl
    rfl

/-- The balances after a payment that is made. Kind: L -/
theorem Ordinary.balance_step (h : Ordinary keccak256 vm block tx)
    (hsmall : ∀ a, (balanceIn view a).toNat < 2 ^ 64) (hacc : Accepted tx view) (a : Address) :
    (balanceIn (Memory.overlay view (rowOf (txWrites keccak256 vm tx block view))) a).toNat =
      (ledgerOf view).paid (paymentOf keccak256 vm block tx) a := by
  have hamount : tx.value.toNat < 2 ^ 64 := by
    have hfunds := (h.accepted_iff_accepts.mp hacc).2
    have hsender := hsmall tx.from
    exact (Nat.le_add_right _ _).trans_lt (hfunds.trans_lt hsender)
  rw [balanceIn_step, if_pos hacc, h.visible_balanceWrites]
  unfold Ledger.paid
  rw [h.fee_eq]
  show _ = (balanceIn view a).toNat - (if a = tx.from then
      tx.value.toNat + (gasUsedBy vm tx).toNat * tx.gasPrice.toNat else 0) +
    ((if a = payee keccak256 tx then tx.value.toNat else 0) +
      if a = block.coinbase then (gasUsedBy vm tx).toNat * tx.gasPrice.toNat else 0)
  -- the payee gets nothing if the value is zero
  have hpayee : ¬ (tx.value ≠ .zero ∧ a = payee keccak256 tx) →
      (if a = payee keccak256 tx then tx.value.toNat else 0) = 0 := by
    intro hpay
    split_ifs with heq
    · rw [toNat_eq_zero_iff]
      by_contra hvalue
      exact hpay ⟨hvalue, heq⟩
    · rfl
  by_cases hsender : a = tx.from
  · subst hsender
    rw [if_pos rfl, if_pos rfl, if_neg h.sender_ne_collector, hpayee fun hpay =>
      h.sender_ne_payee hpay.1 hpay.2, h.toNat_refunded (hsmall _) hacc]
    rfl
  · rw [if_neg hsender, if_neg hsender]
    by_cases hpay : tx.value ≠ .zero ∧ a = payee keccak256 tx
    · obtain ⟨hvalue, rfl⟩ := hpay
      rw [if_pos ⟨hvalue, rfl⟩, if_pos rfl, if_neg (h.payee_ne_collector hvalue),
        h.toNat_credited (hsmall _) hvalue hamount]
      omega
    · rw [if_neg hpay, hpayee hpay]
      split_ifs
      · rw [h.toNat_withFee (hsmall _)]
        omega
      · omega

/-- **A transaction does what its payment does.** Kind: P -/
theorem Ordinary.ledgerOf_step (h : Ordinary keccak256 vm block tx)
    (hsmall : ∀ a, (balanceIn view a).toNat < 2 ^ 64) :
    ledgerOf (Memory.overlay view (rowOf (txWrites keccak256 vm tx block view))) =
      (ledgerOf view).pay (paymentOf keccak256 vm block tx) := by
  unfold Ledger.pay
  by_cases hacc : Accepted tx view
  · rw [if_pos (h.accepted_iff_accepts.mp hacc)]
    apply Ledger.ext
    · funext a
      exact h.balance_step hsmall hacc a
    · funext a
      show (nonceIn _ a).toNat = if a = tx.from then tx.nonce.toNat + 1 else (nonceIn view a).toNat
      rw [nonceIn_step]
      by_cases hsender : a = tx.from
      · rw [if_pos ⟨hacc, hsender⟩, if_pos hsender, hacc.1]
        exact toNat_succ h.nonce
      · rw [if_neg fun hboth => hsender hboth.2, if_neg hsender]
  · have hnil : txWrites keccak256 vm tx block view = [] := if_neg hacc
    rw [if_neg fun haccepts => hacc (h.accepted_iff_accepts.mpr haccepts), hnil]
    rfl

/-! ### Blocks and chains -/

/-- Balances have one limb if their sum has. Kind: L -/
theorem balanceIn_lt_of_supply (h : (ledgerOf view).supply < 2 ^ 64) (a : Address) :
    (balanceIn view a).toNat < 2 ^ 64 :=
  ((ledgerOf view).balance_le_supply a).trans_lt h

/-- A pass over transactions. By induction on them: the supply stays, so the balances keep to one
limb. Kind: L -/
theorem ledgerOf_runFlat (txs : List DecryptedTransaction) :
    ∀ view : View, (ledgerOf view).supply < 2 ^ 64 →
      (∀ tx ∈ txs, tx.sequenceNumber < u64Max ∧ Ordinary keccak256 vm block tx) →
      ledgerOf (Memory.runFlat u64Max.toNat view (txs.map (txStep keccak256 vm block))).2 =
        (txs.map (paymentOf keccak256 vm block)).foldl Ledger.pay (ledgerOf view) := by
  induction txs with
  | nil => exact fun _ _ _ => rfl
  | cons tx txs ih =>
      intro view hsupply htxs
      obtain ⟨hseq, htx⟩ := htxs tx List.mem_cons_self
      have hlt : (txStep keccak256 vm block tx).seq < u64Max.toNat :=
        UInt64.lt_iff_toNat_lt.mp hseq
      have hstep := htx.ledgerOf_step (balanceIn_lt_of_supply hsupply)
      simp only [List.map_cons, Memory.runFlat, if_pos hlt, List.foldl_cons]
      rw [← hstep]
      apply ih
      · have hnext := (ledgerOf view).supply_pay (paymentOf keccak256 vm block tx)
        rw [← hstep] at hnext
        exact hnext.trans_lt hsupply
      · exact fun u hu => htxs u (List.mem_cons_of_mem _ hu)

end Step

/-- A block makes its payments in the order of their numbers. Kind: L -/
theorem ledgerOf_runBlock {keccak256 sha256 : List UInt8 → Bytes 32} {ex : ParallelExecutor}
    {block : BlockContext} {txs : List DecryptedTransaction} {state : MultiVersionState}
    (hdata : state.data = ∅) (hnodup : (txs.map DecryptedTransaction.sequenceNumber).Nodup)
    (htxs : ∀ tx ∈ txs, tx.sequenceNumber < u64Max ∧ Ordinary keccak256 ex.vm block tx)
    (hsupply : (ledgerOf state.getBase).supply < 2 ^ 64) :
    ledgerOf (runBlock keccak256 sha256 ex block txs state).2.getBase =
      ((sortTxs txs).map (paymentOf keccak256 ex.vm block)).foldl Ledger.pay
        (ledgerOf state.getBase) := by
  have hflat := @runBlock_eq_runFlat keccak256 sha256 ex block txs hnodup state hdata
  have hbase := (Prod.mk.inj (hflat.trans (Prod.mk.eta).symm)).2
  rw [hbase]
  exact ledgerOf_runFlat (sortTxs txs) state.getBase hsupply fun tx htx =>
    htxs tx ((sortTxs_perm txs).mem_iff.mp htx)

/-- The payments of some blocks, in the order of execution.
Kind: D -/
def paymentsOf (keccak256 : List UInt8 → Bytes 32) (vm : RytherVm)
    (blocks : List (List DecryptedTransaction × BlockContext)) : List (Payment Address) :=
  blocks.flatMap fun b => (sortTxs b.1).map (paymentOf keccak256 vm b.2)

/-- **A chain of ordinary transactions is a ledger.** From a finalized state whose balances sum up
to a `u64`, blocks are executed one after the other, each in parallel with validation and finalized.
Their transactions have distinct numbers below `u64::MAX` within a block and are ordinary. Then the
balances and nonces after the blocks are those of the ledger on which the payments were made one by
one in exact numbers, and the sum of all balances is what it was.
Source: `execution/executor.rs`, `ParallelExecutor::execute_batch`; `evm/vm.rs`,
`RytherVm::execute_inner`; `execution/mvcc.rs`, `MultiVersionState::finalize`
Kind: P -/
theorem chain_refines_ledger (keccak256 sha256 : List UInt8 → Bytes 32) (ex : ParallelExecutor)
    (blocks : List (List DecryptedTransaction × BlockContext)) (state : MultiVersionState)
    (hdata : state.data = ∅)
    (hblocks : ∀ b ∈ blocks, (b.1.map DecryptedTransaction.sequenceNumber).Nodup ∧
      ∀ tx ∈ b.1, tx.sequenceNumber < u64Max ∧ Ordinary keccak256 ex.vm b.2 tx)
    (hsupply : (ledgerOf state.getBase).supply < 2 ^ 64) :
    let final := (runChain keccak256 sha256 ex blocks state).2
    ledgerOf final.getBase =
        (paymentsOf keccak256 ex.vm blocks).foldl Ledger.pay (ledgerOf state.getBase) ∧
      (ledgerOf final.getBase).supply = (ledgerOf state.getBase).supply := by
  intro final
  suffices hledger : ledgerOf final.getBase =
      (paymentsOf keccak256 ex.vm blocks).foldl Ledger.pay (ledgerOf state.getBase) by
    refine ⟨hledger, ?_⟩
    rw [hledger, Ledger.supply_foldl_pay]
  induction blocks generalizing state with
  | nil => rfl
  | cons b blocks ih =>
      obtain ⟨txs, block⟩ := b
      obtain ⟨hnodup, htxs⟩ := hblocks _ List.mem_cons_self
      have hblock := @ledgerOf_runBlock keccak256 sha256 ex block txs state hdata hnodup htxs
        hsupply
      have hnext : (ledgerOf (runBlock keccak256 sha256 ex block txs state).2.getBase).supply <
          2 ^ 64 := by
        rw [hblock, Ledger.supply_foldl_pay]
        exact hsupply
      have hrest := ih (runBlock keccak256 sha256 ex block txs state).2 rfl
        (fun b hb => hblocks b (List.mem_cons_of_mem _ hb)) hnext
      rw [paymentsOf, List.flatMap_cons, List.foldl_append, ← hblock]
      exact hrest

/-- The transfers of the tests are ordinary if the three accounts differ. Kind: L -/
theorem ordinary_makeTx {keccak256 : List UInt8 → Bytes 32} {sender recipient : UInt8}
    {coinbase : Address} (value seq : UInt64) {nonce : UInt64} (hnonce : nonce ≠ u64Max)
    (hsender : Address.fill sender ≠ coinbase) (hpayee : Address.fill recipient ≠ coinbase)
    (hne : Address.fill sender ≠ .fill recipient) :
    Ordinary keccak256 ⟨∅⟩ ⟨coinbase⟩ (makeTx sender (some recipient) value nonce seq) where
  cost := by
    have hvalue := value.toNat_lt
    have hprice : (U256.fromU64 1000000000).toNat = 1000000000 := rfl
    refine ⟨?_, ?_, ?_⟩
    · show (U256.fromU64 1000000000).toNat < 2 ^ 64
      rw [hprice]
      omega
    · show 100000 * (U256.fromU64 1000000000).toNat < 2 ^ 64
      rw [hprice]
      omega
    · show (U256.fromU64 value).toNat + 100000 * (U256.fromU64 1000000000).toNat < 2 ^ 256
      rw [U256.toNat_fromU64, hprice]
      omega
  enough := by
    intro _ _ _
    show 21000 ≤ 100000
    omega
  nonce := hnonce
  creation h := by cases h
  sender_ne_collector := hsender
  sender_ne_payee _ := hne
  payee_ne_collector _ := hpayee

/-- With one funded account the supply is the balance of that account. Kind: L -/
theorem supply_fundedState (account : UInt8) :
    (ledgerOf (fundedState [account]).getBase).supply = 1000000000000000000 := by
  have hother : ∀ a ≠ Address.fill account,
      (balanceIn (fundedState [account]).getBase a).toNat = 0 := by
    intro a hne
    have hkey : balanceKey a ≠ balanceKey (.fill account) :=
      fun heq => hne (slotKey_inj.mp heq).2
    unfold balanceIn
    rw [show (fundedState [account]).getBase (balanceKey a) = none from
      AList.lookup_insert_ne hkey]
    rfl
  have hfunded : (balanceIn (fundedState [account]).getBase (.fill account)).toNat =
      1000000000000000000 := by
    unfold balanceIn
    rw [show (fundedState [account]).getBase (balanceKey (.fill account)) =
      some (.fromU64 1000000000000000000) from AList.lookup_insert _]
    rfl
  show ∑ a, (balanceIn (fundedState [account]).getBase a).toNat = _
  rw [Finset.sum_eq_single (.fill account) (fun a _ hne => hother a hne) (by simp), hfunded]

/-- Two blocks of transfers, the second with one that is rejected, from a state with one funded
account. Kind: L -/
theorem chain_refines_ledger_sample :
    let keccak256 : List UInt8 → Bytes 32 := fun _ => .fill 32 0xEE
    let blocks : List (List DecryptedTransaction × BlockContext) :=
      [([makeTx 0xAA (some 0xBB) 100 0 1], ⟨.fill 0⟩),
        ([makeTx 0xAA (some 0xBB) 100 1 2, makeTx 0xAA (some 0xCC) 100 0 3], ⟨.fill 0⟩)]
    let final := (runChain keccak256 (fun _ => .fill 32 0xDD) ⟨3, ⟨∅⟩⟩ blocks
      (fundedState [0xAA])).2
    ledgerOf final.getBase = (paymentsOf keccak256 ⟨∅⟩ blocks).foldl Ledger.pay
        (ledgerOf (fundedState [0xAA]).getBase) ∧
      (ledgerOf final.getBase).supply = (ledgerOf (fundedState [0xAA]).getBase).supply := by
  intro keccak256 blocks final
  refine chain_refines_ledger keccak256 _ ⟨3, ⟨∅⟩⟩ blocks (fundedState [0xAA]) rfl ?_ ?_
  · intro b hb
    rcases List.mem_cons.mp hb with rfl | hb
    · refine ⟨by decide, fun tx htx => ?_⟩
      rw [List.mem_singleton.mp htx]
      exact ⟨by decide, ordinary_makeTx 100 1 (by decide) (by decide) (by decide) (by decide)⟩
    · rw [List.mem_singleton.mp hb]
      refine ⟨by decide, fun tx htx => ?_⟩
      rcases List.mem_cons.mp htx with rfl | htx
      · exact ⟨by decide, ordinary_makeTx 100 2 (by decide) (by decide) (by decide) (by decide)⟩
      · rw [List.mem_singleton.mp htx]
        exact ⟨by decide, ordinary_makeTx 100 3 (by decide) (by decide) (by decide) (by decide)⟩
  · rw [supply_fundedState]
    omega

end Ryther
