import Ryther.Evm.Effect

/-!
# What an execution writes to each account slot

An execution writes to three slots of accounts. The balance slot of one account can be written up
to four times (deduction, credit, refund, fee), as sender, payee and coinbase may coincide; nonce
and code hash slots are written once.

* `valuesAt_balanceKey`, `valuesAt_nonceKey`, `valuesAt_codeHashKey` — the values, in order.
* `slot_of_mem_txWrites` — nothing else is written.
* `toNat_subU256` — `sub_u256` subtracts the low limb only, and loses the borrow when the second
  limb is zero.
-/

namespace Ryther

open Lib

/-! ### Amounts -/

/-- `sub_u256` has to borrow and finds nothing in the second limb.
Kind: D -/
def LostBorrow (a b : U256) : Prop := a.limb0 < b.limb0 ∧ a.limb1 = 0

instance (a b : U256) : Decidable (LostBorrow a b) := inferInstanceAs (Decidable (_ ∧ _))

/-- **What `sub_u256` computes.** Kind: P -/
theorem toNat_subU256 (a b : U256) :
    (subU256 a b).toNat + b.limb0.toNat = a.toNat + if LostBorrow a b then 2 ^ 64 else 0 := by
  have ha := a.limb0.toNat_lt
  have hb := b.limb0.toNat_lt
  have ha1 := a.limb1.toNat_lt
  have hdiff : (a.limb0 - b.limb0).toNat = (2 ^ 64 - b.limb0.toNat + a.limb0.toNat) % 2 ^ 64 :=
    UInt64.toNat_sub _ _
  by_cases hlt : a.limb0 < b.limb0
  · have hlt' := UInt64.lt_iff_toNat_lt.mp hlt
    by_cases hzero : a.limb1 = 0
    · have hlimb : a.limb1.toNat = 0 := by rw [hzero]; rfl
      have hsub : subU256 a b = { a with limb0 := a.limb0 - b.limb0 } := by
        simp [subU256, hzero]
      rw [if_pos ⟨hlt, hzero⟩, hsub]
      simp only [U256.toNat, hdiff]
      omega
    · have hpos : 0 < a.limb1.toNat := by
        refine Nat.pos_of_ne_zero fun h => hzero (UInt64.toNat_inj.mp ?_)
        rw [h]
        rfl
      have hgt : a.limb1 > 0 := UInt64.lt_iff_toNat_lt.mpr hpos
      have hpred : (a.limb1 - 1).toNat = a.limb1.toNat - 1 := by
        have hone : (1 : UInt64).toNat = 1 := rfl
        rw [UInt64.toNat_sub, hone]
        omega
      rw [if_neg fun h => hzero h.2]
      simp only [subU256, hlt, hgt, and_self, if_true, U256.toNat, hdiff, hpred]
      omega
  · have hle : b.limb0.toNat ≤ a.limb0.toNat := by
      rw [UInt64.lt_iff_toNat_lt] at hlt
      omega
    simp only [LostBorrow, subU256, hlt, false_and, if_false, U256.toNat, hdiff]
    omega

/-- The limbs are compared from the top one down. Kind: L -/
theorem compareLimbs_cons_lt_iff (x y : UInt64) (rest : List (UInt64 × UInt64)) :
    compareLimbs ((x, y) :: rest) < 0 ↔
      x.toNat < y.toNat ∨ (x.toNat = y.toNat ∧ compareLimbs rest < 0) := by
  simp only [compareLimbs, gt_iff_lt, UInt64.lt_iff_toNat_lt]
  split_ifs with hgt hlt
  · omega
  · omega
  · have heq : x.toNat = y.toNat := by omega
    simp only [heq, lt_self_iff_false, true_and, false_or]

/-- Numbers without limbs are equal. Kind: L -/
theorem compareLimbs_nil : ¬ compareLimbs [] < 0 := Int.lt_irrefl 0

/-- **`compare_u256` compares the numbers.** Kind: P -/
theorem compareU256_lt_iff (a b : U256) : compareU256 a b < 0 ↔ a.toNat < b.toNat := by
  have ha0 := a.limb0.toNat_lt
  have ha1 := a.limb1.toNat_lt
  have ha2 := a.limb2.toNat_lt
  have hb0 := b.limb0.toNat_lt
  have hb1 := b.limb1.toNat_lt
  have hb2 := b.limb2.toNat_lt
  simp only [compareU256, compareLimbs_cons_lt_iff, compareLimbs_nil, and_false, or_false,
    U256.toNat]
  omega

/-- The sum over the limbs is the sum modulo `2 ^ 256`. Kind: L -/
theorem toNat_addU256 (a b : U256) : (addU256 a b).toNat = (a.toNat + b.toNat) % 2 ^ 256 :=
  U256.toNat_wrappingAdd a b

/-- What the coinbase receives, computed as a `u64`.
Source: `evm/vm.rs`, the fee of `RytherVm::execute_inner`
Kind: D -/
def gasFee (vm : RytherVm) (tx : DecryptedTransaction) : UInt64 :=
  gasUsedBy vm tx * u256ToU64 tx.gasPrice

/-- What the sender gets back for gas that was not used, computed as a `u64`.
Source: `evm/vm.rs`, the refund of `RytherVm::execute_inner`
Kind: D -/
def gasRefund (vm : RytherVm) (tx : DecryptedTransaction) : UInt64 :=
  (tx.gasLimit - gasUsedBy vm tx) * u256ToU64 tx.gasPrice

/-! ### Values by slot -/

@[simp] theorem valuesAt_nil (k : StateKey) : valuesAt [] k = [] := rfl

/-- A write in front adds its value under its own key only. Kind: L -/
theorem valuesAt_cons (w : Write) (writes : List Write) (k : StateKey) :
    valuesAt (w :: writes) k = (if w.key = k then [w.value] else []) ++ valuesAt writes k := by
  by_cases h : w.key = k <;> simp [valuesAt, h]

/-- The values of two lists of writes come in the order of the lists. Kind: L -/
theorem valuesAt_append (ws ws' : List Write) (k : StateKey) :
    valuesAt (ws ++ ws') k = valuesAt ws k ++ valuesAt ws' k := by
  simp [valuesAt]

section

variable {keccak256 : List UInt8 → Bytes 32} {vm : RytherVm} {block : BlockContext}

/-- The values written to the balance of an account, in order: deduction, credit, refund, fee.
Kind: D -/
def balanceWrites (keccak256 : List UInt8 → Bytes 32) (vm : RytherVm) (tx : DecryptedTransaction)
    (block : BlockContext) (view : View) (a : Address) : List U256 :=
  (if tx.from = a then [deducted tx (balanceIn view tx.from)] else []) ++
    (if tx.value ≠ .zero ∧ payee keccak256 tx = a then
      [credited tx (balanceIn view (payee keccak256 tx))] else []) ++
    (if tx.from = a then [refunded vm tx (balanceIn view tx.from)] else []) ++
    if block.coinbase = a then [withFee vm tx (balanceIn view block.coinbase)] else []

/-- **The values written to a balance slot.** Kind: P -/
theorem valuesAt_balanceKey (tx : DecryptedTransaction) (view : View) (a : Address) :
    valuesAt (txWrites keccak256 vm tx block view) (balanceKey a) =
      if Accepted tx view then balanceWrites keccak256 vm tx block view a else [] := by
  by_cases hacc : Accepted tx view
  · have htransfer : valuesAt (transferWrites keccak256 tx view) (balanceKey a) =
        if tx.value ≠ .zero ∧ payee keccak256 tx = a then
          [credited tx (balanceIn view (payee keccak256 tx))] else [] := by
      unfold transferWrites
      cases hto : tx.to <;> by_cases hv : tx.value = .zero <;>
        simp [valuesAt_cons, hv, balanceKey, codeHashKey, slotBalance, slotCodeHash]
    rw [txWrites, if_pos hacc, if_pos hacc, valuesAt_append, valuesAt_append, htransfer]
    simp [valuesAt_cons, balanceWrites, balanceKey, nonceKey, slotBalance, slotNonce]
  · simp [txWrites, hacc]

/-- The nonce slot of an account is written once, by its own accepted transaction. Kind: L -/
theorem valuesAt_nonceKey (tx : DecryptedTransaction) (view : View) (a : Address) :
    valuesAt (txWrites keccak256 vm tx block view) (nonceKey a) =
      if Accepted tx view ∧ a = tx.from then [.fromU64 (nonceIn view tx.from + 1)] else [] := by
  by_cases hacc : Accepted tx view
  · have htransfer : valuesAt (transferWrites keccak256 tx view) (nonceKey a) = [] := by
      unfold transferWrites
      cases hto : tx.to <;> by_cases hv : tx.value = .zero <;>
        simp [valuesAt_cons, hv, balanceKey, nonceKey, codeHashKey, slotBalance, slotNonce,
          slotCodeHash]
    rw [txWrites, if_pos hacc, valuesAt_append, valuesAt_append, htransfer]
    simp [valuesAt_cons, hacc, balanceKey, nonceKey, slotBalance, slotNonce, eq_comm]
  · simp [txWrites, hacc]

/-- The code hash slot of an account is written once, by the transaction that creates the account's
contract. Kind: L -/
theorem valuesAt_codeHashKey (tx : DecryptedTransaction) (view : View) (a : Address) :
    valuesAt (txWrites keccak256 vm tx block view) (codeHashKey a) =
      if Accepted tx view ∧ tx.to = none ∧ a = payee keccak256 tx then
        [.fromBeBytes (keccak256 tx.data)]
      else [] := by
  by_cases hacc : Accepted tx view
  · have htransfer : valuesAt (transferWrites keccak256 tx view) (codeHashKey a) =
        if tx.to = none ∧ a = payee keccak256 tx then [.fromBeBytes (keccak256 tx.data)]
        else [] := by
      unfold transferWrites
      cases hto : tx.to <;> by_cases hv : tx.value = .zero <;>
        simp [valuesAt_cons, hv, balanceKey, codeHashKey, slotBalance, slotCodeHash, eq_comm]
    rw [txWrites, if_pos hacc, valuesAt_append, valuesAt_append, htransfer]
    simp [valuesAt_cons, hacc, balanceKey, nonceKey, codeHashKey, slotBalance, slotNonce,
      slotCodeHash]
  · simp [txWrites, hacc]

/-- An execution writes account slots only. Kind: L -/
theorem slot_of_mem_txWrites {tx : DecryptedTransaction} {view : View} {w : Write}
    (hw : w ∈ txWrites keccak256 vm tx block view) :
    ∃ a, w.key = balanceKey a ∨ w.key = nonceKey a ∨ w.key = codeHashKey a := by
  unfold txWrites transferWrites at hw
  split_ifs at hw <;> cases hto : tx.to <;> simp [hto] at hw <;> grind

/-- A key that is written. Kind: L -/
theorem exists_mem_of_valuesAt_ne_nil {writes : List Write} {k : StateKey}
    (h : valuesAt writes k ≠ []) : ∃ w ∈ writes, w.key = k := by
  obtain ⟨v, hv⟩ := List.exists_mem_of_ne_nil _ h
  obtain ⟨w, hw, -⟩ := List.mem_map.mp hv
  obtain ⟨hw, hkey⟩ := List.mem_filter.mp hw
  exact ⟨w, hw, by simpa using hkey⟩

/-- A key with values is an account slot. Kind: L -/
theorem slot_of_valuesAt_ne_nil {tx : DecryptedTransaction} {view : View} {k : StateKey}
    (h : valuesAt (txWrites keccak256 vm tx block view) k ≠ []) :
    ∃ a, k = balanceKey a ∨ k = nonceKey a ∨ k = codeHashKey a := by
  obtain ⟨w, hw, rfl⟩ := exists_mem_of_valuesAt_ne_nil h
  exact slot_of_mem_txWrites hw

/-- The only write that is not recorded in the write set is the one of the code hash. Kind: L -/
theorem tracked_iff_of_mem_txWrites {tx : DecryptedTransaction} {view : View} {w : Write}
    (hw : w ∈ txWrites keccak256 vm tx block view) :
    w.tracked = true ↔ w.key ≠ codeHashKey (payee keccak256 tx) := by
  have hform : ∀ w ∈ txWrites keccak256 vm tx block view,
      (w.tracked = true ↔ w.key ≠ codeHashKey (payee keccak256 tx)) := by
    unfold txWrites transferWrites
    by_cases ha : Accepted tx view <;> by_cases hv : tx.value = .zero <;> cases tx.to <;>
      simp [ha, hv, balanceKey, nonceKey, codeHashKey, slotBalance, slotNonce, slotCodeHash]
  exact hform w hw

/-- The values recorded in the write set, in order. Kind: L -/
theorem valuesAt_tracked (tx : DecryptedTransaction) (view : View) (k : StateKey) :
    valuesAt ((txWrites keccak256 vm tx block view).filter Write.tracked) k =
      if k = codeHashKey (payee keccak256 tx) then []
      else valuesAt (txWrites keccak256 vm tx block view) k := by
  have hfilter : ((txWrites keccak256 vm tx block view).filter Write.tracked).filter
      (fun w => w.key = k) = if k = codeHashKey (payee keccak256 tx) then []
        else (txWrites keccak256 vm tx block view).filter fun w => w.key = k := by
    rw [List.filter_filter]
    split_ifs with hk
    · refine List.filter_eq_nil_iff.mpr fun w hw => ?_
      have htracked := tracked_iff_of_mem_txWrites hw
      by_cases hkey : w.key = k
      · simp [htracked, hkey, hk]
      · simp [hkey]
    · refine List.filter_congr fun w hw => ?_
      have htracked := tracked_iff_of_mem_txWrites hw
      by_cases hkey : w.key = k
      · simp [htracked, hkey, hk]
      · simp [hkey]
  rw [valuesAt, hfilter]
  split_ifs <;> rfl

/-- A key is in the write set if it is written and is not the code hash. Kind: L -/
theorem mem_keys_txWrites (tx : DecryptedTransaction) (view : View) (k : StateKey) :
    k ∈ (recordWrites .new (txWrites keccak256 vm tx block view)).keys ↔
      k ≠ codeHashKey (payee keccak256 tx) ∧
        valuesAt (txWrites keccak256 vm tx block view) k ≠ [] := by
  rw [mem_keys_recordWrites]
  constructor
  · rintro ⟨w, hw, htracked, rfl⟩
    refine ⟨(tracked_iff_of_mem_txWrites hw).mp htracked, fun hnil => ?_⟩
    rw [valuesAt, List.map_eq_nil_iff, List.filter_eq_nil_iff] at hnil
    simpa using hnil w hw
  · rintro ⟨hne, hnil⟩
    obtain ⟨w, hw, rfl⟩ := exists_mem_of_valuesAt_ne_nil hnil
    exact ⟨w, hw, (tracked_iff_of_mem_txWrites hw).mpr hne, rfl⟩

end

end Ryther
