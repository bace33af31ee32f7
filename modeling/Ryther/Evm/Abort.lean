import Ryther.Evm.Accounts

/-!
# What an aborted execution leaves behind

`abort_write_set` marks one version of each recorded key. A key that was written twice or more
keeps live versions, and the code hash of a new contract is not recorded at all. An accepted
transaction always writes its sender's balance twice, so only rejected ones can be undone, apart
from sequence number 0, whose versions cannot be told from the base state.

* `leftover` — the value that stays visible when the first version of a run is marked.
* `read_put_eq_iff` — when a row of a multi-version store is invisible to all readers.
* `toMemory_abort` — the store after execution and abort.
* `abortLeavesNoTrace_iff` — exactly when nothing is left.
* `aborted_transfer_visible` — a plain transfer: the deduction stays visible.
-/

namespace Ryther

open Lib

/-- After execution and abort all readers find what they found before.
Kind: D -/
def AbortLeavesNoTrace (keccak256 : List UInt8 → Bytes 32) (vm : RytherVm)
    (tx : DecryptedTransaction) (block : BlockContext) (state : MultiVersionState) : Prop :=
  ∀ k r, ((vm.execute keccak256 tx state block).2.abortWriteSet tx.sequenceNumber
    (vm.execute keccak256 tx state block).1.writeSet).read k r = state.read k r

/-! ### Invisible rows -/

section

variable {state state' : MultiVersionState} {s : UInt64} {row : StateKey → Option (Option U256)}

/-- The columns of a store with a row put at a number. Kind: L -/
theorem column_put (hmem : state'.toMemory = state.toMemory.put s.toNat row) (k : StateKey)
    (q : ℕ) : state'.toMemory.column k q =
      if q = s.toNat then row k else state.toMemory.column k q := by
  rw [hmem]
  rfl

/-- A fresh number has no entries. Kind: L -/
theorem column_of_fresh (hfresh : Fresh state s) (k : StateKey) :
    state.toMemory.column k s.toNat = none := by
  simp only [MultiVersionState.toMemory, hfresh k, live]

/-- A reader right above the row tells its entries from what was there before, by the value or by
the version. Kind: L -/
theorem base_of_read_put_eq (hfresh : Fresh state s)
    (hmem : state'.toMemory = state.toMemory.put s.toNat row) (hmax : s ≠ u64Max) {k : StateKey}
    (h : state'.read k (s + 1) = state.read k (s + 1)) {v : Option U256} (hv : row k = some v) :
    s = 0 ∧ v = state.baseState.lookup k := by
  have hcol : state'.toMemory.column k s.toNat = some v := by
    rw [column_put hmem, if_pos rfl, hv]
  rw [MultiVersionState.read_eq, MultiVersionState.read_eq, toNat_succ hmax,
    newestBelow_succ_of_some hcol, newestBelow_succ_of_none (column_of_fresh hfresh k)] at h
  cases hnew : newestBelow (state.toMemory.column k) s.toNat with
  | none =>
      simp only [hnew, Prod.mk.injEq] at h
      exact ⟨by simpa using h.2, h.1⟩
  | some p =>
      obtain ⟨u, q⟩ := p
      obtain ⟨hq, -, -⟩ := newestBelow_eq_some_iff.mp hnew
      simp only [hnew, Prod.mk.injEq] at h
      have hversion := congrArg UInt64.toNat h.2
      rw [UInt64.ofNat_toNat, toNat_ofNat_of_lt_toNat hq] at hversion
      omega

/-- The base value at number 0 is read like the base state, version included. Kind: L -/
theorem read_put_base (hfresh : Fresh state 0)
    (hmem : state'.toMemory = state.toMemory.put (0 : UInt64).toNat row) {k : StateKey}
    (hrow : row k = some (state.baseState.lookup k)) (r : UInt64) :
    state'.read k r = state.read k r := by
  have hbase : state'.baseState.lookup k = state.baseState.lookup k :=
    congrFun (congrArg Memory.base hmem) k
  have hcol : state'.toMemory.column k 0 = some (state.baseState.lookup k) := by
    rw [column_put hmem, if_pos UInt64.toNat_zero.symm, hrow]
  have hrest : ∀ q, 0 < q → state'.toMemory.column k q = state.toMemory.column k q :=
    fun q hq => by
      rw [column_put hmem, if_neg]
      simpa using Nat.ne_of_gt hq
  rw [MultiVersionState.read_eq, MultiVersionState.read_eq, hbase]
  rcases Nat.eq_zero_or_pos r.toNat with hr | hr
  · rw [hr, newestBelow_zero, newestBelow_zero]
  · rw [newestBelow_of_zero hr (column_of_fresh hfresh k) hcol hrest]
    cases newestBelow (state.toMemory.column k) r.toNat <;> rfl

/-- **A row at a fresh number is invisible** if nobody reads above it, or if it is empty but for
base values at number 0. Kind: P -/
theorem read_put_eq_iff (hfresh : Fresh state s)
    (hmem : state'.toMemory = state.toMemory.put s.toNat row) :
    (∀ k r, state'.read k r = state.read k r) ↔
      s = u64Max ∨ ∀ k, ∀ v ∈ row k, s = 0 ∧ v = state.baseState.lookup k := by
  have hbase : ∀ k, state'.baseState.lookup k = state.baseState.lookup k := fun k =>
    congrFun (congrArg Memory.base hmem) k
  constructor
  · intro h
    by_cases hmax : s = u64Max
    · exact Or.inl hmax
    · exact Or.inr fun k v hv => base_of_read_put_eq hfresh hmem hmax (h k (s + 1)) hv
  · rintro (hmax | hrow) k r
    · refine MultiVersionState.read_congr (hbase k) fun q hq => ?_
      have hr := r.toNat_lt
      have hs : s.toNat = 18446744073709551615 := by rw [hmax]; rfl
      rw [column_put hmem, if_neg (by omega)]
    · cases hk : row k with
      | none =>
          refine MultiVersionState.read_congr (hbase k) fun q _ => ?_
          rw [column_put hmem]
          split_ifs with hq
          · rw [hk, hq, column_of_fresh hfresh]
          · rfl
      | some v =>
          obtain ⟨rfl, rfl⟩ := hrow k v hk
          exact read_put_base hfresh hmem hk r

end

/-! ### The store after an abort -/

/-- The value that stays visible when the first version of a run is marked as aborted: the first
one written if there are two, the third one if there are more.
Kind: D -/
def leftover : List U256 → Option U256
  | [] => none
  | [_] => none
  | [v, _] => some v
  | _ :: _ :: v :: _ => some v

/-- The row of an aborted execution.
Kind: D -/
def residue (keccak256 : List UInt8 → Bytes 32) (tx : DecryptedTransaction) (writes : List Write)
    (k : StateKey) : Option (Option U256) :=
  if k = codeHashKey (payee keccak256 tx) then rowOf writes k
  else (leftover (valuesAt writes k)).map some

/-- Marking the run of a series of writes. Kind: L -/
theorem live_markHead_aborted (seq : UInt64) (values : List U256) :
    live (markHead .aborted ((values.tail ++ values.head?.toList).map (pendingVersion seq))) =
      (leftover values).map some := by
  rcases values with _ | ⟨a, _ | ⟨b, _ | ⟨c, rest⟩⟩⟩ <;>
    simp [markHead, live, leftover, pendingVersion]

section

variable {keccak256 : List UInt8 → Bytes 32} {vm : RytherVm} {tx : DecryptedTransaction}
  {block : BlockContext} {state : MultiVersionState}

/-- **The store after execution and abort.** Kind: P -/
theorem toMemory_abort (hfresh : Fresh state tx.sequenceNumber) :
    ((vm.execute keccak256 tx state block).2.abortWriteSet tx.sequenceNumber
        (vm.execute keccak256 tx state block).1.writeSet).toMemory =
      state.toMemory.put tx.sequenceNumber.toNat (residue keccak256 tx
        (txWrites keccak256 vm tx block (viewOf state tx.sequenceNumber))) := by
  rw [execute_eq]
  simp only [resultOf]
  change (MultiVersionState.abortWriteSet _ _ (recordWrites .new (txWrites keccak256 vm tx block
    (viewOf state tx.sequenceNumber)))).toMemory = _
  have hkeys := @mem_keys_txWrites keccak256 vm block tx (viewOf state tx.sequenceNumber)
  generalize txWrites keccak256 vm tx block (viewOf state tx.sequenceNumber) = writes at hkeys ⊢
  unfold MultiVersionState.abortWriteSet MultiVersionState.markAborted MultiVersionState.toMemory
    Memory.put
  simp only [MultiVersionState.baseState_foldl_mark, baseState_writeAll, Memory.mk.injEq, true_and]
  funext k q
  have hnodup : (recordWrites .new writes).keys.Nodup :=
    (recordWrites .new writes).writes.keys_nodup
  rw [MultiVersionState.runOf_foldl_mark _ hnodup]
  by_cases hq : q = tx.sequenceNumber.toNat
  · subst hq
    rw [if_pos rfl, residue]
    by_cases hk : k = codeHashKey (payee keccak256 tx)
    · rw [if_pos hk, if_neg fun h => ((hkeys k).mp h.1).1 hk]
      have hcol := congrArg (fun m => m.column k tx.sequenceNumber.toNat)
        (toMemory_writeAll_of_fresh hfresh writes)
      exact hcol.trans (if_pos rfl)
    · rw [if_neg hk]
      by_cases hnil : valuesAt writes k = []
      · rw [if_neg fun h => ((hkeys k).mp h.1).2 hnil, runOf_writeAll_of_fresh hfresh, hnil]
        rfl
      · rw [if_pos ⟨(hkeys k).mpr ⟨hk, hnil⟩, rfl⟩, runOf_writeAll_of_fresh hfresh,
          live_markHead_aborted]
  · rw [if_neg fun h => hq h.2, if_neg hq, runOf_writeAll, if_neg hq]

/-! ### Amounts that stay the same -/

/-- `sub_u256` changes nothing if the low limb of the subtrahend is zero. Kind: L -/
theorem deducted_eq_self_iff (balance : U256) :
    deducted tx balance = balance ↔ (totalCost tx).limb0 = 0 := by
  have hsub := toNat_subU256 balance (totalCost tx)
  have hlt := (totalCost tx).limb0.toNat_lt
  have hzero : (totalCost tx).limb0 = 0 ↔ (totalCost tx).limb0.toNat = 0 := by
    rw [← UInt64.toNat_inj]
    rfl
  rw [deducted, ← U256.toNat_injective.eq_iff, hzero]
  split_ifs at hsub with hlost
  · have := UInt64.lt_iff_toNat_lt.mp hlost.1
    omega
  · omega

/-- Adding a `u64` changes nothing if it is zero. Kind: L -/
theorem withFee_eq_self_iff (balance : U256) :
    withFee vm tx balance = balance ↔ gasFee vm tx = 0 := by
  have hlt := balance.toNat_lt
  have hfee := (gasFee vm tx).toNat_lt
  have hzero : gasFee vm tx = 0 ↔ (gasFee vm tx).toNat = 0 := by
    rw [← UInt64.toNat_inj]
    rfl
  rw [← U256.toNat_injective.eq_iff, hzero]
  change (addU256 balance (.fromU64 (gasFee vm tx))).toNat = _ ↔ _
  rw [toNat_addU256, U256.toNat_fromU64]
  omega

/-- The refund makes up for the deduction if it is the low limb of the cost and the borrow is not
lost. Kind: L -/
theorem refunded_eq_self_iff (balance : U256) :
    refunded vm tx balance = balance ↔
      gasRefund vm tx = (totalCost tx).limb0 ∧ ¬ LostBorrow balance (totalCost tx) := by
  have hsub := toNat_subU256 balance (totalCost tx)
  have hlt := balance.toNat_lt
  have hdlt := (subU256 balance (totalCost tx)).toNat_lt
  have hclt := (totalCost tx).limb0.toNat_lt
  have hrefund := (gasRefund vm tx).toNat_lt
  rw [← U256.toNat_injective.eq_iff, ← UInt64.toNat_inj]
  change (addU256 (subU256 balance (totalCost tx)) (.fromU64 (gasRefund vm tx))).toNat = _ ↔ _
  rw [toNat_addU256, U256.toNat_fromU64]
  split_ifs at hsub with hlost
  · simp only [hlost, not_true, and_false, iff_false]
    omega
  · simp only [hlost, not_false_eq_true, and_true]
    omega

/-! ### The exact condition -/

/-- What stays visible of the sender's balance: the deduction, or the fee or the refund if the
sender is also the coinbase or the payee. Kind: L -/
theorem leftover_sender (view : View) :
    leftover (balanceWrites keccak256 vm tx block view tx.from) =
      some (if tx.value ≠ .zero ∧ payee keccak256 tx = tx.from then
          refunded vm tx (balanceIn view tx.from)
        else if block.coinbase = tx.from then withFee vm tx (balanceIn view tx.from)
        else deducted tx (balanceIn view tx.from)) := by
  unfold balanceWrites
  by_cases hpay : tx.value ≠ .zero ∧ payee keccak256 tx = tx.from <;>
    by_cases hcoin : block.coinbase = tx.from
  · simp [hpay.1, hpay.2, hcoin, leftover]
  · simp [hpay.1, hpay.2, hcoin, leftover]
  · simp only [if_neg hpay]
    simp [hcoin, leftover]
  · simp only [if_neg hpay]
    simp [hcoin, leftover]

/-- What stays visible of another balance: the credit, if the payee is the coinbase. Kind: L -/
theorem leftover_other (view : View) {a : Address} (ha : tx.from ≠ a) :
    leftover (balanceWrites keccak256 vm tx block view a) =
      if (tx.value ≠ .zero ∧ payee keccak256 tx = a) ∧ block.coinbase = a then
        some (credited tx (balanceIn view (payee keccak256 tx)))
      else none := by
  unfold balanceWrites
  by_cases hpay : tx.value ≠ .zero ∧ payee keccak256 tx = a <;>
    by_cases hcoin : block.coinbase = a
  · simp [ha, hpay.1, hpay.2, hcoin, leftover]
  · simp [ha, hpay.1, hpay.2, hcoin, leftover]
  · simp only [if_neg ha, hpay, false_and, if_false]
    simp [hcoin, leftover]
  · simp only [if_neg ha, hpay, false_and, if_false]
    simp [hcoin, leftover]

/-- The values that an aborted transaction with sequence number 0 leaves are those of the base
state. The sender's balance has to be in the base state and to come out unchanged; if the payee is
the coinbase, the transaction has to create a contract with the balance it has already; and the
code hash of a new contract has to be there already.
Kind: D -/
def ResidueIsBase (keccak256 : List UInt8 → Bytes 32) (vm : RytherVm) (tx : DecryptedTransaction)
    (block : BlockContext) (base : View) : Prop :=
  (∃ balance ∈ base (balanceKey tx.from),
    if tx.value ≠ .zero ∧ payee keccak256 tx = tx.from then
      gasRefund vm tx = (totalCost tx).limb0 ∧ ¬ LostBorrow balance (totalCost tx)
    else if block.coinbase = tx.from then gasFee vm tx = 0
    else (totalCost tx).limb0 = 0) ∧
  (tx.value ≠ .zero → payee keccak256 tx = block.coinbase → payee keccak256 tx ≠ tx.from →
    tx.to = none ∧ base (balanceKey (payee keccak256 tx)) = some tx.value) ∧
  (tx.to = none → base (codeHashKey (payee keccak256 tx)) =
    some (.fromBeBytes (keccak256 tx.data)))

/-- The condition on the sender's balance. Kind: L -/
theorem sender_residue_iff (base : View) :
    (some (if tx.value ≠ .zero ∧ payee keccak256 tx = tx.from then
          refunded vm tx (balanceIn base tx.from)
        else if block.coinbase = tx.from then withFee vm tx (balanceIn base tx.from)
        else deducted tx (balanceIn base tx.from)) = base (balanceKey tx.from)) ↔
      ∃ balance ∈ base (balanceKey tx.from),
        if tx.value ≠ .zero ∧ payee keccak256 tx = tx.from then
          gasRefund vm tx = (totalCost tx).limb0 ∧ ¬ LostBorrow balance (totalCost tx)
        else if block.coinbase = tx.from then gasFee vm tx = 0
        else (totalCost tx).limb0 = 0 := by
  cases hbase : base (balanceKey tx.from) with
  | none => simp
  | some balance =>
      simp only [balanceIn, hbase, Option.getD_some, Option.some.injEq, Option.mem_def,
        exists_eq_left']
      split_ifs
      · exact refunded_eq_self_iff balance
      · exact withFee_eq_self_iff balance
      · exact deducted_eq_self_iff balance

/-- The condition on the payee's balance: a call cannot leave it unchanged. Kind: L -/
theorem payee_residue_iff (base : View) (hv : tx.value ≠ .zero) :
    (some (credited tx (balanceIn base (payee keccak256 tx))) =
        base (balanceKey (payee keccak256 tx))) ↔
      tx.to = none ∧ base (balanceKey (payee keccak256 tx)) = some tx.value := by
  unfold credited
  cases hto : tx.to with
  | none => simp [eq_comm]
  | some recipient =>
      simp only [reduceCtorEq, false_and, iff_false]
      intro h
      unfold balanceIn at h
      cases hheld : base (balanceKey (payee keccak256 tx)) with
      | none => simp [hheld] at h
      | some balance =>
          simp only [hheld, Option.getD_some, Option.some.injEq] at h
          refine hv (U256.wrappingAdd_left_cancel (a := balance) ?_)
          rw [U256.wrappingAdd_zero]
          exact h

/-- The condition on all keys, for an accepted transaction with sequence number 0. Kind: L -/
theorem residue_eq_base_iff {base : View} (hacc : Accepted tx base) :
    (∀ k, ∀ v ∈ residue keccak256 tx (txWrites keccak256 vm tx block base) k, v = base k) ↔
      ResidueIsBase keccak256 vm tx block base := by
  have hslot : ∀ a b, balanceKey a ≠ codeHashKey b ∧ nonceKey a ≠ codeHashKey b := fun a b => by
    simp [balanceKey, nonceKey, codeHashKey, slotBalance, slotNonce, slotCodeHash]
  have hbal : ∀ a, residue keccak256 tx (txWrites keccak256 vm tx block base) (balanceKey a) =
      (leftover (balanceWrites keccak256 vm tx block base a)).map some := fun a => by
    rw [residue, if_neg (hslot a _).1, valuesAt_balanceKey, if_pos hacc]
  unfold ResidueIsBase
  rw [← sender_residue_iff]
  constructor
  · intro h
    refine ⟨h (balanceKey tx.from) _ (by rw [hbal, leftover_sender]; rfl), fun hv hcoin hne => ?_,
      fun hto => ?_⟩
    · refine (payee_residue_iff base hv).mp (h (balanceKey (payee keccak256 tx)) _ ?_)
      rw [hbal, leftover_other base hne.symm, if_pos ⟨⟨hv, rfl⟩, hcoin.symm⟩]
      rfl
    · refine (h (codeHashKey (payee keccak256 tx)) _ ?_).symm
      rw [residue, if_pos rfl, rowOf, valuesAt_codeHashKey, if_pos ⟨hacc, hto, rfl⟩]
      rfl
  · rintro ⟨hsender, hpayee, hcode⟩ k v hv
    by_cases hk : k = codeHashKey (payee keccak256 tx)
    · subst hk
      rw [residue, if_pos rfl, rowOf, valuesAt_codeHashKey] at hv
      split_ifs at hv with hto
      · cases hv
        exact (hcode hto.2.1).symm
      · cases hv
    · by_cases hnil : valuesAt (txWrites keccak256 vm tx block base) k = []
      · rw [residue, if_neg hk, hnil] at hv
        cases hv
      · obtain ⟨a, rfl | rfl | rfl⟩ := slot_of_valuesAt_ne_nil hnil
        · rw [hbal] at hv
          by_cases ha : tx.from = a
          · subst ha
            rw [leftover_sender] at hv
            cases hv
            exact hsender
          · rw [leftover_other base ha] at hv
            split_ifs at hv with hboth
            · obtain ⟨⟨hvalue, rfl⟩, hcoin⟩ := hboth
              cases hv
              exact (payee_residue_iff base hvalue).mpr (hpayee hvalue hcoin.symm (Ne.symm ha))
            · cases hv
        · rw [residue, if_neg hk, valuesAt_nonceKey] at hv
          split_ifs at hv <;> cases hv
        · rw [residue, if_neg hk, valuesAt_codeHashKey] at hv
          split_ifs at hv <;> cases hv

end

/-- **Exactly when an abort leaves no trace.** Kind: P -/
theorem abortLeavesNoTrace_iff (keccak256 : List UInt8 → Bytes 32) (vm : RytherVm)
    (tx : DecryptedTransaction) (block : BlockContext) (state : MultiVersionState)
    (hfresh : Fresh state tx.sequenceNumber) :
    AbortLeavesNoTrace keccak256 vm tx block state ↔
      tx.sequenceNumber = u64Max ∨ ¬ Accepted tx (viewOf state tx.sequenceNumber) ∨
        tx.sequenceNumber = 0 ∧
          ResidueIsBase keccak256 vm tx block fun k => state.baseState.lookup k := by
  unfold AbortLeavesNoTrace
  rw [read_put_eq_iff hfresh (toMemory_abort hfresh)]
  refine or_congr_right ?_
  by_cases hacc : Accepted tx (viewOf state tx.sequenceNumber)
  · rw [or_iff_right (not_not.mpr hacc)]
    constructor
    · intro h
      -- the sender's balance always leaves something, so the number is 0
      have hleft : (residue keccak256 tx (txWrites keccak256 vm tx block
          (viewOf state tx.sequenceNumber)) (balanceKey tx.from)).isSome := by
        rw [residue, if_neg (by simp [balanceKey, codeHashKey, slotBalance, slotCodeHash]),
          valuesAt_balanceKey, if_pos hacc, leftover_sender]
        rfl
      obtain ⟨v, hv⟩ := Option.isSome_iff_exists.mp hleft
      have hzero : tx.sequenceNumber = 0 := (h _ v hv).1
      rw [hzero, viewOf_zero] at h hacc
      exact ⟨hzero, (residue_eq_base_iff hacc).mp fun k v hv => (h k v hv).2⟩
    · rintro ⟨hzero, hbase⟩ k v hv
      rw [hzero, viewOf_zero] at hv hacc
      exact ⟨hzero, (residue_eq_base_iff hacc).mpr hbase k v hv⟩
  · refine iff_of_true (fun k v hv => ?_) (Or.inl hacc)
    have hnil : txWrites keccak256 vm tx block (viewOf state tx.sequenceNumber) = [] := if_neg hacc
    rw [hnil, residue] at hv
    split_ifs at hv <;> cases hv

/-- A transaction with a nonce gap. Kind: L -/
theorem abortLeavesNoTrace_nonce_gap :
    AbortLeavesNoTrace (fun _ => .fill 32 0xEE) ⟨∅⟩ (makeTx 0xAA (some 0xBB) 100 7 1) ⟨.fill 0⟩
      (fundedState [0xAA]) :=
  (abortLeavesNoTrace_iff _ _ _ _ _ fun _ => rfl).mpr (Or.inr (Or.inl (by decide +kernel)))

/-- **An aborted transfer stays visible.** The sender's balance has two versions, the abort marks
one, and later readers see the deduction. Kind: P -/
theorem aborted_transfer_visible :
    let tx := makeTx 0xAA (some 0xBB) 100 0 1
    let state := fundedState [0xAA]
    Fresh state tx.sequenceNumber ∧
      ¬ AbortLeavesNoTrace (fun _ => .fill 32 0xEE) ⟨∅⟩ tx ⟨.fill 0⟩ state := by
  refine ⟨fun _ => rfl, fun h => ?_⟩
  exact absurd (h (balanceKey (.fill 0xAA)) 2) (by decide +kernel)

end Ryther
