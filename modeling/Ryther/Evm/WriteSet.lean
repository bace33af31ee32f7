import Ryther.Evm.Accounts

/-!
# The write set and the store

The write set of an execution keeps the last tracked value of each key. The store keeps all of
them, and shows the second one where there are two or more. The two agree on every key except in
two situations: the sender's balance is written three or four times (the sender is also the payee
or the coinbase), or a contract is created, whose code hash is written without being recorded.

* `DirectlyAfter` — readers with no versions between them and the transaction.
* `read_execute` — what such a reader sees.
* `writeSetExact_iff` — exactly when the write set tells the truth.
* `coinbase_sender_sees_refund` — a sender who is the coinbase: the fee is recorded but not seen.
-/

namespace Ryther

open Lib

/-- A reader above `s` with no versions of any key between.
Kind: D -/
def DirectlyAfter (state : MultiVersionState) (s r : UInt64) : Prop :=
  s < r ∧ ∀ k q, s.toNat < q → q < r.toNat → state.runOf k q = []

/-- The write set tells readers directly after the transaction what they see: the recorded value
of every recorded key, and of every other key what a reader at the transaction saw before.
Kind: D -/
def WriteSetExact (keccak256 : List UInt8 → Bytes 32) (vm : RytherVm) (tx : DecryptedTransaction)
    (block : BlockContext) (state : MultiVersionState) : Prop :=
  ∀ r, DirectlyAfter state tx.sequenceNumber r → ∀ k,
    (k ∈ (vm.execute keccak256 tx state block).1.writeSet.keys →
      (vm.execute keccak256 tx state block).1.writeSet.writes.lookup k =
        some ((vm.execute keccak256 tx state block).2.read k r).1) ∧
    (k ∉ (vm.execute keccak256 tx state block).1.writeSet.keys →
      ((vm.execute keccak256 tx state block).2.read k r).1 =
        (state.read k tx.sequenceNumber).1)

section

variable {keccak256 : List UInt8 → Bytes 32} {vm : RytherVm} {tx : DecryptedTransaction}
  {block : BlockContext} {state : MultiVersionState}

/-- The next number is directly after. Kind: L -/
theorem directlyAfter_succ {s : UInt64} (hmax : s ≠ u64Max) : DirectlyAfter state s (s + 1) := by
  have hsucc := toNat_succ hmax
  refine ⟨UInt64.lt_iff_toNat_lt.mpr (by omega), fun k q h1 h2 => ?_⟩
  omega

/-- Nothing is after the largest number. Kind: L -/
theorem not_directlyAfter_max {r : UInt64} : ¬ DirectlyAfter state u64Max r := fun h => by
  have h1 := UInt64.lt_iff_toNat_lt.mp h.1
  have h2 := r.toNat_lt
  have h3 : u64Max.toNat = 18446744073709551615 := rfl
  omega

/-- **What a reader directly after an execution sees.** Kind: P -/
theorem read_execute (hfresh : Fresh state tx.sequenceNumber) {r : UInt64}
    (hr : DirectlyAfter state tx.sequenceNumber r) (k : StateKey) :
    ((vm.execute keccak256 tx state block).2.read k r).1 =
      (rowOf (txWrites keccak256 vm tx block (viewOf state tx.sequenceNumber)) k).getD
        (viewOf state tx.sequenceNumber k) := by
  rw [execute_eq, MultiVersionState.read_fst, toMemory_writeAll_of_fresh hfresh,
    Memory.read_put_of_lt _ _ _ (UInt64.lt_iff_toNat_lt.mp hr.1), viewOf,
    MultiVersionState.read_fst]
  intro q h1 h2
  simp only [MultiVersionState.toMemory, hr.2 k q h1 h2, live]

/-! ### Keys on which the two agree -/

/-- The value the store shows is the last one written.
Kind: D -/
def ShowsLast (values : List U256) : Prop := visible values = values.getLast?

instance (values : List U256) : Decidable (ShowsLast values) :=
  inferInstanceAs (Decidable (_ = _))

/-- Something is shown after a write. Kind: L -/
theorem visible_concat (init : List U256) (last : U256) :
    ∃ v, visible (init.concat last) = some v := by
  rcases init with _ | ⟨a, _ | ⟨b, rest⟩⟩ <;> simp [visible]

/-- The write set is exact if and only if the store shows the last value of every key but the code
hash of a new contract, which must not change. Kind: L -/
theorem writeSetExact_iff_showsLast (hfresh : Fresh state tx.sequenceNumber)
    (hmax : tx.sequenceNumber ≠ u64Max) :
    WriteSetExact keccak256 vm tx block state ↔
      ∀ k, if k = codeHashKey (payee keccak256 tx) then
          ∀ v ∈ rowOf (txWrites keccak256 vm tx block (viewOf state tx.sequenceNumber)) k,
            v = viewOf state tx.sequenceNumber k
        else ShowsLast
          (valuesAt (txWrites keccak256 vm tx block (viewOf state tx.sequenceNumber)) k) := by
  generalize hwrites : txWrites keccak256 vm tx block (viewOf state tx.sequenceNumber) = writes
  have hset : (vm.execute keccak256 tx state block).1.writeSet = recordWrites .new writes := by
    rw [execute_eq, ← hwrites]
    rfl
  have hlook : ∀ k, k ≠ codeHashKey (payee keccak256 tx) →
      (recordWrites .new writes).writes.lookup k = (valuesAt writes k).getLast?.map some := by
    intro k hk
    rw [lookup_recordWrites, ← hwrites, valuesAt_tracked, if_neg hk]
    cases (valuesAt _ k).getLast? <;> rfl
  have hkeys : ∀ k, k ∈ (recordWrites .new writes).keys ↔
      k ≠ codeHashKey (payee keccak256 tx) ∧ valuesAt writes k ≠ [] := by
    rw [← hwrites]
    exact mem_keys_txWrites tx _
  have hpoint : ∀ r, DirectlyAfter state tx.sequenceNumber r → ∀ k,
      ((k ∈ (recordWrites .new writes).keys → (recordWrites .new writes).writes.lookup k =
          some ((vm.execute keccak256 tx state block).2.read k r).1) ∧
        (k ∉ (recordWrites .new writes).keys →
          ((vm.execute keccak256 tx state block).2.read k r).1 =
            (state.read k tx.sequenceNumber).1)) ↔
      if k = codeHashKey (payee keccak256 tx) then
        ∀ v ∈ rowOf writes k, v = viewOf state tx.sequenceNumber k
      else ShowsLast (valuesAt writes k) := by
    intro r hr k
    rw [read_execute hfresh hr, hwrites, hkeys]
    split_ifs with hk
    · cases hrow : rowOf writes k <;> simp [hk, viewOf]
    · rw [hlook k hk, rowOf, ShowsLast]
      rcases List.eq_nil_or_concat (valuesAt writes k) with hnil | ⟨init, last, hlast⟩
      · simp [hnil, visible, viewOf]
      · obtain ⟨v, hv⟩ := visible_concat init last
        rw [hlast, hv]
        simp [hk]
        exact eq_comm
  unfold WriteSetExact
  rw [hset]
  constructor
  · intro h k
    exact (hpoint _ (directlyAfter_succ hmax) k).mp (h _ (directlyAfter_succ hmax) k)
  · intro h r hr k
    exact (hpoint r hr k).mpr (h k)

/-! ### The sender's balance -/

/-- The amounts the sender's balance takes agree where the store and the write set differ: if the
sender is also the payee or the coinbase, the store shows its second value and the write set
records its last one.
Kind: D -/
def SenderAmountsAgree (keccak256 : List UInt8 → Bytes 32) (vm : RytherVm)
    (tx : DecryptedTransaction) (block : BlockContext) (balance : U256) : Prop :=
  if tx.value ≠ .zero ∧ payee keccak256 tx = tx.from then
    if block.coinbase = tx.from then credited tx balance = withFee vm tx balance
    else credited tx balance = refunded vm tx balance
  else block.coinbase = tx.from → refunded vm tx balance = withFee vm tx balance

instance (balance : U256) : Decidable (SenderAmountsAgree keccak256 vm tx block balance) := by
  unfold SenderAmountsAgree
  infer_instance

/-- Balances other than the sender's are written at most twice and always agree. Kind: L -/
theorem showsLast_balanceWrites (view : View) (a : Address) :
    ShowsLast (balanceWrites keccak256 vm tx block view a) ↔
      (a = tx.from →
        SenderAmountsAgree keccak256 vm tx block (balanceIn view tx.from)) := by
  unfold ShowsLast balanceWrites SenderAmountsAgree
  by_cases ha : tx.from = a
  · subst ha
    by_cases hpay : tx.value ≠ .zero ∧ payee keccak256 tx = tx.from <;>
      by_cases hcoin : block.coinbase = tx.from
    · simp [hpay.1, hpay.2, hcoin, visible]
    · simp [hpay.1, hpay.2, hcoin, visible]
    · simp only [if_neg hpay]
      simp [hcoin, visible]
    · simp only [if_neg hpay]
      simp [hcoin, visible]
  · split_ifs <;> simp [visible, Ne.symm ha]

/-- **Exactly when the write set tells the truth.** Kind: P -/
theorem writeSetExact_iff (keccak256 : List UInt8 → Bytes 32) (vm : RytherVm)
    (tx : DecryptedTransaction) (block : BlockContext) (state : MultiVersionState)
    (hfresh : Fresh state tx.sequenceNumber) :
    WriteSetExact keccak256 vm tx block state ↔
      tx.sequenceNumber = u64Max ∨ ¬ Accepted tx (viewOf state tx.sequenceNumber) ∨
        SenderAmountsAgree keccak256 vm tx block
            (balanceIn (viewOf state tx.sequenceNumber) tx.from) ∧
          (tx.to = none → viewOf state tx.sequenceNumber (codeHashKey (payee keccak256 tx)) =
            some (.fromBeBytes (keccak256 tx.data))) := by
  by_cases hmax : tx.sequenceNumber = u64Max
  · refine iff_of_true (fun r hr => ?_) (Or.inl hmax)
    rw [hmax] at hr
    exact absurd hr not_directlyAfter_max
  rw [writeSetExact_iff_showsLast hfresh hmax, or_iff_right hmax]
  generalize viewOf state tx.sequenceNumber = view
  by_cases hacc : Accepted tx view
  · rw [or_iff_right (not_not.mpr hacc)]
    constructor
    · intro h
      constructor
      · have hbal := h (balanceKey tx.from)
        rw [if_neg (by simp [balanceKey, codeHashKey, slotBalance, slotCodeHash]),
          valuesAt_balanceKey, if_pos hacc] at hbal
        exact (showsLast_balanceWrites view tx.from).mp hbal rfl
      · intro hto
        have hcode := h (codeHashKey (payee keccak256 tx))
        rw [if_pos rfl, rowOf, valuesAt_codeHashKey, if_pos ⟨hacc, hto, rfl⟩] at hcode
        exact (hcode _ rfl).symm
    · rintro ⟨hbal, hcode⟩ k
      split_ifs with hk
      · subst hk
        rw [rowOf, valuesAt_codeHashKey]
        split_ifs with hto
        · rintro v ⟨⟩
          exact (hcode hto.2.1).symm
        · rintro v ⟨⟩
      · by_cases hnil : valuesAt (txWrites keccak256 vm tx block view) k = []
        · rw [hnil]
          rfl
        · obtain ⟨a, rfl | rfl | rfl⟩ := slot_of_valuesAt_ne_nil hnil
          · rw [valuesAt_balanceKey, if_pos hacc]
            exact (showsLast_balanceWrites view a).mpr fun _ => hbal
          · rw [valuesAt_nonceKey]
            split_ifs <;> rfl
          · rw [valuesAt_codeHashKey]
            split_ifs <;> rfl
  · refine iff_of_true (fun k => ?_) (Or.inl hacc)
    have hnil : txWrites keccak256 vm tx block view = [] := if_neg hacc
    rw [hnil]
    split_ifs
    · rintro v ⟨⟩
    · rfl

end

/-- A call between three accounts. Kind: L -/
theorem writeSetExact_distinct_accounts :
    WriteSetExact (fun _ => .fill 32 0xEE) ⟨∅⟩ (makeTx 0xAA (some 0xBB) 100 0 1) ⟨.fill 0⟩
      (fundedState [0xAA]) :=
  (writeSetExact_iff _ _ _ _ _ fun _ => rfl).mpr (by decide +kernel)

/-- **A sender who is the coinbase.** The balance is written three times; the store shows the
refund, the write set records the fee. Kind: P -/
theorem coinbase_sender_sees_refund :
    let tx := makeTx 0xAA (some 0xBB) 100 0 1
    let state := fundedState [0xAA]
    Fresh state tx.sequenceNumber ∧
      ¬ WriteSetExact (fun _ => .fill 32 0xEE) ⟨∅⟩ tx ⟨.fill 0xAA⟩ state := by
  refine ⟨fun _ => rfl, fun h => ?_⟩
  have hread := (h 2 (directlyAfter_succ (s := 1) (by decide)) (balanceKey (.fill 0xAA))).1
    (by decide +kernel)
  exact absurd hread (by decide +kernel)

end Ryther
