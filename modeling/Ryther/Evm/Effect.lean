import Ryther.Evm.Vm

/-!
# What one execution does

An execution reads at its own sequence number and writes at it, so it never sees its own writes:
everything it does is a function of the values it finds at the start, its *view*.

* `Accepted` — the nonce and balance checks pass on a view.
* `txReads`, `txWrites` — the keys read and the writes made, in order; `txWrites` marks the one
  write that is not recorded in the write set.
* `txOutcome` — status, gas used and output.
* `execute_eq` — **the effect of `execute`**: its result and the state it leaves are these
  functions of the view.
* `rowOf`, `toMemory_writeAll_of_fresh` — at a fresh sequence number the visible value of a key
  is the second one written, or the only one.
-/

namespace Ryther

open Lib

/-- The values a transaction finds, by key.
Kind: D -/
abbrev View := StateKey → Option U256

/-- The balance of an account in a view.
Kind: D -/
def balanceIn (view : View) (addr : Address) : U256 := (view (balanceKey addr)).getD .zero

/-- The nonce of an account in a view.
Kind: D -/
def nonceIn (view : View) (addr : Address) : UInt64 :=
  ((view (nonceKey addr)).map U256.limb0).getD 0

/-! ### Amounts -/

/-- What the sender has to hold: the value and the full gas cost.
Kind: D -/
def totalCost (tx : DecryptedTransaction) : U256 := addU256 tx.value (calculateGasCost tx)

/-- The nonce and balance checks pass.
Kind: D -/
def Accepted (tx : DecryptedTransaction) (view : View) : Prop :=
  nonceIn view tx.from = tx.nonce ∧ ¬ compareU256 (balanceIn view tx.from) (totalCost tx) < 0

instance (tx : DecryptedTransaction) (view : View) : Decidable (Accepted tx view) :=
  inferInstanceAs (Decidable (_ ∧ _))

/-- Gas charged for the call or the creation.
Kind: D -/
def gasUsedBy (vm : RytherVm) (tx : DecryptedTransaction) : UInt64 :=
  match tx.to with
  | some recipient =>
      match vm.codeStorage.lookup recipient with
      | some code =>
          if code ≠ [] then min (21000 + UInt64.ofNat tx.data.length * 16) tx.gasLimit else 21000
      | none => 21000
  | none => min (32000 + UInt64.ofNat tx.data.length * 200) tx.gasLimit

/-- The account that gets the value: the recipient or the new contract.
Kind: D -/
def payee (keccak256 : List UInt8 → Bytes 32) (tx : DecryptedTransaction) : Address :=
  match tx.to with
  | some recipient => recipient
  | none => computeCreateAddress keccak256 tx.from tx.nonce

/-- The payee's balance as written: a call adds the value, a creation overwrites with it.
Kind: D -/
def credited (tx : DecryptedTransaction) (balance : U256) : U256 :=
  match tx.to with
  | some _ => addU256 balance tx.value
  | none => tx.value

/-- The sender's balance after the deduction.
Kind: D -/
def deducted (tx : DecryptedTransaction) (balance : U256) : U256 := subU256 balance (totalCost tx)

/-- The sender's balance after the refund of unused gas.
Kind: D -/
def refunded (vm : RytherVm) (tx : DecryptedTransaction) (balance : U256) : U256 :=
  addU256 (deducted tx balance)
    (.fromU64 ((tx.gasLimit - gasUsedBy vm tx) * u256ToU64 tx.gasPrice))

/-- The coinbase's balance with the fee.
Kind: D -/
def withFee (vm : RytherVm) (tx : DecryptedTransaction) (balance : U256) : U256 :=
  addU256 balance (.fromU64 (gasUsedBy vm tx * u256ToU64 tx.gasPrice))

/-! ### Reads and writes -/

/-- One write of an execution; `tracked` tells whether it is recorded in the write set.
Kind: D -/
structure Write where
  key : StateKey
  value : U256
  tracked : Bool
  deriving DecidableEq

section

variable (keccak256 : List UInt8 → Bytes 32) (vm : RytherVm) (tx : DecryptedTransaction)
  (block : BlockContext) (view : View)

/-- The keys an execution reads, in order.
Kind: D -/
def txReads : List StateKey :=
  [balanceKey tx.from, nonceKey tx.from] ++
    if Accepted tx view then
      (match tx.to with
        | some recipient => if tx.value ≠ .zero then [balanceKey recipient] else []
        | none => []) ++ [balanceKey block.coinbase]
    else []

/-- The writes of the call or the creation, in order.
Kind: D -/
def transferWrites : List Write :=
  (if tx.value ≠ .zero then
    [⟨balanceKey (payee keccak256 tx), credited tx (balanceIn view (payee keccak256 tx)), true⟩]
  else []) ++
  match tx.to with
  | some _ => []
  | none =>
      [⟨codeHashKey (payee keccak256 tx), .fromBeBytes (keccak256 tx.data), false⟩]

/-- The writes of an execution, in order.
Kind: D -/
def txWrites : List Write :=
  if Accepted tx view then
    [⟨balanceKey tx.from, deducted tx (balanceIn view tx.from), true⟩,
      ⟨nonceKey tx.from, .fromU64 (nonceIn view tx.from + 1), true⟩] ++
    transferWrites keccak256 tx view ++
    [⟨balanceKey tx.from, refunded vm tx (balanceIn view tx.from), true⟩,
      ⟨balanceKey block.coinbase, withFee vm tx (balanceIn view block.coinbase), true⟩]
  else []

/-- Status, gas used and output of a result.
Kind: D -/
structure TxOutcome where
  status : ExecutionStatus
  gasUsed : UInt64
  output : List UInt8
  deriving DecidableEq

/-- The error of a rejected transaction.
Kind: D -/
def rejection : VmError :=
  if nonceIn view tx.from ≠ tx.nonce then .invalidNonce (nonceIn view tx.from) tx.nonce
  else .insufficientBalance

/-- The outcome of an execution.
Kind: D -/
def txOutcome : TxOutcome :=
  if Accepted tx view then
    ⟨.success, gasUsedBy vm tx,
      match tx.to with
      | some _ => []
      | none => (payee keccak256 tx).bytes.toList⟩
  else ⟨.failure, tx.gasLimit, (rejection tx view).display.toUTF8.toList⟩

end

/-- Record reads in a read set.
Kind: D -/
def recordReads (answers : StateKey → Option U256 × UInt64) (readSet : ReadSet)
    (keys : List StateKey) : ReadSet :=
  keys.foldl (fun rs k => rs.record k (answers k).1 (answers k).2) readSet

/-- Record the tracked writes in a write set.
Kind: D -/
def recordWrites (writeSet : WriteSet) (writes : List Write) : WriteSet :=
  writes.foldl (fun ws w => if w.tracked then ws.record w.key (some w.value) else ws) writeSet

/-- Make writes at a sequence number.
Kind: D -/
def writeAll (seq : UInt64) (state : MultiVersionState) (writes : List Write) : MultiVersionState :=
  writes.foldl (fun σ w => σ.write w.key seq (some w.value)) state

/-- The outcome of a result.
Kind: D -/
def ExecutionResult.outcome (r : ExecutionResult) : TxOutcome := ⟨r.status, r.gasUsed, r.output⟩

/-! ### The effect of an execution -/

section

variable {keccak256 : List UInt8 → Bytes 32} {vm : RytherVm} {tx : DecryptedTransaction}
  {block : BlockContext}

/-- What a transaction finds in a state.
Kind: D -/
def viewOf (state : MultiVersionState) (seq : UInt64) : View := fun k => (state.read k seq).1

/-- The result an execution returns, as a function of the answers to its reads.
Kind: D -/
def resultOf (keccak256 : List UInt8 → Bytes 32) (vm : RytherVm) (tx : DecryptedTransaction)
    (block : BlockContext) (answers : StateKey → Option U256 × UInt64) : ExecutionResult :=
  let view : View := fun k => (answers k).1
  { txSeq := tx.sequenceNumber
    status := (txOutcome keccak256 vm tx view).status
    readSet := recordReads answers .new (txReads tx block view)
    writeSet := recordWrites .new (txWrites keccak256 vm tx block view)
    gasUsed := (txOutcome keccak256 vm tx view).gasUsed
    logs := []
    output := (txOutcome keccak256 vm tx view).output }

/-- A frame after some reads and writes at a sequence number.
Kind: D -/
def Frame.after (f : Frame) (seq : UInt64) (reads : List StateKey) (writes : List Write) :
    Frame where
  state := writeAll seq f.state writes
  readSet := recordReads (fun k => f.state.read k seq) f.readSet reads
  writeSet := recordWrites f.writeSet writes

/-- Writes at a sequence number are invisible at it and below. Kind: L -/
theorem read_writeAll_of_le {seq r : UInt64} (h : r ≤ seq) (writes : List Write)
    (state : MultiVersionState) (k : StateKey) :
    (writeAll seq state writes).read k r = state.read k r := by
  unfold writeAll
  induction writes generalizing state with
  | nil => rfl
  | cons w writes ih => rw [List.foldl_cons, ih, state.read_write_of_le w.key h]

/-- A transaction does not read what it has written itself. Kind: L -/
@[simp] theorem read_writeAll_self (seq : UInt64) (writes : List Write) (state : MultiVersionState)
    (k : StateKey) : (writeAll seq state writes).read k seq = state.read k seq :=
  read_writeAll_of_le (UInt64.le_refl seq) writes state k

/-- The reads and writes of a transaction leave its own view as it was. Kind: L -/
@[simp] theorem viewOf_after (f : Frame) (seq : UInt64) (reads : List StateKey)
    (writes : List Write) : viewOf (f.after seq reads writes).state seq = viewOf f.state seq :=
  funext fun k => by simp [viewOf, Frame.after]

/-- Writes are made one after the other. Kind: L -/
theorem writeAll_append (seq : UInt64) (state : MultiVersionState) (w w' : List Write) :
    writeAll seq state (w ++ w') = writeAll seq (writeAll seq state w) w' := List.foldl_append

/-- Reads are recorded one after the other. Kind: L -/
theorem recordReads_append (answers : StateKey → Option U256 × UInt64) (rs : ReadSet)
    (r r' : List StateKey) :
    recordReads answers rs (r ++ r') = recordReads answers (recordReads answers rs r) r' :=
  List.foldl_append

/-- The writes of two lists are recorded one after the other. Kind: L -/
theorem recordWrites_append (ws : WriteSet) (w w' : List Write) :
    recordWrites ws (w ++ w') = recordWrites (recordWrites ws w) w' := List.foldl_append

/-- Reads and writes one after the other. Kind: L -/
@[simp] theorem after_after (f : Frame) (seq : UInt64) (r r' : List StateKey) (w w' : List Write) :
    (f.after seq r w).after seq r' w' = f.after seq (r ++ r') (w ++ w') := by
  simp [Frame.after, recordReads_append, recordWrites_append, writeAll_append]

/-- Without reads and writes a frame stays as it is. Kind: L -/
@[simp] theorem after_nil (f : Frame) (seq : UInt64) : f.after seq [] [] = f := rfl

/-- Reading a balance shows that of the view and records one read. Kind: L -/
theorem readBalance_eq (f : Frame) (addr : Address) (seq : UInt64) :
    f.readBalance addr seq =
      (balanceIn (viewOf f.state seq) addr, f.after seq [balanceKey addr] []) := rfl

/-- Reading a nonce shows that of the view and records one read. Kind: L -/
theorem readNonce_eq (f : Frame) (addr : Address) (seq : UInt64) :
    f.readNonce addr seq =
      (nonceIn (viewOf f.state seq) addr, f.after seq [nonceKey addr] []) := rfl

/-- Writing a balance is one recorded write under the key of the balance. Kind: L -/
theorem writeBalance_eq (f : Frame) (addr : Address) (seq : UInt64) (v : U256) :
    f.writeBalance addr seq v = f.after seq [] [⟨balanceKey addr, v, true⟩] := rfl

/-- Writing a nonce is one recorded write under the key of the nonce. Kind: L -/
theorem writeNonce_eq (f : Frame) (addr : Address) (seq nonce : UInt64) :
    f.writeNonce addr seq nonce = f.after seq [] [⟨nonceKey addr, .fromU64 nonce, true⟩] := rfl

/-- The write that is not recorded. Kind: L -/
theorem writeUntracked_eq (f : Frame) (key : StateKey) (seq : UInt64) (v : U256) :
    ({ f with state := f.state.write key seq (some v) } : Frame) =
      f.after seq [] [⟨key, v, false⟩] := rfl

/-- What `execute_call` does. Kind: P -/
theorem executeCall_eq {recipient : Address} (hto : tx.to = some recipient) (f : Frame) :
    vm.executeCall tx recipient f =
      (.ok (true, gasUsedBy vm tx, [], []),
        f.after tx.sequenceNumber (if tx.value ≠ .zero then [balanceKey recipient] else [])
          (transferWrites keccak256 tx (viewOf f.state tx.sequenceNumber))) := by
  have hpayee : payee keccak256 tx = recipient := by simp [payee, hto]
  have hframe : (if tx.value ≠ .zero then
        (f.after tx.sequenceNumber [balanceKey recipient] []).after tx.sequenceNumber []
          [⟨balanceKey recipient,
            addU256 (balanceIn (viewOf f.state tx.sequenceNumber) recipient) tx.value, true⟩]
      else f) = f.after tx.sequenceNumber
        (if tx.value ≠ .zero then [balanceKey recipient] else [])
        (transferWrites keccak256 tx (viewOf f.state tx.sequenceNumber)) := by
    by_cases hv : tx.value = .zero
    · simp [hv, transferWrites, hto]
    · simp [hv, transferWrites, hto, hpayee, credited]
  unfold RytherVm.executeCall
  simp only [readBalance_eq, writeBalance_eq, hframe]
  cases hcode : vm.codeStorage.lookup recipient with
  | none => simp [gasUsedBy, hto, hcode]
  | some code => by_cases hnil : code = [] <;> simp [gasUsedBy, hto, hcode, hnil]

/-- What `execute_create` does. Kind: P -/
theorem executeCreate_eq (hto : tx.to = none) (f : Frame) :
    RytherVm.executeCreate keccak256 tx f =
      (.ok (true, gasUsedBy vm tx, (payee keccak256 tx).bytes.toList, []),
        f.after tx.sequenceNumber []
          (transferWrites keccak256 tx (viewOf f.state tx.sequenceNumber))) := by
  have hpayee : payee keccak256 tx = computeCreateAddress keccak256 tx.from tx.nonce := by
    simp [payee, hto]
  unfold RytherVm.executeCreate
  simp only [writeBalance_eq, writeUntracked_eq, ← hpayee]
  by_cases hv : tx.value = .zero
  · simp [hv, transferWrites, hto, gasUsedBy]
  · simp [hv, transferWrites, hto, gasUsedBy, credited]

/-- What `execute_inner` does. Kind: P -/
theorem executeInner_eq (f : Frame) :
    vm.executeInner keccak256 tx block f =
      (if Accepted tx (viewOf f.state tx.sequenceNumber) then
        .ok ⟨true, gasUsedBy vm tx,
          (match tx.to with
            | some _ => []
            | none => (payee keccak256 tx).bytes.toList), []⟩
      else .error (rejection tx (viewOf f.state tx.sequenceNumber)),
        f.after tx.sequenceNumber (txReads tx block (viewOf f.state tx.sequenceNumber))
          (txWrites keccak256 vm tx block (viewOf f.state tx.sequenceNumber))) := by
  unfold RytherVm.executeInner
  simp only [readBalance_eq, readNonce_eq, viewOf_after, after_after]
  by_cases hn : nonceIn (viewOf f.state tx.sequenceNumber) tx.from = tx.nonce
  · by_cases hb : compareU256 (balanceIn (viewOf f.state tx.sequenceNumber) tx.from)
        (totalCost tx) < 0
    · have hacc : ¬ Accepted tx (viewOf f.state tx.sequenceNumber) := fun h => h.2 hb
      rw [totalCost] at hb
      simp [hn, hb, hacc, txReads, txWrites, rejection]
    · have hacc : Accepted tx (viewOf f.state tx.sequenceNumber) := ⟨hn, hb⟩
      rw [totalCost] at hb
      simp only [hn, hb, hacc, ne_eq, not_true_eq_false, if_false, if_true, writeBalance_eq,
        writeNonce_eq, after_after]
      cases hto : tx.to with
      | some recipient =>
          simp only [@executeCall_eq keccak256 vm tx recipient hto, viewOf_after, after_after]
          simp [txReads, txWrites, hacc, hto, hn, deducted, refunded, withFee, totalCost]
      | none =>
          simp only [@executeCreate_eq keccak256 vm tx hto, viewOf_after, after_after]
          simp [txReads, txWrites, hacc, hto, hn, deducted, refunded, withFee, totalCost]
  · have hacc : ¬ Accepted tx (viewOf f.state tx.sequenceNumber) := fun h => hn h.1
    simp [hn, hacc, txReads, txWrites, rejection]

/-- **The effect of `execute`.** Kind: P -/
theorem execute_eq (state : MultiVersionState) :
    vm.execute keccak256 tx state block =
      (resultOf keccak256 vm tx block (fun k => state.read k tx.sequenceNumber),
        writeAll tx.sequenceNumber state
          (txWrites keccak256 vm tx block (viewOf state tx.sequenceNumber))) := by
  unfold RytherVm.execute
  rw [executeInner_eq]
  by_cases hacc : Accepted tx (viewOf state tx.sequenceNumber)
  · have hacc' : Accepted tx fun k => (state.read k tx.sequenceNumber).1 := hacc
    simp only [hacc, if_true, resultOf, txOutcome, hacc']
    rfl
  · have hacc' : ¬ Accepted tx fun k => (state.read k tx.sequenceNumber).1 := hacc
    simp only [hacc, if_false, resultOf, txOutcome, hacc']
    rfl

/-- Success is acceptance. Kind: L -/
theorem status_txOutcome (tx : DecryptedTransaction) (view : View) :
    (txOutcome keccak256 vm tx view).status = .success ↔ Accepted tx view := by
  unfold txOutcome
  split_ifs with h <;> simp [h]

/-- An execution succeeds exactly if the transaction is accepted. Kind: L -/
theorem status_execute (state : MultiVersionState) :
    (vm.execute keccak256 tx state block).1.status = .success ↔
      Accepted tx (viewOf state tx.sequenceNumber) := by
  rw [execute_eq]
  exact status_txOutcome tx _

end

/-- A reader with no entries below it sees the base state. Kind: L -/
theorem viewOf_of_column_none {state : MultiVersionState} {k : StateKey} {seq : UInt64}
    (h : ∀ q < seq.toNat, state.toMemory.column k q = none) :
    viewOf state seq k = state.baseState.lookup k := by
  rw [viewOf, state.read_eq, newestBelow_eq_none_iff.mpr h]

/-- Number 0 reads the base state wherever it runs. Kind: L -/
theorem viewOf_zero (state : MultiVersionState) :
    viewOf state 0 = fun k => state.baseState.lookup k :=
  funext fun _ => viewOf_of_column_none fun q hq => absurd hq (by simp)

/-! ### What a series of writes leaves behind -/

/-- The values written to `k`, in order.
Kind: D -/
def valuesAt (writes : List Write) (k : StateKey) : List U256 :=
  (writes.filter fun w => w.key = k).map Write.value

/-- The value that is visible after a series of writes at a fresh sequence number: each write
goes just before the last version of its run, so the first one ends up last and the second one
stays first.
Kind: D -/
def visible : List U256 → Option U256
  | [] => none
  | [v] => some v
  | _ :: v :: _ => some v

/-- The row a series of writes leaves at a fresh sequence number.
Kind: D -/
def rowOf (writes : List Write) (k : StateKey) : Option (Option U256) :=
  (visible (valuesAt writes k)).map some

/-- The pending version of a written value.
Kind: D -/
def pendingVersion (seq : UInt64) (v : U256) : StateVersion := ⟨seq, some v, .pending⟩

/-- No key has a version at `seq`.
Kind: D -/
def Fresh (state : MultiVersionState) (seq : UInt64) : Prop :=
  ∀ k, state.runOf k seq.toNat = []

/-- The writes of a transaction do not reach the base state. Kind: L -/
@[simp] theorem baseState_writeAll (seq : UInt64) (state : MultiVersionState)
    (writes : List Write) : (writeAll seq state writes).baseState = state.baseState := by
  unfold writeAll
  induction writes generalizing state with
  | nil => rfl
  | cons w writes ih => rw [List.foldl_cons, ih, MultiVersionState.baseState_write]

/-- **The runs after a series of writes.** Kind: P -/
theorem runOf_writeAll (seq : UInt64) (writes : List Write) (state : MultiVersionState)
    (k : StateKey) (q : ℕ) :
    (writeAll seq state writes).runOf k q =
      if q = seq.toNat then
        ((valuesAt writes k).map (pendingVersion seq)).foldl tuck (state.runOf k q)
      else state.runOf k q := by
  unfold writeAll valuesAt
  induction writes generalizing state with
  | nil => simp
  | cons w writes ih =>
      rw [List.foldl_cons, ih, MultiVersionState.runOf_write]
      by_cases hq : q = seq.toNat
      · by_cases hk : k = w.key
        · simp [hq, hk, pendingVersion]
        · simp [hq, hk, Ne.symm hk]
      · simp [hq]

/-- The run of a key at a fresh sequence number: the first value written comes last. Kind: L -/
theorem runOf_writeAll_of_fresh {seq : UInt64} {state : MultiVersionState}
    (hfresh : Fresh state seq) (writes : List Write) (k : StateKey) :
    (writeAll seq state writes).runOf k seq.toNat =
      ((valuesAt writes k).tail ++ (valuesAt writes k).head?.toList).map (pendingVersion seq) := by
  rw [runOf_writeAll, if_pos rfl, hfresh k]
  cases valuesAt writes k with
  | nil => rfl
  | cons v vs =>
      rw [List.map_cons, foldl_tuck_nil]
      simp

/-- **At a fresh sequence number a series of writes puts the row of second values.** Kind: P -/
theorem toMemory_writeAll_of_fresh {seq : UInt64} {state : MultiVersionState}
    (hfresh : Fresh state seq) (writes : List Write) :
    (writeAll seq state writes).toMemory = state.toMemory.put seq.toNat (rowOf writes) := by
  unfold MultiVersionState.toMemory Memory.put
  simp only [baseState_writeAll, Memory.mk.injEq, true_and]
  funext k q
  by_cases hq : q = seq.toNat
  · subst hq
    rw [runOf_writeAll_of_fresh hfresh, if_pos rfl, rowOf]
    rcases valuesAt writes k with _ | ⟨v, _ | ⟨w, vs⟩⟩ <;>
      simp [live, visible, pendingVersion]
  · rw [runOf_writeAll, if_neg hq, if_neg hq]

/-- The value recorded for a key is the last tracked one. Kind: L -/
theorem lookup_recordWrites (writes : List Write) (ws : WriteSet) (k : StateKey) :
    (recordWrites ws writes).writes.lookup k =
      match (valuesAt (writes.filter Write.tracked) k).getLast? with
      | some v => some (some v)
      | none => ws.writes.lookup k := by
  unfold recordWrites
  induction writes using List.reverseRecOn with
  | nil => rfl
  | append_singleton writes w ih =>
      rw [List.foldl_append, List.foldl_cons, List.foldl_nil]
      by_cases ht : w.tracked
      · by_cases hk : k = w.key
        · subst hk
          simp [ht, WriteSet.record, valuesAt, List.filter_append]
        · have hsame : valuesAt ((writes ++ [w]).filter Write.tracked) k =
              valuesAt (writes.filter Write.tracked) k := by
            simp [ht, valuesAt, List.filter_append, Ne.symm hk]
          rw [if_pos ht, hsame, ← ih]
          exact AList.lookup_insert_ne hk
      · rw [if_neg ht, ih]
        simp [ht, List.filter_append]

/-- The keys of the write set are the tracked keys. Kind: L -/
theorem mem_keys_recordWrites (writes : List Write) (k : StateKey) :
    k ∈ (recordWrites .new writes).keys ↔ ∃ w ∈ writes, w.tracked = true ∧ w.key = k := by
  have hmem : k ∈ (recordWrites .new writes).keys ↔
      ((recordWrites .new writes).writes.lookup k).isSome := by
    rw [AList.lookup_isSome]
    rfl
  rw [hmem, lookup_recordWrites]
  cases hlast : (valuesAt (writes.filter Write.tracked) k).getLast? with
  | some v =>
      have hv := List.mem_of_getLast? hlast
      simp only [valuesAt, List.mem_map, List.mem_filter, decide_eq_true_eq] at hv
      obtain ⟨w, ⟨⟨hw, ht⟩, hk⟩, -⟩ := hv
      simp only [Option.isSome_some, true_iff]
      exact ⟨w, hw, ht, hk⟩
  | none =>
      have hnil := List.getLast?_eq_none_iff.mp hlast
      simp only [WriteSet.new, AList.lookup_empty, Option.isSome_none, Bool.false_eq_true,
        false_iff]
      rintro ⟨w, hw, ht, hk⟩
      have : w.value ∈ valuesAt (writes.filter Write.tracked) k :=
        List.mem_map.mpr ⟨w, List.mem_filter.mpr ⟨List.mem_filter.mpr ⟨hw, ht⟩, by simp [hk]⟩, rfl⟩
      rw [hnil] at this
      cases this

end Ryther
