import Ryther.Execution.Misled

/-!
# Stale reads of the base state

Version 0 of a read means the base state, and it is also the version of what the transaction with
sequence number 0 writes. A transaction that runs before number 0 and reads the base state is
therefore never found in conflict with it.

* `txWrites_eq_of_recorded` — the write set of a result tells the writes it came from, unless a
  transfer to oneself loses a borrow.
* `catchesStaleReads_iff` — the runs, one by one, on which validation catches every stale read.
* `schedule_catches_iff` — the schedules on which it does so for every batch. For every schedule in
  which number 0 comes after the first place there is a batch whose stale read validates: the first
  transaction pays from one account, number 0 from another, and the remaining ones have a nonce gap
  and are rejected (`clean_stale`).
* `stale_read_of_base_validates` — the shortest failing run.
-/

namespace Ryther

open Lib

/-! ### What a result tells about the writes -/

/-- Adding one amount loses nothing. Kind: L -/
theorem addU256_right_cancel {a b c : U256} (h : addU256 a c = addU256 b c) : a = b := by
  have ha := a.toNat_lt
  have hb := b.toNat_lt
  have hnat := congrArg U256.toNat h
  rw [toNat_addU256, toNat_addU256] at hnat
  exact U256.toNat_injective (by omega)

/-- Where no borrow is lost a deduction tells the balance. Kind: L -/
theorem subU256_right_cancel {a b c : U256} (ha : ¬ LostBorrow a c) (hb : ¬ LostBorrow b c)
    (h : subU256 a c = subU256 b c) : a = b := by
  have hsubA := toNat_subU256 a c
  have hsubB := toNat_subU256 b c
  rw [if_neg ha] at hsubA
  rw [if_neg hb] at hsubB
  rw [h] at hsubA
  exact U256.toNat_injective (by omega)

section

variable {keccak256 : List UInt8 → Bytes 32} {vm : RytherVm} {tx : DecryptedTransaction}
  {block : BlockContext} {view view' : View}

/-- The write set records the last value of each balance. Kind: L -/
theorem lookup_balance_recorded (hacc : Accepted tx view) (a : Address) :
    (recordWrites .new (txWrites keccak256 vm tx block view)).writes.lookup (balanceKey a) =
      (balanceWrites keccak256 vm tx block view a).getLast?.map some := by
  have hslot : balanceKey a ≠ codeHashKey (payee keccak256 tx) := by
    simp [balanceKey, codeHashKey, slotBalance, slotCodeHash]
  rw [lookup_recordWrites, valuesAt_tracked, if_neg hslot, valuesAt_balanceKey, if_pos hacc]
  cases (balanceWrites keccak256 vm tx block view a).getLast? <;> rfl

/-- Equal write sets record the same last value of each balance. Kind: L -/
theorem getLast?_eq_of_recorded (hacc : Accepted tx view) (hacc' : Accepted tx view')
    (h : recordWrites .new (txWrites keccak256 vm tx block view) =
      recordWrites .new (txWrites keccak256 vm tx block view')) (a : Address) :
    (balanceWrites keccak256 vm tx block view a).getLast? =
      (balanceWrites keccak256 vm tx block view' a).getLast? := by
  have hlookup := congrArg (fun ws => ws.writes.lookup (balanceKey a)) h
  simp only [lookup_balance_recorded hacc, lookup_balance_recorded hacc'] at hlookup
  exact Option.map_injective (Option.some_injective _) hlookup

/-- The fee, written last, tells the balance of the coinbase. Kind: L -/
theorem balanceIn_coinbase_eq_of_getLast?
    (hlast : (balanceWrites keccak256 vm tx block view block.coinbase).getLast? =
      (balanceWrites keccak256 vm tx block view' block.coinbase).getLast?) :
    balanceIn view block.coinbase = balanceIn view' block.coinbase := by
  simp only [balanceWrites, if_true, List.getLast?_append, List.getLast?_singleton,
    Option.some_or, Option.some.injEq] at hlast
  exact addU256_right_cancel hlast

variable (hlast : ∀ a, (balanceWrites keccak256 vm tx block view a).getLast? =
  (balanceWrites keccak256 vm tx block view' a).getLast?)
include hlast

/-- The refund tells the sender's balance after the deduction. Kind: L -/
theorem deducted_eq_of_getLast? :
    deducted tx (balanceIn view tx.from) = deducted tx (balanceIn view' tx.from) := by
  by_cases hfrom : block.coinbase = tx.from
  · rw [← hfrom, balanceIn_coinbase_eq_of_getLast? (hlast _)]
  · have hrefund := hlast tx.from
    simp only [balanceWrites, hfrom, if_true, if_false, List.append_nil, List.getLast?_append,
      List.getLast?_singleton, Option.some_or, Option.some.injEq] at hrefund
    exact addU256_right_cancel hrefund

/-- The recorded balances tell the credit of the payee. In a transfer to oneself the refund replaces
the credit, and tells it only where `sub_u256` loses no borrow. Kind: L -/
theorem credited_eq_of_getLast? (hvalue : tx.value ≠ .zero)
    (hself : tx.to = some tx.from → ¬ LostBorrow (balanceIn view tx.from) (totalCost tx) ∧
      ¬ LostBorrow (balanceIn view' tx.from) (totalCost tx)) :
    credited tx (balanceIn view (payee keccak256 tx)) =
      credited tx (balanceIn view' (payee keccak256 tx)) := by
  cases hto : tx.to with
  | none => simp only [credited, hto]
  | some recipient =>
      have hpayee : payee keccak256 tx = recipient := by simp [payee, hto]
      rw [hpayee]
      by_cases hcoll : block.coinbase = recipient
      · rw [← hcoll, balanceIn_coinbase_eq_of_getLast? (hlast _)]
      · by_cases hfrom : tx.from = recipient
        · obtain ⟨hkeeps, hkeeps'⟩ := hself (by rw [hto, hfrom])
          rw [← hfrom, subU256_right_cancel hkeeps hkeeps' (deducted_eq_of_getLast? hlast)]
        · simpa [balanceWrites, hvalue, hpayee, hfrom, hcoll] using hlast recipient

omit hlast in
/-- **The write set of an accepted transaction tells its writes.** The exception is a transfer to
oneself: it also writes the balance with the credit, which the refund replaces in the write set, and
the refund tells the balance only where `sub_u256` loses no borrow. Kind: P -/
theorem txWrites_eq_of_recorded (hacc : Accepted tx view) (hacc' : Accepted tx view')
    (hself : tx.to = some tx.from → ¬ LostBorrow (balanceIn view tx.from) (totalCost tx) ∧
      ¬ LostBorrow (balanceIn view' tx.from) (totalCost tx))
    (h : recordWrites .new (txWrites keccak256 vm tx block view) =
      recordWrites .new (txWrites keccak256 vm tx block view')) :
    txWrites keccak256 vm tx block view = txWrites keccak256 vm tx block view' := by
  have hlast := getLast?_eq_of_recorded hacc hacc' h
  have htransfer : transferWrites keccak256 tx view = transferWrites keccak256 tx view' := by
    unfold transferWrites
    split_ifs with hvalue
    · rw [credited_eq_of_getLast? hlast hvalue hself]
    · rfl
  rw [txWrites, txWrites, if_pos hacc, if_pos hacc', hacc.1, hacc'.1, htransfer,
    balanceIn_coinbase_eq_of_getLast? (hlast _), refunded, refunded, deducted_eq_of_getLast? hlast]

end

/-! ### Exactly the misled runs -/

/-- No accepted transfer to oneself of a run in the given order loses a borrow in `sub_u256`.
Kind: D -/
def KeepsBorrows (keccak256 : List UInt8 → Bytes 32) (ex : ParallelExecutor) (block : BlockContext)
    (state : MultiVersionState) (order : List DecryptedTransaction) : Prop :=
  ∀ pre tx post, order = pre ++ tx :: post → tx.to = some tx.from →
    Accepted tx (viewOf (ex.executeAll keccak256 block pre state).2 tx.sequenceNumber) →
    ¬ LostBorrow (balanceIn (viewOf (ex.executeAll keccak256 block pre state).2 tx.sequenceNumber)
      tx.from) (totalCost tx)

section

variable {keccak256 : List UInt8 → Bytes 32} {ex : ParallelExecutor} {block : BlockContext}
  {state : MultiVersionState} {order : List DecryptedTransaction}

/-- A batch without transfers to oneself loses no borrow in them. Kind: L -/
theorem keepsBorrows_of_ne (h : ∀ tx ∈ order, tx.to ≠ some tx.from) :
    KeepsBorrows keccak256 ex block state order := by
  rintro pre tx post rfl hself
  exact absurd hself (h tx (by simp))

/-- The place of a transaction in ascending order is told by its number. Kind: L -/
theorem split_eq_of_sequenceNumber_eq {l pre post pre' post' : List DecryptedTransaction}
    {tx tx' : DecryptedTransaction}
    (hnodup : (l.map DecryptedTransaction.sequenceNumber).Nodup) (hsplit : l = pre ++ tx :: post)
    (hsplit' : l = pre' ++ tx' :: post') (hseq : tx.sequenceNumber = tx'.sequenceNumber) :
    pre = pre' ∧ tx = tx' := by
  have htx : tx = tx' := List.inj_on_of_nodup_map hnodup (by rw [hsplit]; simp)
    (by rw [hsplit']; simp) hseq
  subst htx
  have hone : tx ∉ pre ∧ tx ∉ post := by
    have hl := hnodup.of_map
    rw [hsplit] at hl
    exact not_or.mp fun h => (List.nodup_cons.mp (List.nodup_middle.mp hl)).1
      (List.mem_append.mpr h)
  obtain ⟨hpre, -, -⟩ := (List.append_cons_inj_of_notMem hone.1 hone.2).mp (hsplit ▸ hsplit')
  exact ⟨hpre, rfl⟩

/-- **Results that match ascending order come from the writes of ascending order.** Kind: P -/
theorem sameWrites_of_catchesStaleReads
    (hnodup : (order.map DecryptedTransaction.sequenceNumber).Nodup)
    (hkeeps : KeepsBorrows keccak256 ex block state order)
    (hkeeps' : KeepsBorrows keccak256 ex block state (sortTxs order))
    (hcatches : CatchesStaleReads keccak256 ex block state order)
    (hvalid : (validateBatch (ex.executeAll keccak256 block order state).1).aborted = []) :
    ex.SameWrites keccak256 block state order := by
  intro pre tx post pre' post' hsplit hsplit'
  obtain ⟨r', hr', hseq, hstatus, -, hrecorded⟩ := hcatches hvalid _
    (hsplit ▸ ParallelExecutor.mem_executeAll_middle pre post tx state)
  obtain ⟨pre'', tx', post'', hsplit'', rfl⟩ := ParallelExecutor.exists_of_mem_executeAll hr'
  have hnodup' : ((sortTxs order).map DecryptedTransaction.sequenceNumber).Nodup :=
    ((sortTxs_perm order).map _).nodup_iff.mpr hnodup
  obtain ⟨rfl, rfl⟩ := split_eq_of_sequenceNumber_eq hnodup' hsplit'' hsplit' (by
    simpa only [execute_eq, resultOf] using hseq)
  have hacc := (@status_execute keccak256 ex.vm tx' block
    (ex.executeAll keccak256 block pre'' state).2).symm
  rw [hstatus, status_execute] at hacc
  by_cases hacc' : Accepted tx'
      (viewOf (ex.executeAll keccak256 block pre state).2 tx'.sequenceNumber)
  · rw [execute_eq, execute_eq] at hrecorded
    exact txWrites_eq_of_recorded hacc' (hacc.mpr hacc') (fun hself =>
      ⟨hkeeps _ _ _ hsplit hself hacc', hkeeps' _ _ _ hsplit' hself (hacc.mpr hacc')⟩)
      hrecorded.symm
  · rw [(txWrites_eq_nil_iff _).mpr hacc', (txWrites_eq_nil_iff _).mpr (mt hacc.mp hacc')]

/-- **Validation catches the stale reads of exactly the runs that number 0 does not mislead.** If
number 0 misleads no transaction of a validated run, then the results are those of ascending order.
The converse holds as well where no transfer to oneself loses a borrow, in which case the write set
may hide the difference. A transaction that is misled has read the base state, as version 0, at a
key that number 0, accepted later, writes. Kind: P -/
theorem catchesStaleReads_iff (hdata : state.data = ∅)
    (hnodup : (order.map DecryptedTransaction.sequenceNumber).Nodup) :
    (((validateBatch (ex.executeAll keccak256 block order state).1).aborted = [] →
        ex.NoneMisled keccak256 block state order) →
      CatchesStaleReads keccak256 ex block state order) ∧
    (KeepsBorrows keccak256 ex block state order →
      KeepsBorrows keccak256 ex block state (sortTxs order) →
      CatchesStaleReads keccak256 ex block state order →
      (validateBatch (ex.executeAll keccak256 block order state).1).aborted = [] →
        ex.NoneMisled keccak256 block state order) ∧
    ∀ pre tx later, order = pre ++ tx :: later → ex.Misled keccak256 block state pre tx later →
      ∃ zero ∈ later, zero.sequenceNumber = 0 ∧ Accepted zero (viewOf state 0) ∧
        ∃ k ∈ txReads tx block
            (viewOf (ex.executeAll keccak256 block pre state).2 tx.sequenceNumber),
          ((ex.executeAll keccak256 block pre state).2.read k tx.sequenceNumber).2 = 0 ∧
            ∃ w ∈ txWrites keccak256 ex.vm zero block (viewOf state 0), w.key = k := by
  refine ⟨catchesStaleReads_of_noneMisled hdata hnodup, ?_, fun pre tx later _ h => h.exists_read⟩
  intro hkeeps hkeeps' hcatches hvalid
  have hclean : Clean (ex.executeAll keccak256 block order state).1 :=
    (aborted_validateBatch_eq_nil_iff
      (by rw [ParallelExecutor.executeAll_map_txSeq]; exact hnodup)).mp hvalid
  exact (sameWrites_of_catchesStaleReads hnodup hkeeps hkeeps' hcatches hvalid).noneMisled hdata
    hnodup hclean

end

/-- A batch whose number 0 runs last and has a nonce gap: it is rejected, writes nothing and
misleads nobody. Kind: L -/
theorem catchesStaleReads_rejected :
    let order := [makeTx 0xBB (some 0xDD) 10 0 1, makeTx 0xAA (some 0xCC) 50 7 0]
    let keccak256 : List UInt8 → Bytes 32 := fun _ => .fill 32 0xEE
    let ex : ParallelExecutor := ⟨3, ⟨∅⟩⟩
    CatchesStaleReads keccak256 ex ⟨.fill 0⟩ (fundedState [0xAA, 0xBB]) order ∧
      ex.NoneMisled keccak256 ⟨.fill 0⟩ (fundedState [0xAA, 0xBB]) order := by
  intro order keccak256 ex
  have hexact := @catchesStaleReads_iff keccak256 ex ⟨.fill 0⟩ (fundedState [0xAA, 0xBB]) order rfl
    (by decide)
  have hcatches := hexact.1 fun _ => noneMisled_of_rejected (by decide +kernel)
  exact ⟨hcatches, hexact.2.1 (keepsBorrows_of_ne (by decide +kernel))
    (keepsBorrows_of_ne (by decide +kernel)) hcatches (by decide +kernel)⟩

/-! ### Reads and writes of single transactions -/

/-- The keys a call writes. Kind: L -/
theorem key_of_mem_txWrites_call {keccak256 : List UInt8 → Bytes 32} {vm : RytherVm}
    {tx : DecryptedTransaction} {block : BlockContext} {view : View} {recipient : Address}
    {w : Write} (hto : tx.to = some recipient) (hw : w ∈ txWrites keccak256 vm tx block view) :
    w.key ∈ [balanceKey tx.from, nonceKey tx.from, balanceKey recipient,
      balanceKey block.coinbase] := by
  unfold txWrites transferWrites at hw
  have hpayee : payee keccak256 tx = recipient := by simp [payee, hto]
  split_ifs at hw <;> simp [hto, hpayee] at hw <;> grind

/-- The coinbase balance a transaction records: its fee on what it saw, if it is accepted.
Kind: L -/
theorem lookup_coinbase {keccak256 : List UInt8 → Bytes 32} {vm : RytherVm}
    {tx : DecryptedTransaction} {block : BlockContext} {view : View} :
    (recordWrites .new (txWrites keccak256 vm tx block view)).writes.lookup
        (balanceKey block.coinbase) =
      if Accepted tx view then some (some (withFee vm tx (balanceIn view block.coinbase)))
      else none := by
  rw [lookup_recordWrites]
  split_ifs with hacc
  · simp [txWrites, hacc, valuesAt]
  · simp [txWrites, hacc, valuesAt, WriteSet.new]

/-! ### The stale batch -/

/-- The transaction with the given number in a schedule that starts with `first`. Kind: D -/
def staleTx (first seq : UInt64) : DecryptedTransaction :=
  if seq = 0 then makeTx 0xAA (some 0xCC) 50 0 0
  else if seq = first then makeTx 0xBB (some 0xDD) 10 0 seq
  else makeTx 0xEE (some 0xEE) 0 7 seq

/-- The hash of the sample runs; no contract is created in them. Kind: D -/
def staleKeccak : List UInt8 → Bytes 32 := fun _ => .fill 32 0xEE

/-- The executor of the sample runs. Kind: D -/
def staleExecutor : ParallelExecutor := ⟨3, ⟨∅⟩⟩

/-- The block of the sample runs. Kind: D -/
def staleBlock : BlockContext := ⟨.fill 0⟩

/-- The base state of the sample runs. Kind: D -/
def staleBase : MultiVersionState := fundedState [0xAA, 0xBB]

/-- A transaction of the stale batch has the number it was made for. Kind: L -/
@[simp] theorem sequenceNumber_staleTx (first seq : UInt64) :
    (staleTx first seq).sequenceNumber = seq := by
  unfold staleTx
  split_ifs with h0 h1 <;> simp [makeTx, h0]

/-- Number 0 pays 50 from its own account. Kind: L -/
theorem staleTx_zero (first : UInt64) : staleTx first 0 = makeTx 0xAA (some 0xCC) 50 0 0 :=
  if_pos rfl

/-- The first transaction pays 10 from another account. Kind: L -/
theorem staleTx_first {first : UInt64} (h : first ≠ 0) :
    staleTx first first = makeTx 0xBB (some 0xDD) 10 0 first := by
  rw [staleTx, if_neg h, if_pos rfl]

/-- The remaining transactions have a nonce gap. Kind: L -/
theorem staleTx_idle {first seq : UInt64} (h0 : seq ≠ 0) (h1 : seq ≠ first) :
    staleTx first seq = makeTx 0xEE (some 0xEE) 0 7 seq := by
  rw [staleTx, if_neg h0, if_neg h1]

/-- The numbers of a stale batch. Kind: L -/
theorem map_staleTx_sequenceNumber (first : UInt64) (seqs : List UInt64) :
    (seqs.map (staleTx first)).map DecryptedTransaction.sequenceNumber = seqs := by
  simp [Function.comp_def]

/-- An idle transaction is rejected while its sender's nonce is unwritten. Kind: L -/
theorem not_accepted_idle {first seq : UInt64} {view : View} (h0 : seq ≠ 0) (h1 : seq ≠ first)
    (hview : view (nonceKey (.fill 0xEE)) = none) : ¬ Accepted (staleTx first seq) view := by
  rintro ⟨hnonce, -⟩
  rw [staleTx_idle h0 h1] at hnonce
  simp [nonceIn, makeTx, hview] at hnonce

/-- No transaction of a stale batch writes the nonce of the idle account while it is unwritten.
Kind: L -/
theorem key_ne_idleNonce {first seq : UInt64} {view : View} {w : Write}
    (hview : view (nonceKey (.fill 0xEE)) = none)
    (hw : w ∈ txWrites staleKeccak staleExecutor.vm (staleTx first seq) staleBlock view) :
    w.key ≠ nonceKey (.fill 0xEE) := by
  by_cases h0 : seq = 0
  · subst h0
    rw [staleTx_zero] at hw
    have hkey := key_of_mem_txWrites_call (show _ = some (.fill 0xCC) from rfl) hw
    intro heq
    rw [heq] at hkey
    revert hkey
    decide
  · by_cases h1 : seq = first
    · subst h1
      rw [staleTx_first h0] at hw
      have hkey := key_of_mem_txWrites_call (show _ = some (.fill 0xDD) from rfl) hw
      intro heq
      rw [heq] at hkey
      simp only [makeTx] at hkey
      revert hkey
      decide
    · rw [txWrites, if_neg (not_accepted_idle h0 h1 hview)] at hw
      cases hw

/-- The nonce of the idle account stays unwritten. By induction on the run from its end.
Kind: L -/
theorem column_idleNonce (first : UInt64) (seqs : List UInt64) (hnodup : seqs.Nodup) (q : ℕ) :
    (staleExecutor.executeAll staleKeccak staleBlock (seqs.map (staleTx first))
      staleBase).2.toMemory.column (nonceKey (.fill 0xEE)) q = none := by
  induction seqs using List.reverseRecOn generalizing q with
  | nil => exact ParallelExecutor.executeAll_column_of_notMem rfl (by simp)
  | append_singleton seqs seq ih =>
      have hnodup' := hnodup
      rw [← map_staleTx_sequenceNumber first (seqs ++ [seq])] at hnodup'
      rw [List.map_append, List.map_singleton] at hnodup' ⊢
      have ih := ih (List.nodup_append.mp hnodup).1
      by_cases hq : seq.toNat = q
      · subst hq
        have hcol := @ParallelExecutor.executeAll_column_of_mem staleKeccak staleExecutor staleBlock
          _ _ _ staleBase rfl hnodup' (nonceKey (.fill 0xEE))
        rw [sequenceNumber_staleTx] at hcol
        rw [hcol, rowOf, Option.map_eq_none_iff]
        have hview : viewOf (staleExecutor.executeAll staleKeccak staleBlock
            (seqs.map (staleTx first)) staleBase).2 seq (nonceKey (.fill 0xEE)) = none := by
          rw [viewOf_of_column_none fun q _ => ih q, (ParallelExecutor.executeAll_frame _ _).1]
          decide
        have hnil : valuesAt (txWrites staleKeccak staleExecutor.vm (staleTx first seq) staleBlock
            (viewOf (staleExecutor.executeAll staleKeccak staleBlock (seqs.map (staleTx first))
              staleBase).2 seq)) (nonceKey (.fill 0xEE)) = [] := by
          rw [valuesAt, List.map_eq_nil_iff, List.filter_eq_nil_iff]
          intro w hw
          simpa using key_ne_idleNonce hview hw
        rw [hnil]
        rfl
      · rw [ParallelExecutor.executeAll_column_keep, ih]
        simpa using hq

/-! ### Runs of the stale batch -/

/-- The results of a stale batch, each with what had run before it. Kind: L -/
theorem exists_of_mem_stale {first : UInt64} {seqs : List UInt64} {r : ExecutionResult}
    (hr : r ∈ (staleExecutor.executeAll staleKeccak staleBlock (seqs.map (staleTx first))
      staleBase).1) :
    ∃ pre seq post, seqs = pre ++ seq :: post ∧
      r = (staleExecutor.vm.execute staleKeccak (staleTx first seq) (staleExecutor.executeAll
        staleKeccak staleBlock (pre.map (staleTx first)) staleBase).2 staleBlock).1 := by
  obtain ⟨pre, tx, post, hsplit, rfl⟩ := ParallelExecutor.exists_of_mem_executeAll hr
  obtain ⟨pre, rest, rfl, rfl, hrest⟩ := List.map_eq_append_iff.mp hsplit
  obtain ⟨seq, post, rfl, rfl, rfl⟩ := List.map_eq_cons_iff.mp hrest
  exact ⟨pre, seq, post, rfl, rfl⟩

/-- An idle transaction is rejected wherever it runs. Kind: L -/
theorem not_accepted_stale {first seq : UInt64} {pre post : List UInt64}
    (hnodup : (pre ++ seq :: post).Nodup) (h0 : seq ≠ 0) (h1 : seq ≠ first) :
    ¬ Accepted (staleTx first seq) (viewOf (staleExecutor.executeAll staleKeccak staleBlock
      (pre.map (staleTx first)) staleBase).2 seq) := by
  refine not_accepted_idle h0 h1 ?_
  rw [viewOf_of_column_none fun q _ => column_idleNonce first pre (List.nodup_append.mp hnodup).1 q,
    (ParallelExecutor.executeAll_frame _ _).1]
  decide

/-- **A stale batch validates in every order.** Only the entries of number 0 and of the first
transaction could conflict, and number 0 never does. Kind: P -/
theorem clean_stale {first : UInt64} (hfirst : first ≠ 0) {seqs : List UInt64}
    (hnodup : seqs.Nodup) :
    Clean (staleExecutor.executeAll staleKeccak staleBlock (seqs.map (staleTx first))
      staleBase).1 := by
  intro r hr e he hlt k v x hread hkey
  obtain ⟨pre, seq, post, hsplit, rfl⟩ := exists_of_mem_stale hr
  obtain ⟨pre', seq', post', hsplit', rfl⟩ := exists_of_mem_stale he
  simp only [execute_eq, resultOf, sequenceNumber_staleTx] at hlt hread hkey ⊢
  obtain ⟨w, hw, -, rfl⟩ := (mem_keys_recordWrites _ k).mp hkey
  by_cases h0' : seq' = 0
  · rw [h0']
    exact UInt64.zero_le
  · have h0 : seq ≠ 0 := by
      rintro rfl
      exact absurd hlt (UInt64.not_lt_zero)
    by_cases h1' : seq' = first
    · subst h1'
      have h1 : seq ≠ seq' := fun h => absurd (h ▸ hlt) (UInt64.lt_irrefl _)
      have hrej := not_accepted_stale (hsplit ▸ hnodup) h0 h1
      unfold viewOf at hrej
      rw [lookup_recordReads, Option.ite_none_right_eq_some, txReads, if_neg hrej,
        staleTx_idle h0 h1] at hread
      rw [staleTx_first hfirst] at hw
      have hmem := hread.1
      have hkey := key_of_mem_txWrites_call (show _ = some (.fill 0xDD) from rfl) hw
      simp only [makeTx] at hmem hkey
      have hdisjoint : ∀ key ∈ [balanceKey (.fill 0xBB), nonceKey (.fill 0xBB),
          balanceKey (.fill 0xDD), balanceKey staleBlock.coinbase],
          key ∉ [balanceKey (.fill 0xEE), nonceKey (.fill 0xEE)] ++ [] := by decide
      exact absurd hmem (hdisjoint _ hkey)
    · have hrej := not_accepted_stale (hsplit' ▸ hnodup) h0' h1'
      unfold viewOf at hrej
      rw [txWrites, if_neg hrej] at hw
      cases hw

/-- The ascending order of a stale batch is a stale batch. Kind: L -/
theorem sortTxs_stale (first : UInt64) (seqs : List UInt64) :
    sortTxs (seqs.map (staleTx first)) =
      ((sortTxs (seqs.map (staleTx first))).map
        DecryptedTransaction.sequenceNumber).map (staleTx first) := by
  rw [List.map_map]
  refine (List.map_id _).symm.trans (List.map_congr_left fun tx htx => ?_)
  obtain ⟨seq, -, rfl⟩ := List.mem_map.mp ((sortTxs_perm _).mem_iff.mp htx)
  simp

/-- The entries of a stale batch at a number in it. Kind: L -/
theorem column_stale {first seq : UInt64} {pre post : List UInt64}
    (hnodup : (pre ++ seq :: post).Nodup) (k : StateKey) :
    (staleExecutor.executeAll staleKeccak staleBlock ((pre ++ seq :: post).map (staleTx first))
        staleBase).2.toMemory.column k seq.toNat =
      rowOf (txWrites staleKeccak staleExecutor.vm (staleTx first seq) staleBlock
        (viewOf (staleExecutor.executeAll staleKeccak staleBlock (pre.map (staleTx first))
          staleBase).2 seq)) k := by
  rw [← map_staleTx_sequenceNumber first (pre ++ seq :: post)] at hnodup
  rw [List.map_append, List.map_cons] at hnodup ⊢
  have hcol := @ParallelExecutor.executeAll_column_of_mem staleKeccak staleExecutor staleBlock _ _ _
    staleBase rfl hnodup k
  rwa [sequenceNumber_staleTx] at hcol

/-- After number 0 and idle transactions a reader sees the fee of number 0. Kind: L -/
theorem view_coinbase_stale {first : UInt64} {pre : List UInt64} (hnodup : pre.Nodup)
    (hzero : 0 ∈ pre) (hfirst : first ∉ pre) :
    viewOf (staleExecutor.executeAll staleKeccak staleBlock (pre.map (staleTx first))
      staleBase).2 first (balanceKey staleBlock.coinbase) = some (.fromU64 21000000000000) := by
  have hnew : newestBelow ((staleExecutor.executeAll staleKeccak staleBlock
      (pre.map (staleTx first)) staleBase).2.toMemory.column (balanceKey staleBlock.coinbase))
      first.toNat = some (some (.fromU64 21000000000000), 0) := by
    refine newestBelow_eq_some_iff.mpr ⟨?_, ?_, fun q hq _ => ?_⟩
    · refine Nat.pos_of_ne_zero fun h => hfirst ?_
      rwa [UInt64.toNat_inj.mp (h.trans UInt64.toNat_zero.symm)]
    · obtain ⟨pre, post, rfl⟩ := List.append_of_mem hzero
      have hcol := @column_stale first 0 pre post hnodup (balanceKey staleBlock.coinbase)
      rw [viewOf_zero, (ParallelExecutor.executeAll_frame _ _).1, staleTx_zero] at hcol
      refine hcol.trans ?_
      decide +kernel
    · by_cases hex : ∃ seq ∈ pre, seq.toNat = q
      · obtain ⟨seq, hseq, rfl⟩ := hex
        have h0 : seq ≠ 0 := by
          rintro rfl
          simp at hq
        have h1 : seq ≠ first := fun h => hfirst (h ▸ hseq)
        obtain ⟨pre, post, rfl⟩ := List.append_of_mem hseq
        rw [column_stale hnodup, txWrites, if_neg (not_accepted_stale hnodup h0 h1)]
        rfl
      · refine ParallelExecutor.executeAll_column_of_notMem rfl fun tx htx heq => hex ?_
        obtain ⟨seq, hseq, rfl⟩ := List.mem_map.mp htx
        exact ⟨seq, hseq, by rwa [sequenceNumber_staleTx] at heq⟩
  rw [viewOf, MultiVersionState.read_eq, hnew]

/-! ### Schedules -/

/-- The sequence numbers of a sorted schedule: the same ones, in ascending order. Kind: L -/
theorem sortedNumbers_stale (first : UInt64) {seqs : List UInt64} (hnodup : seqs.Nodup) :
    let sorted := (sortTxs (seqs.map (staleTx first))).map DecryptedTransaction.sequenceNumber
    sorted.Perm seqs ∧ sorted.Pairwise (· < ·) := by
  intro sorted
  constructor
  · have hmap := (sortTxs_perm (seqs.map (staleTx first))).map DecryptedTransaction.sequenceNumber
    rwa [map_staleTx_sequenceNumber] at hmap
  · apply List.pairwise_map.mpr
    exact sortTxs_ascending (by rwa [map_staleTx_sequenceNumber])

/-- In ascending order number 0 comes before every other one. Kind: L -/
theorem zero_mem_of_ascending {pre post : List UInt64} {seq : UInt64}
    (hasc : (pre ++ seq :: post).Pairwise (· < ·)) (hmem : 0 ∈ pre ++ seq :: post)
    (hne : seq ≠ 0) : 0 ∈ pre := by
  rcases List.mem_append.mp hmem with hpre | hrest
  · exact hpre
  · rcases List.mem_cons.mp hrest with heq | hpost
    · exact absurd heq.symm hne
    · have hlt := (List.pairwise_cons.mp (List.pairwise_append.mp hasc).2.1).1 0 hpost
      exact absurd hlt UInt64.not_lt_zero

/-- **A stale read passes in every schedule with number 0 later.** Kind: P -/
theorem not_catchesStaleReads_stale {first : UInt64} {rest : List UInt64}
    (hnodup : (first :: rest).Nodup) (hzero : 0 ∈ rest) :
    ¬ CatchesStaleReads staleKeccak staleExecutor staleBlock staleBase
      ((first :: rest).map (staleTx first)) := by
  intro hcatch
  have hfirst : first ≠ 0 := fun h => (List.nodup_cons.mp hnodup).1 (h ▸ hzero)
  have hvalid := (aborted_validateBatch_eq_nil_iff (by
    rw [ParallelExecutor.executeAll_map_txSeq, map_staleTx_sequenceNumber]
    exact hnodup)).mpr (clean_stale hfirst hnodup)
  obtain ⟨r', hr', hseq, -, -, hwrites⟩ := hcatch hvalid _
    (ParallelExecutor.mem_executeAll_middle [] (rest.map (staleTx first)) (staleTx first first)
      staleBase)
  rw [sortTxs_stale] at hr'
  obtain ⟨hperm, hasc⟩ := sortedNumbers_stale first hnodup
  generalize (sortTxs ((first :: rest).map (staleTx first))).map
    DecryptedTransaction.sequenceNumber = seqs at hr' hperm hasc
  obtain ⟨pre, seq, post, rfl, rfl⟩ := exists_of_mem_stale hr'
  simp only [execute_eq, resultOf, sequenceNumber_staleTx] at hseq hwrites
  subst hseq
  have hmem : 0 ∈ pre :=
    zero_mem_of_ascending hasc (hperm.mem_iff.mpr (List.mem_cons_of_mem seq hzero)) hfirst
  have hnodup' := hperm.nodup_iff.mpr hnodup
  have hview := view_coinbase_stale (List.nodup_append.mp hnodup').1 hmem
    fun h => (List.nodup_append.mp hnodup').2.2 _ h _ List.mem_cons_self rfl
  -- the two write sets differ at the coinbase balance by the fee of number 0
  have hlook := congrArg (fun ws => ws.writes.lookup (balanceKey staleBlock.coinbase)) hwrites
  have hnil : (staleExecutor.executeAll staleKeccak staleBlock [] staleBase).2 = staleBase := rfl
  have hbase : ∀ k, (staleBase.read k seq).1 = staleBase.baseState.lookup k :=
    fun k => viewOf_of_column_none fun q _ => rfl
  have haccepted : Accepted (makeTx 0xBB (some 0xDD) 10 0 seq)
      fun k => staleBase.baseState.lookup k := by
    have hone : Accepted (makeTx 0xBB (some 0xDD) 10 0 1)
      fun k => staleBase.baseState.lookup k := by decide +kernel
    exact hone
  unfold viewOf at hview
  simp only [lookup_coinbase, staleTx_first hfirst, hnil, hbase, if_pos haccepted,
    Option.ite_none_right_eq_some, balanceIn, hview] at hlook
  have hfee : withFee staleExecutor.vm (makeTx 0xBB (some 0xDD) 10 0 1)
      (.fromU64 21000000000000) ≠ withFee staleExecutor.vm (makeTx 0xBB (some 0xDD) 10 0 1)
        ((staleBase.baseState.lookup (balanceKey staleBlock.coinbase)).getD .zero) := by
    decide +kernel
  exact hfee (Option.some.inj (Option.some.inj hlook.2))

/-- **Validation catches every stale read exactly in the schedules with number 0 first or absent.**
A schedule is the list of sequence numbers in execution order; the property is over all batches
with these numbers, base states, blocks and executors. Kind: P -/
theorem schedule_catches_iff (seqs : List UInt64) (hnodup : seqs.Nodup) :
    (∀ (keccak256 : List UInt8 → Bytes 32) (ex : ParallelExecutor) (block : BlockContext)
        (state : MultiVersionState) (order : List DecryptedTransaction), state.data = ∅ →
        order.map DecryptedTransaction.sequenceNumber = seqs →
        CatchesStaleReads keccak256 ex block state order) ↔
      0 ∉ seqs.tail := by
  constructor
  · intro hall hzero
    cases seqs with
    | nil => cases hzero
    | cons first rest =>
        exact not_catchesStaleReads_stale hnodup hzero
          (hall _ _ _ _ _ rfl (map_staleTx_sequenceNumber first (first :: rest)))
  · rintro hzero keccak256 ex block state order hdata rfl
    refine catchesStaleReads_of_noneMisled hdata hnodup fun _ => noneMisled_of_zero_first ?_
    intro t ht h0
    refine hzero ?_
    rw [← List.map_tail]
    exact List.mem_map.mpr ⟨t, ht, h0⟩

/-- **A stale read of the base state validates.** Transaction 1 runs before transaction 0 and reads
the coinbase balance from the base state, as version 0; transaction 0 then pays its fee into it.
Validation finds no conflict, and the fee of transaction 0 is missing from the write set of
transaction 1. Kind: P -/
theorem stale_read_of_base_validates :
    let order := [makeTx 0xBB (some 0xDD) 10 0 1, makeTx 0xAA (some 0xCC) 50 0 0]
    let keccak256 : List UInt8 → Bytes 32 := fun _ => .fill 32 0xEE
    let ex : ParallelExecutor := ⟨3, ⟨∅⟩⟩
    let block : BlockContext := ⟨.fill 0⟩
    let state := fundedState [0xAA, 0xBB]
    state.data = ∅ ∧ (order.map DecryptedTransaction.sequenceNumber).Nodup ∧
      (validateBatch (ex.executeAll keccak256 block order state).1).aborted = [] ∧
      ∃ r ∈ (ex.executeAll keccak256 block order state).1,
        ∀ r' ∈ (ex.executeAll keccak256 block (sortTxs order) state).1, r'.txSeq = r.txSeq →
          r'.writeSet.writes.lookup (balanceKey block.coinbase) ≠
            r.writeSet.writes.lookup (balanceKey block.coinbase) :=
  ⟨rfl, by decide, by decide +kernel, by decide +kernel⟩

end Ryther
