import Ryther.Evm.Accounts
import Ryther.Execution.Batch

/-!
# Speculative execution in any order

Transactions are executed once each, in an arbitrary order, on one shared state, and validated
together. Validation compares version numbers, and version 0 stands both for the base state and
for the transaction with sequence number 0.

* `effect_congr` — an execution depends on its view at the keys it reads only.
* `executeAll_column_of_mem`, `executeAll_column_of_notMem` — the entries of a run: every executed
  transaction has its row, in whatever order it came.
* `newest_of_clean` — a validated transaction saw the newest entry below it, or the base state where
  number 0 has the newest entry.
-/

namespace Ryther

open Lib

section

variable {keccak256 : List UInt8 → Bytes 32} {vm : RytherVm} {tx : DecryptedTransaction}
  {block : BlockContext}

/-! ### The footprint of an execution -/

/-- **An execution depends on its view at the keys it reads only.** Kind: P -/
theorem effect_congr {view view' : View}
    (h : ∀ k ∈ txReads tx block view, view k = view' k) :
    txWrites keccak256 vm tx block view = txWrites keccak256 vm tx block view' ∧
      txOutcome keccak256 vm tx view = txOutcome keccak256 vm tx view' := by
  have hb : balanceIn view tx.from = balanceIn view' tx.from := by
    unfold balanceIn
    rw [h _ (by simp [txReads])]
  have hn : nonceIn view tx.from = nonceIn view' tx.from := by
    unfold nonceIn
    rw [h _ (by simp [txReads])]
  have hacc : Accepted tx view ↔ Accepted tx view' := by
    unfold Accepted
    rw [hb, hn]
  have hrej : rejection tx view = rejection tx view' := by
    unfold rejection
    rw [hn]
  refine ⟨?_, ?_⟩
  · by_cases ha : Accepted tx view
    · have hc : balanceIn view block.coinbase = balanceIn view' block.coinbase := by
        unfold balanceIn
        rw [h _ (by simp [txReads, ha])]
      have htransfer : transferWrites keccak256 tx view = transferWrites keccak256 tx view' := by
        unfold transferWrites
        cases hto : tx.to with
        | none => simp [credited, hto]
        | some recipient =>
            by_cases hv : tx.value = .zero
            · simp [hv]
            · have hr : balanceIn view recipient = balanceIn view' recipient := by
                unfold balanceIn
                rw [h _ (by simp [txReads, ha, hto, hv])]
              simp [hv, payee, hto, hr]
      unfold txWrites
      rw [if_pos ha, if_pos (hacc.mp ha), hb, hn, hc, htransfer]
    · unfold txWrites
      rw [if_neg ha, if_neg fun h' => ha (hacc.mpr h')]
  · unfold txOutcome
    by_cases ha : Accepted tx view
    · rw [if_pos ha, if_pos (hacc.mp ha)]
    · rw [if_neg ha, if_neg fun h' => ha (hacc.mpr h'), hrej]

/-- A transaction that is accepted makes writes, and no other one does. Kind: L -/
theorem txWrites_eq_nil_iff (view : View) :
    txWrites keccak256 vm tx block view = [] ↔ ¬ Accepted tx view := by
  unfold txWrites
  split_ifs with hacc <;> simp [hacc]

/-- Views on which a transaction makes the same writes accept it alike. Kind: L -/
theorem accepted_iff_of_txWrites_eq {view view' : View}
    (h : txWrites keccak256 vm tx block view = txWrites keccak256 vm tx block view') :
    Accepted tx view ↔ Accepted tx view' := by
  rw [← not_iff_not, ← @txWrites_eq_nil_iff keccak256 vm tx block, h, txWrites_eq_nil_iff]

/-- What is read depends on whether the transaction is accepted. Kind: L -/
theorem txReads_congr {view view' : View} (h : Accepted tx view ↔ Accepted tx view') :
    txReads tx block view = txReads tx block view' := by
  unfold txReads
  simp only [h]

/-- Keys that are read are balances and nonces. Kind: L -/
theorem ne_codeHashKey_of_mem_txReads {view : View} {k : StateKey}
    (hk : k ∈ txReads tx block view) (a : Address) : k ≠ codeHashKey a := by
  have hform : ∀ k ∈ txReads tx block view, (∃ b, k = balanceKey b) ∨ ∃ b, k = nonceKey b := by
    unfold txReads
    by_cases ha : Accepted tx view <;> by_cases hv : tx.value = .zero <;> cases tx.to <;>
      simp [ha, hv]
  rcases hform k hk with ⟨b, rfl⟩ | ⟨b, rfl⟩ <;>
    simp [balanceKey, nonceKey, codeHashKey, slotBalance, slotNonce, slotCodeHash]

end

/-! ### The entries of a run -/

namespace ParallelExecutor

variable {keccak256 : List UInt8 → Bytes 32} {ex : ParallelExecutor} {block : BlockContext}

/-- A second batch runs on the state that the first leaves. Kind: L -/
theorem executeAll_append (txs txs' : List DecryptedTransaction) (state : MultiVersionState) :
    ex.executeAll keccak256 block (txs ++ txs') state =
      ((ex.executeAll keccak256 block txs state).1 ++
          (ex.executeAll keccak256 block txs' (ex.executeAll keccak256 block txs state).2).1,
        (ex.executeAll keccak256 block txs' (ex.executeAll keccak256 block txs state).2).2) := by
  induction txs generalizing state with
  | nil => rfl
  | cons tx txs ih => simp only [List.cons_append, executeAll_cons, ih]

/-- Executing transactions leaves the base and the runs at other numbers alone. Kind: L -/
theorem executeAll_frame (txs : List DecryptedTransaction) (state : MultiVersionState) :
    (ex.executeAll keccak256 block txs state).2.baseState = state.baseState ∧
      ∀ k q, (∀ tx ∈ txs, tx.sequenceNumber.toNat ≠ q) →
        (ex.executeAll keccak256 block txs state).2.runOf k q = state.runOf k q := by
  induction txs generalizing state with
  | nil => exact ⟨rfl, fun _ _ _ => rfl⟩
  | cons tx txs ih =>
      obtain ⟨hbase, hrun⟩ := ih (ex.vm.execute keccak256 tx state block).2
      rw [executeAll_cons]
      refine ⟨hbase.trans ?_, fun k q hq => ?_⟩
      · rw [execute_eq, baseState_writeAll]
      · rw [hrun k q fun u hu => hq u (List.mem_cons_of_mem _ hu), execute_eq, runOf_writeAll,
          if_neg (hq tx List.mem_cons_self).symm]

/-- The entries of executed transactions do not change any more. Kind: L -/
theorem executeAll_column_keep {pre post : List DecryptedTransaction} {state : MultiVersionState}
    {k : StateKey} {q : ℕ} (hq : ∀ tx ∈ post, tx.sequenceNumber.toNat ≠ q) :
    (ex.executeAll keccak256 block (pre ++ post) state).2.toMemory.column k q =
      (ex.executeAll keccak256 block pre state).2.toMemory.column k q := by
  simp only [MultiVersionState.toMemory, executeAll_append]
  rw [(executeAll_frame post _).2 k q hq]

/-- Without a transaction at `q` there is no entry at `q`. Kind: L -/
theorem executeAll_column_of_notMem {txs : List DecryptedTransaction} {state : MultiVersionState}
    (hdata : state.data = ∅) {k : StateKey} {q : ℕ}
    (hq : ∀ tx ∈ txs, tx.sequenceNumber.toNat ≠ q) :
    (ex.executeAll keccak256 block txs state).2.toMemory.column k q = none := by
  simp only [MultiVersionState.toMemory]
  rw [(executeAll_frame txs state).2 k q hq]
  simp [MultiVersionState.runOf, hdata, live]

/-- Every entry has a transaction. Kind: L -/
theorem exists_mem_of_column {txs : List DecryptedTransaction} {state : MultiVersionState}
    (hdata : state.data = ∅) {k : StateKey} {q : ℕ}
    (h : (ex.executeAll keccak256 block txs state).2.toMemory.column k q ≠ none) :
    ∃ tx ∈ txs, tx.sequenceNumber.toNat = q := by
  by_contra hno
  push Not at hno
  exact h (executeAll_column_of_notMem hdata hno)

/-- A transaction's entries are the row of its writes. Kind: P -/
theorem executeAll_column_of_mem {pre post : List DecryptedTransaction}
    {tx : DecryptedTransaction} {state : MultiVersionState} (hdata : state.data = ∅)
    (hnodup : ((pre ++ tx :: post).map DecryptedTransaction.sequenceNumber).Nodup) (k : StateKey) :
    (ex.executeAll keccak256 block (pre ++ tx :: post) state).2.toMemory.column k
        tx.sequenceNumber.toNat =
      rowOf (txWrites keccak256 ex.vm tx block
        (viewOf (ex.executeAll keccak256 block pre state).2 tx.sequenceNumber)) k := by
  have hne : ∀ u ∈ pre ++ post, u.sequenceNumber.toNat ≠ tx.sequenceNumber.toNat := by
    intro u hu heq
    rw [List.map_append, List.map_cons] at hnodup
    have := (List.nodup_middle.mp hnodup)
    rw [← List.map_append] at this
    refine (List.nodup_cons.mp this).1 ?_
    rw [← UInt64.toNat_inj.mp heq]
    exact List.mem_map_of_mem hu
  have hsplit : pre ++ tx :: post = (pre ++ [tx]) ++ post := by simp
  have hfresh : Fresh (ex.executeAll keccak256 block pre state).2 tx.sequenceNumber := fun k => by
    rw [(executeAll_frame pre state).2 k _ fun u hu => hne u (List.mem_append_left _ hu)]
    exact fresh_of_data_empty hdata _ k
  rw [hsplit, executeAll_column_keep fun u hu => hne u (List.mem_append_right _ hu),
    executeAll_append]
  simp only [executeAll, executeSingle, execute_eq]
  rw [toMemory_writeAll_of_fresh hfresh]
  simp [Memory.put]

/-- The result of a transaction in the middle of a run. Kind: L -/
theorem mem_executeAll_middle (pre post : List DecryptedTransaction) (tx : DecryptedTransaction)
    (state : MultiVersionState) :
    (ex.vm.execute keccak256 tx (ex.executeAll keccak256 block pre state).2 block).1 ∈
      (ex.executeAll keccak256 block (pre ++ tx :: post) state).1 := by
  rw [executeAll_append]
  exact List.mem_append_right _ List.mem_cons_self

/-- Results come from transactions in the middle of the run. Kind: L -/
theorem exists_of_mem_executeAll {txs : List DecryptedTransaction} {r : ExecutionResult} :
    ∀ {state : MultiVersionState}, r ∈ (ex.executeAll keccak256 block txs state).1 →
      ∃ pre tx post, txs = pre ++ tx :: post ∧
        r = (ex.vm.execute keccak256 tx (ex.executeAll keccak256 block pre state).2 block).1 := by
  induction txs with
  | nil => intro state hr; cases hr
  | cons tx txs ih =>
      intro state hr
      rw [executeAll_cons] at hr
      rcases List.mem_cons.mp hr with rfl | hr
      · exact ⟨[], tx, txs, rfl, rfl⟩
      · obtain ⟨pre, u, post, rfl, rfl⟩ := ih hr
        exact ⟨tx :: pre, u, post, rfl, rfl⟩

/-- Numbers of one part of a batch do not occur in the other. Kind: L -/
theorem toNat_ne_of_nodup_append {pre post : List DecryptedTransaction}
    (hnodup : ((pre ++ post).map DecryptedTransaction.sequenceNumber).Nodup)
    {t u : DecryptedTransaction} (ht : t ∈ pre) (hu : u ∈ post) :
    u.sequenceNumber.toNat ≠ t.sequenceNumber.toNat := by
  intro heq
  rw [List.map_append] at hnodup
  exact (List.nodup_append.mp hnodup).2.2 _ (List.mem_map_of_mem ht) _ (List.mem_map_of_mem hu)
    (UInt64.toNat_inj.mp heq.symm)

/-- A part of a run has no entries that the whole run does not have. Kind: L -/
theorem executeAll_column_sub {pre post : List DecryptedTransaction} {state : MultiVersionState}
    (hdata : state.data = ∅)
    (hnodup : ((pre ++ post).map DecryptedTransaction.sequenceNumber).Nodup) {k : StateKey} {q : ℕ}
    (h : (ex.executeAll keccak256 block pre state).2.toMemory.column k q ≠ none) :
    (ex.executeAll keccak256 block (pre ++ post) state).2.toMemory.column k q =
      (ex.executeAll keccak256 block pre state).2.toMemory.column k q := by
  refine executeAll_column_keep fun u hu heq => h (executeAll_column_of_notMem hdata ?_)
  intro t ht htq
  exact toNat_ne_of_nodup_append hnodup ht hu (heq.trans htq.symm)

/-- A key read by someone with an entry at a transaction's number is in its write set. Kind: L -/
theorem mem_keys_of_column {pre post : List DecryptedTransaction} {tx : DecryptedTransaction}
    {state : MultiVersionState} (hdata : state.data = ∅)
    (hnodup : ((pre ++ tx :: post).map DecryptedTransaction.sequenceNumber).Nodup) {k : StateKey}
    (hk : k ≠ codeHashKey (payee keccak256 tx))
    (h : (ex.executeAll keccak256 block (pre ++ tx :: post) state).2.toMemory.column k
      tx.sequenceNumber.toNat ≠ none) :
    k ∈ (ex.vm.execute keccak256 tx
      (ex.executeAll keccak256 block pre state).2 block).1.writeSet.keys := by
  rw [executeAll_column_of_mem hdata hnodup] at h
  rw [execute_eq]
  refine (mem_keys_txWrites tx _ k).mpr ⟨hk, fun hnil => ?_⟩
  unfold viewOf at h
  rw [rowOf, hnil] at h
  exact h rfl

/-! ### Validated views -/

/-- What validation gives: a read key with an entry at an earlier number was read no older than
that number. Kind: L -/
theorem le_version_of_clean {pre post : List DecryptedTransaction} {tx t : DecryptedTransaction}
    {state : MultiVersionState} (hdata : state.data = ∅)
    (hnodup : ((pre ++ tx :: post).map DecryptedTransaction.sequenceNumber).Nodup)
    (hclean : Clean (ex.executeAll keccak256 block (pre ++ tx :: post) state).1) {k : StateKey}
    (hk : k ∈ txReads tx block
      (viewOf (ex.executeAll keccak256 block pre state).2 tx.sequenceNumber))
    (ht : t ∈ pre ++ tx :: post) (hlt : t.sequenceNumber < tx.sequenceNumber)
    (hcol : (ex.executeAll keccak256 block (pre ++ tx :: post) state).2.toMemory.column k
      t.sequenceNumber.toNat ≠ none) :
    t.sequenceNumber ≤
      ((ex.executeAll keccak256 block pre state).2.read k tx.sequenceNumber).2 := by
  generalize hσ : (ex.executeAll keccak256 block pre state).2 = σ at hk ⊢
  obtain ⟨pre', post', hsplit⟩ := List.append_of_mem ht
  have hkeys : k ∈ (ex.vm.execute keccak256 t
      (ex.executeAll keccak256 block pre' state).2 block).1.writeSet.keys := by
    rw [hsplit] at hnodup hcol
    exact mem_keys_of_column hdata hnodup (ne_codeHashKey_of_mem_txReads hk _) hcol
  have hlookup : (ex.vm.execute keccak256 tx σ block).1.readSet.reads.lookup k =
      some ((σ.read k tx.sequenceNumber).1, (σ.read k tx.sequenceNumber).2) := by
    rw [execute_eq]
    simp only [resultOf]
    rw [lookup_recordReads, if_pos]
    exact hk
  have hseq : ∀ (u : DecryptedTransaction) (ρ : MultiVersionState),
      (ex.vm.execute keccak256 u ρ block).1.txSeq = u.sequenceNumber := fun u ρ => by
    rw [execute_eq]
    rfl
  have hreader := @mem_executeAll_middle keccak256 ex block pre post tx state
  have hwriter := @mem_executeAll_middle keccak256 ex block pre' post' t state
  rw [hσ] at hreader
  rw [← hsplit] at hwriter
  have hle := hclean _ hreader _ hwriter (by rw [hseq, hseq]; exact hlt) k _ _ hlookup hkeys
  rwa [hseq] at hle

/-- **A validated transaction saw the newest entry below it**, or it saw the base state where the
entry of number 0 is the newest: both are version 0. Kind: P -/
theorem newest_of_clean {pre post : List DecryptedTransaction} {tx : DecryptedTransaction}
    {state : MultiVersionState} (hdata : state.data = ∅)
    (hnodup : ((pre ++ tx :: post).map DecryptedTransaction.sequenceNumber).Nodup)
    (hclean : Clean (ex.executeAll keccak256 block (pre ++ tx :: post) state).1) {k : StateKey}
    (hk : k ∈ txReads tx block
      (viewOf (ex.executeAll keccak256 block pre state).2 tx.sequenceNumber)) :
    newestBelow ((ex.executeAll keccak256 block (pre ++ tx :: post) state).2.toMemory.column k)
        tx.sequenceNumber.toNat =
      newestBelow ((ex.executeAll keccak256 block pre state).2.toMemory.column k)
        tx.sequenceNumber.toNat ∨
    newestBelow ((ex.executeAll keccak256 block pre state).2.toMemory.column k)
        tx.sequenceNumber.toNat = none ∧
      ∃ v, newestBelow ((ex.executeAll keccak256 block (pre ++ tx :: post) state).2.toMemory.column
        k) tx.sequenceNumber.toNat = some (v, 0) := by
  generalize hσ : (ex.executeAll keccak256 block pre state).2 = σ at hk ⊢
  generalize hτ : (ex.executeAll keccak256 block (pre ++ tx :: post) state).2 = τ
  have hsub : ∀ q, σ.toMemory.column k q ≠ none → τ.toMemory.column k q = σ.toMemory.column k q :=
    fun q h => by
      rw [← hσ] at h ⊢
      rw [← hτ]
      exact executeAll_column_sub hdata hnodup h
  cases hnew : newestBelow (τ.toMemory.column k) tx.sequenceNumber.toNat with
  | none =>
      have hnone := newestBelow_eq_none_iff.mp hnew
      refine Or.inl (newestBelow_eq_none_iff.mpr fun q hq => ?_).symm
      by_contra hne
      exact hne ((hsub q hne).symm.trans (hnone q hq))
  | some p =>
      obtain ⟨v, q⟩ := p
      obtain ⟨hq, hv, -⟩ := newestBelow_eq_some_iff.mp hnew
      -- the writer of the newest entry below the transaction
      obtain ⟨t, ht, htq⟩ : ∃ t ∈ pre ++ tx :: post, t.sequenceNumber.toNat = q := by
        rw [← hτ] at hv
        exact exists_mem_of_column hdata (by rw [hv]; simp)
      have hlt : t.sequenceNumber < tx.sequenceNumber := by
        rw [UInt64.lt_iff_toNat_lt, htq]
        exact hq
      have hno := le_version_of_clean hdata hnodup hclean (hσ ▸ hk) ht hlt
        (by rw [hτ, htq, hv]; simp)
      rw [hσ, UInt64.le_iff_toNat_le, htq, σ.read_eq] at hno
      cases hnewσ : newestBelow (σ.toMemory.column k) tx.sequenceNumber.toNat with
      | some p' =>
          obtain ⟨v', q'⟩ := p'
          obtain ⟨hq', -, -⟩ := newestBelow_eq_some_iff.mp hnewσ
          simp only [hnewσ, toNat_ofNat_of_lt_toNat hq'] at hno
          obtain ⟨rfl, rfl⟩ := newestBelow_eq_of_extends hsub hnewσ hnew hno
          exact Or.inl rfl
      | none =>
          simp only [hnewσ, UInt64.toNat_zero] at hno
          obtain rfl : q = 0 := by omega
          exact Or.inr ⟨rfl, v, rfl⟩

end ParallelExecutor

end Ryther
