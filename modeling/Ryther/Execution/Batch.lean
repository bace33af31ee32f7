import Ryther.Evm.Effect
import Ryther.Execution.Executor

/-!
# What a batch does

The executor runs its transactions in ascending order, so nothing it validates is ever stale.

* `sortTxs` — a batch in ascending order.
* `executeAll_readsNoOlder` — in ascending execution nobody reads a version older than an earlier
  write, from any state.
* `executeBatch_eq` — **one pass suffices**: from any state, a batch with distinct sequence numbers
  returns the results of one ascending pass and marks their writes committed.
* `executeBatch_complete` — so its first validation aborts nothing and no transaction is lost.
* `txStep`, `executeAll_run` — on fresh sequence numbers the pass is a run of the multi-version
  memory.
-/

namespace Ryther

open Lib

/-- Two ascending arrangements of one list are equal. Kind: L -/
theorem eq_of_perm_of_ascending {α : Type} {key : α → UInt64} {l l' : List α} (h : l.Perm l')
    (hl : l.Pairwise fun a b => key a < key b) (hl' : l'.Pairwise fun a b => key a < key b) :
    l = l' :=
  h.eq_of_pairwise (fun _ _ _ _ hab hba => absurd (UInt64.lt_trans hab hba) (UInt64.lt_irrefl _))
    hl hl'

/-! ### Transactions in ascending order -/

/-- A batch in ascending order of sequence numbers.
Kind: D -/
def sortTxs (txs : List DecryptedTransaction) : List DecryptedTransaction :=
  txs.insertionSort fun a b => a.sequenceNumber ≤ b.sequenceNumber

instance : IsTrans DecryptedTransaction fun a b => a.sequenceNumber ≤ b.sequenceNumber :=
  ⟨fun _ _ _ h h' => UInt64.le_trans h h'⟩

instance : Std.Total fun a b : DecryptedTransaction => a.sequenceNumber ≤ b.sequenceNumber :=
  ⟨fun a b => UInt64.le_total a.sequenceNumber b.sequenceNumber⟩

/-- Sorting a batch only reorders it. Kind: L -/
theorem sortTxs_perm (txs : List DecryptedTransaction) : (sortTxs txs).Perm txs :=
  List.perm_insertionSort _ txs

/-- Distinct sequence numbers are strictly ascending after sorting. Kind: L -/
theorem sortTxs_ascending {txs : List DecryptedTransaction}
    (hnodup : (txs.map DecryptedTransaction.sequenceNumber).Nodup) :
    (sortTxs txs).Pairwise fun a b => a.sequenceNumber < b.sequenceNumber := by
  have hsorted : (sortTxs txs).Pairwise fun a b => a.sequenceNumber ≤ b.sequenceNumber :=
    List.pairwise_insertionSort _ txs
  have hne : (sortTxs txs).Pairwise fun a b => a.sequenceNumber ≠ b.sequenceNumber :=
    List.pairwise_map.mp (((sortTxs_perm txs).map _).nodup_iff.mpr hnodup)
  exact hsorted.imp₂ (fun a b hle hne => UInt64.lt_of_le_of_ne hle hne) hne

/-- An ascending list is its own arrangement. Kind: L -/
theorem sortTxs_singleton (tx : DecryptedTransaction) : sortTxs [tx] = [tx] := rfl

/-- The transactions the executor runs are the batch in ascending order. Kind: P -/
theorem pending_filterMap_lookup {txs : List DecryptedTransaction}
    (hnodup : (txs.map DecryptedTransaction.sequenceNumber).Nodup) :
    let txMap : HashMap UInt64 DecryptedTransaction :=
      txs.foldl (fun m tx => m.insert tx.sequenceNumber tx) ∅
    (txMap.keys.insertionSort (· ≤ ·)).filterMap txMap.lookup = sortTxs txs := by
  intro txMap
  have hentries : txMap.entries =
      (txs.map fun tx => (⟨tx.sequenceNumber, tx⟩ : Sigma fun _ : UInt64 => _)).reverse := by
    have h := entries_foldl_insert DecryptedTransaction.sequenceNumber id txs
      (∅ : HashMap UInt64 DecryptedTransaction) hnodup fun _ _ => AList.notMem_empty _
    simpa using h
  have hlookup : ∀ tx ∈ sortTxs txs, txMap.lookup tx.sequenceNumber = some tx := fun tx htx => by
    refine Option.mem_def.mp (AList.mem_lookup_iff.mpr ?_)
    rw [hentries, List.mem_reverse]
    exact List.mem_map.mpr ⟨tx, (sortTxs_perm txs).mem_iff.mp htx, rfl⟩
  have hkeys : txMap.keys = (txs.map DecryptedTransaction.sequenceNumber).reverse := by
    simp [AList.keys, List.keys, hentries, List.map_reverse, Function.comp_def]
  have hpending : txMap.keys.insertionSort (· ≤ ·) =
      (sortTxs txs).map DecryptedTransaction.sequenceNumber := by
    refine ((List.perm_insertionSort _ _).trans ?_).eq_of_pairwise
      (fun a b _ _ hab hba => UInt64.le_antisymm hab hba) (List.pairwise_insertionSort _ _)
      (List.pairwise_map.mpr (List.pairwise_insertionSort _ _))
    rw [hkeys]
    exact (List.reverse_perm _).trans ((sortTxs_perm txs).map _).symm
  rw [hpending, List.filterMap_map]
  calc (sortTxs txs).filterMap (txMap.lookup ∘ DecryptedTransaction.sequenceNumber)
      = (sortTxs txs).filterMap some := List.filterMap_congr fun tx htx => hlookup tx htx
    _ = sortTxs txs := List.filterMap_some

/-! ### Nothing read is stale -/

section

variable {keccak256 : List UInt8 → Bytes 32} {vm : RytherVm} {block : BlockContext}

/-- Recorded reads are the answers given. Kind: L -/
theorem lookup_recordReads {answers : StateKey → Option U256 × UInt64} (keys : List StateKey)
    (k : StateKey) :
    (recordReads answers .new keys).reads.lookup k =
      if k ∈ keys then some (answers k) else none := by
  unfold recordReads
  induction keys using List.reverseRecOn with
  | nil => simp [ReadSet.new]
  | append_singleton keys key ih =>
      rw [List.foldl_append, List.foldl_cons, List.foldl_nil]
      by_cases hk : k = key
      · subst hk
        simp [ReadSet.record]
      · simp only [ReadSet.record, AList.lookup_insert_ne hk, List.mem_append, List.mem_singleton,
          hk, or_false]
        exact ih

/-- Writes keep entries entries. Kind: L -/
theorem column_writeAll_ne_none {state : MultiVersionState} {k : StateKey} {q : ℕ}
    (h : state.toMemory.column k q ≠ none) (seq : UInt64) (writes : List Write) :
    (writeAll seq state writes).toMemory.column k q ≠ none := by
  have hone : ∀ (σ : MultiVersionState) (w : Write), σ.toMemory.column k q ≠ none →
      (σ.write w.key seq (some w.value)).toMemory.column k q ≠ none := by
    intro σ w hσ
    simp only [MultiVersionState.toMemory, MultiVersionState.runOf_write] at hσ ⊢
    split_ifs with hc
    · exact live_tuck_ne_none _ _ (by simp)
    · exact hσ
  unfold writeAll
  induction writes generalizing state with
  | nil => exact h
  | cons w writes ih => exact ih (hone state w h)

/-- A written key has an entry at the writer's number. Kind: L -/
theorem column_writeAll_of_mem {state : MultiVersionState} {seq : UInt64} {writes : List Write}
    {w : Write} (hw : w ∈ writes) :
    (writeAll seq state writes).toMemory.column w.key seq.toNat ≠ none := by
  unfold writeAll
  induction writes generalizing state with
  | nil => cases hw
  | cons w' writes ih =>
      rcases List.mem_cons.mp hw with rfl | hw
      · have hfirst : (state.write w.key seq (some w.value)).toMemory.column w.key seq.toNat ≠
            none := by
          simp only [MultiVersionState.toMemory, MultiVersionState.runOf_write, and_self, if_true]
          exact live_tuck_ne_none _ _ (by simp)
        exact column_writeAll_ne_none hfirst seq writes
      · exact ih hw

/-- A transaction reads nothing older than the entries below it. Kind: P -/
theorem readsNoOlder_execute {tx : DecryptedTransaction} {state : MultiVersionState}
    {earlier : ExecutionResult} (hlt : earlier.txSeq < tx.sequenceNumber)
    (h : ∀ k ∈ earlier.writeSet.keys, state.toMemory.column k earlier.txSeq.toNat ≠ none) :
    ReadsNoOlder (vm.execute keccak256 tx state block).1 earlier := by
  intro k v x hread hk
  rw [execute_eq] at hread
  simp only [resultOf] at hread
  rw [lookup_recordReads] at hread
  split_ifs at hread with hmem
  have hread := Option.some.inj hread
  have hlt' := UInt64.lt_iff_toNat_lt.mp hlt
  rw [MultiVersionState.read_eq] at hread
  cases hnew : newestBelow (state.toMemory.column k) tx.sequenceNumber.toNat with
  | none => exact absurd (newestBelow_eq_none_iff.mp hnew _ hlt') (h k hk)
  | some p =>
      obtain ⟨v', q⟩ := p
      obtain ⟨hq, -, hgap⟩ := newestBelow_eq_some_iff.mp hnew
      simp only [hnew] at hread
      obtain ⟨-, rfl⟩ := Prod.mk.inj hread
      have hle : earlier.txSeq.toNat ≤ q := by
        by_contra hgt
        exact h k hk (hgap _ (by omega) hlt')
      rwa [UInt64.le_iff_toNat_le, toNat_ofNat_of_lt_toNat hq]

/-- Keys in the write set of an execution have an entry at its number. Kind: L -/
theorem column_execute_of_mem_keys {tx : DecryptedTransaction} {state : MultiVersionState}
    {k : StateKey} (hk : k ∈ (vm.execute keccak256 tx state block).1.writeSet.keys) :
    (vm.execute keccak256 tx state block).2.toMemory.column k tx.sequenceNumber.toNat ≠ none := by
  rw [execute_eq] at hk ⊢
  obtain ⟨w, hw, -, rfl⟩ := (mem_keys_recordWrites _ _).mp hk
  exact column_writeAll_of_mem hw

end

namespace ParallelExecutor

variable {keccak256 : List UInt8 → Bytes 32} {ex : ParallelExecutor} {block : BlockContext}

/-- The first transaction runs on the state, the others on the state it leaves. Kind: L -/
theorem executeAll_cons (tx : DecryptedTransaction) (txs : List DecryptedTransaction)
    (state : MultiVersionState) :
    ex.executeAll keccak256 block (tx :: txs) state =
      ((ex.vm.execute keccak256 tx state block).1 ::
          (ex.executeAll keccak256 block txs (ex.vm.execute keccak256 tx state block).2).1,
        (ex.executeAll keccak256 block txs (ex.vm.execute keccak256 tx state block).2).2) := rfl

/-- One result per transaction, in order. Kind: L -/
theorem executeAll_map_txSeq (txs : List DecryptedTransaction) (state : MultiVersionState) :
    (ex.executeAll keccak256 block txs state).1.map ExecutionResult.txSeq =
      txs.map DecryptedTransaction.sequenceNumber := by
  induction txs generalizing state with
  | nil => rfl
  | cons tx txs ih =>
      rw [executeAll_cons, List.map_cons, ih, execute_eq]
      rfl

/-- Later transactions of an ascending pass read nothing older than earlier writes. Kind: P -/
theorem executeAll_readsNoOlder (txs : List DecryptedTransaction) :
    ∀ (state : MultiVersionState) (done : List ExecutionResult),
      (∀ e ∈ done, ∀ k ∈ e.writeSet.keys, state.toMemory.column k e.txSeq.toNat ≠ none) →
      (∀ e ∈ done, ∀ tx ∈ txs, e.txSeq < tx.sequenceNumber) →
      txs.Pairwise (fun a b => a.sequenceNumber < b.sequenceNumber) →
      (∀ e ∈ done, ∀ r ∈ (ex.executeAll keccak256 block txs state).1, ReadsNoOlder r e) ∧
        (ex.executeAll keccak256 block txs state).1.Pairwise fun e r => ReadsNoOlder r e := by
  induction txs with
  | nil =>
      intro state done _ _ _
      exact ⟨fun _ _ r hr => absurd hr List.not_mem_nil, List.Pairwise.nil⟩
  | cons tx txs ih =>
      intro state done hdone hlt hasc
      obtain ⟨hhead, hasc⟩ := List.pairwise_cons.mp hasc
      have hseq : (ex.vm.execute keccak256 tx state block).1.txSeq = tx.sequenceNumber := by
        rw [execute_eq]
        rfl
      obtain ⟨ihdone, ihpw⟩ := ih (ex.vm.execute keccak256 tx state block).2
        (done ++ [(ex.vm.execute keccak256 tx state block).1])
        (by
          intro e he k hk
          rcases List.mem_append.mp he with he | he
          · have h := hdone e he k hk
            rw [execute_eq]
            exact column_writeAll_ne_none h _ _
          · obtain rfl := List.mem_singleton.mp he
            rw [hseq]
            exact column_execute_of_mem_keys hk)
        (by
          intro e he u hu
          rcases List.mem_append.mp he with he | he
          · exact hlt e he u (List.mem_cons_of_mem _ hu)
          · obtain rfl := List.mem_singleton.mp he
            rw [hseq]
            exact hhead u hu)
        hasc
      rw [executeAll_cons]
      refine ⟨fun e he r hr => ?_, List.pairwise_cons.mpr ⟨fun r hr => ?_, ihpw⟩⟩
      · rcases List.mem_cons.mp hr with rfl | hr
        · exact readsNoOlder_execute (hlt e he tx List.mem_cons_self) (hdone e he)
        · exact ihdone e (List.mem_append_left _ he) r hr
      · exact ihdone _ (List.mem_append_right _ List.mem_cons_self) r hr

/-- The results of an ascending pass are ascending. Kind: L -/
theorem executeAll_ascending {txs : List DecryptedTransaction}
    (hasc : txs.Pairwise fun a b => a.sequenceNumber < b.sequenceNumber)
    (state : MultiVersionState) :
    (ex.executeAll keccak256 block txs state).1.Pairwise fun a b => a.txSeq < b.txSeq := by
  have hseqs : ((ex.executeAll keccak256 block txs state).1.map ExecutionResult.txSeq).Pairwise
      (· < ·) := by
    rw [executeAll_map_txSeq]
    exact List.pairwise_map.mpr hasc
  exact List.pairwise_map.mp hseqs

/-- **An ascending pass is clean**, from any state. Kind: P -/
theorem executeAll_clean {txs : List DecryptedTransaction}
    (hasc : txs.Pairwise fun a b => a.sequenceNumber < b.sequenceNumber)
    (state : MultiVersionState) : Clean (ex.executeAll keccak256 block txs state).1 := by
  have hpw := (@executeAll_readsNoOlder keccak256 ex block txs state []
    (fun _ h => absurd h List.not_mem_nil) (fun _ h => absurd h List.not_mem_nil) hasc).2
  have hseq := @executeAll_ascending keccak256 ex block txs hasc state
  intro r hr e he hlt
  obtain ⟨i, hi, rfl⟩ := List.getElem_of_mem hr
  obtain ⟨j, hj, rfl⟩ := List.getElem_of_mem he
  rcases Nat.lt_trichotomy i j with hij | rfl | hij
  · exact absurd (List.pairwise_iff_getElem.mp hseq i j hi hj hij)
      (UInt64.not_lt.mpr (UInt64.le_of_lt hlt))
  · exact absurd hlt (UInt64.lt_irrefl _)
  · exact List.pairwise_iff_getElem.mp hpw j i hj hi hij

/-! ### One pass suffices -/

/-- Without pending transactions the attempts are over. Kind: L -/
theorem attempts_nil (txMap : HashMap UInt64 DecryptedTransaction) (left : ℕ)
    (results : HashMap UInt64 ExecutionResult) (state : MultiVersionState) :
    ex.attempts keccak256 txMap block left [] results state = (results, state) := by
  cases left <;> simp [attempts]

/-- Results in ascending order are sorted already. Kind: L -/
theorem sortBySeq_reverse {results : List ExecutionResult}
    (hasc : results.Pairwise fun a b => a.txSeq < b.txSeq) :
    sortBySeq results.reverse = results := by
  have hnodup : (results.map ExecutionResult.txSeq).Nodup :=
    List.pairwise_map.mpr (hasc.imp fun h => UInt64.ne_of_lt h)
  refine eq_of_perm_of_ascending ((sortBySeq_perm _).trans (List.reverse_perm _))
    (sortBySeq_ascending ?_) hasc
  rw [List.map_reverse]
  exact List.nodup_reverse.mpr hnodup

/-- **Validation of an ascending pass aborts nothing**, in whatever order it gets the results.
Kind: P -/
theorem aborted_of_perm_executeAll {txs : List DecryptedTransaction}
    (hasc : txs.Pairwise fun a b => a.sequenceNumber < b.sequenceNumber)
    (state : MultiVersionState) {all : List ExecutionResult}
    (hall : all.Perm (ex.executeAll keccak256 block txs state).1) :
    (validateBatch all).aborted = [] := by
  have hnodup : (all.map ExecutionResult.txSeq).Nodup := by
    refine (hall.map _).nodup_iff.mpr (List.pairwise_map.mpr ?_)
    exact (executeAll_ascending hasc state).imp fun h => UInt64.ne_of_lt h
  refine (aborted_validateBatch_eq_nil_iff hnodup).mpr fun r hr e he => ?_
  exact executeAll_clean hasc state r (hall.mem_iff.mp hr) e (hall.mem_iff.mp he)

/-- The first attempt validates the results of one ascending pass; the map lists them newest first.
Kind: L -/
theorem values_firstResults {txs : List DecryptedTransaction}
    (hnodup : (txs.map DecryptedTransaction.sequenceNumber).Nodup) (state : MultiVersionState) :
    (ex.firstResults keccak256 txs block state).entries.map Sigma.snd =
      (ex.executeAll keccak256 block (sortTxs txs) state).1.reverse := by
  have hpending := pending_filterMap_lookup hnodup
  dsimp only at hpending
  have hnodupR : ((ex.executeAll keccak256 block (sortTxs txs) state).1.map
      ExecutionResult.txSeq).Nodup :=
    List.pairwise_map.mpr
      ((executeAll_ascending (sortTxs_ascending hnodup) state).imp fun h => UInt64.ne_of_lt h)
  have hentries := entries_foldl_insert ExecutionResult.txSeq id _
    (∅ : HashMap UInt64 ExecutionResult) hnodupR fun _ _ => AList.notMem_empty _
  have hvalues := congrArg (List.map Sigma.snd) hentries
  simp only [firstResults, executeParallel, hpending]
  simpa [List.map_reverse, Function.comp_def] using hvalues

/-- The attempts on a batch end with the first one, which marks the transactions that the
validation of its results commits. Kind: P -/
theorem executeBatch_eq_first {txs : List DecryptedTransaction}
    (hnodup : (txs.map DecryptedTransaction.sequenceNumber).Nodup) (state : MultiVersionState) :
    ex.executeBatch keccak256 txs block state =
      ((ex.executeAll keccak256 block (sortTxs txs) state).1,
        markCommittedAll
          (validateBatch ((ex.firstResults keccak256 txs block state).entries.map
            Sigma.snd)).committed
          (ex.firstResults keccak256 txs block state)
          (ex.executeAll keccak256 block (sortTxs txs) state).2) := by
  by_cases hnil : txs = []
  · subst hnil
    rfl
  have hasc := sortTxs_ascending hnodup
  have hpending := pending_filterMap_lookup hnodup
  have hvalues := @values_firstResults keccak256 ex block txs hnodup state
  have haborted := aborted_of_perm_executeAll hasc state
    (List.reverse_perm (ex.executeAll keccak256 block (sortTxs txs) state).1)
  dsimp only at hpending
  have hne : (txs.foldl (fun m tx => m.insert tx.sequenceNumber tx)
      (∅ : HashMap UInt64 DecryptedTransaction)).keys.insertionSort (· ≤ ·) ≠ [] := by
    intro h
    rw [h] at hpending
    have hlen := (sortTxs_perm txs).length_eq
    rw [← hpending] at hlen
    exact hnil (List.eq_nil_of_length_eq_zero hlen.symm)
  simp only [firstResults, executeParallel, hpending] at hvalues ⊢
  simp only [executeBatch, if_neg hnil, attempts, if_neg hne, executeParallel, hpending, hvalues,
    haborted, markAbortedAll, List.foldl_nil, attempts_nil,
    sortBySeq_reverse (executeAll_ascending hasc state)]

/-- **A batch is one ascending pass**: nothing is aborted, so the results are those of the pass
and its writes are marked committed. Kind: P -/
theorem executeBatch_eq {txs : List DecryptedTransaction}
    (hnodup : (txs.map DecryptedTransaction.sequenceNumber).Nodup) (state : MultiVersionState) :
    ∃ committed results,
      ex.executeBatch keccak256 txs block state =
        ((ex.executeAll keccak256 block (sortTxs txs) state).1,
          markCommittedAll committed results
            (ex.executeAll keccak256 block (sortTxs txs) state).2) :=
  ⟨_, _, executeBatch_eq_first hnodup state⟩

/-- **No transaction is lost and none is retried**: from any state, whatever versions earlier
batches left in it, the first validation of a batch with distinct sequence numbers aborts nothing,
and the batch returns one result per transaction, in ascending order. Kind: P -/
theorem executeBatch_complete (ex : ParallelExecutor) (txs : List DecryptedTransaction)
    (hnodup : (txs.map DecryptedTransaction.sequenceNumber).Nodup) (block : BlockContext)
    (state : MultiVersionState) :
    (∀ all : List ExecutionResult,
        all.Perm ((ex.firstResults keccak256 txs block state).entries.map Sigma.snd) →
        (validateBatch all).aborted = []) ∧
      ((ex.executeBatch keccak256 txs block state).1.map ExecutionResult.txSeq).Perm
        (txs.map DecryptedTransaction.sequenceNumber) ∧
      (ex.executeBatch keccak256 txs block state).1.Pairwise fun a b => a.txSeq < b.txSeq := by
  have hasc := sortTxs_ascending hnodup
  rw [executeBatch_eq_first hnodup, values_firstResults hnodup]
  refine ⟨fun all hall => ?_, ?_, executeAll_ascending hasc state⟩
  · exact aborted_of_perm_executeAll hasc state (hall.trans (List.reverse_perm _))
  · rw [executeAll_map_txSeq]
    exact (sortTxs_perm txs).map _

/-- Two transactions out of order, no retries, and unfinalized versions of earlier batches: one
pending at a number between theirs, one aborted at a number that is reused. Kind: L -/
theorem executeBatch_complete_leftover :
    let state := (((fundedState [0x11, 0x33]).write (balanceKey (.fill 0x33)) 2
      (some (.fromU64 5))).write (balanceKey (.fill 0x11)) 1 none).markAborted
        (balanceKey (.fill 0x11)) 1
    let txs := [makeTx 0x33 (some 0xAA) 100 0 3, makeTx 0x11 (some 0x33) 100 0 1]
    ((ParallelExecutor.executeBatch (fun _ => .fill 32 0) ⟨0, ⟨∅⟩⟩ txs ⟨.fill 9⟩ state).1.map
      ExecutionResult.txSeq).Perm [3, 1] := by
  intro state txs
  exact (executeBatch_complete ⟨0, ⟨∅⟩⟩ txs (by decide) ⟨.fill 9⟩ state).2.1

end ParallelExecutor

/-! ### The pass as a run of the multi-version memory -/

/-- A transaction as a step on the multi-version memory, answering with its outcome.
Kind: D -/
def txStep (keccak256 : List UInt8 → Bytes 32) (vm : RytherVm) (block : BlockContext)
    (tx : DecryptedTransaction) : Memory.Step StateKey (Option U256) TxOutcome where
  seq := tx.sequenceNumber.toNat
  row view := rowOf (txWrites keccak256 vm tx block view)
  out view := txOutcome keccak256 vm tx view

/-- The view of a transaction, read off the memory. Kind: L -/
theorem viewOf_eq (state : MultiVersionState) (seq : UInt64) :
    viewOf state seq = fun k => state.toMemory.read k seq.toNat :=
  funext fun k => state.read_fst k seq

/-- Other sequence numbers stay fresh. Kind: L -/
theorem Fresh.writeAll {state : MultiVersionState} {seq s : UInt64} (h : Fresh state s)
    (hne : s ≠ seq) (writes : List Write) :
    Fresh (Ryther.writeAll seq state writes) s := fun k => by
  rw [runOf_writeAll, if_neg fun heq => hne (UInt64.toNat_inj.mp heq)]
  exact h k

/-- Without version chains everything is fresh. Kind: L -/
theorem fresh_of_data_empty {state : MultiVersionState} (h : state.data = ∅) (seq : UInt64) :
    Fresh state seq := fun k => by simp [MultiVersionState.runOf, h]

/-- **On fresh numbers executing transactions one after the other is a run of the memory.**
Kind: P -/
theorem ParallelExecutor.executeAll_run {keccak256 : List UInt8 → Bytes 32} {ex : ParallelExecutor}
    {block : BlockContext} (txs : List DecryptedTransaction) :
    ∀ state : MultiVersionState,
      (txs.map DecryptedTransaction.sequenceNumber).Nodup →
      (∀ tx ∈ txs, Fresh state tx.sequenceNumber) →
      ((ex.executeAll keccak256 block txs state).1.map ExecutionResult.outcome,
          (ex.executeAll keccak256 block txs state).2.toMemory) =
        state.toMemory.run (txs.map (txStep keccak256 ex.vm block)) := by
  induction txs with
  | nil => intro state _ _; rfl
  | cons tx txs ih =>
      intro state hnodup hfresh
      obtain ⟨hnot, hnodup⟩ := List.nodup_cons.mp hnodup
      have hstep : (ex.vm.execute keccak256 tx state block).2.toMemory =
          state.toMemory.put tx.sequenceNumber.toNat
            (rowOf (txWrites keccak256 ex.vm tx block (viewOf state tx.sequenceNumber))) := by
        rw [execute_eq]
        exact toMemory_writeAll_of_fresh (hfresh tx List.mem_cons_self) _
      have hout : (ex.vm.execute keccak256 tx state block).1.outcome =
          txOutcome keccak256 ex.vm tx (viewOf state tx.sequenceNumber) := by
        rw [execute_eq]
        rfl
      have ih := ih (ex.vm.execute keccak256 tx state block).2 hnodup fun u hu => by
        rw [execute_eq]
        refine (hfresh u (List.mem_cons_of_mem _ hu)).writeAll (fun heq => hnot ?_) _
        rw [← heq]
        exact List.mem_map_of_mem hu
      rw [hstep, viewOf_eq] at ih
      rw [executeAll_cons, List.map_cons, hout, viewOf_eq, List.map_cons, Memory.run]
      simp only [txStep] at ih ⊢
      rw [← ih]

/-! ### Commit marks -/

/-- No version is aborted.
Kind: D -/
def NoAborted (state : MultiVersionState) : Prop :=
  ∀ k q, ∀ v ∈ state.runOf k q, v.status ≠ .aborted

/-- The writes of a transaction are not aborted versions. Kind: L -/
theorem NoAborted.writeAll {state : MultiVersionState} (h : NoAborted state) (seq : UInt64)
    (writes : List Write) : NoAborted (Ryther.writeAll seq state writes) := by
  unfold Ryther.writeAll
  induction writes generalizing state with
  | nil => exact h
  | cons w writes ih =>
      refine ih fun k q v hv => ?_
      rw [MultiVersionState.runOf_write] at hv
      split_ifs at hv with hc
      · rcases mem_tuck.mp hv with rfl | hv
        · simp
        · exact h k q v hv
      · exact h k q v hv

/-- A commit mark changes neither visibility nor absence of aborted versions. Kind: L -/
theorem NoAborted.markCommitted {state : MultiVersionState} (h : NoAborted state) (key : StateKey)
    (seq : UInt64) : NoAborted (state.markCommitted key seq) ∧
      (state.markCommitted key seq).toMemory = state.toMemory := by
  constructor
  · intro k q v hv
    rw [MultiVersionState.markCommitted, MultiVersionState.runOf_mark] at hv
    split_ifs at hv with hc
    · cases hrun : state.runOf k q with
      | nil => rw [hrun] at hv; cases hv
      | cons w ws =>
          rw [hrun] at hv
          rcases List.mem_cons.mp hv with rfl | hv
          · simp
          · exact h k q v (by rw [hrun]; exact List.mem_cons_of_mem _ hv)
    · exact h k q v hv
  · unfold MultiVersionState.toMemory MultiVersionState.markCommitted
    simp only [MultiVersionState.baseState_mark, Memory.mk.injEq, true_and]
    funext k q
    rw [MultiVersionState.runOf_mark]
    split_ifs with hc
    · cases hrun : state.runOf k q with
      | nil => rfl
      | cons w ws =>
          have hw := h k q w (by rw [hrun]; exact List.mem_cons_self)
          simp [markHead, live, hw]
    · rfl

/-- The same for all marks of a batch. Kind: L -/
theorem NoAborted.markCommittedAll {state : MultiVersionState} (h : NoAborted state)
    (committed : List UInt64) (results : HashMap UInt64 ExecutionResult) :
    (ParallelExecutor.markCommittedAll committed results state).toMemory = state.toMemory := by
  have hset : ∀ (keys : List StateKey) (seq : UInt64) (σ : MultiVersionState), NoAborted σ →
      NoAborted (keys.foldl (fun s key => s.markCommitted key seq) σ) ∧
        (keys.foldl (fun s key => s.markCommitted key seq) σ).toMemory = σ.toMemory := by
    intro keys seq
    induction keys with
    | nil => exact fun σ hσ => ⟨hσ, rfl⟩
    | cons key keys ih =>
        intro σ hσ
        obtain ⟨h1, h2⟩ := hσ.markCommitted key seq
        obtain ⟨h3, h4⟩ := ih _ h1
        exact ⟨h3, h4.trans h2⟩
  unfold ParallelExecutor.markCommittedAll
  induction committed generalizing state with
  | nil => rfl
  | cons seq committed ih =>
      rw [List.foldl_cons]
      cases results.lookup seq with
      | none => exact ih h
      | some result =>
          obtain ⟨h1, h2⟩ := hset result.writeSet.keys seq state h
          exact (ih h1).trans h2

/-- A pass aborts no version. Kind: L -/
theorem NoAborted.executeAll {keccak256 : List UInt8 → Bytes 32} {ex : ParallelExecutor}
    {block : BlockContext} (txs : List DecryptedTransaction) :
    ∀ {state : MultiVersionState}, NoAborted state →
      NoAborted (ex.executeAll keccak256 block txs state).2 := by
  induction txs with
  | nil => exact fun h => h
  | cons tx txs ih =>
      intro state h
      rw [ParallelExecutor.executeAll_cons]
      refine ih ?_
      rw [execute_eq]
      exact h.writeAll _ _

/-- A state without versions has none that is aborted. Kind: L -/
theorem noAborted_of_data_empty {state : MultiVersionState} (h : state.data = ∅) :
    NoAborted state := fun k q v hv => by simp [MultiVersionState.runOf, h] at hv

end Ryther
