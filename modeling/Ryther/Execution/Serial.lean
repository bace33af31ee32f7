import Ryther.Execution.Batch

/-!
# Serial equivalence of batch execution

A batch followed by `finalize` does what its transactions do one at a time, in ascending order.

* `runBlock` — `execute_batch` followed by `finalize`.
* `runBlock_eq_runFlat` — from a finalized state a block is a run on a flat map: reads go to the
  map, and the row of each transaction overwrites it.
* `runSerially` — one block per transaction; `runBlock_eq_runSerially` is the equivalence.
-/

namespace Ryther

open Lib

section

variable (keccak256 sha256 : List UInt8 → Bytes 32) (ex : ParallelExecutor) (block : BlockContext)

/-- Execute a batch and finalize.
Kind: D -/
def runBlock (txs : List DecryptedTransaction) (state : MultiVersionState) :
    List ExecutionResult × MultiVersionState :=
  let (results, state) := ex.executeBatch keccak256 txs block state
  (results, state.finalize sha256)

/-- Execute transactions one at a time, each in a batch of its own that is finalized.
Kind: D -/
def runSerially : List DecryptedTransaction → MultiVersionState →
    List ExecutionResult × MultiVersionState
  | [], state => ([], state)
  | tx :: txs, state =>
      let (results, state) := runBlock keccak256 sha256 ex block [tx] state
      let (rest, state) := runSerially txs state
      (results ++ rest, state)

end

/-- Sequence number, status, gas used and output of a result.
Kind: D -/
def ExecutionResult.summary (r : ExecutionResult) : UInt64 × TxOutcome := (r.txSeq, r.outcome)

section

variable {keccak256 sha256 : List UInt8 → Bytes 32} {ex : ParallelExecutor} {block : BlockContext}

theorem toNat_u64Max : u64Max.toNat = 2 ^ 64 - 1 := rfl

/-- A state without version chains is flat. Kind: L -/
theorem toMemory_of_data_empty {state : MultiVersionState} (h : state.data = ∅) :
    state.toMemory.BelowSeq 0 ∧ ∀ k r, state.toMemory.read k r = state.getBase k := by
  have hcol : ∀ k q, state.toMemory.column k q = none := fun k q => by
    simp [MultiVersionState.toMemory, MultiVersionState.runOf, h, live]
  refine ⟨fun k q _ => hcol k q, fun k r => ?_⟩
  unfold Memory.read
  rw [newestBelow_eq_none_iff.mpr fun q _ => hcol k q]
  rfl

/-- The sequence numbers of a block's results. Kind: L -/
theorem runBlock_map_txSeq {txs : List DecryptedTransaction}
    (hnodup : (txs.map DecryptedTransaction.sequenceNumber).Nodup) (state : MultiVersionState) :
    (runBlock keccak256 sha256 ex block txs state).1.map ExecutionResult.txSeq =
      (sortTxs txs).map DecryptedTransaction.sequenceNumber := by
  obtain ⟨committed, results, heq⟩ :=
    @ParallelExecutor.executeBatch_eq keccak256 ex block txs hnodup state
  simp only [runBlock, heq]
  exact ParallelExecutor.executeAll_map_txSeq _ _

/-- **From a finalized state a block is a run on a flat map.** Kind: P -/
theorem runBlock_eq_runFlat {txs : List DecryptedTransaction}
    (hnodup : (txs.map DecryptedTransaction.sequenceNumber).Nodup) {state : MultiVersionState}
    (hdata : state.data = ∅) :
    ((runBlock keccak256 sha256 ex block txs state).1.map ExecutionResult.outcome,
        (runBlock keccak256 sha256 ex block txs state).2.getBase) =
      Memory.runFlat u64Max.toNat state.getBase
        ((sortTxs txs).map (txStep keccak256 ex.vm block)) := by
  obtain ⟨committed, results, heq⟩ :=
    @ParallelExecutor.executeBatch_eq keccak256 ex block txs hnodup state
  obtain ⟨hbelow, hread⟩ := toMemory_of_data_empty hdata
  have hrun := @ParallelExecutor.executeAll_run keccak256 ex block (sortTxs txs) state
    (((sortTxs_perm txs).map _).nodup_iff.mpr hnodup) fun tx _ => fresh_of_data_empty hdata _
  obtain ⟨houts, hmem⟩ := Prod.mk.inj (hrun.trans (Prod.mk.eta).symm)
  -- the pass is ascending, so the simulation applies with `u64::MAX` as the horizon
  have hbounds : ∀ t ∈ (sortTxs txs).map (txStep keccak256 ex.vm block),
      0 ≤ t.seq ∧ t.seq ≤ u64Max.toNat := by
    intro t ht
    obtain ⟨tx, -, rfl⟩ := List.mem_map.mp ht
    have := tx.sequenceNumber.toNat_lt
    exact ⟨Nat.zero_le _, by rw [toNat_u64Max]; simp only [txStep]; omega⟩
  obtain ⟨hsim, hfinal⟩ := Memory.run_ascending
    ((sortTxs txs).map (txStep keccak256 ex.vm block)) state.toMemory state.getBase 0 hbelow
    (fun k r _ => hread k r) (Nat.zero_le _) hbounds
    (List.pairwise_map.mpr ((sortTxs_ascending hnodup).imp fun h => UInt64.lt_iff_toNat_lt.mp h))
  simp only [runBlock, heq]
  refine Prod.ext (houts.trans hsim) (funext fun k => ?_)
  have hmarks := (@NoAborted.executeAll keccak256 ex block (sortTxs txs) state
    (noAborted_of_data_empty hdata)).markCommittedAll committed results
  simp only [MultiVersionState.getBase, MultiVersionState.lookup_finalize,
    MultiVersionState.read_fst, hmarks, hmem]
  exact hfinal k

/-- One transaction at a time is the same run on a flat map. Kind: P -/
theorem runSerially_eq_runFlat (txs : List DecryptedTransaction) :
    ∀ {state : MultiVersionState}, state.data = ∅ →
      ((runSerially keccak256 sha256 ex block txs state).1.map ExecutionResult.outcome,
          (runSerially keccak256 sha256 ex block txs state).2.getBase) =
        Memory.runFlat u64Max.toNat state.getBase (txs.map (txStep keccak256 ex.vm block)) := by
  induction txs with
  | nil => intro state _; rfl
  | cons tx txs ih =>
      intro state hdata
      have hone := @runBlock_eq_runFlat keccak256 sha256 ex block [tx] (List.nodup_singleton _)
        state hdata
      rw [sortTxs_singleton, List.map_singleton] at hone
      obtain ⟨hout, hbase⟩ := Prod.mk.inj (hone.trans (Prod.mk.eta).symm)
      have ih := @ih (runBlock keccak256 sha256 ex block [tx] state).2 rfl
      rw [hbase] at ih
      obtain ⟨ihout, ihbase⟩ := Prod.mk.inj (ih.trans (Prod.mk.eta).symm)
      simp only [runSerially, List.map_append, List.map_cons, hout, ihout, ihbase, Memory.runFlat]
      rfl

/-- The sequence numbers of a serial run. Kind: L -/
theorem runSerially_map_txSeq (txs : List DecryptedTransaction) (state : MultiVersionState) :
    (runSerially keccak256 sha256 ex block txs state).1.map ExecutionResult.txSeq =
      txs.map DecryptedTransaction.sequenceNumber := by
  induction txs generalizing state with
  | nil => rfl
  | cons tx txs ih =>
      have hone := @runBlock_map_txSeq keccak256 sha256 ex block [tx] (List.nodup_singleton _) state
      simp only [runSerially, List.map_append, ih, hone]
      rfl

end

/-- **Serial equivalence.** From a state with no outstanding versions, a batch with distinct
sequence numbers followed by `finalize` gives every transaction the status, gas used and output,
and leaves the base state, of executing the transactions one at a time in ascending order.
Kind: P -/
theorem runBlock_eq_runSerially (keccak256 sha256 : List UInt8 → Bytes 32) (ex : ParallelExecutor)
    (block : BlockContext) (state : MultiVersionState) (hdata : state.data = ∅)
    (txs : List DecryptedTransaction)
    (hnodup : (txs.map DecryptedTransaction.sequenceNumber).Nodup) :
    (runBlock keccak256 sha256 ex block txs state).1.map ExecutionResult.summary =
        (runSerially keccak256 sha256 ex block (sortTxs txs) state).1.map
          ExecutionResult.summary ∧
      ∀ k, (runBlock keccak256 sha256 ex block txs state).2.getBase k =
        (runSerially keccak256 sha256 ex block (sortTxs txs) state).2.getBase k := by
  have hblock := @runBlock_eq_runFlat keccak256 sha256 ex block txs hnodup state hdata
  have hserial := @runSerially_eq_runFlat keccak256 sha256 ex block (sortTxs txs) state hdata
  obtain ⟨hout, hbase⟩ := Prod.mk.inj (hblock.trans hserial.symm)
  refine ⟨?_, fun k => congrFun hbase k⟩
  have hzip : ∀ l : List ExecutionResult, l.map ExecutionResult.summary =
      (l.map ExecutionResult.txSeq).zip (l.map ExecutionResult.outcome) := fun l => by
    rw [List.zip_map']
    rfl
  rw [hzip, hzip, hout, runBlock_map_txSeq hnodup, runSerially_map_txSeq]

/-- The equivalence on two dependent transactions given in descending order. Kind: L -/
theorem runBlock_eq_runSerially_sample :
    let txs := [makeTx 0xAA (some 0xBB) 100 1 2, makeTx 0xAA (some 0xBB) 50 0 1]
    let keccak256 : List UInt8 → Bytes 32 := fun _ => .fill 32 0xEE
    let sha256 : List UInt8 → Bytes 32 := fun _ => .fill 32 0xDD
    let ex : ParallelExecutor := ⟨3, ⟨∅⟩⟩
    let block : BlockContext := ⟨.fill 0⟩
    (runBlock keccak256 sha256 ex block txs (fundedState [0xAA])).1.map ExecutionResult.summary =
        (runSerially keccak256 sha256 ex block (sortTxs txs) (fundedState [0xAA])).1.map
          ExecutionResult.summary ∧
      ∀ k, (runBlock keccak256 sha256 ex block txs (fundedState [0xAA])).2.getBase k =
        (runSerially keccak256 sha256 ex block (sortTxs txs) (fundedState [0xAA])).2.getBase k :=
  runBlock_eq_runSerially _ _ _ _ _ rfl _ (by decide)

end Ryther
