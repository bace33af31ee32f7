import Ryther.Evm.Vm
import Ryther.Execution.Conflict

/-!
# The batch executor

`src/execution/executor.rs`: execute the pending transactions in ascending order, validate all
results, mark the writes and try the aborted ones again.
-/

namespace Ryther

open Lib

/-- The executor's parts that execution reads: the retry bound and the machine. The shared state
is passed along.
Source: `execution/executor.rs`, `ParallelExecutor` and `ExecutorConfig`
Kind: D -/
structure ParallelExecutor where
  maxRetries : ℕ
  vm : RytherVm

namespace ParallelExecutor

variable (keccak256 : List UInt8 → Bytes 32)

/-- One transaction runs on the shared state.
Source: `execution/executor.rs`, `ParallelExecutor::execute_single`
Kind: D -/
def executeSingle (ex : ParallelExecutor) (tx : DecryptedTransaction) (block : BlockContext)
    (state : MultiVersionState) : ExecutionResult × MultiVersionState :=
  ex.vm.execute keccak256 tx state block

/-- Execute transactions one after the other on the shared state.
Kind: D -/
def executeAll (ex : ParallelExecutor) (block : BlockContext) :
    List DecryptedTransaction → MultiVersionState → List ExecutionResult × MultiVersionState
  | [], state => ([], state)
  | tx :: txs, state =>
      let (result, state) := ex.executeSingle keccak256 tx block state
      let (results, state) := ex.executeAll block txs state
      (result :: results, state)

/-- The transactions with the given numbers run on the shared state.
Source: `execution/executor.rs`, `ParallelExecutor::execute_parallel`
Kind: D -/
def executeParallel (ex : ParallelExecutor) (sequences : List UInt64)
    (txMap : HashMap UInt64 DecryptedTransaction) (block : BlockContext)
    (state : MultiVersionState) : List ExecutionResult × MultiVersionState :=
  ex.executeAll keccak256 block (sequences.filterMap txMap.lookup) state

/-- Mark the committed transactions of a validation.
Source: `execution/executor.rs`, first marking loop of `ParallelExecutor::execute_batch`
Kind: D -/
def markCommittedAll (committed : List UInt64) (results : HashMap UInt64 ExecutionResult)
    (state : MultiVersionState) : MultiVersionState :=
  committed.foldl (fun σ seq =>
    match results.lookup seq with
    | some result => σ.commitWriteSet seq result.writeSet
    | none => σ) state

/-- Mark the aborted transactions of a validation and drop their results.
Source: `execution/executor.rs`, second marking loop of `ParallelExecutor::execute_batch`
Kind: D -/
def markAbortedAll (aborted : List UInt64) (results : HashMap UInt64 ExecutionResult)
    (state : MultiVersionState) : HashMap UInt64 ExecutionResult × MultiVersionState :=
  aborted.foldl (fun acc seq =>
    (acc.1.erase seq,
      match acc.1.lookup seq with
      | some result => acc.2.abortWriteSet seq result.writeSet
      | none => acc.2)) (results, state)

/-- The attempts of `execute_batch`, by the number of attempts left.
Source: `execution/executor.rs`, the loop of `ParallelExecutor::execute_batch`
Kind: D -/
def attempts (ex : ParallelExecutor) (txMap : HashMap UInt64 DecryptedTransaction)
    (block : BlockContext) : ℕ → List UInt64 → HashMap UInt64 ExecutionResult →
      MultiVersionState → HashMap UInt64 ExecutionResult × MultiVersionState
  | 0, _, results, state => (results, state)
  | left + 1, pending, results, state =>
      if pending = [] then (results, state)
      else
        let (newResults, state) := ex.executeParallel keccak256 pending txMap block state
        let results := newResults.foldl (fun m r => m.insert r.txSeq r) results
        let validation := validateBatch (results.entries.map Sigma.snd)
        let state := markCommittedAll validation.committed results state
        let (results, state) := markAbortedAll validation.aborted results state
        attempts ex txMap block left validation.aborted results state

/-- The results that the first attempt on a batch validates.
Source: `execution/executor.rs`, `results` at the first `validate_batch` of
`ParallelExecutor::execute_batch`
Kind: D -/
def firstResults (ex : ParallelExecutor) (transactions : List DecryptedTransaction)
    (block : BlockContext) (state : MultiVersionState) : HashMap UInt64 ExecutionResult :=
  let txMap : HashMap UInt64 DecryptedTransaction :=
    transactions.foldl (fun m tx => m.insert tx.sequenceNumber tx) ∅
  let pending := txMap.keys.insertionSort (· ≤ ·)
  (ex.executeParallel keccak256 pending txMap block state).1.foldl
    (fun m r => m.insert r.txSeq r) ∅

/-- A batch is executed and validated in some attempts; what conflicts is tried again, up to the
configured number of times.
Source: `execution/executor.rs`, `ParallelExecutor::execute_batch`
Kind: D -/
def executeBatch (ex : ParallelExecutor) (transactions : List DecryptedTransaction)
    (block : BlockContext) (state : MultiVersionState) :
    List ExecutionResult × MultiVersionState :=
  if transactions = [] then ([], state)
  else
    let txMap : HashMap UInt64 DecryptedTransaction :=
      transactions.foldl (fun m tx => m.insert tx.sequenceNumber tx) ∅
    let pending := txMap.keys.insertionSort (· ≤ ·)
    let (results, state) := ex.attempts keccak256 txMap block (ex.maxRetries + 1) pending ∅ state
    (sortBySeq (results.entries.map Sigma.snd), state)

end ParallelExecutor

end Ryther
