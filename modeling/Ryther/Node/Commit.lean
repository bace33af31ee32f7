import Ryther.Consensus.Agreement
import Ryther.Execution.Executor

/-!
# Processing a commit

The part of `src/node/node.rs` that turns a committed round into a block. The node takes the events
of the round from its own store. Decryption is a placeholder that yields no transactions; rounds
above 1 run a fixed transaction instead.

* `RytherNode.collectedEvents`, `RytherNode.processCommit` — as in the source, without mempool,
  network messages and statistics.
* `processCommit_congr` — the executed block does not depend on the collected events.
* `collectedEvents_agree_iff` — two nodes collect the same events exactly if the same events of the
  round were delivered to them.
* `late_event_forks_content` — two nodes that commit the same anchor and collect different events.
-/

namespace Ryther

open Lib

/-! ### The node -/

/-- The parts of a node that a commit uses. The executor works on the state of the node.
Source: `node/node.rs`, `RytherNode`
Kind: D -/
structure RytherNode where
  dag : DagStore
  validators : ValidatorSet
  executor : ParallelExecutor
  stateDb : MultiVersionState

/-- The transaction that stands in for an empty block.
Source: `node/node.rs`, the injected transaction in `RytherNode::process_commit`
Kind: D -/
def dummyTransaction : DecryptedTransaction where
  «from» := .fill 0xAA
  «to» := some (.fill 0xBB)
  value := .fromU64 100
  gasLimit := 21000
  gasPrice := .fromU64 1000000000
  nonce := 0
  data := []
  sequenceNumber := 0

/-- Consecutive sequence numbers from `start` on.
Source: `node/node.rs`, the numbering loop of `RytherNode::process_commit`
Kind: D -/
def assignSequence : UInt64 → List DecryptedTransaction → List DecryptedTransaction
  | _, [] => []
  | start, tx :: txs => { tx with sequenceNumber := start } :: assignSequence (start + 1) txs

namespace RytherNode

/-- The events whose payloads a commit unpacks.
Source: `node/node.rs`, `events` in `RytherNode::process_commit`
Kind: D -/
def collectedEvents (node : RytherNode) (commit : CommitResult) : List DagEvent :=
  node.dag.eventsAtRound commit.round

/-- The transactions unpacked from the events: the loop over a payload does nothing.
Source: `node/node.rs`, `all_txs` in `RytherNode::process_commit`
Kind: D -/
def unpackedTransactions (events : List DagEvent) : List DecryptedTransaction :=
  events.flatMap fun event => event.payload.transactions.flatMap fun _ => []

/-- The account that gets the fees.
Source: `node/node.rs`, `coinbase` in `RytherNode::process_commit`
Kind: D -/
def coinbaseFor (sha256 : List UInt8 → Bytes 32) (node : RytherNode) (round : UInt64) :
    Except Panic Address :=
  if node.validators.isEmpty then .ok (.fill 0)
  else
    match electLeader sha256 node.validators round (.fill 32 0) with
    | .error panic => .error panic
    | .ok leader => .ok ((leader.bind node.validators.getAddress).getD (.fill 0))

/-- The results of the block and the node after it.
Source: `node/node.rs`, `RytherNode::process_commit`
Kind: D -/
def processCommit (keccak256 sha256 : List UInt8 → Bytes 32) (node : RytherNode)
    (commit : CommitResult) : Except Panic (List ExecutionResult × RytherNode) :=
  let allTxs := unpackedTransactions (node.collectedEvents commit)
  let allTxs := if allTxs.isEmpty ∧ commit.round > 1 then [dummyTransaction] else allTxs
  if allTxs.isEmpty then .ok ([], node)
  else
    let allTxs := assignSequence ((commit.round - 1) * 10000) allTxs
    match node.coinbaseFor sha256 commit.round with
    | .error panic => .error panic
    | .ok coinbase =>
        let (results, state) := node.executor.executeBatch keccak256 allTxs ⟨coinbase⟩ node.stateDb
        .ok (results, { node with stateDb := state.finalize sha256 })

/-- The placeholder for decryption unpacks nothing. Kind: L -/
@[simp] theorem unpackedTransactions_eq_nil (events : List DagEvent) :
    unpackedTransactions events = [] := by
  simp [unpackedTransactions]

/-- **The block of a commit depends on its round only**, for nodes with the same validators,
executor and state: what their stores hold plays no part, as nothing is unpacked. Kind: P -/
theorem processCommit_congr {keccak256 sha256 : List UInt8 → Bytes 32} {node node' : RytherNode}
    {commit commit' : CommitResult} (hround : commit.round = commit'.round)
    (hset : node.validators.SameMembers node'.validators)
    (hexecutor : node.executor = node'.executor) (hstate : node.stateDb = node'.stateDb) :
    (node.processCommit keccak256 sha256 commit).map (fun out => (out.1, out.2.stateDb)) =
      (node'.processCommit keccak256 sha256 commit').map fun out => (out.1, out.2.stateDb) := by
  have haddress : node.validators.getAddress = node'.validators.getAddress := by
    funext id
    rw [ValidatorSet.getAddress, hset id]
    rfl
  have hcoinbase : node.coinbaseFor sha256 commit'.round =
      node'.coinbaseFor sha256 commit'.round := by
    unfold coinbaseFor
    rw [hset.isEmpty_eq, electLeader_congr hset, haddress]
  unfold processCommit
  simp only [unpackedTransactions_eq_nil, hround, hcoinbase, hexecutor, hstate]
  generalize node'.coinbaseFor sha256 commit'.round = coinbase
  split_ifs
  · simp [Except.map, hstate]
  · cases coinbase <;> rfl
  · simp [Except.map, hstate]
  · cases coinbase <;> rfl

end RytherNode

/-! ### Stores after deliveries -/

/-- Every strong parent of an event is there as well.
Kind: D -/
def HoldsAncestors (events : List DagEvent) : Prop :=
  ∀ e ∈ events, ∀ parent ∈ e.strongParents, ∃ e' ∈ events, e'.id = parent

/-! ### Agreement on content -/

/-- **Two nodes collect the same events for a round exactly if they received the same events of
it.** Kind: P -/
theorem collectedEvents_agree_iff (pool : Pool) (node node' : RytherNode)
    (events events' : List DagEvent) (hpool : ∀ e ∈ events, e ∈ pool.events)
    (hpool' : ∀ e ∈ events', e ∈ pool.events) (hdag : node.dag = .ofEvents events)
    (hdag' : node'.dag = .ofEvents events') (commit commit' : CommitResult)
    (hround : commit.round = commit'.round) :
    (∀ e, e ∈ node.collectedEvents commit ↔ e ∈ node'.collectedEvents commit') ↔
      ∀ e ∈ pool.events, e.round = commit.round → (e ∈ events ↔ e ∈ events') := by
  unfold RytherNode.collectedEvents
  simp only [hdag, hdag', DagStore.mem_eventsAtRound_ofEvents_iff hpool,
    DagStore.mem_eventsAtRound_ofEvents_iff hpool', ← hround]
  constructor
  · intro h e _ hr
    simpa [hr] using h e
  · intro h e
    constructor
    · rintro ⟨he, hr⟩
      exact ⟨(h e (hpool e he) hr).mp he, hr⟩
    · rintro ⟨he, hr⟩
      exact ⟨(h e (hpool' e he) hr).mpr he, hr⟩

/-- A node of the sample network after some deliveries. Kind: D -/
def sampleNode (events : List DagEvent) : RytherNode where
  dag := .ofEvents events
  validators := sampleValidators
  executor := ⟨3, ⟨∅⟩⟩
  stateDb := .new

/-- Two nodes that received the whole sample pool in different orders. Kind: L -/
theorem collectedEvents_agree_sample :
    let commit : CommitResult := ⟨1, (makeEvent sampleSha256 2 1 []).id, makeValidator 2, 2⟩
    ∀ e, e ∈ (sampleNode (sampleRound1 ++ sampleRound2)).collectedEvents commit ↔
      e ∈ (sampleNode (sampleRound2 ++ sampleRound1.reverse)).collectedEvents commit := by
  intro commit
  refine (collectedEvents_agree_iff samplePool _ _ (sampleRound1 ++ sampleRound2)
    (sampleRound2 ++ sampleRound1.reverse) (fun e he => he) ?_ rfl rfl commit commit rfl).mpr ?_
  · intro e he
    exact (List.perm_append_comm.trans ((List.reverse_perm _).append_right _)).mem_iff.mp he
  · intro e _ _
    simp [or_comm]

/-- Events of the sample network with the first three of round 1 hold their ancestors. Kind: L -/
theorem holdsAncestors_sample {events : List DagEvent}
    (hsub : ∀ e ∈ events, e ∈ sampleRound1 ++ sampleRound2)
    (hround1 : ∀ e ∈ sampleRound1.take 3, e ∈ events) : HoldsAncestors events := by
  intro e he parent hparent
  rcases List.mem_append.mp (hsub e he) with h | h
  · obtain ⟨id, -, rfl⟩ := List.mem_map.mp h
    cases hparent
  · obtain ⟨id, -, rfl⟩ := List.mem_map.mp h
    obtain ⟨id', hid', rfl⟩ := List.mem_map.mp hparent
    have hmem : makeEvent sampleSha256 id' 1 [] ∈
        [1, 2, 3].map fun id => makeEvent sampleSha256 id 1 [] := List.mem_map_of_mem hid'
    exact ⟨makeEvent sampleSha256 id' 1 [], hround1 _ hmem, rfl⟩

/-- **A late event forks the content.** The second node has not received the event of the fourth
validator at round 1. Both nodes hold all strong ancestors of what they hold, both commit round 1
with the same anchor, and they collect different events for it. Kind: P -/
theorem late_event_forks_content :
    let events := sampleRound1 ++ sampleRound2
    let events' := sampleRound1.take 3 ++ sampleRound2
    let commit : CommitResult := ⟨1, (makeEvent sampleSha256 2 1 []).id, makeValidator 2, 2⟩
    let detector := CommitDetector.new sampleValidators (.fill 32 0)
    (∀ e ∈ events ++ events', e ∈ samplePool.events) ∧
      HoldsAncestors events ∧ HoldsAncestors events' ∧
      (detector.tryAdvance sampleSha256 (sampleNode events).dag).map Prod.fst = .ok [commit] ∧
      (detector.tryAdvance sampleSha256 (sampleNode events').dag).map Prod.fst = .ok [commit] ∧
      ∃ e, e ∈ (sampleNode events).collectedEvents commit ∧
        e ∉ (sampleNode events').collectedEvents commit := by
  intro events events' commit detector
  have hpool : ∀ e ∈ events, e ∈ sampleRound1 ++ sampleRound2 := fun e he => he
  have hpool' : ∀ e ∈ events', e ∈ sampleRound1 ++ sampleRound2 := fun e he =>
    (((List.take_sublist 3 sampleRound1).append_right sampleRound2).subset) he
  refine ⟨fun e he => (List.mem_append.mp he).elim (hpool e) (hpool' e),
    holdsAncestors_sample hpool fun e he => ?_, holdsAncestors_sample hpool' fun e he => ?_,
    by decide +kernel, by decide +kernel, makeEvent sampleSha256 4 1 [], by decide +kernel,
    by decide +kernel⟩
  · exact List.mem_append_left _ (List.mem_of_mem_take he)
  · exact List.mem_append_left _ he

end Ryther
