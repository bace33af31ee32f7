import Ryther.Consensus.Progress
import Ryther.Execution.Replay
import Ryther.Node.Commit
import Ryther.Node.Mempool

/-!
# Nodes as replicas of one state machine

Consensus and execution together: a turn of the block producer of `src/node/node.rs` takes all
commits that `try_advance` returns and processes them one after the other.

* `ReplicaNode`, `runReplica` — a node with its detector, pool and counters, the blocks it processes
  in a run, and the node after it.
* `replay` — what a node executes as a function of its anchors; `runReplica_eq_replay` says it is
  one.
* `replicas_agree` — the blocks of two nodes that receive events of one pool in any order are
  prefixes of one another, results and states included.
* `stats_count_blocks` — the counters of a node against the blocks it processed; the first round is
  not counted.
* `settled_after_round_two` — as the only transaction is the injected one, no block after that of
  round 2 changes the state or has a success.
-/

namespace Ryther

open Lib

/-! ### Nodes and runs -/

/-- The counters of a node. No call changes those of the events, and the number of peers is filled
in where they are read.
Source: `node/node.rs`, `NodeStats`
Kind: D -/
structure NodeStats where
  eventsCreated : UInt64
  eventsReceived : UInt64
  transactionsProcessed : UInt64
  roundsCommitted : UInt64
  currentRound : UInt64
  connectedPeers : ℕ

/-- All counters are 0.
Source: `node/node.rs`, `NodeStats::default`
Kind: D -/
def NodeStats.default : NodeStats := ⟨0, 0, 0, 0, 0, 0⟩

/-- The commitment of the transaction that stands in for an empty block.
Source: `node/node.rs`, the injected transaction in `RytherNode::process_commit`
Kind: D -/
def dummyCommitment : Bytes 32 := .fill 32 0

/-- A node with its detector, its pool and its counters.
Source: `node/node.rs`, `RytherNode`
Kind: D -/
structure ReplicaNode extends RytherNode where
  detector : CommitDetector
  mempool : TransactionPool
  stats : NodeStats

/-- What a node did for a commit: its anchor, the results, and the state after it.
Kind: D -/
structure CommittedBlock where
  anchor : UInt64 × ValidatorId × EventId
  results : List ExecutionResult
  state : MultiVersionState

namespace ReplicaNode

variable (keccak256 sha256 : List UInt8 → Bytes 32)

/-- A node without events.
Kind: D -/
def start (validators electors : ValidatorSet) (executor : ParallelExecutor)
    (state : MultiVersionState) (seed : Bytes 32) : ReplicaNode where
  dag := .new
  validators := validators
  executor := executor
  stateDb := state
  detector := .new electors seed
  mempool := .new 10000
  stats := .default

/-- The pool and the counters after a commit: with transactions they are marked and counted, and
without any the call returns before.
Source: `node/node.rs`, `commitments` and `stats` in `RytherNode::process_commit`
Kind: D -/
def account (node : ReplicaNode) (commit : CommitResult) : ReplicaNode :=
  let allTxs := RytherNode.unpackedTransactions (node.collectedEvents commit)
  let allTxs := if allTxs.isEmpty ∧ commit.round > 1 then [dummyTransaction] else allTxs
  if allTxs.isEmpty then node
  else
    let commitments := allTxs.map fun _ => dummyCommitment
    { node with
      mempool := (node.mempool.markIncluded commitments).1
      stats :=
        { node.stats with
          transactionsProcessed :=
            node.stats.transactionsProcessed + UInt64.ofNat commitments.length
          roundsCommitted := node.stats.roundsCommitted + 1
          currentRound := commit.round } }

/-- The results of the block and the node after it.
Source: `node/node.rs`, `RytherNode::process_commit`
Kind: D -/
def processCommit (node : ReplicaNode) (commit : CommitResult) :
    Except Panic (List ExecutionResult × ReplicaNode) :=
  (node.toRytherNode.processCommit keccak256 sha256 commit).map fun out =>
    (out.1, { node.account commit with toRytherNode := out.2 })

/-- The commits of one turn. A panic ends the task of the block producer.
Source: `node/node.rs`, the loop over `commits` in `RytherNode::start_block_producer`
Kind: D -/
def processAll : List CommitResult → ReplicaNode → List CommittedBlock × Option ReplicaNode
  | [], node => ([], some node)
  | commit :: commits, node =>
      match node.processCommit keccak256 sha256 commit with
      | .error _ => ([], none)
      | .ok (results, node) =>
          let rest := processAll commits node
          (⟨commit.anchor, results, node.stateDb⟩ :: rest.1, rest.2)

/-- The second part of a turn of the block producer: consensus advances and its commits are
processed.
Source: `node/node.rs`, `RytherNode::start_block_producer`
Kind: D -/
def advance (node : ReplicaNode) : List CommittedBlock × Option ReplicaNode :=
  match node.detector.tryAdvance sha256 node.dag with
  | .error _ => ([], none)
  | .ok (commits, detector) =>
      processAll keccak256 sha256 commits { node with detector := detector }

/-- The blocks of a run and the node after it, unless it panicked.
Kind: D -/
def runReplica : List Action → ReplicaNode → List CommittedBlock × Option ReplicaNode
  | [], node => ([], some node)
  | .insert event :: actions, node => runReplica actions { node with dag := node.dag.insert event }
  | .tryAdvance :: actions, node =>
      match node.advance keccak256 sha256 with
      | (blocks, none) => (blocks, none)
      | (blocks, some node) =>
          let rest := runReplica actions node
          (blocks ++ rest.1, rest.2)

end ReplicaNode

/-! ### What a commit does -/

section Commit

variable (keccak256 sha256 : List UInt8 → Bytes 32)

/-- The injected transaction of a round.
Kind: D -/
def injectedAt (round : UInt64) : DecryptedTransaction :=
  { dummyTransaction with sequenceNumber := (round - 1) * 10000 }

/-- **What processing a commit does**: nothing up to round 1, and above it a block with the injected
transaction, unless the election of the coinbase panics. Kind: L -/
theorem RytherNode.processCommit_cases (node : RytherNode) (commit : CommitResult) :
    (commit.round ≤ 1 ∧ node.processCommit keccak256 sha256 commit = .ok ([], node)) ∨
      1 < commit.round ∧
        ((∃ panic, node.coinbaseFor sha256 commit.round = .error panic ∧
            node.processCommit keccak256 sha256 commit = .error panic) ∨
          ∃ coinbase, node.coinbaseFor sha256 commit.round = .ok coinbase ∧
            let block := runBlock keccak256 sha256 node.executor ⟨coinbase⟩
              [injectedAt commit.round] node.stateDb
            node.processCommit keccak256 sha256 commit =
              .ok (block.1, { node with stateDb := block.2 })) := by
  unfold processCommit
  simp only [unpackedTransactions_eq_nil, List.isEmpty_nil, true_and]
  by_cases hround : 1 < commit.round
  · refine .inr ⟨hround, ?_⟩
    rw [if_pos hround]
    simp only [List.isEmpty_cons, Bool.false_eq_true, if_false]
    rcases node.coinbaseFor sha256 commit.round with panic | coinbase
    · exact .inl ⟨panic, rfl, rfl⟩
    · exact .inr ⟨coinbase, rfl, rfl⟩
  · refine .inl ⟨UInt64.not_lt.mp hround, ?_⟩
    rw [if_neg hround]
    rfl

/-- The pool and the counters after a commit. Kind: L -/
theorem ReplicaNode.account_eq (node : ReplicaNode) (commit : CommitResult) :
    node.account commit =
      if 1 < commit.round then
        { node with
          mempool := (node.mempool.markIncluded [dummyCommitment]).1
          stats :=
            { node.stats with
              transactionsProcessed := node.stats.transactionsProcessed + 1
              roundsCommitted := node.stats.roundsCommitted + 1
              currentRound := commit.round } }
      else node := by
  unfold account
  simp only [RytherNode.unpackedTransactions_eq_nil, List.isEmpty_nil, true_and]
  by_cases hround : 1 < commit.round
  · rw [if_pos hround, if_pos hround]
    rfl
  · rw [if_neg hround, if_neg hround]
    rfl

end Commit

/-! ### Execution as a function of the anchors -/

section Replay

variable (keccak256 sha256 : List UInt8 → Bytes 32)

/-- The results and the state that a round gives.
Kind: D -/
def blockOf (validators : ValidatorSet) (executor : ParallelExecutor) (state : MultiVersionState)
    (round : UInt64) : Except Panic (List ExecutionResult × MultiVersionState) :=
  ((⟨.new, validators, executor, state⟩ : RytherNode).processCommit keccak256 sha256
    ⟨round, .fill 32 0, ⟨.fill 48 0⟩, 0⟩).map fun out => (out.1, out.2.stateDb)

/-- The blocks that some anchors give, and the state after them, unless a round panics.
Kind: D -/
def replay (validators : ValidatorSet) (executor : ParallelExecutor) :
    List (UInt64 × ValidatorId × EventId) → MultiVersionState →
      List CommittedBlock × Option MultiVersionState
  | [], state => ([], some state)
  | anchor :: anchors, state =>
      match blockOf keccak256 sha256 validators executor state anchor.1 with
      | .error _ => ([], none)
      | .ok (results, state) =>
          let rest := replay validators executor anchors state
          (⟨anchor, results, state⟩ :: rest.1, rest.2)

variable {keccak256 sha256} {validators : ValidatorSet} {executor : ParallelExecutor}

/-- Further anchors are executed on the state after the first ones, if there was no panic. Kind: L
-/
theorem replay_append (anchors more : List (UInt64 × ValidatorId × EventId))
    (state : MultiVersionState) :
    replay keccak256 sha256 validators executor (anchors ++ more) state =
      match replay keccak256 sha256 validators executor anchors state with
      | (blocks, none) => (blocks, none)
      | (blocks, some state) =>
          let rest := replay keccak256 sha256 validators executor more state
          (blocks ++ rest.1, rest.2) := by
  induction anchors generalizing state with
  | nil => rfl
  | cons anchor anchors ih =>
      rw [List.cons_append, replay, replay]
      rcases blockOf keccak256 sha256 validators executor state anchor.1 with _ | ⟨results, next⟩
      · rfl
      · simp only [ih]
        rcases replay keccak256 sha256 validators executor anchors next with ⟨blocks, _ | last⟩
        · rfl
        · rfl

/-- The blocks of fewer anchors come first. Kind: L -/
theorem replay_prefix {anchors anchors' : List (UInt64 × ValidatorId × EventId)}
    (h : anchors <+: anchors') (state : MultiVersionState) :
    (replay keccak256 sha256 validators executor anchors state).1 <+:
      (replay keccak256 sha256 validators executor anchors' state).1 := by
  obtain ⟨more, rfl⟩ := h
  rw [replay_append]
  rcases replay keccak256 sha256 validators executor anchors state with ⟨blocks, _ | last⟩
  · exact List.prefix_rfl
  · exact List.prefix_append _ _

namespace ReplicaNode

variable (keccak256 sha256)

/-- A commit changes the state, the pool and the counters of a node only, and gives the block of its
round. Kind: L -/
theorem processCommit_eq_blockOf {node : ReplicaNode}
    (hset : node.validators.SameMembers validators) (commit : CommitResult) :
    (∃ panic, node.processCommit keccak256 sha256 commit = .error panic ∧
        blockOf keccak256 sha256 validators node.executor node.stateDb commit.round =
          .error panic) ∨
      ∃ results state,
        blockOf keccak256 sha256 validators node.executor node.stateDb commit.round =
          .ok (results, state) ∧
        node.processCommit keccak256 sha256 commit =
          .ok (results, { node.account commit with
            toRytherNode := { node.toRytherNode with stateDb := state } }) := by
  have hblock : (node.toRytherNode.processCommit keccak256 sha256 commit).map
      (fun out => (out.1, out.2.stateDb)) =
        blockOf keccak256 sha256 validators node.executor node.stateDb commit.round :=
    RytherNode.processCommit_congr rfl hset rfl rfl
  rw [← hblock]
  unfold processCommit
  rcases node.toRytherNode.processCommit_cases keccak256 sha256 commit with
    ⟨-, hcommit⟩ | ⟨-, ⟨panic, -, hcommit⟩ | ⟨coinbase, -, hcommit⟩⟩
  · rw [hcommit]
    exact .inr ⟨_, _, rfl, rfl⟩
  · rw [hcommit]
    exact .inl ⟨panic, rfl, rfl⟩
  · rw [hcommit]
    exact .inr ⟨_, _, rfl, rfl⟩

/-- The node after some commits has the store, the validators, the executor and the detector it had.
Kind: D -/
structure SameParts (node node' : ReplicaNode) : Prop where
  dag_eq : node'.dag = node.dag
  validators_eq : node'.validators = node.validators
  executor_eq : node'.executor = node.executor
  detector_eq : node'.detector = node.detector

/-- Counting a commit does not touch the detector. Kind: L -/
theorem detector_account (node : ReplicaNode) (commit : CommitResult) :
    (node.account commit).detector = node.detector := by
  rw [account_eq]
  split_ifs <;> rfl

/-- **A turn gives the blocks of its anchors.** By induction on the commits. Kind: L -/
theorem processAll_eq_replay (commits : List CommitResult) :
    ∀ node : ReplicaNode, node.validators.SameMembers validators →
      let turn := processAll keccak256 sha256 commits node
      let blocks := replay keccak256 sha256 validators node.executor
        (commits.map CommitResult.anchor) node.stateDb
      turn.1 = blocks.1 ∧ turn.2.map (fun node => node.stateDb) = blocks.2 ∧
        ∀ node', turn.2 = some node' → node.SameParts node' ∧ turn.1.length = commits.length := by
  induction commits with
  | nil =>
      intro node _
      refine ⟨rfl, rfl, ?_⟩
      rintro _ ⟨⟩
      exact ⟨⟨rfl, rfl, rfl, rfl⟩, rfl⟩
  | cons commit commits ih =>
      intro node hset
      dsimp only
      rw [processAll, List.map_cons, replay]
      rcases processCommit_eq_blockOf keccak256 sha256 hset commit with
        ⟨panic, hcommit, hblock⟩ | ⟨results, state, hblock, hcommit⟩
      · have hblock' : blockOf keccak256 sha256 validators node.executor node.stateDb
          commit.anchor.1 = .error panic := hblock
        rw [hcommit, hblock']
        exact ⟨rfl, rfl, fun _ h => by cases h⟩
      · have hblock' : blockOf keccak256 sha256 validators node.executor node.stateDb
          commit.anchor.1 = .ok (results, state) := hblock
        rw [hcommit, hblock']
        obtain ⟨hblocks, hstate, hparts⟩ := ih { node.account commit with
          toRytherNode := { node.toRytherNode with stateDb := state } } hset
        refine ⟨?_, hstate, fun node' hnode' => ?_⟩
        · simp only [hblocks]
        · obtain ⟨hsame, hlength⟩ := hparts node' hnode'
          refine ⟨⟨hsame.dag_eq, hsame.validators_eq, hsame.executor_eq, ?_⟩, ?_⟩
          · exact hsame.detector_eq.trans (node.detector_account commit)
          · simp only [List.length_cons, hlength]

/-- **A run executes its anchors.** By induction on the actions: a panic of a round ends both.
Kind: P -/
theorem runReplica_eq_replay (actions : List Action) :
    ∀ node : ReplicaNode, node.validators.SameMembers validators →
      (runReplica keccak256 sha256 actions node).1 =
        (replay keccak256 sha256 validators node.executor
          ((runNode sha256 actions ⟨node.dag, node.detector⟩).map CommitResult.anchor)
          node.stateDb).1 := by
  induction actions with
  | nil => exact fun _ _ => rfl
  | cons action actions ih =>
      intro node hset
      rcases action with event | -
      · exact ih { node with dag := node.dag.insert event } hset
      · rw [runReplica, runNode, advance]
        rcases node.detector.tryAdvance sha256 node.dag with panic | ⟨commits, d⟩
        · rfl
        · obtain ⟨hblocks, hstate, hparts⟩ := processAll_eq_replay keccak256 sha256 commits
            { node with detector := d } hset
          simp only [List.map_append, replay_append]
          rcases hturn : processAll keccak256 sha256 commits { node with detector := d } with
            ⟨blocks, _ | node'⟩
          · rw [hturn] at hblocks hstate
            rcases hreplay : replay keccak256 sha256 validators node.executor
                (commits.map CommitResult.anchor) node.stateDb with ⟨blocks', _ | state⟩
            · rw [hreplay] at hblocks
              exact hblocks
            · rw [hreplay] at hstate
              cases hstate
          · rw [hturn] at hblocks hstate hparts
            obtain ⟨hsame, -⟩ := hparts node' rfl
            have hnext := ih node' (hsame.validators_eq ▸ hset)
            rw [hsame.dag_eq, hsame.executor_eq, hsame.detector_eq] at hnext
            rcases hreplay : replay keccak256 sha256 validators node.executor
                (commits.map CommitResult.anchor) node.stateDb with ⟨blocks', _ | state⟩
            · rw [hreplay] at hstate
              cases hstate
            · rw [hreplay] at hblocks hstate
              cases hstate
              cases hblocks
              simp only [hnext]

end ReplicaNode

end Replay

/-! ### Agreement of replicas -/

/-- **Replicas agree.** Two nodes start with the same validators, executor, state and seed. They
receive events of one pool in any order and advance at any moments. Then the blocks that one of them
processes are a prefix of those the other processes: anchors, results and states.
Source: `node/node.rs`, `RytherNode::start_block_producer`, `RytherNode::process_commit`
Kind: P -/
theorem replicas_agree (keccak256 sha256 : List UInt8 → Bytes 32) (pool : Pool)
    (validators validators' electors electors' : ValidatorSet)
    (hvalidators : validators.SameMembers validators')
    (helectors : electors.SameMembers electors') (executor : ParallelExecutor)
    (state : MultiVersionState) (seed : Bytes 32) (actions actions' : List Action)
    (hpool : ∀ e ∈ delivered actions, e ∈ pool.events)
    (hpool' : ∀ e ∈ delivered actions', e ∈ pool.events) :
    let blocks := (ReplicaNode.runReplica keccak256 sha256 actions
      (.start validators electors executor state seed)).1
    let blocks' := (ReplicaNode.runReplica keccak256 sha256 actions'
      (.start validators' electors' executor state seed)).1
    blocks <+: blocks' ∨ blocks' <+: blocks := by
  intro blocks blocks'
  have hblocks := ReplicaNode.runReplica_eq_replay keccak256 sha256 actions
    (.start validators electors executor state seed) hvalidators
  have hblocks' := ReplicaNode.runReplica_eq_replay keccak256 sha256 actions'
    (.start validators' electors' executor state seed) (fun _ => rfl)
  have hgrow : Growing (NextAnchor sha256 pool electors seed)
      ((runNode sha256 actions (.start electors seed)).map CommitResult.anchor) := by
    simpa using Follows.growing_runNode Follows.start hpool
  have hgrow' : Growing (NextAnchor sha256 pool electors' seed)
      ((runNode sha256 actions' (.start electors' seed)).map CommitResult.anchor) := by
    simpa using Follows.growing_runNode Follows.start hpool'
  have hnext : NextAnchor sha256 pool electors' seed = NextAnchor sha256 pool electors seed := by
    funext before next
    simp only [NextAnchor, electLeader_congr helectors]
  rw [hnext] at hgrow'
  -- the anchors are comparable, and the blocks are a function of them
  rcases hgrow.comparable nextAnchor_unique hgrow' with hprefix | hprefix
  · left
    show (ReplicaNode.runReplica keccak256 sha256 actions _).1 <+:
      (ReplicaNode.runReplica keccak256 sha256 actions' _).1
    rw [hblocks, hblocks']
    exact replay_prefix hprefix state
  · right
    show (ReplicaNode.runReplica keccak256 sha256 actions' _).1 <+:
      (ReplicaNode.runReplica keccak256 sha256 actions _).1
    rw [hblocks, hblocks']
    exact replay_prefix hprefix state

/-- Two replicas of the sample network with a funded sender. The second has its validators in the
opposite order, misses an event, receives the others in the opposite order and advances between.
Kind: L -/
theorem replicas_agree_sample :
    let actions := (sampleRound1 ++ sampleRound2).map Action.insert ++ [.tryAdvance]
    let actions' := [.tryAdvance] ++ sampleRound2.reverse.map Action.insert ++ [.tryAdvance] ++
      (sampleRound1.take 3).map Action.insert ++ [.tryAdvance, .tryAdvance]
    let set' := ValidatorSet.fromValidators
      ([4, 3, 2, 1].map fun id => (makeValidator id, 100, .fill 0))
    let blocks := (ReplicaNode.runReplica sampleSha256 sampleSha256 actions
      (.start sampleValidators sampleValidators ⟨3, ⟨∅⟩⟩ (fundedState [0xAA]) (.fill 32 0))).1
    let blocks' := (ReplicaNode.runReplica sampleSha256 sampleSha256 actions'
      (.start set' set' ⟨3, ⟨∅⟩⟩ (fundedState [0xAA]) (.fill 32 0))).1
    blocks.length = 1 ∧ blocks'.length = 1 ∧ (blocks <+: blocks' ∨ blocks' <+: blocks) := by
  intro actions actions' set' blocks blocks'
  have hsame : sampleValidators.SameMembers set' := .of_perm (by decide +kernel)
  have hmem : ∀ l : List DagEvent, (∀ e ∈ l, e ∈ sampleRound1 ++ sampleRound2) →
      ∀ e ∈ l, e ∈ samplePool.events := fun _ h => h
  refine ⟨by decide +kernel, by decide +kernel, ?_⟩
  exact replicas_agree sampleSha256 sampleSha256 samplePool sampleValidators set' sampleValidators
    set' hsame hsame ⟨3, ⟨∅⟩⟩ (fundedState [0xAA]) (.fill 32 0) actions actions'
    (hmem _ (by decide +kernel)) (hmem _ (by decide +kernel))

/-! ### The counters -/

/-- The counters after `n` commits: the first one is not counted, and every other one counts one
round and one transaction. Events are not counted.
Kind: D -/
structure Counted (n : ℕ) (stats : NodeStats) : Prop where
  rounds : stats.roundsCommitted.toNat = n - 1
  transactions : stats.transactionsProcessed.toNat = n - 1
  current : stats.currentRound.toNat = if n ≤ 1 then 0 else n
  created : stats.eventsCreated = 0
  received : stats.eventsReceived = 0

section Counters

variable {keccak256 sha256 : List UInt8 → Bytes 32}

/-- A commit of the next round is counted unless it is the first. Kind: L -/
theorem Counted.account {n : ℕ} {node : ReplicaNode} {commit : CommitResult}
    (h : Counted n node.stats) (hround : commit.round.toNat = n + 1) :
    Counted (n + 1) (node.account commit).stats := by
  have hlt := commit.round.toNat_lt
  have hone : (1 : UInt64).toNat = 1 := rfl
  rw [ReplicaNode.account_eq]
  split_ifs with hfirst
  · rw [UInt64.lt_iff_toNat_lt, hround, hone] at hfirst
    have hsucc : ∀ count : UInt64, count.toNat = n - 1 → (count + 1).toNat = n + 1 - 1 := by
      intro count hcount
      rw [UInt64.toNat_add, hcount, hone]
      omega
    refine ⟨hsucc _ h.rounds, hsucc _ h.transactions, ?_, h.created, h.received⟩
    rw [if_neg (by omega)]
    exact hround
  · rw [UInt64.lt_iff_toNat_lt, hround, hone] at hfirst
    obtain rfl : n = 0 := by omega
    exact ⟨h.rounds, h.transactions, h.current, h.created, h.received⟩

/-- The commits of a turn. By induction on them. Kind: L -/
theorem Counted.processAll {commits : List CommitResult} :
    ∀ (n : ℕ) (node node' : ReplicaNode), Counted n node.stats →
      commits.map (fun c => c.round.toNat) = List.range' (n + 1) commits.length →
      (ReplicaNode.processAll keccak256 sha256 commits node).2 = some node' →
      Counted (n + commits.length) node'.stats := by
  induction commits with
  | nil =>
      rintro n node _ h - ⟨⟩
      exact h
  | cons commit commits ih =>
      intro n node node' h hrounds hturn
      rw [List.map_cons, List.length_cons, List.range'_succ] at hrounds
      obtain ⟨hround, hrest⟩ := List.cons.inj hrounds
      rw [ReplicaNode.processAll] at hturn
      rcases ReplicaNode.processCommit_eq_blockOf keccak256 sha256
          (show node.validators.SameMembers node.validators from fun _ => rfl) commit with
        ⟨panic, hcommit, -⟩ | ⟨results, state, -, hcommit⟩
      · rw [hcommit] at hturn
        cases hturn
      · rw [hcommit] at hturn
        have hcounted := ih (n + 1) { node.account commit with
          toRytherNode := { node.toRytherNode with stateDb := state } } node'
          (h.account hround) hrest hturn
        rwa [List.length_cons, ← Nat.add_assoc, Nat.add_right_comm]

/-- **The counters of a run.** By induction on the actions: a turn counts its commits, and these
are the rounds after the last one. Kind: L -/
theorem Counted.runReplica {actions : List Action} :
    ∀ (node node' : ReplicaNode), Counted node.detector.lastCommitted.toNat node.stats →
      (ReplicaNode.runReplica keccak256 sha256 actions node).2 = some node' →
      node'.detector.lastCommitted.toNat = node.detector.lastCommitted.toNat +
          (ReplicaNode.runReplica keccak256 sha256 actions node).1.length ∧
        Counted node'.detector.lastCommitted.toNat node'.stats := by
  induction actions with
  | nil =>
      rintro node _ h ⟨⟩
      exact ⟨rfl, h⟩
  | cons action actions ih =>
      intro node node' h hrun
      rcases action with event | -
      · exact ih { node with dag := node.dag.insert event } node' h hrun
      · rw [ReplicaNode.runReplica, ReplicaNode.advance] at hrun ⊢
        rcases hadvance : node.detector.tryAdvance sha256 node.dag with panic | ⟨commits, d⟩
        · simp [hadvance] at hrun
        · obtain ⟨hrounds, hlast⟩ := CommitDetector.consecutive_tryAdvance hadvance
          simp only [hadvance] at hrun ⊢
          have hparts := (ReplicaNode.processAll_eq_replay keccak256 sha256 commits
            { node with detector := d } (fun _ => rfl)).2.2
          rcases hturn : ReplicaNode.processAll keccak256 sha256 commits
              { node with detector := d } with ⟨blocks, _ | next⟩
          · simp [hturn] at hrun
          · rw [hturn] at hparts
            simp only [hturn] at hrun ⊢
            obtain ⟨hsame, hlength⟩ := hparts next rfl
            have hnext : next.detector.lastCommitted.toNat =
                node.detector.lastCommitted.toNat + blocks.length := by
              rw [hsame.detector_eq, hlength]
              exact hlast
            have hcounted : Counted next.detector.lastCommitted.toNat next.stats := by
              rw [hnext, hlength]
              exact Counted.processAll _ { node with detector := d } next h hrounds (by rw [hturn])
            obtain ⟨hlast', hcounted'⟩ := ih next node' hcounted hrun
            refine ⟨?_, hcounted'⟩
            rw [hlast', hnext, List.length_append, Nat.add_assoc]

end Counters

/-- **What the counters count.** After a run without a panic the detector has committed as many
rounds as blocks were processed. The round counter and the transaction counter are one less: the
first round is not counted, and each other one counts one transaction, whatever the events of the
round carry. The reported round stays 0 through the first commit.
Source: `node/node.rs`, `RytherNode::process_commit`, `NodeStats`
Kind: P -/
theorem stats_count_blocks (keccak256 sha256 : List UInt8 → Bytes 32)
    (validators electors : ValidatorSet) (executor : ParallelExecutor) (state : MultiVersionState)
    (seed : Bytes 32) (actions : List Action) (node : ReplicaNode)
    (hrun : (ReplicaNode.runReplica keccak256 sha256 actions
      (.start validators electors executor state seed)).2 = some node) :
    let n := (ReplicaNode.runReplica keccak256 sha256 actions
      (.start validators electors executor state seed)).1.length
    node.detector.lastCommitted.toNat = n ∧ node.stats.roundsCommitted.toNat = n - 1 ∧
      node.stats.transactionsProcessed.toNat = n - 1 ∧
      node.stats.currentRound.toNat = if n ≤ 1 then 0 else n := by
  intro n
  have hstart : Counted 0 (ReplicaNode.start validators electors executor state seed).stats :=
    ⟨rfl, rfl, rfl, rfl, rfl⟩
  obtain ⟨hlast, hcounted⟩ :=
    Counted.runReplica (.start validators electors executor state seed) node hstart hrun
  have hn : node.detector.lastCommitted.toNat = n := hlast.trans (Nat.zero_add _)
  rw [hn] at hcounted
  exact ⟨hn, hcounted.rounds, hcounted.transactions, hcounted.current⟩

/-! ### A network of one validator -/

/-- The digests of SHA-256 for the one-validator network: the ids of the events, the seeds after the
anchors, and the elections of the detector and, with the zero seed, of the producer. The roots of
the states are the digests outside the table; no sample reads a root.
Kind: D -/
def soloSha256 : List UInt8 → Bytes 32 :=
  tableHash
    [([1, 1], 71379901088232975507798798260651998586478967735210676092014082612906009798578),
      ([1, 2], 72893829273468228809779896945482732896068609005696529242450300490286242345506),
      ([1, 3], 90285133963152747558892252866923639110630720360084519069396011565236760890265),
      ([1, 4], 76366424968264943831186534556866774974432903654958897711604179293534080067525),
      (beBytes 32 71379901088232975507798798260651998586478967735210676092014082612906009798578,
        44862349590869201464685069518236081135121069096763648686161636206153677969030),
      (beBytes 32 72893829273468228809779896945482732896068609005696529242450300490286242345506,
        53665183060237384633179541993752747579988661060173466276776530257581298719707),
      (beBytes 32 90285133963152747558892252866923639110630720360084519069396011565236760890265,
        50423885384638498820101013648082934267248193379350956399329552723621470805078),
      (leBytes 8 1 ++ List.replicate 32 0,
        82574213155787300355150431516268589834400855217640395049567668732314333502434),
      (leBytes 8 2 ++ List.replicate 32 0,
        52851203617364566923307251148005033920663291782548236261190737826721324139147),
      (leBytes 8 3 ++ List.replicate 32 0,
        19891050329288607858914679351084428129941088546606525429973280472017225126067),
      (leBytes 8 2 ++
          beBytes 32 44862349590869201464685069518236081135121069096763648686161636206153677969030,
        86541146082271004668988470933599525556901590662320108666922994601110416806064),
      (leBytes 8 3 ++
          beBytes 32 53665183060237384633179541993752747579988661060173466276776530257581298719707,
        113535682788345030903728946678345173355171199829545649478364289719046248548347),
      (leBytes 8 4 ++
          beBytes 32 50423885384638498820101013648082934267248193379350956399329552723621470805078,
        31773008600177934608386096332444156606242295258192029239394524819242106291683)]

/-- Keccak-256 on the empty code; the network runs no other. Kind: D -/
def soloKeccak256 : List UInt8 → Bytes 32 :=
  tableHash [([], 89477152217924674838424037953991966239322087453347756267410168184682657981552)]

/-- One validator, who has the whole stake. Kind: D -/
def soloValidators : ValidatorSet := .fromValidators [(makeValidator 1, 100, .fill 0)]

/-- The events of its validator at rounds 1 to 4, each on the one before; the node advances after
the second and in the end. Kind: D -/
def soloActions : List Action :=
  let event (round : UInt64) (parents : List EventId) := makeEvent soloSha256 1 round parents
  [.insert (event 1 []), .insert (event 2 [(event 1 []).id]), .tryAdvance,
    .insert (event 3 [soloSha256 [1, 2]]), .insert (event 4 [soloSha256 [1, 3]]), .tryAdvance]

/-- The node of the one-validator network. Kind: D -/
def soloNode : ReplicaNode :=
  .start soloValidators soloValidators ⟨3, ⟨∅⟩⟩ (fundedState [0xAA]) (.fill 32 0)

/-- Three blocks, of which two are counted. Kind: L -/
theorem stats_count_blocks_solo :
    ∃ node, (ReplicaNode.runReplica soloKeccak256 soloSha256 soloActions soloNode).2 = some node ∧
      node.detector.lastCommitted.toNat = 3 ∧ node.stats.roundsCommitted.toNat = 2 ∧
        node.stats.transactionsProcessed.toNat = 2 ∧ node.stats.currentRound.toNat = 3 := by
  have hlength :
      (ReplicaNode.runReplica soloKeccak256 soloSha256 soloActions soloNode).1.length = 3 := by
    decide +kernel
  obtain ⟨node, hrun⟩ : ∃ node,
      (ReplicaNode.runReplica soloKeccak256 soloSha256 soloActions soloNode).2 = some node :=
    Option.isSome_iff_exists.mp (by decide +kernel)
  have hstats := stats_count_blocks soloKeccak256 soloSha256 _ _ _ _ _ soloActions node hrun
  rw [show ReplicaNode.start _ _ _ _ _ = soloNode from rfl, hlength] at hstats
  exact ⟨node, hrun, hstats⟩

/-! ### The state settles -/

section Settled

variable {keccak256 sha256 : List UInt8 → Bytes 32} {validators : ValidatorSet}
  {executor : ParallelExecutor} {state : MultiVersionState} {round : UInt64}

/-- The injected transaction is rejected.
Kind: D -/
def Spent (view : View) : Prop := ¬ Accepted dummyTransaction view

/-- The numbers of injected transactions are even. Kind: L -/
theorem sequenceNumber_injectedAt_lt (round : UInt64) :
    (injectedAt round).sequenceNumber.toNat < u64Max.toNat := by
  show ((round - 1) * 10000).toNat < u64Max.toNat
  have hmax : u64Max.toNat = 2 ^ 64 - 1 := rfl
  have hfactor : (10000 : UInt64).toNat = 10000 := rfl
  rw [UInt64.toNat_mul, hmax, hfactor]
  omega

/-- The block of an injected transaction on a state without versions. Kind: L -/
theorem runBlock_injectedAt (block : BlockContext) (hdata : state.data = ∅) :
    let out := runBlock keccak256 sha256 executor block [injectedAt round] state
    out.1.map ExecutionResult.outcome =
        [txOutcome keccak256 executor.vm (injectedAt round) state.getBase] ∧
      out.2.getBase = Memory.overlay state.getBase
        (rowOf (txWrites keccak256 executor.vm (injectedAt round) block state.getBase)) := by
  intro out
  have hflat := @runBlock_eq_runFlat keccak256 sha256 executor block [injectedAt round]
    (List.nodup_singleton _) state hdata
  have hlt : (txStep keccak256 executor.vm block (injectedAt round)).seq < u64Max.toNat :=
    sequenceNumber_injectedAt_lt round
  rw [sortTxs_singleton, List.map_singleton, Memory.runFlat, Memory.runFlat, if_pos hlt] at hflat
  exact Prod.mk.inj hflat

/-- A round above 1 leaves the injected transaction rejected: it was rejected before and wrote
nothing, or it moved the nonce of its sender. Kind: L -/
theorem spent_runBlock (block : BlockContext) (hdata : state.data = ∅) :
    Spent (runBlock keccak256 sha256 executor block [injectedAt round] state).2.getBase := by
  obtain ⟨-, hbase⟩ := @runBlock_injectedAt keccak256 sha256 executor state round block hdata
  rw [hbase]
  rintro ⟨hnonce, hfunds⟩
  have hstep := @nonceIn_step keccak256 executor.vm block (injectedAt round) state.getBase
    (injectedAt round).from
  by_cases hacc : Accepted (injectedAt round) state.getBase
  · rw [if_pos ⟨hacc, rfl⟩, hacc.1] at hstep
    have hone : (1 : UInt64) = 0 := hstep.symm.trans hnonce
    exact absurd hone (by decide)
  · have hnil : txWrites keccak256 executor.vm (injectedAt round) block state.getBase = [] :=
      if_neg hacc
    rw [hnil] at hnonce hfunds
    exact hacc ⟨hnonce, hfunds⟩

/-- Once rejected, the injected transaction changes nothing. Kind: L -/
theorem runBlock_of_spent (block : BlockContext) (hdata : state.data = ∅)
    (hspent : Spent state.getBase) :
    let out := runBlock keccak256 sha256 executor block [injectedAt round] state
    out.2.getBase = state.getBase ∧ ∀ r ∈ out.1, r.status ≠ .success := by
  intro out
  obtain ⟨hout, hbase⟩ := @runBlock_injectedAt keccak256 sha256 executor state round block hdata
  have hacc : ¬ Accepted (injectedAt round) state.getBase := hspent
  have hnil : txWrites keccak256 executor.vm (injectedAt round) block state.getBase = [] :=
    if_neg hacc
  refine ⟨?_, fun r hr hstatus => hacc ?_⟩
  · rw [hbase, hnil]
    rfl
  · have hmem : r.outcome ∈ out.1.map ExecutionResult.outcome := List.mem_map_of_mem hr
    rw [hout, List.mem_singleton] at hmem
    rw [← @status_txOutcome keccak256 executor.vm, ← hmem]
    exact hstatus

/-- What a round gives: nothing up to round 1, and a block above. Kind: L -/
theorem blockOf_cases {results : List ExecutionResult} {next : MultiVersionState}
    (h : blockOf keccak256 sha256 validators executor state round = .ok (results, next)) :
    (round ≤ 1 ∧ results = [] ∧ next = state) ∨
      1 < round ∧ ∃ block,
        let out := runBlock keccak256 sha256 executor block [injectedAt round] state
        results = out.1 ∧ next = out.2 := by
  unfold blockOf at h
  rcases RytherNode.processCommit_cases keccak256 sha256 ⟨.new, validators, executor, state⟩
      ⟨round, .fill 32 0, ⟨.fill 48 0⟩, 0⟩ with
    ⟨hround, hcommit⟩ | ⟨hround, ⟨panic, -, hcommit⟩ | ⟨coinbase, -, hcommit⟩⟩
  · rw [hcommit] at h
    cases h
    exact .inl ⟨hround, rfl, rfl⟩
  · rw [hcommit] at h
    cases h
  · rw [hcommit] at h
    obtain ⟨hresults, hnext⟩ := Prod.mk.inj (Except.ok.inj h)
    exact .inr ⟨hround, ⟨coinbase⟩, hresults.symm, hnext.symm⟩

/-- After the injected transaction is rejected no block changes the state. By induction on the
anchors. Kind: L -/
theorem replay_of_spent (anchors : List (UInt64 × ValidatorId × EventId)) :
    ∀ {state : MultiVersionState}, state.data = ∅ → Spent state.getBase →
      ∀ block ∈ (replay keccak256 sha256 validators executor anchors state).1,
        block.state.getBase = state.getBase ∧ ∀ r ∈ block.results, r.status ≠ .success := by
  induction anchors with
  | nil =>
      intro state _ _ block hblock
      cases hblock
  | cons anchor anchors ih =>
      intro state hdata hspent block hblock
      rw [replay] at hblock
      rcases hnext : blockOf keccak256 sha256 validators executor state anchor.1 with
        panic | ⟨results, next⟩
      · rw [hnext] at hblock
        cases hblock
      · rw [hnext] at hblock
        have hkeeps : next.data = ∅ ∧ next.getBase = state.getBase ∧
            ∀ r ∈ results, r.status ≠ .success := by
          rcases blockOf_cases hnext with ⟨-, rfl, rfl⟩ | ⟨-, context, rfl, rfl⟩
          · exact ⟨hdata, rfl, fun r hr => by cases hr⟩
          · exact ⟨rfl, runBlock_of_spent context hdata hspent⟩
        obtain ⟨hdata', hbase, hfailed⟩ := hkeeps
        rcases List.mem_cons.mp hblock with rfl | hrest
        · exact ⟨hbase, hfailed⟩
        · rw [← hbase]
          exact ih hdata' (hbase ▸ hspent) block hrest

/-- A block above round 1 is the last that changes the state. Kind: L -/
theorem replay_above_one (hdata : state.data = ∅) {anchor : UInt64 × ValidatorId × EventId}
    (hround : 1 < anchor.1) (anchors : List (UInt64 × ValidatorId × EventId)) :
    let blocks := (replay keccak256 sha256 validators executor (anchor :: anchors) state).1
    (∃ base, ∀ block ∈ blocks, block.state.getBase = base) ∧
      ∀ block ∈ blocks.drop 1, ∀ r ∈ block.results, r.status ≠ .success := by
  rw [replay]
  rcases hnext : blockOf keccak256 sha256 validators executor state anchor.1 with
    panic | ⟨results, next⟩
  · simp
  · rcases blockOf_cases hnext with ⟨hle, -, -⟩ | ⟨-, context, -, hout⟩
    · exact absurd hround (UInt64.not_lt.mpr hle)
    · have hspent : Spent next.getBase := hout ▸ spent_runBlock context hdata
      have hdata' : next.data = ∅ := hout ▸ rfl
      have hrest := @replay_of_spent keccak256 sha256 validators executor anchors _ hdata' hspent
      refine ⟨⟨next.getBase, fun block hblock => ?_⟩, fun block hblock => (hrest block hblock).2⟩
      rcases List.mem_cons.mp hblock with rfl | hmem
      · rfl
      · exact (hrest block hmem).1

/-- **The blocks of consecutive rounds from 1 on.** The first is empty, and the second is the last
that changes the state. Kind: L -/
theorem replay_settles (hdata : state.data = ∅) (anchors : List (UInt64 × ValidatorId × EventId))
    (hrounds : anchors.map (fun anchor => anchor.1.toNat) = List.range' 1 anchors.length) :
    let blocks := (replay keccak256 sha256 validators executor anchors state).1
    (∀ block ∈ blocks.take 1, block.results = [] ∧ block.state = state) ∧
      (∃ base, ∀ block ∈ blocks.drop 1, block.state.getBase = base) ∧
      ∀ block ∈ blocks.drop 2, ∀ r ∈ block.results, r.status ≠ .success := by
  rcases anchors with _ | ⟨first, anchors⟩
  · simp [replay]
  · rw [List.map_cons, List.length_cons, List.range'_succ] at hrounds
    obtain ⟨hfirst, hrounds⟩ := List.cons.inj hrounds
    rw [replay]
    rcases hnext : blockOf keccak256 sha256 validators executor state first.1 with
      panic | ⟨results, next⟩
    · simp
    · rcases blockOf_cases hnext with ⟨-, rfl, rfl⟩ | ⟨hlt, -, -⟩
      · refine ⟨fun block hblock => ?_, ?_⟩
        · obtain rfl := List.mem_singleton.mp hblock
          exact ⟨rfl, rfl⟩
        · rcases anchors with _ | ⟨second, anchors⟩
          · simp [replay]
          · rw [List.map_cons, List.length_cons, List.range'_succ] at hrounds
            obtain ⟨hsecond, -⟩ := List.cons.inj hrounds
            refine replay_above_one hdata ?_ anchors
            rw [UInt64.lt_iff_toNat_lt, hsecond]
            exact Nat.one_lt_two
      · rw [UInt64.lt_iff_toNat_lt, hfirst] at hlt
        exact absurd hlt (Nat.lt_irrefl 1)

end Settled

/-- **The state is final after round 2.** In a run of a node that starts without versions the first
block executes nothing. All later blocks have one and the same base state, and from the third block
on no transaction succeeds: the only transaction that is executed is the injected one, and its nonce
is spent or its sender has no funds.
Source: `node/node.rs`, `RytherNode::process_commit`
Kind: P -/
theorem settled_after_round_two (keccak256 sha256 : List UInt8 → Bytes 32)
    (validators electors : ValidatorSet) (executor : ParallelExecutor) (state : MultiVersionState)
    (hdata : state.data = ∅) (seed : Bytes 32) (actions : List Action) :
    let blocks := (ReplicaNode.runReplica keccak256 sha256 actions
      (.start validators electors executor state seed)).1
    (∀ block ∈ blocks.take 1, block.results = [] ∧ block.state = state) ∧
      (∃ base, ∀ block ∈ blocks.drop 1, block.state.getBase = base) ∧
      ∀ block ∈ blocks.drop 2, ∀ r ∈ block.results, r.status ≠ .success := by
  intro blocks
  have hblocks : blocks = _ := ReplicaNode.runReplica_eq_replay keccak256 sha256 actions
    (.start validators electors executor state seed) (fun _ => rfl)
  rw [hblocks]
  apply replay_settles hdata
  rw [List.map_map, List.length_map]
  exact rounds_runNode actions (.start electors seed)

/-- The one-validator network: the transaction of round 2 succeeds, that of round 3 does not.
Kind: L -/
theorem settled_after_round_two_solo :
    let blocks := (ReplicaNode.runReplica soloKeccak256 soloSha256 soloActions soloNode).1
    blocks.map (fun block => block.results.map ExecutionResult.status) =
        [[], [.success], [.failure]] ∧
      (∀ block ∈ blocks.take 1, block.results = [] ∧ block.state = soloNode.stateDb) ∧
        (∃ base, ∀ block ∈ blocks.drop 1, block.state.getBase = base) ∧
        ∀ block ∈ blocks.drop 2, ∀ r ∈ block.results, r.status ≠ .success :=
  ⟨by decide +kernel, settled_after_round_two soloKeccak256 soloSha256 soloValidators soloValidators
    ⟨3, ⟨∅⟩⟩ (fundedState [0xAA]) rfl (.fill 32 0) soloActions⟩

end Ryther
