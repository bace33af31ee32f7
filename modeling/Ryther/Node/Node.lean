import Ryther.Consensus.Agreement
import Ryther.Network.Gossip
import Ryther.Node.Mempool
import Ryther.Types.Lamport

/-!
# The node

`src/node/node.rs`: how a node is built from its configuration, how it creates events, and how its
commit detector behaves. The store of the node is the one its gossip protocol writes to. The peer id
is drawn and the validator key comes from a file; both are arguments.

* `FullNode.new`, `FullNode.createEvent`, `FullNode.produce` — as in the source.
* `CommitDetector.Quiet` — the stores on which a fresh detector commits nothing, in terms of
  the election and of quorums.
* `FullNode.commits_as_configured_iff` — the detector of a new node is given no validators, so it
  agrees with one that has the configured validators exactly as long as that one commits nothing.
-/

namespace Ryther

open Lib

/-! ### Nodes -/

/-- A secret key as its holder uses it: the public key bytes and the signatures it makes.
Source: `crypto/bls.rs`, `SecretKey`
Kind: D -/
structure SecretKey where
  publicKey : Bytes 48
  sign : List UInt8 → Bytes 96

/-- The part of the configuration that the model reads: the validators of the genesis.
Source: `node/config.rs`, `ChainConfig`
Kind: D -/
structure ChainConfig where
  initialValidators : List (ValidatorId × UInt64 × Address)

/-- The part of the configuration that the model reads.
Source: `node/config.rs`, `NodeConfig`
Kind: D -/
structure NodeConfig where
  chain : ChainConfig

/-- The parts of a node that create events and detect commits. What a commit executes is in
`RytherNode`.
Source: `node/node.rs`, `RytherNode`
Kind: D -/
structure FullNode where
  validatorId : Option ValidatorId
  validatorKey : Option SecretKey
  validators : ValidatorSet
  clock : LamportClock
  commitDetector : CommitDetector
  mempool : TransactionPool
  gossip : GossipProtocol

namespace FullNode

/-- A node from its configuration. The detector gets an empty set of validators of its own.
Source: `node/node.rs`, `RytherNode::new`
Kind: D -/
def new (config : NodeConfig) (peerId : PeerId) (key : Option SecretKey) : FullNode where
  validatorId := key.map fun secretKey => ⟨secretKey.publicKey⟩
  validatorKey := key
  validators := .fromValidators config.chain.initialValidators
  clock := .new
  commitDetector := .new .new (.fill 32 0)
  mempool := .new 10000
  gossip := .new peerId ⟨∅⟩ .new .default

/-- The store, shared with the gossip protocol.
Kind: D -/
def dag (node : FullNode) : DagStore := node.gossip.dag

/-! ### Creating events -/

/-- The events of the last round, and the node's own latest event if it is not among them.
Source: `node/node.rs`, `parents` in `RytherNode::create_event`
Kind: D -/
def parentsFor (node : FullNode) (validatorId : ValidatorId) : List EventId :=
  let parents := (node.dag.eventsAtRound node.dag.maxRound).map (·.id)
  match node.dag.latestFrom validatorId with
  | some selfParent => if selfParent ∈ parents then parents else parents ++ [selfParent]
  | none => parents

/-- The parents are the events of the highest round and the latest own event. Kind: L -/
theorem mem_parentsFor {node : FullNode} {validatorId : ValidatorId} {id : EventId} :
    id ∈ node.parentsFor validatorId ↔
      (∃ e ∈ node.dag.eventsAtRound node.dag.maxRound, e.id = id) ∨
        node.dag.latestFrom validatorId = some id := by
  unfold parentsFor
  cases node.dag.latestFrom validatorId with
  | none => simp
  | some selfParent =>
      simp only [Option.some.injEq]
      split
      · next hmem =>
          rw [List.mem_map]
          refine ⟨.inl, ?_⟩
          rintro (h | rfl)
          · exact h
          · exact List.mem_map.mp hmem
      · rw [List.mem_append, List.mem_singleton, List.mem_map, eq_comm (a := id)]

/-- The bytes whose digest is the id of an event.
Source: `node/node.rs`, `hasher` in `RytherNode::create_event`
Kind: D -/
def idInput (creator : ValidatorId) (round : UInt64) (parents : List EventId) : List UInt8 :=
  creator.bytes.toList ++ leBytes 8 round.toNat ++ parents.flatMap (·.toList)

/-- The event that is created, and the node with its clock ticked. The best transactions of the pool
are read and left out of the payload.
Source: `node/node.rs`, `RytherNode::create_event`
Kind: D -/
def createEvent (sha256 : List UInt8 → Bytes 32) (node : FullNode) : Option DagEvent × FullNode :=
  match node.validatorId, node.validatorKey with
  | some validatorId, some secretKey =>
      let parents := node.parentsFor validatorId
      let (lamportTime, clock) := node.clock.tick
      let round := node.dag.maxRound + 1
      let _txs := node.mempool.best 100
      let id := sha256 (idInput validatorId round parents)
      (some
        { id := id
          creator := validatorId
          lamportTime := lamportTime
          round := round
          strongParents := parents
          weakParents := []
          payload := ⟨[], .fill 32 0⟩
          signature := secretKey.sign id.toList }, { node with clock := clock })
  | _, _ => (none, node)

/-- An event goes into the store.
Kind: D -/
def insertEvent (node : FullNode) (event : DagEvent) : FullNode :=
  { node with gossip := { node.gossip with dag := node.dag.insert event } }

/-- The first part of a turn of the block producer: an event is created and inserted.
Source: `node/node.rs`, `RytherNode::start_block_producer`
Kind: D -/
def produce (sha256 : List UInt8 → Bytes 32) (node : FullNode) : Option DagEvent × FullNode :=
  match node.createEvent sha256 with
  | (some event, node) => (some event, node.insertEvent event)
  | (none, node) => (none, node)

/-- **What a created event is.** Kind: L -/
theorem createEvent_eq_some {sha256 : List UInt8 → Bytes 32} {node node' : FullNode}
    {event : DagEvent} (h : node.createEvent sha256 = (some event, node')) :
    ∃ id key, node.validatorId = some id ∧ node.validatorKey = some key ∧
      event = ⟨sha256 (idInput id (node.dag.maxRound + 1) (node.parentsFor id)), id,
        node.clock.value + 1, node.dag.maxRound + 1, node.parentsFor id, [], ⟨[], .fill 32 0⟩,
        key.sign (sha256 (idInput id (node.dag.maxRound + 1) (node.parentsFor id))).toList⟩ ∧
      node' = { node with clock := ⟨node.clock.value + 1⟩ } := by
  unfold createEvent at h
  cases hid : node.validatorId with
  | none => simp [hid] at h
  | some id =>
      cases hkey : node.validatorKey with
      | none => simp [hid, hkey] at h
      | some key =>
          simp only [hid, hkey, Prod.mk.injEq, Option.some.injEq] at h
          obtain ⟨rfl, rfl⟩ := h
          exact ⟨id, key, rfl, rfl, rfl, rfl⟩

/-- Only the clock and the store of a node change in a turn. Kind: L -/
theorem produce_cases (sha256 : List UInt8 → Bytes 32) (node : FullNode) :
    node.produce sha256 = (none, node) ∨
      ∃ event node', node.createEvent sha256 = (some event, node') ∧
        node.produce sha256 = (some event, node'.insertEvent event) := by
  unfold produce
  cases hcreate : node.createEvent sha256 with
  | mk created node' =>
      cases created with
      | some event => exact .inr ⟨event, node', rfl, rfl⟩
      | none =>
          left
          unfold createEvent at hcreate
          cases hid : node.validatorId with
          | none =>
              simp only [hid, Prod.mk.injEq, true_and] at hcreate
              rw [hcreate]
          | some id =>
              cases hkey : node.validatorKey with
              | none =>
                  simp only [hid, hkey, Prod.mk.injEq, true_and] at hcreate
                  rw [hcreate]
              | some key => simp [hid, hkey] at hcreate

end FullNode

/-! ### What detectors return -/

/-- What each call of `try_advance` returns in a run. A panic ends the run.
Kind: D -/
def advanceResults (sha256 : List UInt8 → Bytes 32) :
    List Action → ConsensusNode → List (Except Panic (List CommitResult))
  | [], _ => []
  | .insert event :: actions, node =>
      advanceResults sha256 actions { node with dag := node.dag.insert event }
  | .tryAdvance :: actions, node =>
      match node.detector.tryAdvance sha256 node.dag with
      | .error panic => [.error panic]
      | .ok (commits, detector) =>
          .ok commits :: advanceResults sha256 actions { node with detector := detector }

/-- The stores on which a run calls `try_advance`.
Kind: D -/
def advanceStores : List Action → DagStore → List DagStore
  | [], _ => []
  | .insert event :: actions, dag => advanceStores actions (dag.insert event)
  | .tryAdvance :: actions, dag => dag :: advanceStores actions dag

namespace CommitDetector

variable {sha256 : List UInt8 → Bytes 32}

/-- A round that has nothing to commit: its election does not panic, and the event of the elected
leader, if both exist, has no quorum of supporters at a later round.
Kind: D -/
def NotCommitted (sha256 : List UInt8 → Bytes 32) (set : ValidatorSet) (seed : Bytes 32)
    (dag : DagStore) (round : UInt64) : Prop :=
  ∃ elected, electLeader sha256 set round seed = .ok elected ∧
    ∀ leader ∈ elected, ∀ anchor ∈ dag.eventAt leader round, ∀ later, round < later →
      later ≤ dag.maxRound → set.hasQuorum (supporters dag anchor.id later) = false

/-- Nothing to commit for a detector that has committed nothing.
Kind: D -/
def Quiet (sha256 : List UInt8 → Bytes 32) (set : ValidatorSet) (seed : Bytes 32)
    (dag : DagStore) : Prop :=
  1 ≤ dag.maxRound → NotCommitted sha256 set seed dag 1

/-- A detector without validators commits nothing. Kind: L -/
theorem tryAdvance_of_isEmpty {d : CommitDetector} (h : d.validatorSet.isEmpty = true)
    (dag : DagStore) : d.tryAdvance sha256 dag = .ok ([], d) := by
  have hcheck : ∀ round, d.checkCommit sha256 dag round = .ok none := by
    intro round
    unfold checkCommit electLeader
    rw [if_pos h]
    split <;> rfl
  unfold tryAdvance advanceFuel
  rw [advanceLoop, hcheck]
  split <;> rfl

/-- A call that commits nothing leaves the detector as it was. Kind: L -/
theorem detector_of_advanceLoop_nil {dag : DagStore} {fuel : ℕ} {d d' : CommitDetector}
    {round : UInt64} (h : advanceLoop sha256 dag fuel d round = .ok ([], d')) : d' = d := by
  cases fuel with
  | zero =>
      cases h
      rfl
  | succ fuel =>
      rw [advanceLoop] at h
      split at h
      · split at h
        · cases h
        · cases h
          rfl
        · split at h <;> cases h
      · cases h
        rfl

/-- **When a round does not commit.** Kind: L -/
theorem checkCommit_eq_none_iff {d : CommitDetector} {dag : DagStore} {round : UInt64}
    (hlast : d.lastCommitted < round) (hmax : round ≠ u64Max) :
    d.checkCommit sha256 dag round = .ok none ↔
      NotCommitted sha256 d.validatorSet d.seed dag round := by
  unfold checkCommit NotCommitted
  rw [if_neg (UInt64.not_le.mpr hlast)]
  cases electLeader sha256 d.validatorSet round d.seed with
  | error panic =>
      refine iff_of_false nofun ?_
      rintro ⟨elected, h, -⟩
      cases h
  | ok elected =>
      cases elected with
      | none => exact iff_of_true rfl ⟨none, rfl, nofun⟩
      | some leader =>
          cases hanchor : dag.eventAt leader round with
          | none =>
              refine iff_of_true (by simp only [hanchor]) ⟨some leader, rfl, ?_⟩
              rintro _ ⟨⟩ anchor h
              rw [hanchor] at h
              cases h
          | some anchor =>
              simp only [hanchor, Except.ok.injEq, findSome?_checkQuorumSupport,
                Option.map_eq_none_iff, List.find?_eq_none, mem_futureRounds hmax,
                Bool.not_eq_true]
              constructor
              · intro h
                refine ⟨some leader, rfl, ?_⟩
                rintro _ ⟨⟩ _ hmem later hlt hle
                rw [hanchor] at hmem
                cases hmem
                exact h later ⟨hlt, hle⟩
              · rintro ⟨_, ⟨⟩, h⟩ later ⟨hlt, hle⟩
                exact h leader rfl anchor hanchor later hlt hle

/-- **When a fresh detector commits nothing.** Kind: L -/
theorem tryAdvance_new_eq_nil_iff (set : ValidatorSet) (seed : Bytes 32) (dag : DagStore) :
    (new set seed).tryAdvance sha256 dag = .ok ([], new set seed) ↔ Quiet sha256 set seed dag := by
  have hcheck : (new set seed).checkCommit sha256 dag 1 = .ok none ↔
      NotCommitted sha256 set seed dag 1 :=
    checkCommit_eq_none_iff (show (0 : UInt64) < 1 by decide) (by decide)
  unfold tryAdvance advanceFuel Quiet
  rw [advanceLoop, show (new set seed).lastCommitted + 1 = 1 from rfl]
  by_cases hmax : 1 ≤ dag.maxRound
  · rw [if_pos hmax, forall_prop_of_true hmax]
    refine Iff.trans ?_ hcheck
    cases (new set seed).checkCommit sha256 dag 1 with
    | error panic =>
        apply iff_of_false
        · simp
        · simp
    | ok answer =>
        cases answer with
        | none => exact iff_of_true rfl rfl
        | some result =>
            -- a commit is in the answer, whatever the rest of the loop returns
            apply iff_of_false
            · simp only
              split
              · simp
              · simp
            · simp
  · rw [if_neg hmax]
    exact iff_of_true rfl fun h => absurd h hmax

end CommitDetector

/-! ### The detector of a new node -/

/-- Without validators every call of `try_advance` returns no commit. Kind: L -/
theorem advanceResults_of_isEmpty {sha256 : List UInt8 → Bytes 32} {d : CommitDetector}
    (h : d.validatorSet.isEmpty = true) (actions : List Action) (dag : DagStore) :
    advanceResults sha256 actions ⟨dag, d⟩ =
      (advanceStores actions dag).map fun _ => .ok [] := by
  induction actions generalizing dag with
  | nil => rfl
  | cons action actions ih =>
      cases action with
      | insert event => exact ih (dag.insert event)
      | tryAdvance =>
          unfold advanceResults advanceStores
          simp only [CommitDetector.tryAdvance_of_isEmpty h]
          rw [ih dag, List.map_cons]

/-- A fresh detector that commits nothing stays fresh. Kind: L -/
theorem advanceResults_eq_nils_iff (sha256 : List UInt8 → Bytes 32) (set : ValidatorSet)
    (seed : Bytes 32) (actions : List Action) (dag : DagStore) :
    advanceResults sha256 actions ⟨dag, .new set seed⟩ =
        ((advanceStores actions dag).map fun _ => .ok []) ↔
      ∀ store ∈ advanceStores actions dag, CommitDetector.Quiet sha256 set seed store := by
  induction actions generalizing dag with
  | nil => exact iff_of_true rfl nofun
  | cons action actions ih =>
      cases action with
      | insert event => exact ih (dag.insert event)
      | tryAdvance =>
          unfold advanceResults advanceStores
          rw [List.map_cons, List.forall_mem_cons]
          by_cases hquiet : CommitDetector.Quiet sha256 set seed dag
          · rw [(CommitDetector.tryAdvance_new_eq_nil_iff set seed dag).mpr hquiet]
            simp only [List.cons.injEq, true_and, hquiet]
            exact ih dag
          · refine iff_of_false ?_ fun h => hquiet h.1
            have hne := mt (CommitDetector.tryAdvance_new_eq_nil_iff set seed dag).mp hquiet
            cases hadvance : (CommitDetector.new set seed).tryAdvance sha256 dag with
            | error panic =>
                intro h
                simp only [List.cons.injEq] at h
                cases h.1
            | ok answer =>
                obtain ⟨commits, d⟩ := answer
                intro h
                simp only [List.cons.injEq, Except.ok.injEq] at h
                obtain ⟨rfl, -⟩ := h
                rw [hadvance, CommitDetector.detector_of_advanceLoop_nil hadvance] at hne
                exact hne rfl

/-- **When a node commits with its configured validators.** Both detectors run on the store of the
node.
Source: `node/node.rs`, `RytherNode::new`
Kind: P -/
theorem FullNode.commits_as_configured_iff (sha256 : List UInt8 → Bytes 32) (config : NodeConfig)
    (peerId : PeerId) (key : Option SecretKey) (actions : List Action) :
    let node := new config peerId key
    let set := ValidatorSet.fromValidators config.chain.initialValidators
    advanceResults sha256 actions ⟨node.dag, node.commitDetector⟩ =
        advanceResults sha256 actions ⟨node.dag, .new set (.fill 32 0)⟩ ↔
      ∀ store ∈ advanceStores actions node.dag,
        CommitDetector.Quiet sha256 set (.fill 32 0) store := by
  intro node set
  rw [advanceResults_of_isEmpty (d := node.commitDetector) rfl, eq_comm]
  exact advanceResults_eq_nils_iff sha256 set (.fill 32 0) actions node.dag

/-- **A configured network never commits.** In the sample network round 1 has a leader with a quorum
of supporters, and a node with this configuration returns no commit. Kind: P -/
theorem FullNode.configured_network_never_commits :
    let config : NodeConfig := ⟨⟨[1, 2, 3, 4].map fun id => (makeValidator id, 100, .fill 0)⟩⟩
    let node := new config (.fill 32 7) none
    let set := ValidatorSet.fromValidators config.chain.initialValidators
    let actions := (sampleRound1 ++ sampleRound2).map Action.insert ++ [.tryAdvance]
    advanceResults sampleSha256 actions ⟨node.dag, node.commitDetector⟩ = [.ok []] ∧
      advanceResults sampleSha256 actions ⟨node.dag, .new set (.fill 32 0)⟩ =
        [.ok [⟨1, (makeEvent sampleSha256 2 1 []).id, makeValidator 2, 2⟩]] := by
  decide +kernel

end Ryther
