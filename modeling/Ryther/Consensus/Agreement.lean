import Ryther.Consensus.Commit
import Ryther.Lib.Growing

/-!
# Agreement on anchors

Nodes with the same validators and seed receive events of one pool in any order, and try to commit
at any moments. What a node commits next is determined by what it committed before: the leader by
the seed, which the last anchor gives, and the anchor by its creator and round. So the commits of
any two nodes are prefixes of one another.

* `ConsensusNode`, `runNode` — a store and a detector, and the commits of a run.
* `NextAnchor` — the anchor that may follow given ones; `nextAnchor_unique`.
* `runNode_induction` — the induction rule for runs.
* `Follows` — the invariant of a run; kept by insertions (`Follows.insert`) and by commits
  (`Follows.commit`).
* `anchors_agree` — the result for any two runs.
-/

namespace Ryther

open Lib

/-! ### Nodes and runs -/

/-- A node's store and its commit detector.
Kind: D -/
structure ConsensusNode where
  dag : DagStore
  detector : CommitDetector

/-- What a node does: it receives an event or tries to commit.
Kind: D -/
inductive Action where
  | insert (event : DagEvent)
  | tryAdvance

/-- A node before its first action.
Kind: D -/
def ConsensusNode.start (set : ValidatorSet) (seed : Bytes 32) : ConsensusNode :=
  ⟨.new, .new set seed⟩

/-- All commits that a node returns during a run. A panic ends the run.
Kind: D -/
def runNode (sha256 : List UInt8 → Bytes 32) : List Action → ConsensusNode → List CommitResult
  | [], _ => []
  | .insert event :: actions, node =>
      runNode sha256 actions { node with dag := node.dag.insert event }
  | .tryAdvance :: actions, node =>
      match node.detector.tryAdvance sha256 node.dag with
      | .error _ => []
      | .ok (commits, detector) =>
          commits ++ runNode sha256 actions { node with detector := detector }

/-- The events that some actions deliver.
Kind: D -/
def delivered (actions : List Action) : List DagEvent :=
  actions.filterMap fun action =>
    match action with
    | .insert event => some event
    | .tryAdvance => none

/-- **What every delivery and every commit keeps is kept by a run.** By induction on the actions.
Kind: P -/
theorem runNode_induction {sha256 : List UInt8 → Bytes 32}
    {P : List CommitResult → ConsensusNode → Prop} {actions : List Action}
    (hinsert : ∀ {made node event}, P made node → event ∈ delivered actions →
      P made { node with dag := node.dag.insert event })
    (hcommit : ∀ {made dag d result}, P made ⟨dag, d⟩ →
      d.checkCommit sha256 dag (d.lastCommitted + 1) = .ok (some result) →
      P (made ++ [result]) ⟨dag, d.confirmCommit sha256 result.round result.anchorId⟩) :
    ∀ {made : List CommitResult} {node : ConsensusNode}, P made node →
      ∃ node', P (made ++ runNode sha256 actions node) node' := by
  induction actions with
  | nil =>
      intro made node h
      refine ⟨node, ?_⟩
      rwa [runNode, List.append_nil]
  | cons action actions ih =>
      intro made node h
      cases action with
      | insert event =>
          have hdelivered : delivered (.insert event :: actions) = event :: delivered actions := rfl
          rw [hdelivered] at hinsert
          exact ih (fun h he => hinsert h (List.mem_cons_of_mem _ he))
            (hinsert h List.mem_cons_self)
      | tryAdvance =>
          rw [runNode]
          cases hadvance : node.detector.tryAdvance sha256 node.dag with
          | error panic =>
              refine ⟨node, ?_⟩
              rwa [List.append_nil]
          | ok answer =>
              obtain ⟨commits, d⟩ := answer
              simp only
              rw [← List.append_assoc]
              exact ih hinsert (CommitDetector.advanceLoop_induction
                (P := fun made d => P made ⟨node.dag, d⟩) hcommit _ h hadvance)

/-! ### The determined next anchor -/

/-- Round, leader and anchor of a commit.
Kind: D -/
def CommitResult.anchor (c : CommitResult) : UInt64 × ValidatorId × EventId :=
  (c.round, c.leader, c.anchorId)

/-- The seed after some commits: the hash of the last anchor.
Kind: D -/
def seedAfter (sha256 : List UInt8 → Bytes 32) (seed : Bytes 32)
    (anchors : List (UInt64 × ValidatorId × EventId)) : Bytes 32 :=
  match anchors.getLast? with
  | none => seed
  | some (_, _, anchorId) => sha256 anchorId.toList

/-- The anchors that may follow: of the next round, by its elected leader, and in the pool.
Kind: D -/
def NextAnchor (sha256 : List UInt8 → Bytes 32) (pool : Pool) (set : ValidatorSet)
    (seed : Bytes 32) (before : List (UInt64 × ValidatorId × EventId))
    (next : UInt64 × ValidatorId × EventId) : Prop :=
  next.1.toNat = before.length + 1 ∧
    electLeader sha256 set next.1 (seedAfter sha256 seed before) = .ok (some next.2.1) ∧
    ∃ e ∈ pool.events, e.creator = next.2.1 ∧ e.round = next.1 ∧ e.id = next.2.2

section

variable {sha256 : List UInt8 → Bytes 32} {pool : Pool} {set : ValidatorSet} {seed : Bytes 32}

/-- **The next anchor is determined.** Kind: P -/
theorem nextAnchor_unique (before : List (UInt64 × ValidatorId × EventId))
    (x y : UInt64 × ValidatorId × EventId) (hx : NextAnchor sha256 pool set seed before x)
    (hy : NextAnchor sha256 pool set seed before y) : x = y := by
  obtain ⟨rx, lx, ax⟩ := x
  obtain ⟨ry, ly, ay⟩ := y
  obtain ⟨hrx, hlx, ex, hex, hcx, hrex, hidx⟩ := hx
  obtain ⟨hry, hly, ey, hey, hcy, hrey, hidy⟩ := hy
  simp only at *
  have hround : rx = ry := UInt64.toNat_inj.mp (hrx.trans hry.symm)
  subst hround
  rw [hlx] at hly
  have hleader : lx = ly := by simpa using hly
  subst hleader
  have hevent : ex = ey :=
    pool.one_per_round ex hex ey hey (hcx.trans hcy.symm) (hrex.trans hrey.symm)
  rw [← hidx, ← hidy, hevent]

/-! ### The invariant of a run -/

/-- A node that has made the given commits.
Kind: D -/
structure Follows (sha256 : List UInt8 → Bytes 32) (pool : Pool) (set : ValidatorSet)
    (seed : Bytes 32) (made : List CommitResult) (node : ConsensusNode) : Prop where
  indexed : ∃ held, node.dag.Indexed held ∧ ∀ e ∈ held, e ∈ pool.events
  set_eq : node.detector.validatorSet = set
  last_eq : node.detector.lastCommitted.toNat = made.length
  seed_eq : node.detector.seed = seedAfter sha256 seed (made.map CommitResult.anchor)
  growing : Growing (NextAnchor sha256 pool set seed) (made.map CommitResult.anchor)

/-- A node before its first action has made none. Kind: L -/
theorem Follows.start : Follows sha256 pool set seed [] (.start set seed) where
  indexed := ⟨[], DagStore.Indexed.new, by simp⟩
  set_eq := rfl
  last_eq := rfl
  seed_eq := rfl
  growing := Growing.nil

/-- Receiving an event keeps the invariant. Kind: L -/
theorem Follows.insert {made : List CommitResult} {node : ConsensusNode}
    (h : Follows sha256 pool set seed made node) {event : DagEvent} (he : event ∈ pool.events) :
    Follows sha256 pool set seed made { node with dag := node.dag.insert event } := by
  obtain ⟨held, hindexed, hpool⟩ := h.indexed
  refine ⟨⟨event :: held, hindexed.insert event, fun e hmem => ?_⟩, h.set_eq, h.last_eq, h.seed_eq,
    h.growing⟩
  rcases List.mem_cons.mp hmem with rfl | hmem
  · exact he
  · exact hpool e hmem

/-- **One commit keeps the invariant.** Kind: P -/
theorem Follows.commit {made : List CommitResult} {dag : DagStore} {d : CommitDetector}
    (h : Follows sha256 pool set seed made ⟨dag, d⟩) {result : CommitResult}
    (hcheck : d.checkCommit sha256 dag (d.lastCommitted + 1) = .ok (some result)) :
    Follows sha256 pool set seed (made ++ [result])
      ⟨dag, d.confirmCommit sha256 result.round result.anchorId⟩ := by
  obtain ⟨held, hindexed, hpool⟩ := h.indexed
  obtain ⟨hround, -, hleader, anchor, hanchor, hid⟩ := CommitDetector.checkCommit_eq_some hcheck
  have hsucc := CommitDetector.toNat_round_of_checkCommit hcheck
  have hlast : d.lastCommitted.toNat = made.length := h.last_eq
  have hset : d.validatorSet = set := h.set_eq
  have hseed : d.seed = seedAfter sha256 seed (made.map CommitResult.anchor) := h.seed_eq
  obtain ⟨hheld, hcreator, hanchorRound⟩ := (hindexed.eventAt_iff hpool _ _ _).mp hanchor
  rw [CommitDetector.confirmCommit_of_checkCommit hcheck]
  refine ⟨⟨held, hindexed, hpool⟩, hset, ?_, ?_, ?_⟩
  · simp only [List.length_append, List.length_singleton]
    omega
  · simp [seedAfter, CommitResult.anchor]
  · rw [List.map_append, List.map_singleton]
    refine h.growing.concat ⟨?_, ?_, anchor, hpool anchor hheld, hcreator, ?_, hid⟩
    · simp only [CommitResult.anchor, hround, List.length_map]
      omega
    · simp only [CommitResult.anchor, hround]
      rw [← hset, ← hseed, hleader]
    · rw [hanchorRound]
      exact hround.symm

/-- **A run grows the determined sequence of anchors.** Kind: P -/
theorem Follows.growing_runNode {actions : List Action} {made : List CommitResult}
    {node : ConsensusNode} (h : Follows sha256 pool set seed made node)
    (hpool : ∀ e ∈ delivered actions, e ∈ pool.events) :
    Growing (NextAnchor sha256 pool set seed)
      ((made ++ runNode sha256 actions node).map CommitResult.anchor) := by
  obtain ⟨node', h'⟩ := runNode_induction (P := Follows sha256 pool set seed)
    (fun h he => h.insert (hpool _ he)) (fun h hcheck => h.commit hcheck) h
  exact h'.growing

end

/-- **Anchor agreement.** Two nodes with the same validators and seed receive events of one pool.
The `i`-th commit of each is for round `i`, and the rounds, leaders and anchors that one of them
commits are a prefix of those the other commits. Kind: P -/
theorem anchors_agree (sha256 : List UInt8 → Bytes 32) (pool : Pool) (set set' : ValidatorSet)
    (hsame : set.SameMembers set') (seed : Bytes 32) (actions actions' : List Action)
    (hpool : ∀ e ∈ delivered actions, e ∈ pool.events)
    (hpool' : ∀ e ∈ delivered actions', e ∈ pool.events) :
    let commits := runNode sha256 actions (.start set seed)
    let commits' := runNode sha256 actions' (.start set' seed)
    (∀ i c, commits[i]? = some c → c.round.toNat = i + 1) ∧
      (∀ i c, commits'[i]? = some c → c.round.toNat = i + 1) ∧
      (commits.map CommitResult.anchor <+: commits'.map CommitResult.anchor ∨
        commits'.map CommitResult.anchor <+: commits.map CommitResult.anchor) := by
  intro commits commits'
  have hgrow : Growing (NextAnchor sha256 pool set seed) (commits.map CommitResult.anchor) := by
    simpa using Follows.growing_runNode Follows.start hpool
  have hgrow' : Growing (NextAnchor sha256 pool set' seed) (commits'.map CommitResult.anchor) := by
    simpa using Follows.growing_runNode Follows.start hpool'
  have hset : NextAnchor sha256 pool set' seed = NextAnchor sha256 pool set seed := by
    funext before next
    simp only [NextAnchor, electLeader_congr hsame]
  have hrounds : ∀ {set : ValidatorSet} {commits : List CommitResult},
      Growing (NextAnchor sha256 pool set seed) (commits.map CommitResult.anchor) →
      ∀ i c, commits[i]? = some c → c.round.toNat = i + 1 := by
    intro set commits hgrow i c hc
    have hanchor : (commits.map CommitResult.anchor)[i]? = some c.anchor := by simp [hc]
    have hi : i < commits.length := (List.getElem?_eq_some_iff.mp hc).1
    have hround := (hgrow.next_take hanchor).1
    rw [List.length_take, List.length_map, Nat.min_eq_left hi.le] at hround
    exact hround
  refine ⟨hrounds hgrow, hrounds hgrow', ?_⟩
  rw [hset] at hgrow'
  exact hgrow.comparable nextAnchor_unique hgrow'

/-- Two nodes of the sample network: the second has its validators in the opposite order, misses
an event, receives the others in the opposite order and one of them twice, and tries to commit
between. Both commit round 1. Kind: L -/
theorem anchors_agree_sample :
    let actions := (sampleRound1 ++ sampleRound2).map Action.insert ++ [.tryAdvance]
    let actions' := [.tryAdvance] ++
      (sampleRound2.reverse ++ sampleRound1.take 1).map Action.insert ++ [.tryAdvance] ++
      (sampleRound1.take 3).map Action.insert ++ [.tryAdvance, .tryAdvance]
    let set' := ValidatorSet.fromValidators
      ([4, 3, 2, 1].map fun id => (makeValidator id, 100, .fill 0))
    let commits := runNode sampleSha256 actions (.start sampleValidators (.fill 32 0))
    let commits' := runNode sampleSha256 actions' (.start set' (.fill 32 0))
    commits.length = 1 ∧ commits'.length = 1 ∧
    (∀ i c, commits[i]? = some c → c.round.toNat = i + 1) ∧
      (∀ i c, commits'[i]? = some c → c.round.toNat = i + 1) ∧
      (commits.map CommitResult.anchor <+: commits'.map CommitResult.anchor ∨
        commits'.map CommitResult.anchor <+: commits.map CommitResult.anchor) := by
  have hmem : ∀ l : List DagEvent, (∀ e ∈ l, e ∈ sampleRound1 ++ sampleRound2) →
      ∀ e ∈ l, e ∈ samplePool.events := fun _ h => h
  exact ⟨by decide +kernel, by decide +kernel,
    anchors_agree sampleSha256 samplePool sampleValidators _ (.of_perm (by decide +kernel))
      (.fill 32 0) _ _ (hmem _ (by decide +kernel)) (hmem _ (by decide +kernel))⟩

end Ryther
