import Ryther.Consensus.Agreement
import Ryther.Consensus.Election
import Ryther.Consensus.Stability

/-!
# Progress of the commit rule

How far a node gets. `try_advance` of `src/consensus/commit.rs` takes the rounds one after the other
and stops at the first that does not commit; nothing skips a round.

* `nodeAfter` — the node after a run; `runNode_append` says how a run continues.
* `Position` — what a detector knows after its commits; kept by every action.
* `rounds_runNode` — the commits of a run have consecutive rounds.
* `Participates` — producers with an event at every round up to a horizon, each on the events of all
  producers at the round before.
* `progress_until_silent_leader` — with a quorum of producers every round below the horizon commits,
  up to the first whose leader is not a producer.
* `silent_leader_halts` — a leader without an event at its round ends the commits for good.
-/

namespace Ryther

open Lib

/-! ### The node after a run -/

/-- The node after some actions. A panic of an election ends the run.
Kind: D -/
def nodeAfter (sha256 : List UInt8 → Bytes 32) :
    List Action → ConsensusNode → Except Panic ConsensusNode
  | [], node => .ok node
  | .insert event :: actions, node =>
      nodeAfter sha256 actions { node with dag := node.dag.insert event }
  | .tryAdvance :: actions, node =>
      match node.detector.tryAdvance sha256 node.dag with
      | .error panic => .error panic
      | .ok (_, detector) => nodeAfter sha256 actions { node with detector := detector }

section Runs

variable {sha256 : List UInt8 → Bytes 32}

/-- **How a run continues**: from the node after its first part, or not at all if that panicked.
Kind: L -/
theorem runNode_append (actions more : List Action) (node : ConsensusNode) :
    runNode sha256 (actions ++ more) node =
      match nodeAfter sha256 actions node with
      | .error _ => runNode sha256 actions node
      | .ok node' => runNode sha256 actions node ++ runNode sha256 more node' := by
  induction actions generalizing node with
  | nil => rfl
  | cons action actions ih =>
      rcases action with event | -
      · exact ih _
      · rw [List.cons_append, runNode, runNode, nodeAfter]
        rcases node.detector.tryAdvance sha256 node.dag with panic | ⟨commits, d⟩
        · rfl
        · simp only [ih]
          rcases nodeAfter sha256 actions { node with detector := d } with panic | node'
          · rfl
          · simp only [List.append_assoc]

/-- The store of the node holds what was delivered. Kind: L -/
theorem dag_nodeAfter {actions : List Action} :
    ∀ {node node' : ConsensusNode}, nodeAfter sha256 actions node = .ok node' →
      node'.dag = (delivered actions).foldl DagStore.insert node.dag := by
  induction actions with
  | nil =>
      rintro node _ ⟨⟩
      rfl
  | cons action actions ih =>
      intro node node' h
      rcases action with event | -
      · exact ih h
      · rw [nodeAfter] at h
        rcases hadvance : node.detector.tryAdvance sha256 node.dag with panic | ⟨commits, d⟩
        · simp [hadvance] at h
        · simp only [hadvance] at h
          have hdag := ih h
          exact hdag

/-- What two runs deliver one after the other is what each of them delivers. Kind: L -/
theorem delivered_append (actions more : List Action) :
    delivered (actions ++ more) = delivered actions ++ delivered more := by
  unfold delivered
  rw [List.filterMap_append]

/-- A detector after some commits: the number of the last one, and the seed its anchor gives.
Kind: D -/
structure Position (sha256 : List UInt8 → Bytes 32) (set : ValidatorSet) (seed : Bytes 32)
    (made : List CommitResult) (d : CommitDetector) : Prop where
  set_eq : d.validatorSet = set
  last_eq : d.lastCommitted.toNat = made.length
  seed_eq : d.seed = seedAfter sha256 seed (made.map CommitResult.anchor)

variable {set : ValidatorSet} {seed : Bytes 32} {made : List CommitResult}

/-- The next round, also where the number of the last one wraps. Kind: L -/
theorem Position.next_eq {d : CommitDetector} (h : Position sha256 set seed made d) :
    d.lastCommitted + 1 = UInt64.ofNat (made.length + 1) := by
  apply UInt64.toNat_inj.mp
  rw [UInt64.toNat_add, h.last_eq]
  simp

/-- One commit moves the position. Kind: L -/
theorem Position.commit {dag : DagStore} {d : CommitDetector} {result : CommitResult}
    (h : Position sha256 set seed made d)
    (hcheck : d.checkCommit sha256 dag (d.lastCommitted + 1) = .ok (some result)) :
    Position sha256 set seed (made ++ [result])
      (d.confirmCommit sha256 result.round result.anchorId) := by
  have hsucc := CommitDetector.toNat_round_of_checkCommit hcheck
  rw [CommitDetector.confirmCommit_of_checkCommit hcheck]
  refine ⟨h.set_eq, ?_, ?_⟩
  · rw [List.length_append, List.length_singleton, ← h.last_eq]
    exact hsucc
  · simp [seedAfter, CommitResult.anchor]

/-- A call of `try_advance` moves the position by its commits. Kind: L -/
theorem Position.tryAdvance {dag : DagStore} {d d' : CommitDetector} {commits : List CommitResult}
    (h : Position sha256 set seed made d)
    (hadvance : d.tryAdvance sha256 dag = .ok (commits, d')) :
    Position sha256 set seed (made ++ commits) d' :=
  CommitDetector.advanceLoop_induction (P := Position sha256 set seed) Position.commit _ h hadvance

/-- **The position after a run.** By induction on the actions. Kind: L -/
theorem Position.nodeAfter {actions : List Action} {node node' : ConsensusNode}
    (h : Position sha256 set seed made node.detector)
    (hrun : nodeAfter sha256 actions node = .ok node') :
    Position sha256 set seed (made ++ runNode sha256 actions node) node'.detector := by
  induction actions generalizing made node with
  | nil =>
      cases hrun
      rwa [runNode, List.append_nil]
  | cons action actions ih =>
      rcases action with event | -
      · exact ih h hrun
      · rw [Ryther.nodeAfter] at hrun
        rw [runNode]
        rcases hadvance : node.detector.tryAdvance sha256 node.dag with panic | ⟨commits, d⟩
        · simp [hadvance] at hrun
        · simp only [hadvance] at hrun ⊢
          rw [← List.append_assoc]
          exact ih (h.tryAdvance hadvance) hrun

/-- A node before its first action. Kind: L -/
theorem Position.start : Position sha256 set seed [] (ConsensusNode.start set seed).detector :=
  ⟨rfl, rfl, rfl⟩

/-- Commits with consecutive rounds above `first`, the last of which the detector remembers.
Kind: D -/
def Consecutive (first : ℕ) (made : List CommitResult) (d : CommitDetector) : Prop :=
  made.map (fun c => c.round.toNat) = List.range' (first + 1) made.length ∧
    d.lastCommitted.toNat = first + made.length

/-- One commit takes the next round. Kind: L -/
theorem Consecutive.commit {first : ℕ} {dag : DagStore} {d : CommitDetector} {result : CommitResult}
    (h : Consecutive first made d)
    (hcheck : d.checkCommit sha256 dag (d.lastCommitted + 1) = .ok (some result)) :
    Consecutive first (made ++ [result])
      (d.confirmCommit sha256 result.round result.anchorId) := by
  obtain ⟨hrounds, hlast⟩ := h
  obtain ⟨hround, -⟩ := CommitDetector.checkCommit_eq_some hcheck
  have hsucc : (d.lastCommitted + 1).toNat = first + (made.length + 1) := by
    rw [CommitDetector.toNat_round_of_checkCommit hcheck, hlast, Nat.add_assoc]
  unfold Consecutive
  rw [CommitDetector.confirmCommit_of_checkCommit hcheck, List.length_append,
    List.length_singleton, List.range'_concat, List.map_append, hrounds]
  refine ⟨?_, hsucc⟩
  rw [List.map_singleton, hround, hsucc]
  congr 2
  omega

/-- The commits of a call have consecutive rounds. Kind: L -/
theorem CommitDetector.consecutive_tryAdvance {dag : DagStore} {d d' : CommitDetector}
    {commits : List CommitResult} (h : d.tryAdvance sha256 dag = .ok (commits, d')) :
    Consecutive d.lastCommitted.toNat commits d' := by
  have hstart : Consecutive d.lastCommitted.toNat [] d := ⟨rfl, rfl⟩
  exact advanceLoop_induction (P := Consecutive d.lastCommitted.toNat) Consecutive.commit _ hstart h

/-- **The commits of a run have consecutive rounds.** By induction on the actions. Kind: L -/
theorem rounds_runNode (actions : List Action) :
    ∀ node : ConsensusNode, (runNode sha256 actions node).map (fun c => c.round.toNat) =
      List.range' (node.detector.lastCommitted.toNat + 1) (runNode sha256 actions node).length := by
  induction actions with
  | nil => exact fun _ => rfl
  | cons action actions ih =>
      intro node
      rcases action with event | -
      · exact ih _
      · rw [runNode]
        rcases hadvance : node.detector.tryAdvance sha256 node.dag with panic | ⟨commits, d⟩
        · rfl
        · obtain ⟨hrounds, hlast⟩ := CommitDetector.consecutive_tryAdvance hadvance
          simp only [List.map_append, hrounds, ih, hlast, List.length_append]
          rw [Nat.add_right_comm, List.range'_append_1]

end Runs

/-! ### Elections that cannot fail -/

section Electable

variable {sha256 : List UInt8 → Bytes 32} {set : ValidatorSet}

/-- A set in which some voters have a quorum elects one of its members, if the stakes sum to a
`u64`. Kind: L -/
theorem exists_electLeader (sha256 : List UInt8 → Bytes 32) (hfit : set.stakeSum < 2 ^ 64)
    {voters : List ValidatorId} (hquorum : set.hasQuorum voters = true) (round : UInt64)
    (seed : Bytes 32) :
    ∃ id ∈ set.validatorIds, electLeader sha256 set round seed = .ok (some id) := by
  have hfits : set.stakeSum ≤ u64Max.toNat := Nat.le_sub_one_of_lt hfit
  -- without members the stake of any voters is 0, which is below every threshold
  have hempty : set.isEmpty = false := by
    by_contra hnot
    rw [Bool.not_eq_false, ValidatorSet.isEmpty, List.isEmpty_iff] at hnot
    have hzero : ∀ id, set.weight id = 0 := fun id => by
      apply ValidatorSet.weight_eq_zero
      simp [ValidatorSet.validatorIds, AList.keys, hnot]
    have hnone : set.memberStake voters = 0 := by
      unfold ValidatorSet.memberStake
      rw [List.map_congr_left fun id _ => hzero id]
      simp
    rw [ValidatorSet.hasQuorum_iff_wrapped, hnone] at hquorum
    simp at hquorum
  have hpos := totalStake_pos hfits hempty
  have hne : set.totalStake ≠ 0 := by
    intro hzero
    rw [hzero] at hpos
    exact absurd hpos (Nat.lt_irrefl 0)
  have hdraw : stakeDraw sha256 set round seed < set.totalStake := by
    rw [UInt64.lt_iff_toNat_lt, stakeDraw, UInt64.toNat_mod]
    exact Nat.mod_lt _ hpos
  obtain ⟨id, hid, hholder⟩ := exists_holderOf hfits hdraw
  exact ⟨id, hid, by rw [electLeader_eq hempty hne, hholder]⟩

variable (helect : ∀ round seed, ∃ leader, electLeader sha256 set round seed = .ok leader)

include helect in
/-- A check of any round returns, as every election of the set does. Kind: L -/
theorem CommitDetector.exists_checkCommit {d : CommitDetector} (hset : d.validatorSet = set)
    (dag : DagStore) (round : UInt64) : ∃ answer, d.checkCommit sha256 dag round = .ok answer := by
  obtain ⟨elected, helected⟩ := helect round d.seed
  unfold checkCommit
  rw [hset, helected]
  split_ifs
  · exact ⟨_, rfl⟩
  · rcases elected with _ | leader
    · exact ⟨_, rfl⟩
    · simp only
      rcases dag.eventAt leader round with _ | anchor
      · exact ⟨_, rfl⟩
      · exact ⟨_, rfl⟩

include helect in
/-- The loop does not panic. By induction on the fuel. Kind: L -/
theorem CommitDetector.exists_advanceLoop (dag : DagStore) (fuel : ℕ) :
    ∀ {d : CommitDetector}, d.validatorSet = set → ∀ round,
      ∃ answer, advanceLoop sha256 dag fuel d round = .ok answer := by
  induction fuel with
  | zero =>
      intro d _ round
      exact ⟨_, rfl⟩
  | succ fuel ih =>
      intro d hset round
      rw [advanceLoop]
      split_ifs
      · obtain ⟨answer, hanswer⟩ := exists_checkCommit helect hset dag round
        rw [hanswer]
        rcases answer with _ | result
        · exact ⟨_, rfl⟩
        · have hset' :
              (d.confirmCommit sha256 result.round result.anchorId).validatorSet = set := by
            unfold confirmCommit
            split_ifs <;> exact hset
          obtain ⟨rest, hrest⟩ := ih hset' (round + 1)
          simp only [hrest]
          exact ⟨_, rfl⟩
      · exact ⟨_, rfl⟩

include helect in
/-- A run does not panic. By induction on the actions. Kind: L -/
theorem exists_nodeAfter {seed : Bytes 32} (actions : List Action) :
    ∀ {made : List CommitResult} (node : ConsensusNode),
      Position sha256 set seed made node.detector →
      ∃ node', nodeAfter sha256 actions node = .ok node' := by
  induction actions with
  | nil => exact fun node _ => ⟨node, rfl⟩
  | cons action actions ih =>
      intro made node h
      rcases action with event | -
      · exact ih { node with dag := node.dag.insert event } h
      · obtain ⟨⟨commits, d⟩, hadvance⟩ :=
          CommitDetector.exists_advanceLoop helect node.dag _ h.set_eq _
        have hadvance' : node.detector.tryAdvance sha256 node.dag = .ok (commits, d) := hadvance
        rw [nodeAfter, hadvance']
        exact ih { node with detector := d } (h.tryAdvance hadvance')

end Electable

/-! ### Where `try_advance` stops -/

namespace CommitDetector

variable {sha256 : List UInt8 → Bytes 32}

/-- **The loop stops only at a round without a commit**, or past the highest one. By induction on
the fuel, which does not run out. Kind: L -/
theorem advanceLoop_stops {dag : DagStore} (fuel : ℕ) :
    ∀ {d d' : CommitDetector} {commits : List CommitResult}, d.advanceFuel dag ≤ fuel →
      advanceLoop sha256 dag fuel d (d.lastCommitted + 1) = .ok (commits, d') →
      dag.maxRound < d'.lastCommitted + 1 ∨
        d'.checkCommit sha256 dag (d'.lastCommitted + 1) = .ok none := by
  induction fuel with
  | zero =>
      intro d d' commits hfuel _
      simp [advanceFuel] at hfuel
  | succ fuel ih =>
      intro d d' commits hfuel hloop
      rw [advanceLoop] at hloop
      split_ifs at hloop with hround
      · rcases hcheck : d.checkCommit sha256 dag (d.lastCommitted + 1) with panic | answer
        · simp [hcheck] at hloop
        · rcases answer with _ | result
          · simp only [hcheck] at hloop
            cases hloop
            exact .inr hcheck
          · have hsucc := toNat_round_of_checkCommit hcheck
            have hle := UInt64.le_iff_toNat_le.mp hround
            simp only [hcheck, confirmCommit_of_checkCommit hcheck] at hloop
            rcases hrest : advanceLoop sha256 dag fuel
                ⟨d.validatorSet, d.lastCommitted + 1, sha256 result.anchorId.toList⟩
                (d.lastCommitted + 1 + 1) with panic | ⟨rest, d₁⟩
            · simp [hrest] at hloop
            · simp only [hrest, Except.ok.injEq, Prod.mk.injEq] at hloop
              obtain ⟨-, rfl⟩ := hloop
              refine ih (d := ⟨d.validatorSet, d.lastCommitted + 1, _⟩) ?_ hrest
              unfold advanceFuel at hfuel ⊢
              simp only
              omega
      · cases hloop
        exact .inl (UInt64.not_le.mp hround)

/-- Nothing to commit at the next round: the call leaves the detector. Kind: L -/
theorem tryAdvance_of_checkCommit_none {d : CommitDetector} {dag : DagStore}
    (h : d.checkCommit sha256 dag (d.lastCommitted + 1) = .ok none) :
    d.tryAdvance sha256 dag = .ok ([], d) := by
  unfold tryAdvance advanceFuel
  rw [advanceLoop, h]
  split_ifs <;> rfl

/-- A leader without an event at the round: nothing commits. Kind: L -/
theorem checkCommit_of_silent {d : CommitDetector} {dag : DagStore} {round : UInt64}
    {leader : ValidatorId}
    (helect : electLeader sha256 d.validatorSet round d.seed = .ok (some leader))
    (hsilent : dag.byCreatorRound.lookup (leader, round) = none) :
    d.checkCommit sha256 dag round = .ok none := by
  have hanchor : dag.eventAt leader round = none := by
    rw [DagStore.eventAt, hsilent, Option.bind_none]
  unfold checkCommit
  rw [helect]
  simp only [hanchor, ite_self]

end CommitDetector

/-! ### Participation -/

/-- The producers have an event at every round from 1 to the horizon, and up to the horizon the
event of a producer has the events of all producers at the round before among its strong parents.
Kind: D -/
structure Participates (producers : List ValidatorId) (horizon : ℕ) (events : List DagEvent) :
    Prop where
  present : ∀ v ∈ producers, ∀ r, 1 ≤ r → r ≤ horizon →
    ∃ e ∈ events, e.creator = v ∧ e.round.toNat = r
  linked : ∀ e ∈ events, ∀ e' ∈ events, e.creator ∈ producers → e'.creator ∈ producers →
    1 ≤ e.round.toNat → e'.round.toNat = e.round.toNat + 1 → e'.round.toNat ≤ horizon →
    e.id ∈ e'.strongParents

section Participation

variable {sha256 : List UInt8 → Bytes 32} {pool : Pool} {producers : List ValidatorId}
  {horizon : ℕ} {events : List DagEvent}

/-- The producers support the event of a producer at the next round. Kind: L -/
theorem Participates.subset_supporters (h : Participates producers horizon events)
    (hpool : ∀ e ∈ events, e ∈ pool.events) {anchor : DagEvent} (hanchor : anchor ∈ events)
    (hcreator : anchor.creator ∈ producers) (hpos : 1 ≤ anchor.round.toNat)
    (hnext : anchor.round.toNat + 1 ≤ horizon) {round : UInt64}
    (hround : round.toNat = anchor.round.toNat + 1) :
    producers ⊆ CommitDetector.supporters (.ofEvents events) anchor.id round := by
  intro v hv
  obtain ⟨e, he, hc, hr⟩ := h.present v hv (anchor.round.toNat + 1) (by omega) hnext
  have heround : e.round = round := UInt64.toNat_inj.mp (hr.trans hround.symm)
  have hparent : anchor.id ∈ e.strongParents :=
    h.linked anchor hanchor e he hcreator (hc ▸ hv) hpos hr (hr ▸ hnext)
  refine CommitDetector.mem_supporters.mpr ⟨e, ?_, hc, ?_⟩
  · exact (DagStore.mem_eventsAtRound_ofEvents_iff hpool).mpr ⟨he, heround⟩
  · exact .single ⟨e, (DagStore.get_ofEvents_iff hpool).mpr ⟨he, rfl⟩, hparent⟩

/-- **A round below the horizon with a producer as its leader commits.** Kind: P -/
theorem Participates.exists_commit (h : Participates producers horizon events)
    (hpool : ∀ e ∈ events, e ∈ pool.events) {d : CommitDetector}
    (hfit : d.validatorSet.stakeSum < 2 ^ 64) (hnodup : producers.Nodup)
    (hquorum : d.validatorSet.hasQuorum producers = true) {leader : ValidatorId}
    (hleader : leader ∈ producers) (hbelow : d.lastCommitted.toNat + 1 < horizon)
    (helect : electLeader sha256 d.validatorSet (d.lastCommitted + 1) d.seed = .ok (some leader)) :
    ∃ c, d.checkCommit sha256 (.ofEvents events) (d.lastCommitted + 1) = .ok (some c) := by
  obtain ⟨anchor, hanchor, hcreator, hround⟩ :=
    h.present leader hleader (d.lastCommitted.toNat + 1) (by omega) hbelow.le
  obtain ⟨support, hsupport, -, hsround⟩ :=
    h.present leader hleader (d.lastCommitted.toNat + 2) (by omega) hbelow
  have hne : d.lastCommitted ≠ u64Max := by
    rintro hmax
    have hlt := anchor.round.toNat_lt
    rw [hround, hmax] at hlt
    exact absurd hlt (by decide)
  have hsucc : (d.lastCommitted + 1).toNat = d.lastCommitted.toNat + 1 := toNat_succ hne
  have hanchorAt : (DagStore.ofEvents events).eventAt leader (d.lastCommitted + 1) = some anchor :=
    (DagStore.eventAt_ofEvents_iff hpool).mpr
      ⟨hanchor, hcreator, UInt64.toNat_inj.mp (hround.trans hsucc.symm)⟩
  have hlast : d.lastCommitted < d.lastCommitted + 1 := by
    rw [UInt64.lt_iff_toNat_lt]
    omega
  -- the producers support the anchor at the next round, so some round is the first with a quorum
  have hsupporters : producers ⊆
      CommitDetector.supporters (.ofEvents events) anchor.id support.round :=
    h.subset_supporters hpool hanchor (hcreator ▸ hleader) (by omega) (by omega) (by omega)
  have hpass := ValidatorSet.quorumMonotone_of_fits hfit _ _ hnodup
    (CommitDetector.nodup_supporters _ _ _) hsupporters hquorum
  have hle := UInt64.le_iff_toNat_le.mp (DagStore.round_le_maxRound hsupport)
  have hlo : (d.lastCommitted + 1 + 1).toNat ≤ support.round.toNat := by
    have hmod : (d.lastCommitted + 1 + 1).toNat ≤ (d.lastCommitted + 1).toNat + 1 := by
      rw [UInt64.toNat_add]
      exact Nat.mod_le _ _
    omega
  obtain ⟨n, hn, hfirst⟩ := exists_isFirst (p := fun n => d.validatorSet.hasQuorum
    (CommitDetector.supporters (.ofEvents events) anchor.id (UInt64.ofNat n)) = true) hlo hle
    (by rwa [UInt64.ofNat_toNat])
  rw [← UInt64.toNat_ofNat_of_lt' (lt_of_le_of_lt hn support.round.toNat_lt)] at hfirst
  exact ⟨_, (CommitDetector.checkCommit_mk_iff hlast helect hanchorAt _).mpr hfirst⟩

end Participation

/-! ### Progress -/

/-- **Rounds commit until the first silent leader.** A node with stakes that sum to a `u64` receives
events of a pool in any order, among them those of a quorum of producers up to a horizon, and tries
to commit at any moments and in the end. Then all rounds below the horizon are committed, or the
leader of the next round is not a producer.
Source: `consensus/commit.rs`, `CommitDetector::try_advance`
Kind: P -/
theorem progress_until_silent_leader (sha256 : List UInt8 → Bytes 32) (pool : Pool)
    (set : ValidatorSet) (hfit : set.stakeSum < 2 ^ 64) (seed : Bytes 32)
    (producers : List ValidatorId) (hnodup : producers.Nodup)
    (hquorum : set.hasQuorum producers = true) (horizon : ℕ) (actions : List Action)
    (hpool : ∀ e ∈ delivered actions, e ∈ pool.events)
    (hpart : Participates producers horizon (delivered actions)) :
    let commits := runNode sha256 (actions ++ [.tryAdvance]) (.start set seed)
    horizon ≤ commits.length + 1 ∨
      ∃ leader, electLeader sha256 set (UInt64.ofNat (commits.length + 1))
          (seedAfter sha256 seed (commits.map CommitResult.anchor)) = .ok (some leader) ∧
        leader ∉ producers := by
  intro commits
  have helect : ∀ round seed, ∃ leader, electLeader sha256 set round seed = .ok leader :=
    fun round seed => by
      obtain ⟨id, -, hid⟩ := exists_electLeader sha256 hfit hquorum round seed
      exact ⟨_, hid⟩
  obtain ⟨⟨dag, d⟩, hrun⟩ := exists_nodeAfter helect actions (.start set seed) .start
  have hposition := Position.start.nodeAfter hrun
  have hdag : dag = .ofEvents (delivered actions) := dag_nodeAfter hrun
  obtain ⟨⟨last, d'⟩, hadvance⟩ := CommitDetector.exists_advanceLoop helect dag _ hposition.set_eq _
  have hadvance' : d.tryAdvance sha256 dag = .ok (last, d') := hadvance
  -- the commits of the run are those of the actions and those of the last call
  have hcommits : commits = runNode sha256 actions (.start set seed) ++ last := by
    show runNode sha256 (actions ++ [.tryAdvance]) (.start set seed) = _
    rw [runNode_append, hrun]
    simp [runNode, hadvance']
  have hend : Position sha256 set seed commits d' := by
    rw [hcommits]
    simpa using hposition.tryAdvance hadvance'
  by_cases hdone : horizon ≤ commits.length + 1
  · exact .inl hdone
  · obtain ⟨leader, -, hleader⟩ := exists_electLeader sha256 hfit hquorum
      (d'.lastCommitted + 1) d'.seed
    refine .inr ⟨leader, ?_, fun hmem => ?_⟩
    · rw [← hend.next_eq, ← hend.seed_eq]
      exact hleader
    · have hbelow : d'.lastCommitted.toNat + 1 < horizon := by
        rw [hend.last_eq]
        omega
      subst hdag
      obtain ⟨c, hc⟩ := hpart.exists_commit hpool (hend.set_eq ▸ hfit) hnodup
        (hend.set_eq ▸ hquorum) hmem hbelow (hend.set_eq ▸ hleader)
      -- the loop has stopped where no round commits, and this one does
      rcases CommitDetector.advanceLoop_stops _ (le_refl _) hadvance with hpast | hnone
      · obtain ⟨-, -, -, -, -, -, hfirst⟩ := CommitDetector.checkCommit_eq_some_iff.mp hc
        obtain ⟨e, he, -, her⟩ := hpart.present leader hmem horizon (by omega) (le_refl _)
        have hle := UInt64.le_iff_toNat_le.mp (DagStore.round_le_maxRound he)
        have hlt := UInt64.lt_iff_toNat_lt.mp hpast
        have hsucc := CommitDetector.toNat_round_of_checkCommit hc
        omega
      · rw [hc] at hnone
        cases hnone

/-- The sample network with its first three validators as producers up to round 2. Kind: L -/
theorem participates_sample :
    Participates ([1, 2, 3].map makeValidator) 2 (sampleRound1 ++ sampleRound2) where
  present := by
    intro v hv r hlo hhi
    have hall : ∀ v ∈ [1, 2, 3].map makeValidator, ∀ r ∈ [1, 2],
        ∃ e ∈ sampleRound1 ++ sampleRound2, e.creator = v ∧ e.round.toNat = r := by decide +kernel
    refine hall v hv r ?_
    rw [List.mem_pair]
    omega
  linked := by decide +kernel

/-- The sample network: its three producers commit round 1. Kind: L -/
theorem progress_until_silent_leader_sample :
    let commits := runNode sampleSha256
      ((sampleRound1 ++ sampleRound2).map Action.insert ++ [.tryAdvance])
      (.start sampleValidators (.fill 32 0))
    commits.length = 1 ∧ (2 ≤ commits.length + 1 ∨
      ∃ leader, electLeader sampleSha256 sampleValidators (UInt64.ofNat (commits.length + 1))
          (seedAfter sampleSha256 (.fill 32 0) (commits.map CommitResult.anchor)) =
            .ok (some leader) ∧ leader ∉ [1, 2, 3].map makeValidator) := by
  have hdelivered : delivered ((sampleRound1 ++ sampleRound2).map Action.insert) =
      sampleRound1 ++ sampleRound2 := rfl
  refine ⟨by decide +kernel, progress_until_silent_leader sampleSha256 samplePool sampleValidators
    (by decide +kernel) (.fill 32 0) _ (by decide +kernel) (by decide +kernel) 2 _ ?_ ?_⟩
  · rw [hdelivered]
    exact fun e he => he
  · rw [hdelivered]
    exact participates_sample

/-! ### A silent leader -/

/-- Without an event of the leader at the next round a node commits nothing. By induction on the
actions: an insertion leaves the leader's place empty, and a call of `try_advance` the detector.
Kind: L -/
theorem runNode_eq_nil_of_silent {sha256 : List UInt8 → Bytes 32} {d : CommitDetector}
    {leader : ValidatorId} {actions : List Action}
    (helect : electLeader sha256 d.validatorSet (d.lastCommitted + 1) d.seed = .ok (some leader))
    (hsilent : ∀ e ∈ delivered actions, e.creator = leader → e.round ≠ d.lastCommitted + 1) :
    ∀ {dag : DagStore}, dag.byCreatorRound.lookup (leader, d.lastCommitted + 1) = none →
      runNode sha256 actions ⟨dag, d⟩ = [] := by
  induction actions with
  | nil => exact fun _ => rfl
  | cons action actions ih =>
      intro dag hempty
      rcases action with event | -
      · have hdelivered : delivered (.insert event :: actions) = event :: delivered actions := rfl
        rw [hdelivered] at hsilent
        have hne : (leader, d.lastCommitted + 1) ≠ (event.creator, event.round) := by
          intro heq
          obtain ⟨hcreator, hround⟩ := Prod.mk.inj heq
          exact hsilent event List.mem_cons_self hcreator.symm hround.symm
        refine ih (fun e he => hsilent e (List.mem_cons_of_mem _ he)) ?_
        exact (AList.lookup_insert_ne hne).trans hempty
      · have hadvance := CommitDetector.tryAdvance_of_checkCommit_none
          (CommitDetector.checkCommit_of_silent helect hempty)
        rw [runNode]
        simp only [hadvance, List.nil_append]
        exact ih hsilent hempty

/-- **A silent leader ends the commits.** If the leader that a node elects for the round after its
commits never sends an event for that round, then nothing that is delivered later and no further
attempt adds a commit. No timeout and no other leader takes its place.
Source: `consensus/commit.rs`, `CommitDetector::try_advance`, `CommitDetector::check_commit`
Kind: P -/
theorem silent_leader_halts (sha256 : List UInt8 → Bytes 32) (set : ValidatorSet) (seed : Bytes 32)
    (actions more : List Action) (leader : ValidatorId)
    (helect : electLeader sha256 set
        (UInt64.ofNat ((runNode sha256 actions (.start set seed)).length + 1))
        (seedAfter sha256 seed ((runNode sha256 actions (.start set seed)).map
          CommitResult.anchor)) = .ok (some leader))
    (hsilent : ∀ e ∈ delivered (actions ++ more), e.creator = leader →
      e.round ≠ UInt64.ofNat ((runNode sha256 actions (.start set seed)).length + 1)) :
    runNode sha256 (actions ++ more) (.start set seed) =
      runNode sha256 actions (.start set seed) := by
  rw [runNode_append]
  rcases hrun : nodeAfter sha256 actions (.start set seed) with panic | ⟨dag, d⟩
  · rfl
  · have hposition : Position sha256 set seed _ d := Position.start.nodeAfter hrun
    rw [List.nil_append] at hposition
    have hdag : dag = .ofEvents (delivered actions) := dag_nodeAfter hrun
    rw [delivered_append] at hsilent
    rw [← hposition.next_eq] at helect hsilent
    rw [← hposition.seed_eq] at helect
    -- the index has an entry for the leader's round only if such an event was delivered
    have hempty : dag.byCreatorRound.lookup (leader, d.lastCommitted + 1) = none := by
      rw [hdag]
      rcases hlook : (DagStore.ofEvents (delivered actions)).byCreatorRound.lookup
          (leader, d.lastCommitted + 1) with _ | id
      · rfl
      · obtain ⟨e, he, hcreator, hround, -⟩ :=
          (DagStore.indexed_ofEvents (delivered actions)).byCreatorRound_sound _ _ _ hlook
        exact absurd hround (hsilent e (List.mem_append_left _ he) hcreator)
    simp only
    rw [runNode_eq_nil_of_silent (hposition.set_eq ▸ helect)
      (fun e he => hsilent e (List.mem_append_right _ he)) hempty, List.append_nil]

/-- The sample network without the event of the leader of round 1: three validators with a quorum
go on to round 2, and nothing commits. Kind: L -/
theorem silent_leader_halts_sample :
    let actions := (sampleRound1.filter fun e => e.creator ≠ makeValidator 2).map Action.insert ++
      [.tryAdvance]
    let more := sampleRound2.map Action.insert ++ [.tryAdvance, .tryAdvance]
    runNode sampleSha256 (actions ++ more) (.start sampleValidators (.fill 32 0)) =
      runNode sampleSha256 actions (.start sampleValidators (.fill 32 0)) := by
  intro actions more
  exact silent_leader_halts sampleSha256 sampleValidators (.fill 32 0) actions more
    (makeValidator 2) (by decide +kernel) (by decide +kernel)

end Ryther
