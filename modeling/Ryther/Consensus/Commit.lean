import Ryther.Consensus.Leader
import Ryther.Dag.Store
import Ryther.Lib.First

/-!
# Commit detection

The commit rule of `src/consensus/commit.rs`: a round commits when the event of its leader is
reached from events of a quorum of creators at some later round.

* `CommitDetector.checkCommit`, `confirmCommit`, `tryAdvance` — as in the source; a panic of the
  election ends the call.
* `supporters` — the creators whose events reach the anchor.
* `checkCommit_eq_some_iff` — a commit is found at the first future round with a quorum, where the
  successor of the round and the stakes wrap.
* `checkCommit_eq_some` — what a commit says about leader and anchor.
* `advanceLoop_fuel` — the loop of `try_advance` never runs out of fuel.
* `advanceLoop_induction` — what every commit keeps is kept by `try_advance`.
-/

namespace Ryther

open Lib

/-- A committed anchor with its leader and the round whose events support it.
Source: `consensus/commit.rs`, `CommitResult`
Kind: D -/
structure CommitResult where
  round : UInt64
  anchorId : EventId
  leader : ValidatorId
  supportRound : UInt64
  deriving DecidableEq

/-- The validators, the last committed round, and the seed for the next election.
Source: `consensus/commit.rs`, `CommitDetector`
Kind: D -/
structure CommitDetector where
  validatorSet : ValidatorSet
  lastCommitted : UInt64
  seed : Bytes 32

/-- The rounds `(round + 1)..=max_round`; the successor wraps.
Kind: D -/
def futureRounds (round maxRound : UInt64) : List UInt64 :=
  (List.range' (round + 1).toNat (maxRound.toNat + 1 - (round + 1).toNat)).map UInt64.ofNat

namespace CommitDetector

variable (sha256 : List UInt8 → Bytes 32)

/-- A detector that has committed nothing.
Source: `consensus/commit.rs`, `CommitDetector::new`
Kind: D -/
def new (validatorSet : ValidatorSet) (initialSeed : Bytes 32) : CommitDetector :=
  ⟨validatorSet, 0, initialSeed⟩

/-- The creators whose events at a round reach the anchor.
Source: `consensus/commit.rs`, `supporters` in `CommitDetector::check_quorum_support`
Kind: D -/
def supporters (dag : DagStore) (anchor : EventId) (round : UInt64) : List ValidatorId :=
  (dag.eventsAtRound round).foldl
    (fun supporters event =>
      if dag.canReach event.id anchor then supporters.insert event.creator else supporters) []

/-- The round itself if its supporters are a quorum.
Source: `consensus/commit.rs`, `CommitDetector::check_quorum_support`
Kind: D -/
def checkQuorumSupport (d : CommitDetector) (dag : DagStore) (anchor : EventId)
    (futureRound : UInt64) : Option UInt64 :=
  if d.validatorSet.hasQuorum (supporters dag anchor futureRound) then some futureRound else none

/-- The commit of a round that is not yet committed: its leader is elected, has an event, and some
later round supports the event.
Source: `consensus/commit.rs`, `CommitDetector::check_commit`
Kind: D -/
def checkCommit (d : CommitDetector) (dag : DagStore) (round : UInt64) :
    Except Panic (Option CommitResult) :=
  if round ≤ d.lastCommitted then .ok none
  else
    match electLeader sha256 d.validatorSet round d.seed with
    | .error panic => .error panic
    | .ok none => .ok none
    | .ok (some leader) =>
        match dag.eventAt leader round with
        | none => .ok none
        | some anchor =>
            .ok <| (futureRounds round dag.maxRound).findSome? fun futureRound =>
              (d.checkQuorumSupport dag anchor.id futureRound).map fun supportRound =>
                ⟨round, anchor.id, leader, supportRound⟩

/-- The round becomes the last committed one, and the seed is the digest of its anchor.
Source: `consensus/commit.rs`, `CommitDetector::confirm_commit`
Kind: D -/
def confirmCommit (d : CommitDetector) (round : UInt64) (anchorId : EventId) : CommitDetector :=
  if round > d.lastCommitted then
    { d with lastCommitted := round, seed := sha256 anchorId.toList }
  else d

/-- The loop of `try_advance`: the commits it pushes and the detector after it.
Source: `consensus/commit.rs`, the loop of `CommitDetector::try_advance`
Kind: D -/
def advanceLoop (dag : DagStore) :
    ℕ → CommitDetector → UInt64 → Except Panic (List CommitResult × CommitDetector)
  | 0, d, _ => .ok ([], d)
  | fuel + 1, d, round =>
      if round ≤ dag.maxRound then
        match d.checkCommit sha256 dag round with
        | .error panic => .error panic
        | .ok none => .ok ([], d)
        | .ok (some result) =>
            match advanceLoop dag fuel (d.confirmCommit sha256 result.round result.anchorId)
              (round + 1) with
            | .error panic => .error panic
            | .ok (commits, d) => .ok (result :: commits, d)
      else .ok ([], d)

/-- Enough fuel for the loop: one turn for each round above the last committed one, and one to
leave it.
Kind: D -/
def advanceFuel (d : CommitDetector) (dag : DagStore) : ℕ :=
  dag.maxRound.toNat - d.lastCommitted.toNat + 1

/-- Commits round after round until one cannot be committed.
Source: `consensus/commit.rs`, `CommitDetector::try_advance`
Kind: D -/
def tryAdvance (d : CommitDetector) (dag : DagStore) :
    Except Panic (List CommitResult × CommitDetector) :=
  advanceLoop sha256 dag (d.advanceFuel dag) d (d.lastCommitted + 1)

variable {sha256}

/-! ### Single commits -/

/-- The rounds whose support is looked at are those after the anchor's, up to the last one of the
DAG. Kind: L -/
theorem mem_futureRounds {round maxRound r : UInt64} (h : round ≠ u64Max) :
    r ∈ futureRounds round maxRound ↔ round < r ∧ r ≤ maxRound := by
  unfold futureRounds
  rw [List.mem_map, toNat_succ h, UInt64.lt_iff_toNat_lt, UInt64.le_iff_toNat_le]
  constructor
  · rintro ⟨n, hn, rfl⟩
    rw [List.mem_range'_1] at hn
    have hlt : n < 2 ^ 64 := by
      have := maxRound.toNat_lt
      omega
    rw [UInt64.toNat_ofNat_of_lt' hlt]
    omega
  · rintro ⟨hlo, hhi⟩
    refine ⟨r.toNat, List.mem_range'_1.mpr ?_, UInt64.ofNat_toNat⟩
    omega

/-- The search through the future rounds stops at the first hit from the wrapped successor on.
Kind: L -/
theorem find?_futureRounds_eq_some_iff {round maxRound r : UInt64} {p : UInt64 → Bool} :
    (futureRounds round maxRound).find? p = some r ↔
      IsFirst (round + 1).toNat maxRound.toNat (fun n => p (UInt64.ofNat n) = true) r.toNat := by
  unfold futureRounds
  rw [List.find?_map, Option.map_eq_some_iff]
  constructor
  · rintro ⟨n, hfind, rfl⟩
    have hfirst := find?_range'_eq_some_iff.mp hfind
    have hlt : n < 2 ^ 64 := lt_of_le_of_lt hfirst.1.2 maxRound.toNat_lt
    rw [UInt64.toNat_ofNat_of_lt' hlt]
    exact hfirst
  · intro hfirst
    exact ⟨r.toNat, find?_range'_eq_some_iff.mpr hfirst, UInt64.ofNat_toNat⟩

/-- The loop over the rounds stops at the first whose supporters are a quorum. Kind: L -/
theorem findSome?_checkQuorumSupport (d : CommitDetector) (dag : DagStore) (anchor : EventId)
    (f : UInt64 → CommitResult) (rounds : List UInt64) :
    (rounds.findSome? fun r => (d.checkQuorumSupport dag anchor r).map f) =
      (rounds.find? fun r => d.validatorSet.hasQuorum (supporters dag anchor r)).map f := by
  induction rounds with
  | nil => rfl
  | cons r rounds ih =>
      have hsupport : d.checkQuorumSupport dag anchor r =
          if d.validatorSet.hasQuorum (supporters dag anchor r) then some r else none := rfl
      rw [List.findSome?_cons, List.find?_cons, hsupport]
      rcases d.validatorSet.hasQuorum (supporters dag anchor r) with _ | _
      · exact ih
      · rfl

/-- **What `check_commit` returns**: the leader's event at the round, with the first future round
whose supporters `has_quorum` accepts. Kind: P -/
theorem checkCommit_eq_some_iff {d : CommitDetector} {dag : DagStore} {round : UInt64}
    {c : CommitResult} :
    d.checkCommit sha256 dag round = .ok (some c) ↔
      c.round = round ∧ d.lastCommitted < round ∧
        electLeader sha256 d.validatorSet round d.seed = .ok (some c.leader) ∧
        ∃ anchor, dag.eventAt c.leader round = some anchor ∧ c.anchorId = anchor.id ∧
          IsFirst (round + 1).toNat dag.maxRound.toNat
            (fun n => d.validatorSet.hasQuorum (supporters dag anchor.id (UInt64.ofNat n)) = true)
            c.supportRound.toNat := by
  unfold checkCommit
  constructor
  · intro h
    split_ifs at h with hround
    · cases h
    · rcases helect : electLeader sha256 d.validatorSet round d.seed with panic | elected
      · simp [helect] at h
      · rcases elected with _ | leader
        · simp [helect] at h
        · rcases hanchor : dag.eventAt leader round with _ | anchor
          · simp [helect, hanchor] at h
          · simp only [helect, hanchor, findSome?_checkQuorumSupport, Except.ok.injEq,
              Option.map_eq_some_iff] at h
            obtain ⟨r, hfind, rfl⟩ := h
            exact ⟨rfl, UInt64.not_le.mp hround, rfl, anchor, hanchor, rfl,
              find?_futureRounds_eq_some_iff.mp hfind⟩
  · rintro ⟨rfl, hlast, helect, anchor, hanchor, hid, hfirst⟩
    have hfind := (find?_futureRounds_eq_some_iff
      (p := fun r => d.validatorSet.hasQuorum (supporters dag anchor.id r))).mpr hfirst
    rw [if_neg (UInt64.not_le.mpr hlast), helect]
    simp only [hanchor, findSome?_checkQuorumSupport, hfind, Option.map_some]
    rw [← hid]

/-- **What a commit says**: the round is the one asked for and not committed yet, the leader is the
elected one, and the anchor is its event at that round. Kind: P -/
theorem checkCommit_eq_some {d : CommitDetector} {dag : DagStore} {round : UInt64}
    {result : CommitResult} (h : d.checkCommit sha256 dag round = .ok (some result)) :
    result.round = round ∧ d.lastCommitted < round ∧
      electLeader sha256 d.validatorSet round d.seed = .ok (some result.leader) ∧
      ∃ anchor, dag.eventAt result.leader round = some anchor ∧ anchor.id = result.anchorId := by
  obtain ⟨hround, hlast, helect, anchor, hanchor, hid, -⟩ := checkCommit_eq_some_iff.mp h
  exact ⟨hround, hlast, helect, anchor, hanchor, hid.symm⟩

/-- A commit moves the detector to its round and seed. Kind: L -/
theorem confirmCommit_of_checkCommit {d : CommitDetector} {dag : DagStore} {round : UInt64}
    {result : CommitResult} (h : d.checkCommit sha256 dag round = .ok (some result)) :
    d.confirmCommit sha256 result.round result.anchorId =
      { d with lastCommitted := round, seed := sha256 result.anchorId.toList } := by
  obtain ⟨hround, hlt, -, -⟩ := checkCommit_eq_some h
  rw [confirmCommit, hround, if_pos hlt]

/-- The next round after a commit is one more: only the successor of the last round can wrap, and
round 0 never commits. Kind: L -/
theorem toNat_round_of_checkCommit {d : CommitDetector} {dag : DagStore} {result : CommitResult}
    (h : d.checkCommit sha256 dag (d.lastCommitted + 1) = .ok (some result)) :
    (d.lastCommitted + 1).toNat = d.lastCommitted.toNat + 1 := by
  obtain ⟨-, hlt, -, -⟩ := checkCommit_eq_some h
  refine toNat_succ fun hmax => ?_
  rw [hmax] at hlt
  exact absurd hlt (by decide)

/-- **The loop does not run out of fuel**: more fuel than `advanceFuel` gives the same result.
Kind: P -/
theorem advanceLoop_fuel {dag : DagStore} (fuel : ℕ) :
    ∀ (d : CommitDetector) (more : ℕ), d.advanceFuel dag ≤ fuel →
      advanceLoop sha256 dag (fuel + more) d (d.lastCommitted + 1) =
        advanceLoop sha256 dag fuel d (d.lastCommitted + 1) := by
  induction fuel with
  | zero => intro d more h; simp [advanceFuel] at h
  | succ fuel ih =>
      intro d more h
      rw [Nat.add_right_comm, advanceLoop, advanceLoop]
      split_ifs with hround
      · cases hcheck : d.checkCommit sha256 dag (d.lastCommitted + 1) with
        | error panic => rfl
        | ok answer =>
            cases answer with
            | none => rfl
            | some result =>
                have hsucc := toNat_round_of_checkCommit hcheck
                have hle := UInt64.le_iff_toNat_le.mp hround
                simp only
                rw [confirmCommit_of_checkCommit hcheck]
                have hfuel := ih
                  ⟨d.validatorSet, d.lastCommitted + 1, sha256 result.anchorId.toList⟩ more (by
                    unfold advanceFuel at h ⊢
                    simp only
                    omega)
                simp only at hfuel
                rw [hfuel]
      · rfl

/-- **What every commit keeps is kept by `try_advance`.** By induction on the fuel. Kind: P -/
theorem advanceLoop_induction {dag : DagStore} {P : List CommitResult → CommitDetector → Prop}
    (hcommit : ∀ {made d result}, P made d →
      d.checkCommit sha256 dag (d.lastCommitted + 1) = .ok (some result) →
      P (made ++ [result]) (d.confirmCommit sha256 result.round result.anchorId)) (fuel : ℕ) :
    ∀ {made : List CommitResult} {d d' : CommitDetector} {commits : List CommitResult},
      P made d → advanceLoop sha256 dag fuel d (d.lastCommitted + 1) = .ok (commits, d') →
      P (made ++ commits) d' := by
  induction fuel with
  | zero =>
      intro made d d' commits h hloop
      cases hloop
      rwa [List.append_nil]
  | succ fuel ih =>
      intro made d d' commits h hloop
      rw [advanceLoop] at hloop
      split_ifs at hloop with hround
      · cases hcheck : d.checkCommit sha256 dag (d.lastCommitted + 1) with
        | error panic => simp [hcheck] at hloop
        | ok answer =>
            cases answer with
            | none =>
                simp only [hcheck] at hloop
                cases hloop
                rwa [List.append_nil]
            | some result =>
                have hnext := hcommit h hcheck
                have hlast : (d.confirmCommit sha256 result.round result.anchorId).lastCommitted =
                    d.lastCommitted + 1 := by
                  rw [confirmCommit_of_checkCommit hcheck]
                simp only [hcheck] at hloop
                rw [← hlast] at hloop
                generalize d.confirmCommit sha256 result.round result.anchorId = d₁ at hnext hloop
                cases hrest : advanceLoop sha256 dag fuel d₁ (d₁.lastCommitted + 1) with
                | error panic => simp [hrest] at hloop
                | ok answer =>
                    obtain ⟨rest, d₂⟩ := answer
                    simp only [hrest, Except.ok.injEq, Prod.mk.injEq] at hloop
                    obtain ⟨rfl, rfl⟩ := hloop
                    have hdone := ih hnext hrest
                    rwa [List.append_assoc] at hdone
      · cases hloop
        rwa [List.append_nil]

end CommitDetector

/-! ### A network of four validators -/

/-- The digests of SHA-256 that a run of the sample network needs: the ids of its events, the
seed after its first anchor, and the elections of rounds 1 and 2.
Kind: D -/
def sampleSha256 : List UInt8 → Bytes 32 :=
  tableHash
    [([1, 1], 71379901088232975507798798260651998586478967735210676092014082612906009798578),
      ([1, 2], 72893829273468228809779896945482732896068609005696529242450300490286242345506),
      ([2, 1], 17131035866498858431256477057707904204956020817456185383129974919648822694560),
      ([2, 2], 36552471161645068118095505495292026845668113086630548508283667123465643719342),
      ([3, 1], 46661195972544627040105238276913415440590179569086896199269013123043307314684),
      ([3, 2], 96304206242732258081864055310962121976569737654897228264769638628762545782983),
      ([4, 1], 25655919403412474433175543909148696127573161233636232300525661014532078948003),
      (beBytes 32 17131035866498858431256477057707904204956020817456185383129974919648822694560,
        19278800793620232615037718001271085519545216477531917663778237508649590821244),
      (leBytes 8 1 ++ List.replicate 32 0,
        82574213155787300355150431516268589834400855217640395049567668732314333502434),
      (leBytes 8 2 ++
          beBytes 32 19278800793620232615037718001271085519545216477531917663778237508649590821244,
        35751768124928272392357182588634792463439965606367097762034337166664222946414)]

/-- Four validators with a stake of 100 each. Kind: D -/
def sampleValidators : ValidatorSet :=
  .fromValidators ([1, 2, 3, 4].map fun id => (makeValidator id, 100, .fill 0))

/-- The events of round 1. Kind: D -/
def sampleRound1 : List DagEvent := [1, 2, 3, 4].map fun id => makeEvent sampleSha256 id 1 []

/-- The events of three validators at round 2, on those of the same three at round 1. Kind: D -/
def sampleRound2 : List DagEvent :=
  [1, 2, 3].map fun id =>
    makeEvent sampleSha256 id 2 ([1, 2, 3].map fun id => (makeEvent sampleSha256 id 1 []).id)

/-- All events of the sample network. Kind: D -/
def samplePool : Pool where
  events := {e | e ∈ sampleRound1 ++ sampleRound2}
  id_injective := by
    have h : ∀ e ∈ sampleRound1 ++ sampleRound2, ∀ e' ∈ sampleRound1 ++ sampleRound2,
        e.id = e'.id → e = e' := by decide +kernel
    exact h
  one_per_round := by
    have h : ∀ e ∈ sampleRound1 ++ sampleRound2, ∀ e' ∈ sampleRound1 ++ sampleRound2,
        e.creator = e'.creator → e.round = e'.round → e = e' := by decide +kernel
    exact h

end Ryther
