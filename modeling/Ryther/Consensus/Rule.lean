import Ryther.Consensus.Commit
import Ryther.Types.Quorum

/-!
# The commit rule

When `check_commit` of `src/consensus/commit.rs` returns a commit, in terms of the events: chains of
strong parents, creators counted once, and stakes as exact integers.

* `mem_supporters` — who the creators are that the source counts.
* `SupportedBy`, `Supported`, `CommitRule` — the rule without wrapping.
* `checkCommit_exact_iff` — where the two agree: unless the round is the largest, or the stake of a
  round up to the first supported one wraps to another answer.
-/

namespace Ryther

open Lib

namespace CommitDetector

variable {sha256 : List UInt8 → Bytes 32}

/-! ### Supporters -/

/-- The creators of some events, each once. By induction with the creators found before. Kind: L -/
theorem mem_foldl_insert_creator (p : DagEvent → Prop) [DecidablePred p] (events : List DagEvent) :
    ∀ found : List ValidatorId, found.Nodup →
      let creators := events.foldl
        (fun found event => if p event then found.insert event.creator else found) found
      creators.Nodup ∧ ∀ c, c ∈ creators ↔ c ∈ found ∨ ∃ e ∈ events, p e ∧ e.creator = c := by
  induction events with
  | nil =>
      intro found hnodup
      exact ⟨hnodup, fun c => by simp⟩
  | cons event events ih =>
      intro found hnodup
      dsimp only
      rw [List.foldl_cons]
      by_cases hp : p event
      · rw [if_pos hp]
        obtain ⟨hnodup', hmem⟩ := ih _ (hnodup.insert (a := event.creator))
        refine ⟨hnodup', fun c => ?_⟩
        rw [hmem, List.mem_insert_iff, List.exists_mem_cons_iff]
        constructor
        · rintro ((rfl | h) | h)
          · exact .inr (.inl ⟨hp, rfl⟩)
          · exact .inl h
          · exact .inr (.inr h)
        · rintro (h | ⟨-, rfl⟩ | h)
          · exact .inl (.inr h)
          · exact .inl (.inl rfl)
          · exact .inr h
      · rw [if_neg hp]
        obtain ⟨hnodup', hmem⟩ := ih _ hnodup
        refine ⟨hnodup', fun c => ?_⟩
        rw [hmem, List.exists_mem_cons_iff]
        simp [hp]

/-- A creator supports an anchor at most once in a round. Kind: L -/
theorem nodup_supporters (dag : DagStore) (anchor : EventId) (round : UInt64) :
    (supporters dag anchor round).Nodup :=
  (mem_foldl_insert_creator (fun event => dag.canReach event.id anchor = true)
    (dag.eventsAtRound round) [] List.nodup_nil).1

/-- **Who the supporters are.** Kind: L -/
theorem mem_supporters {dag : DagStore} {anchor : EventId} {round : UInt64} {c : ValidatorId} :
    c ∈ supporters dag anchor round ↔
      ∃ e ∈ dag.eventsAtRound round,
        e.creator = c ∧ Relation.ReflTransGen dag.Link e.id anchor := by
  have hmem := (mem_foldl_insert_creator (fun event => dag.canReach event.id anchor = true)
    (dag.eventsAtRound round) [] List.nodup_nil).2 c
  unfold supporters
  rw [hmem]
  simp only [List.not_mem_nil, false_or, DagStore.canReach_iff_link]
  exact exists_congr fun e => and_congr_right fun _ => and_comm

/-! ### The rule without wrapping -/

/-- The creators with an event at the round from which a chain of strong parents leads to the
anchor, each of them once.
Kind: D -/
def SupportedBy (dag : DagStore) (anchor : EventId) (round : UInt64)
    (creators : Finset ValidatorId) : Prop :=
  ∀ c, c ∈ creators ↔ ∃ e ∈ dag.eventsAtRound round,
    e.creator = c ∧ Relation.ReflTransGen dag.Link e.id anchor

/-- They hold more than two thirds of the stake; one that is not a validator weighs nothing.
Kind: D -/
def Supported (d : CommitDetector) (dag : DagStore) (anchor : EventId) (round : UInt64) : Prop :=
  ∃ creators, SupportedBy dag anchor round creators ∧ d.validatorSet.HoldQuorum creators

/-- The source counts these creators. Kind: L -/
theorem supportedBy_iff {dag : DagStore} {anchor : EventId} {round : UInt64}
    {creators : Finset ValidatorId} :
    SupportedBy dag anchor round creators ↔ creators = (supporters dag anchor round).toFinset := by
  constructor
  · intro hcreators
    ext c
    rw [hcreators, List.mem_toFinset, mem_supporters]
  · rintro rfl c
    rw [List.mem_toFinset, mem_supporters]

/-- An anchor is supported in a round if the set of its supporters holds a quorum. Kind: L -/
theorem supported_iff {d : CommitDetector} {dag : DagStore} {anchor : EventId} {round : UInt64} :
    d.Supported dag anchor round ↔
      d.validatorSet.HoldQuorum (supporters dag anchor round).toFinset := by
  simp only [Supported, supportedBy_iff, exists_eq_left]

/-- The commit of a round: a round not committed yet, the event of its elected leader as the anchor,
and the least later round that supports it.
Kind: D -/
structure CommitRule (sha256 : List UInt8 → Bytes 32) (d : CommitDetector) (dag : DagStore)
    (round : UInt64) (c : CommitResult) : Prop where
  round_eq : c.round = round
  not_committed : d.lastCommitted < round
  elected : electLeader sha256 d.validatorSet round d.seed = .ok (some c.leader)
  anchor : ∃ anchor, dag.eventAt c.leader round = some anchor ∧ anchor.id = c.anchorId
  later : round < c.supportRound ∧ c.supportRound ≤ dag.maxRound
  supported : d.Supported dag c.anchorId c.supportRound
  least : ∀ r, round < r → r < c.supportRound → ¬ d.Supported dag c.anchorId r

/-! ### Where the two agree -/

/-- A first hit, read in `u64`. Kind: L -/
theorem isFirst_toNat_iff {lo hi r : UInt64} {p : UInt64 → Prop} :
    IsFirst lo.toNat hi.toNat (fun n => p (UInt64.ofNat n)) r.toNat ↔
      (lo ≤ r ∧ r ≤ hi) ∧ p r ∧ ∀ r', lo ≤ r' → r' < r → ¬ p r' := by
  unfold IsFirst
  simp only [UInt64.le_iff_toNat_le, UInt64.lt_iff_toNat_lt, UInt64.ofNat_toNat]
  refine and_congr_right fun _ => and_congr_right fun _ => ?_
  constructor
  · intro h r' hlo hlt hp
    refine h r'.toNat hlo hlt ?_
    rwa [UInt64.ofNat_toNat]
  · intro h n hlo hlt hp
    have hn : n < 2 ^ 64 := hlt.trans r.toNat_lt
    refine h (UInt64.ofNat n) ?_ ?_ hp
    · rwa [UInt64.toNat_ofNat_of_lt' hn]
    · rwa [UInt64.toNat_ofNat_of_lt' hn]

/-- The successor of a round that is not the largest. Kind: L -/
theorem succ_le_iff {round r : UInt64} (h : round ≠ u64Max) : round + 1 ≤ r ↔ round < r := by
  rw [UInt64.le_iff_toNat_le, UInt64.lt_iff_toNat_lt, toNat_succ h]
  exact Nat.succ_le_iff

section Anchored

variable {d : CommitDetector} {dag : DagStore} {round : UInt64} {leader : ValidatorId}
  {anchor : DagEvent}

/-- A commit names the elected leader and its anchor. Kind: L -/
theorem eq_mk_of_elected {c : CommitResult}
    (helect : electLeader sha256 d.validatorSet round d.seed = .ok (some leader))
    (hanchor : dag.eventAt leader round = some anchor) (hround : c.round = round)
    (helect' : electLeader sha256 d.validatorSet round d.seed = .ok (some c.leader))
    (hanchor' : ∃ a, dag.eventAt c.leader round = some a ∧ a.id = c.anchorId) :
    c = ⟨round, anchor.id, leader, c.supportRound⟩ := by
  obtain ⟨r, id, l, s⟩ := c
  simp only at hround helect' hanchor'
  have hleader : l = leader := by
    rw [helect] at helect'
    simpa using helect'.symm
  subst hround hleader
  obtain ⟨a, ha, hid⟩ := hanchor'
  rw [hanchor, Option.some.injEq] at ha
  subst ha hid
  rfl

/-- With the leader and its event known, the code commits in the first later round whose list of
supporters passes the check for a quorum. Kind: L -/
theorem checkCommit_mk_iff (hlast : d.lastCommitted < round)
    (helect : electLeader sha256 d.validatorSet round d.seed = .ok (some leader))
    (hanchor : dag.eventAt leader round = some anchor) (r : UInt64) :
    d.checkCommit sha256 dag round = .ok (some ⟨round, anchor.id, leader, r⟩) ↔
      IsFirst (round + 1).toNat dag.maxRound.toNat
        (fun n => d.validatorSet.hasQuorum (supporters dag anchor.id (UInt64.ofNat n)) = true)
        r.toNat := by
  rw [checkCommit_eq_some_iff]
  constructor
  · rintro ⟨-, -, -, a, ha, -, hfirst⟩
    rw [hanchor, Option.some.injEq] at ha
    subst ha
    exact hfirst
  · intro hfirst
    exact ⟨rfl, hlast, helect, anchor, hanchor, rfl, hfirst⟩

/-- With the leader and its event known, the rule commits in the first later round in which the
anchor is supported. Kind: L -/
theorem commitRule_mk_iff (hlast : d.lastCommitted < round)
    (helect : electLeader sha256 d.validatorSet round d.seed = .ok (some leader))
    (hanchor : dag.eventAt leader round = some anchor) (hmax : round ≠ u64Max) (r : UInt64) :
    CommitRule sha256 d dag round ⟨round, anchor.id, leader, r⟩ ↔
      IsFirst (round + 1).toNat dag.maxRound.toNat
        (fun n => d.Supported dag anchor.id (UInt64.ofNat n)) r.toNat := by
  rw [isFirst_toNat_iff (p := fun r => d.Supported dag anchor.id r)]
  simp only [succ_le_iff hmax]
  constructor
  · intro h
    exact ⟨h.later, h.supported, h.least⟩
  · rintro ⟨hlater, hsupported, hleast⟩
    exact ⟨rfl, hlast, helect, ⟨anchor, hanchor, rfl⟩, hlater, hsupported, hleast⟩

/-- Below the largest round, the two find the same commit exactly if they have the same first round.
Kind: L -/
theorem forall_checkCommit_iff (hlast : d.lastCommitted < round)
    (helect : electLeader sha256 d.validatorSet round d.seed = .ok (some leader))
    (hanchor : dag.eventAt leader round = some anchor) (hmax : round ≠ u64Max) :
    (∀ c, d.checkCommit sha256 dag round = .ok (some c) ↔ CommitRule sha256 d dag round c) ↔
      ∀ n, IsFirst (round + 1).toNat dag.maxRound.toNat
          (fun n => d.validatorSet.hasQuorum (supporters dag anchor.id (UInt64.ofNat n)) = true) n ↔
        IsFirst (round + 1).toNat dag.maxRound.toNat
          (fun n => d.Supported dag anchor.id (UInt64.ofNat n)) n := by
  have hiff := checkCommit_mk_iff hlast helect hanchor
  have hrule := commitRule_mk_iff hlast helect hanchor hmax
  constructor
  · intro hexact n
    rcases Nat.lt_or_ge n (2 ^ 64) with hn | hn
    · have hr := hexact ⟨round, anchor.id, leader, UInt64.ofNat n⟩
      rw [hiff, hrule, UInt64.toNat_ofNat_of_lt' hn] at hr
      exact hr
    · have hlt := dag.maxRound.toNat_lt
      exact iff_of_false (fun h => by have := h.1.2; omega) fun h => by have := h.1.2; omega
  · intro hfirst c
    constructor
    · intro hcheck
      obtain ⟨hround, -, helect', a, ha, hid, -⟩ := checkCommit_eq_some_iff.mp hcheck
      have hc := eq_mk_of_elected helect hanchor hround helect' ⟨a, ha, hid.symm⟩
      rw [hc] at hcheck ⊢
      exact (hrule _).mpr ((hfirst _).mp ((hiff _).mp hcheck))
    · intro h
      have hc := eq_mk_of_elected helect hanchor h.round_eq h.elected h.anchor
      rw [hc] at h ⊢
      exact (hiff _).mpr ((hfirst _).mpr ((hrule _).mp h))

/-- At the largest round there is no later one, and the search goes through all rounds: it must find
none. Kind: L -/
theorem forall_checkCommit_iff_of_u64Max (hlast : d.lastCommitted < u64Max)
    (helect : electLeader sha256 d.validatorSet u64Max d.seed = .ok (some leader))
    (hanchor : dag.eventAt leader u64Max = some anchor) :
    (∀ c, d.checkCommit sha256 dag u64Max = .ok (some c) ↔ CommitRule sha256 d dag u64Max c) ↔
      ∀ r, r ≤ dag.maxRound → ∀ creators, SupportedBy dag anchor.id r creators →
        ¬ d.validatorSet.PassQuorum creators := by
  simp only [supportedBy_iff, forall_eq,
    ← ValidatorSet.hasQuorum_iff_passQuorum _ (nodup_supporters _ _ _)]
  constructor
  · intro hexact r hle hquorum
    obtain ⟨n, hn, hfirst⟩ := exists_isFirst (p := fun n =>
        d.validatorSet.hasQuorum (supporters dag anchor.id (UInt64.ofNat n)) = true)
      (Nat.zero_le r.toNat) (UInt64.le_iff_toNat_le.mp hle) (by rwa [UInt64.ofNat_toNat])
    rw [← UInt64.toNat_ofNat_of_lt' (lt_of_le_of_lt hn r.toNat_lt)] at hfirst
    have hcheck := (checkCommit_mk_iff hlast helect hanchor (UInt64.ofNat n)).mpr hfirst
    exact ne_u64Max_of_lt ((hexact _).mp hcheck).later.1 rfl
  · intro hnone c
    refine iff_of_false ?_ fun h => ne_u64Max_of_lt h.later.1 rfl
    intro hcheck
    obtain ⟨hround, -, helect', a, ha, hid, -⟩ := checkCommit_eq_some_iff.mp hcheck
    rw [eq_mk_of_elected helect hanchor hround helect' ⟨a, ha, hid.symm⟩,
      checkCommit_mk_iff hlast helect hanchor] at hcheck
    have hquorum : d.validatorSet.hasQuorum (supporters dag anchor.id
        (UInt64.ofNat c.supportRound.toNat)) = true := hcheck.2.1
    rw [UInt64.ofNat_toNat] at hquorum
    exact hnone _ (UInt64.le_iff_toNat_le.mpr hcheck.1.2) hquorum

/-- Below the largest round, the two comparisons must agree up to the first supported round.
Kind: L -/
theorem forall_checkCommit_iff_of_ne_u64Max (hlast : d.lastCommitted < round)
    (helect : electLeader sha256 d.validatorSet round d.seed = .ok (some leader))
    (hanchor : dag.eventAt leader round = some anchor) (hmax : round ≠ u64Max) :
    (∀ c, d.checkCommit sha256 dag round = .ok (some c) ↔ CommitRule sha256 d dag round c) ↔
      ∀ r, round < r → r ≤ dag.maxRound →
        (∀ r', round < r' → r' < r → ¬ d.Supported dag anchor.id r') →
        ∀ creators, SupportedBy dag anchor.id r creators →
          (d.validatorSet.PassQuorum creators ↔ d.validatorSet.HoldQuorum creators) := by
  have hlt : ∀ r : UInt64, round < r ↔ (round + 1).toNat ≤ r.toNat := fun r => by
    rw [← succ_le_iff hmax, UInt64.le_iff_toNat_le]
  rw [forall_checkCommit_iff hlast helect hanchor hmax, isFirst_iff_isFirst_iff]
  simp only [ValidatorSet.hasQuorum_iff_passQuorum _ (nodup_supporters _ _ _), supported_iff,
    supportedBy_iff, forall_eq, hlt, UInt64.le_iff_toNat_le, UInt64.lt_iff_toNat_lt]
  constructor
  · intro hagree r hlo hhi hbefore
    have hr := hagree r.toNat hlo hhi fun m hm hmr => by
      have hm64 : (UInt64.ofNat m).toNat = m := UInt64.toNat_ofNat_of_lt' (hmr.trans r.toNat_lt)
      exact hbefore (UInt64.ofNat m) (by rwa [hm64]) (by rwa [hm64])
    rwa [UInt64.ofNat_toNat] at hr
  · intro hjudged n hlo hhi hbefore
    have hn64 : (UInt64.ofNat n).toNat = n :=
      UInt64.toNat_ofNat_of_lt' (lt_of_le_of_lt hhi dag.maxRound.toNat_lt)
    refine hjudged (UInt64.ofNat n) (by rwa [hn64]) (by rwa [hn64]) fun r' hlo' hr' => ?_
    rw [hn64] at hr'
    have hnot := hbefore r'.toNat hlo' hr'
    rwa [UInt64.ofNat_toNat] at hnot

end Anchored

/-- The round is not committed, and its elected leader has an event.
Kind: D -/
def Ready (sha256 : List UInt8 → Bytes 32) (d : CommitDetector) (dag : DagStore)
    (round : UInt64) : Prop :=
  d.lastCommitted < round ∧ ∃ leader anchor,
    electLeader sha256 d.validatorSet round d.seed = .ok (some leader) ∧
      dag.eventAt leader round = some anchor

/-- Otherwise there is no commit, by the source or by the rule. Kind: L -/
theorem checkCommit_iff_of_not_ready {d : CommitDetector} {dag : DagStore} {round : UInt64}
    (hready : ¬ Ready sha256 d dag round) (c : CommitResult) :
    d.checkCommit sha256 dag round = .ok (some c) ↔ CommitRule sha256 d dag round c := by
  refine iff_of_false (fun hcheck => hready ?_) fun h => hready ?_
  · obtain ⟨-, hlast, helect, a, ha, -⟩ := checkCommit_eq_some_iff.mp hcheck
    exact ⟨hlast, c.leader, a, helect, ha⟩
  · obtain ⟨a, ha, -⟩ := h.anchor
    exact ⟨h.not_committed, c.leader, a, h.elected, ha⟩

/-- **With room for the doubled stakes, every round but the largest commits by the rule.**
Kind: P -/
theorem checkCommit_iff_of_fits {d : CommitDetector} (hfit : 2 * d.validatorSet.stakeSum < 2 ^ 64)
    (dag : DagStore) {round : UInt64} (hmax : round ≠ u64Max) (c : CommitResult) :
    d.checkCommit sha256 dag round = .ok (some c) ↔ CommitRule sha256 d dag round c := by
  by_cases hready : Ready sha256 d dag round
  · obtain ⟨hlast, leader, anchor, helect, hanchor⟩ := hready
    refine (forall_checkCommit_iff_of_ne_u64Max hlast helect hanchor hmax).mpr ?_ c
    intro r _ _ _ creators _
    exact ValidatorSet.passQuorum_iff_of_fits hfit creators
  · exact checkCommit_iff_of_not_ready hready c

/-- **Where `check_commit` follows the rule.** With a leader that has an event at the round: at the
largest round, whose successor wraps to 0, if the creators at no round at all pass the comparison of
`has_quorum`; below it, if up to the first supported round the creators pass exactly if they hold a
quorum.
Source: `consensus/commit.rs`, `CommitDetector::check_commit`
Kind: P -/
theorem checkCommit_exact_iff (sha256 : List UInt8 → Bytes 32) (d : CommitDetector) (dag : DagStore)
    (round : UInt64) :
    (∀ c, d.checkCommit sha256 dag round = .ok (some c) ↔ CommitRule sha256 d dag round c) ↔
      ∀ leader anchor, d.lastCommitted < round →
        electLeader sha256 d.validatorSet round d.seed = .ok (some leader) →
        dag.eventAt leader round = some anchor →
        (round = u64Max → ∀ r, r ≤ dag.maxRound → ∀ creators,
          SupportedBy dag anchor.id r creators → ¬ d.validatorSet.PassQuorum creators) ∧
        (round ≠ u64Max → ∀ r, round < r → r ≤ dag.maxRound →
          (∀ r', round < r' → r' < r → ¬ d.Supported dag anchor.id r') →
          ∀ creators, SupportedBy dag anchor.id r creators →
            (d.validatorSet.PassQuorum creators ↔ d.validatorSet.HoldQuorum creators)) := by
  constructor
  · intro hexact leader anchor hlast helect hanchor
    refine ⟨?_, fun hmax => ?_⟩
    · rintro rfl
      exact (forall_checkCommit_iff_of_u64Max hlast helect hanchor).mp hexact
    · exact (forall_checkCommit_iff_of_ne_u64Max hlast helect hanchor hmax).mp hexact
  · intro hcond
    by_cases hready : Ready sha256 d dag round
    · obtain ⟨hlast, leader, anchor, helect, hanchor⟩ := hready
      obtain ⟨htop, hbelow⟩ := hcond leader anchor hlast helect hanchor
      by_cases hmax : round = u64Max
      · subst hmax
        exact (forall_checkCommit_iff_of_u64Max hlast helect hanchor).mpr (htop rfl)
      · exact (forall_checkCommit_iff_of_ne_u64Max hlast helect hanchor hmax).mpr (hbelow hmax)
    · exact checkCommit_iff_of_not_ready hready

/-- **A commit without a quorum, and one without a later round.** A validator with one unit of stake
out of `2^63 + 1` supports the event of the other, and round 1 commits. A single validator has an
event at the largest round and one at round 0 on it, and the largest round commits with the support
of round 0. Kind: P -/
theorem commits_against_the_rule :
    let large := ValidatorSet.fromValidators
      [(makeValidator 1, 0x8000000000000000, makeAddress 1), (makeValidator 2, 1, makeAddress 2)]
    let anchor := makeEvent sampleSha256 1 1 []
    let support := makeEvent sampleSha256 2 2 [anchor.id]
    let single := ValidatorSet.fromValidators [(makeValidator 1, 100, makeAddress 1)]
    let top := makeEvent (fun _ => .fill 32 1) 1 u64Max [.fill 32 9]
    let wrapped := makeEvent (fun _ => .fill 32 2) 1 0 [top.id]
    (new large (.fill 32 0)).checkCommit sampleSha256 (.ofEvents [anchor, support]) 1 =
        .ok (some ⟨1, anchor.id, makeValidator 1, 2⟩) ∧
      ¬ (new large (.fill 32 0)).Supported (.ofEvents [anchor, support]) anchor.id 2 ∧
      (new single (.fill 32 0)).checkCommit sampleSha256 (.ofEvents [top, wrapped]) u64Max =
        .ok (some ⟨u64Max, top.id, makeValidator 1, 0⟩) := by
  intro large anchor support single top wrapped
  refine ⟨by decide +kernel, ?_, by decide +kernel⟩
  rw [supported_iff, ValidatorSet.HoldQuorum,
    ← ValidatorSet.memberStake_toFinset _ (nodup_supporters _ _ _)]
  decide +kernel

end CommitDetector

end Ryther
