import Ryther.Consensus.Rule
import Ryther.Dag.Indices
import Ryther.Lib.Residue

/-!
# Commits of a growing DAG

A store that receives more events keeps what it had: events, links, the members of a round, and so
the supporters of an anchor. A commit of `check_commit` in `src/consensus/commit.rs` is kept with
them as long as `has_quorum` accepts more voters too. Its sums wrap, so it need not.

* `eventAt_append`, `reaches_append`, `supporters_append` — what further events leave.
* `exists_short_of_not_quorumMonotone` — where more voters can lose a quorum, few do.
* `fanPool` — an event and some votes on it, one for each creator.
* `stable_of_fits` — then commits are kept.
* `stable_iff` — commits are kept by every extension exactly if more voters never lose a quorum, or
  the detector elects no leader any more.
-/

namespace Ryther

open Lib

/-! ### Further events -/

namespace DagStore

section Append

variable {pool : Pool} {events more : List DagEvent}

/-- The event of a creator at a round stays. Kind: L -/
theorem eventAt_append (hpool : ∀ e ∈ events ++ more, e ∈ pool.events) {creator : ValidatorId}
    {round : UInt64} {e : DagEvent} (h : (ofEvents events).eventAt creator round = some e) :
    (ofEvents (events ++ more)).eventAt creator round = some e := by
  have hevents : ∀ e ∈ events, e ∈ pool.events := fun e he => hpool e (List.mem_append_left _ he)
  rw [eventAt_ofEvents_iff hpool]
  obtain ⟨he, hkey⟩ := (eventAt_ofEvents_iff hevents).mp h
  exact ⟨List.mem_append_left _ he, hkey⟩

/-- A chain of links stays. Kind: L -/
theorem reaches_append (hpool : ∀ e ∈ events ++ more, e ∈ pool.events) {source target : EventId}
    (h : Relation.ReflTransGen (ofEvents events).Link source target) :
    Relation.ReflTransGen (ofEvents (events ++ more)).Link source target := by
  have hevents : ∀ e ∈ events, e ∈ pool.events := fun e he => hpool e (List.mem_append_left _ he)
  refine Relation.ReflTransGen.mono ?_ _ _ h
  rintro id parent ⟨e, hget, hparent⟩
  obtain ⟨he, hid⟩ := (get_ofEvents_iff hevents).mp hget
  exact ⟨e, (get_ofEvents_iff hpool).mpr ⟨List.mem_append_left _ he, hid⟩, hparent⟩

/-- The highest round does not fall. Kind: L -/
theorem maxRound_le_append (events more : List DagEvent) :
    (ofEvents events).maxRound ≤ (ofEvents (events ++ more)).maxRound := by
  rcases eq_or_ne events [] with rfl | hne
  · exact UInt64.le_iff_toNat_le.mpr (Nat.zero_le _)
  · obtain ⟨e, he, hround⟩ := exists_round_eq_maxRound hne
    rw [← hround]
    exact round_le_maxRound (List.mem_append_left _ he)

end Append

end DagStore

/-! ### Quorums of more voters -/

namespace ValidatorSet

/-- A lost quorum is lost with fewer than `2^64` voters on either side: the decision depends on the
stakes modulo `2^64`. Kind: L -/
theorem exists_short_of_not_quorumMonotone {set : ValidatorSet} (h : ¬ set.QuorumMonotone) :
    ∃ voters others : List ValidatorId, (voters ++ others).Nodup ∧
      voters.length < 2 ^ 64 ∧ others.length < 2 ^ 64 ∧
      set.hasQuorum voters = true ∧ set.hasQuorum (voters ++ others) = false := by
  unfold QuorumMonotone at h
  push Not at h
  obtain ⟨voters, voters', hnodup, hnodup', hsub, hquorum, hlost⟩ := h
  have hperm := perm_append_filter hnodup hnodup' hsub
  generalize voters'.filter (· ∉ voters) = others at hperm
  obtain ⟨short, hshort, hlen, hsum⟩ :=
    exists_sublist_sum_mod set.weight (Nat.two_pow_pos 64) voters
  obtain ⟨short', hshort', hlen', hsum'⟩ :=
    exists_sublist_sum_mod set.weight (Nat.two_pow_pos 64) others
  have hstake : set.memberStake short % 2 ^ 64 = set.memberStake voters % 2 ^ 64 := hsum
  have hstake' : set.memberStake short' % 2 ^ 64 = set.memberStake others % 2 ^ 64 := hsum'
  refine ⟨short, short', ?_, hlen, hlen', ?_, ?_⟩
  · exact ((hperm.nodup_iff).mpr hnodup').sublist (hshort.append hshort')
  · rw [hasQuorum_iff_wrapped, hstake]
    exact (set.hasQuorum_iff_wrapped voters).mp hquorum
  · rw [← Bool.not_eq_true, hasQuorum_iff_wrapped, memberStake_append, Nat.add_mod, hstake, hstake',
      ← Nat.add_mod, ← memberStake_append, set.memberStake_perm hperm, ← hasQuorum_iff_wrapped]
    exact hlost

end ValidatorSet

/-! ### An event and votes on it -/

/-- An event of the leader without parents.
Kind: D -/
def fanAnchor (leader : ValidatorId) (round : UInt64) : DagEvent where
  id := digest 0
  creator := leader
  lamportTime := round
  round := round
  strongParents := []
  weakParents := []
  payload := .empty
  signature := .fill 96 0

/-- An event of a voter at the next round, with the leader's event as its only parent. The position
of the voter gives the id.
Kind: D -/
def fanVote (round : UInt64) (voters : List ValidatorId) (voter : ValidatorId) : DagEvent where
  id := digest (voters.idxOf voter + 1)
  creator := voter
  lamportTime := round + 1
  round := round + 1
  strongParents := [digest 0]
  weakParents := []
  payload := .empty
  signature := .fill 96 0

section Fan

variable {leader : ValidatorId} {round : UInt64} {voters : List ValidatorId}

/-- The events of a fan have distinct ids, and distinct creators in a round.
Kind: D -/
def fanPool (leader : ValidatorId) (round : UInt64) (voters : List ValidatorId)
    (hlen : voters.length < 2 ^ 256 - 1) : Pool where
  events := {e | e ∈ fanAnchor leader round :: voters.map (fanVote round voters)}
  id_injective := by
    have hpos : ∀ voter ∈ voters, voters.idxOf voter + 1 < 2 ^ 256 := fun voter hvoter => by
      have := List.idxOf_lt_length_of_mem hvoter
      omega
    intro e he e' he' hid
    rcases List.mem_cons.mp he with rfl | he <;> rcases List.mem_cons.mp he' with rfl | he'
    · rfl
    · obtain ⟨voter, hvoter, rfl⟩ := List.mem_map.mp he'
      have := digest_injective (Nat.two_pow_pos 256) (hpos voter hvoter) hid
      omega
    · obtain ⟨voter, hvoter, rfl⟩ := List.mem_map.mp he
      have := digest_injective (hpos voter hvoter) (Nat.two_pow_pos 256) hid
      omega
    · obtain ⟨voter, hvoter, rfl⟩ := List.mem_map.mp he
      obtain ⟨voter', hvoter', rfl⟩ := List.mem_map.mp he'
      have hidx := digest_injective (hpos voter hvoter) (hpos voter' hvoter') hid
      rw [(List.idxOf_inj hvoter).mp (Nat.succ_injective hidx)]
  one_per_round := by
    intro e he e' he' hcreator hround
    rcases List.mem_cons.mp he with rfl | he <;> rcases List.mem_cons.mp he' with rfl | he'
    · rfl
    · obtain ⟨voter, -, rfl⟩ := List.mem_map.mp he'
      exact absurd hround (by simp [fanAnchor, fanVote])
    · obtain ⟨voter, -, rfl⟩ := List.mem_map.mp he
      exact absurd hround (by simp [fanAnchor, fanVote])
    · obtain ⟨voter, -, rfl⟩ := List.mem_map.mp he
      obtain ⟨voter', -, rfl⟩ := List.mem_map.mp he'
      rw [show voter = voter' from hcreator]

variable {cast : List ValidatorId}

/-- The events of a fan with the votes cast so far. Kind: D -/
def fan (leader : ValidatorId) (round : UInt64) (voters cast : List ValidatorId) : List DagEvent :=
  fanAnchor leader round :: cast.map (fanVote round voters)

/-- The leader's event and the votes cast are events of the pool of all votes. Kind: L -/
theorem mem_fanPool (hlen : voters.length < 2 ^ 256 - 1) (hcast : cast ⊆ voters) :
    ∀ e ∈ fan leader round voters cast, e ∈ (fanPool leader round voters hlen).events := by
  intro e he
  rcases List.mem_cons.mp he with rfl | he
  · exact List.mem_cons_self
  · obtain ⟨voter, hvoter, rfl⟩ := List.mem_map.mp he
    exact List.mem_cons_of_mem _ (List.mem_map_of_mem (hcast hvoter))

/-- The supporters at the next round are the voters. Kind: L -/
theorem mem_supporters_fan (hlen : voters.length < 2 ^ 256 - 1) (hcast : cast ⊆ voters)
    {c : ValidatorId} :
    c ∈ CommitDetector.supporters (.ofEvents (fan leader round voters cast)) (digest 0)
        (round + 1) ↔ c ∈ cast := by
  have hpool : ∀ e ∈ fan leader round voters cast, e ∈ (fanPool leader round voters hlen).events :=
    mem_fanPool hlen hcast
  rw [CommitDetector.mem_supporters]
  simp only [DagStore.mem_eventsAtRound_ofEvents_iff hpool]
  constructor
  · rintro ⟨e, ⟨he, hround⟩, rfl, -⟩
    rcases List.mem_cons.mp he with rfl | he
    · exact absurd hround (by simp [fanAnchor])
    · obtain ⟨voter, hvoter, rfl⟩ := List.mem_map.mp he
      exact hvoter
  · intro hc
    have hmem : fanVote round voters c ∈ fan leader round voters cast :=
      List.mem_cons_of_mem _ (List.mem_map_of_mem hc)
    refine ⟨fanVote round voters c, ⟨hmem, rfl⟩, rfl, .single ?_⟩
    exact ⟨_, (DagStore.get_ofEvents_iff hpool).mpr ⟨hmem, rfl⟩, List.mem_cons_self⟩

/-- The supporters of the leader's event are a quorum exactly if those who cast a vote are. Kind: L
-/
theorem hasQuorum_supporters_fan (set : ValidatorSet) (hlen : voters.length < 2 ^ 256 - 1)
    (hcast : cast ⊆ voters) (hnodup : cast.Nodup) :
    set.hasQuorum (CommitDetector.supporters (.ofEvents (fan leader round voters cast)) (digest 0)
        (round + 1)) = set.hasQuorum cast := by
  have hperm : (CommitDetector.supporters (.ofEvents (fan leader round voters cast)) (digest 0)
      (round + 1)).Perm cast := by
    rw [List.perm_ext_iff_of_nodup (CommitDetector.nodup_supporters _ _ _) hnodup]
    exact fun c => mem_supporters_fan hlen hcast
  rw [Bool.eq_iff_iff, ValidatorSet.hasQuorum_iff_wrapped, ValidatorSet.hasQuorum_iff_wrapped,
    set.memberStake_perm hperm]

/-- The leader's event at its round. Kind: L -/
theorem eventAt_fan (hlen : voters.length < 2 ^ 256 - 1) (hcast : cast ⊆ voters) :
    (DagStore.ofEvents (fan leader round voters cast)).eventAt leader round =
      some (fanAnchor leader round) :=
  (DagStore.eventAt_ofEvents_iff (mem_fanPool hlen hcast)).mpr ⟨List.mem_cons_self, rfl, rfl⟩

end Fan

/-! ### Stability -/

namespace CommitDetector

variable {sha256 : List UInt8 → Bytes 32} {d : CommitDetector}

/-- Further events leave the supporters of an event. Kind: L -/
theorem supporters_append {pool : Pool} {events more : List DagEvent}
    (hpool : ∀ e ∈ events ++ more, e ∈ pool.events) (anchor : EventId) (round : UInt64) :
    supporters (.ofEvents events) anchor round ⊆
      supporters (.ofEvents (events ++ more)) anchor round := by
  have hevents : ∀ e ∈ events, e ∈ pool.events := fun e he => hpool e (List.mem_append_left _ he)
  intro c hc
  rw [mem_supporters] at hc ⊢
  obtain ⟨e, he, hcreator, hreach⟩ := hc
  obtain ⟨hmem, hround⟩ := (DagStore.mem_eventsAtRound_ofEvents_iff hevents).mp he
  refine ⟨e, ?_, hcreator, DagStore.reaches_append hpool hreach⟩
  exact (DagStore.mem_eventsAtRound_ofEvents_iff hpool).mpr ⟨List.mem_append_left _ hmem, hround⟩

/-- Every commit is kept by every extension of the store, with a support round that is not larger.
The events are those of a pool, before and after.
Kind: D -/
def Stable (sha256 : List UInt8 → Bytes 32) (d : CommitDetector) : Prop :=
  ∀ (pool : Pool) (events more : List DagEvent), (∀ e ∈ events ++ more, e ∈ pool.events) →
    ∀ (round : UInt64) (c : CommitResult),
      d.checkCommit sha256 (.ofEvents events) round = .ok (some c) →
      ∃ c', d.checkCommit sha256 (.ofEvents (events ++ more)) round = .ok (some c') ∧
        c'.round = c.round ∧ c'.leader = c.leader ∧ c'.anchorId = c.anchorId ∧
        c'.supportRound ≤ c.supportRound

/-- More events mean more supporters at the support round, and the search finds it or an earlier
round. Kind: L -/
theorem stable_of_quorumMonotone (hmono : d.validatorSet.QuorumMonotone) : d.Stable sha256 := by
  intro pool events more hpool round c hcheck
  obtain ⟨hround, hlast, helect, anchor, hanchor, hid, hfirst⟩ := checkCommit_eq_some_iff.mp hcheck
  have hanchor' := DagStore.eventAt_append hpool hanchor
  have hmax := UInt64.le_iff_toNat_le.mp (DagStore.maxRound_le_append events more)
  obtain ⟨n, hle, hfirst'⟩ := hfirst.exists_le (q := fun n => d.validatorSet.hasQuorum
    (supporters (.ofEvents (events ++ more)) anchor.id (UInt64.ofNat n)) = true) hmax
    (hmono _ _ (nodup_supporters _ _ _) (nodup_supporters _ _ _)
      (supporters_append hpool anchor.id _))
  have hn : (UInt64.ofNat n).toNat = n :=
    UInt64.toNat_ofNat_of_lt' (lt_of_le_of_lt hle c.supportRound.toNat_lt)
  rw [← hn] at hfirst'
  refine ⟨⟨round, anchor.id, c.leader, UInt64.ofNat n⟩,
    (checkCommit_mk_iff hlast helect hanchor' _).mpr hfirst', hround.symm, rfl, hid.symm, ?_⟩
  rw [UInt64.le_iff_toNat_le, hn]
  exact hle

/-- **With stakes that sum to a `u64`, commits are stable.** Kind: P -/
theorem stable_of_fits (hfit : d.validatorSet.stakeSum < 2 ^ 64) : d.Stable sha256 :=
  stable_of_quorumMonotone (ValidatorSet.quorumMonotone_of_fits hfit)

section Fan

variable {round : UInt64} {leader : ValidatorId} {voters cast : List ValidatorId}

/-- Votes that are accepted commit the leader's event with the next round. Kind: L -/
theorem checkCommit_fan (hlast : d.lastCommitted < round)
    (helect : electLeader sha256 d.validatorSet round d.seed = .ok (some leader))
    (hlen : voters.length < 2 ^ 256 - 1) (hcast : cast ⊆ voters) (hnodup : cast.Nodup)
    (hquorum : d.validatorSet.hasQuorum cast = true) :
    d.checkCommit sha256 (.ofEvents (fan leader round voters cast)) round =
      .ok (some ⟨round, digest 0, leader, round + 1⟩) := by
  -- no votes are never accepted, so there is an event at the next round
  have hne : cast ≠ [] := by
    rintro rfl
    rw [ValidatorSet.hasQuorum_iff_wrapped] at hquorum
    simp [ValidatorSet.memberStake] at hquorum
  obtain ⟨voter, hvoter⟩ := List.exists_mem_of_ne_nil cast hne
  have hmax : round + 1 ≤ (DagStore.ofEvents (fan leader round voters cast)).maxRound :=
    DagStore.round_le_maxRound (e := fanVote round voters voter)
      (List.mem_cons_of_mem _ (List.mem_map_of_mem hvoter))
  apply (checkCommit_mk_iff hlast helect (eventAt_fan hlen hcast) (round + 1)).mpr
  apply (isFirst_toNat_iff (p := fun r => d.validatorSet.hasQuorum (supporters _ _ r) = true)).mpr
  refine ⟨⟨UInt64.le_refl _, hmax⟩, ?_, fun r hlo hlt => absurd hlt (UInt64.not_lt.mpr hlo)⟩
  exact (hasQuorum_supporters_fan _ hlen hcast hnodup).trans hquorum

/-- A commit with the next round has the votes accepted; no earlier round is looked at. Kind: L -/
theorem hasQuorum_of_checkCommit_fan (hlen : voters.length < 2 ^ 256 - 1) (hcast : cast ⊆ voters)
    (hnodup : cast.Nodup) {c : CommitResult} (hleader : c.leader = leader)
    (hle : c.supportRound ≤ round + 1)
    (hcheck : d.checkCommit sha256 (.ofEvents (fan leader round voters cast)) round =
      .ok (some c)) : d.validatorSet.hasQuorum cast = true := by
  obtain ⟨-, -, -, anchor, hanchor, -, hfirst⟩ := checkCommit_eq_some_iff.mp hcheck
  rw [hleader, eventAt_fan hlen hcast, Option.some.injEq] at hanchor
  subst hanchor
  have hsupport : c.supportRound = round + 1 :=
    UInt64.le_antisymm hle (UInt64.le_iff_toNat_le.mpr hfirst.1.1)
  have hfound : d.validatorSet.hasQuorum
      (supporters (.ofEvents (fan leader round voters cast)) (digest 0)
        (UInt64.ofNat c.supportRound.toNat)) = true := hfirst.2.1
  rwa [UInt64.ofNat_toNat, hsupport, hasQuorum_supporters_fan _ hlen hcast hnodup] at hfound

/-- A lost quorum shows in a fan: its voters commit the leader's event with the votes at the next
round, and once the others have voted that round does not. Kind: L -/
theorem not_stable_of_lost_quorum (hlast : d.lastCommitted < round)
    (helect : electLeader sha256 d.validatorSet round d.seed = .ok (some leader))
    {others : List ValidatorId} (hnodup : (cast ++ others).Nodup)
    (hlen : (cast ++ others).length < 2 ^ 256 - 1)
    (hquorum : d.validatorSet.hasQuorum cast = true)
    (hlost : d.validatorSet.hasQuorum (cast ++ others) = false) : ¬ d.Stable sha256 := by
  intro hstable
  have hsub : cast ⊆ cast ++ others := List.subset_append_left cast others
  have hevents : fan leader round (cast ++ others) cast ++
      others.map (fanVote round (cast ++ others)) =
        fan leader round (cast ++ others) (cast ++ others) := by
    rw [fan, fan, List.map_append, List.cons_append]
  have hpool : ∀ e ∈ fan leader round (cast ++ others) cast ++
      others.map (fanVote round (cast ++ others)),
        e ∈ (fanPool leader round (cast ++ others) hlen).events := by
    rw [hevents]
    exact mem_fanPool hlen (List.Subset.refl _)
  have hcheck := checkCommit_fan hlast helect hlen hsub hnodup.of_append_left hquorum
  obtain ⟨c', hcheck', -, hleader, -, hle⟩ := hstable _ _ _ hpool round _ hcheck
  rw [hevents] at hcheck'
  have hkept :=
    hasQuorum_of_checkCommit_fan hlen (List.Subset.refl _) hnodup hleader hle hcheck'
  rw [hlost] at hkept
  cases hkept

end Fan

/-- **When commits are stable.** Every commit of the detector is kept by every extension exactly if
voters that are accepted stay accepted when others join them, or no round after the last committed
one has a leader and nothing is ever committed.
Source: `consensus/commit.rs`, `CommitDetector::check_commit`
Kind: P -/
theorem stable_iff (sha256 : List UInt8 → Bytes 32) (d : CommitDetector) :
    d.Stable sha256 ↔
      d.validatorSet.QuorumMonotone ∨
        ∀ round leader, d.lastCommitted < round →
          electLeader sha256 d.validatorSet round d.seed ≠ .ok (some leader) := by
  constructor
  · intro hstable
    by_contra hnot
    push Not at hnot
    obtain ⟨hmono, round, leader, hlast, helect⟩ := hnot
    obtain ⟨voters, others, hnodup, hlen, hlen', hquorum, hlost⟩ :=
      ValidatorSet.exists_short_of_not_quorumMonotone hmono
    refine not_stable_of_lost_quorum hlast helect hnodup ?_ hquorum hlost hstable
    rw [List.length_append]
    omega
  · rintro (hmono | hnone)
    · exact stable_of_quorumMonotone hmono
    · intro pool events more hpool round c hcheck
      obtain ⟨-, hlast, helect, -⟩ := checkCommit_eq_some_iff.mp hcheck
      exact absurd helect (hnone round c.leader hlast)

/-- **A commit that is lost.** Two validators with a stake of `2^63` and one with 3: the total wraps
to 3. The vote of the first validator for its event at round 1 commits it. With the vote of the
second one the supporters' stake wraps to 0, and the round does not commit any more. Kind: P -/
theorem commit_lost_with_more_votes :
    let set := ValidatorSet.fromValidators
      [(makeValidator 1, 0x8000000000000000, makeAddress 1),
        (makeValidator 2, 0x8000000000000000, makeAddress 2), (makeValidator 3, 3, makeAddress 3)]
    let anchor := makeEvent sampleSha256 1 1 []
    let first := makeEvent sampleSha256 1 2 [anchor.id]
    let second := makeEvent sampleSha256 2 2 [anchor.id]
    (new set (.fill 32 0)).checkCommit sampleSha256 (.ofEvents [anchor, first]) 1 =
        .ok (some ⟨1, anchor.id, makeValidator 1, 2⟩) ∧
      (new set (.fill 32 0)).checkCommit sampleSha256 (.ofEvents [anchor, first, second]) 1 =
        .ok none := by
  decide +kernel

end CommitDetector

end Ryther
