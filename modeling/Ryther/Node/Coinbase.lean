import Ryther.Consensus.Election
import Ryther.Node.Commit

/-!
# Who gets the fees

A committed round is led by the validator that the commit detector elected, with a seed that is the
hash of the anchor before. `process_commit` elects once more to find the account for the fees,
always with the zero seed.

* `Elected`, `elected_runNode` — every commit of a run was elected with the seed of the commit
  before it.
* `RytherNode.coinbase_is_leader_iff` — the fees of a commit go to its leader exactly if the two
  draws fall on validators with one address.
* `RytherNode.fees_miss_the_leader` — a run where they do not.
-/

namespace Ryther

open Lib

/-! ### Elections -/

/-- The account of the validator who holds a position.
Kind: D -/
def addressAt (set : ValidatorSet) (position : UInt64) : Address :=
  ((holderOf set position).bind set.getAddress).getD (.fill 0)

/-- An election with a winner was held among validators with stakes. Kind: L -/
theorem electLeader_eq_some {sha256 : List UInt8 → Bytes 32} {set : ValidatorSet}
    {round : UInt64} {seed : Bytes 32} {leader : ValidatorId}
    (h : electLeader sha256 set round seed = .ok (some leader)) :
    set.isEmpty = false ∧ set.totalStake ≠ 0 ∧
      holderOf set (stakeDraw sha256 set round seed) = some leader := by
  have hempty : set.isEmpty = false := by
    by_contra hne
    unfold electLeader at h
    rw [if_pos (Bool.eq_true_of_not_eq_false hne)] at h
    cases h
  have htotal : set.totalStake ≠ 0 := by
    intro hzero
    unfold electLeader at h
    rw [if_neg (by rw [hempty]; exact Bool.false_ne_true)] at h
    simp only [if_pos hzero] at h
    cases h
  rw [electLeader_eq hempty htotal] at h
  exact ⟨hempty, htotal, Except.ok.inj h⟩

/-- The validator that is selected is one of the list. Kind: L -/
theorem mem_of_selectByStake {target : UInt64} {validators : List (ValidatorId × UInt64)} :
    ∀ {cumulative : UInt64} {id : ValidatorId},
      selectByStake target cumulative validators = some id → ∃ stake, (id, stake) ∈ validators := by
  induction validators with
  | nil =>
      intro cumulative id h
      cases h
  | cons v validators ih =>
      obtain ⟨id', stake⟩ := v
      intro cumulative id h
      unfold selectByStake at h
      simp only at h
      split at h
      · cases h
        exact ⟨stake, List.mem_cons_self⟩
      · obtain ⟨stake', hmem⟩ := ih h
        exact ⟨stake', List.mem_cons_of_mem _ hmem⟩

/-- Who holds a position is a validator with an account. Kind: L -/
theorem getAddress_of_holderOf {set : ValidatorSet} {position : UInt64} {id : ValidatorId}
    (h : holderOf set position = some id) : set.getAddress id = some (addressAt set position) := by
  have haddress : ∃ address, set.getAddress id = some address := by
    obtain ⟨stake, hmem⟩ := mem_of_selectByStake h
    obtain ⟨⟨id', data⟩, hentry, heq⟩ :=
      List.mem_map.mp ((List.perm_insertionSort idLe set.iter).mem_iff.mp hmem)
    cases heq
    have hlookup : set.validators.lookup id' = some data := AList.mem_lookup_iff.mpr hentry
    refine ⟨data.address, ?_⟩
    unfold ValidatorSet.getAddress
    rw [hlookup]
    rfl
  obtain ⟨address, haddress⟩ := haddress
  unfold addressAt
  rw [h, Option.bind_some, haddress]
  rfl

/-! ### The seeds of a run -/

/-- The leader of a commit was elected with the seed that the commits before it left.
Kind: D -/
def ElectedAfter (sha256 : List UInt8 → Bytes 32) (set : ValidatorSet) (seed : Bytes 32)
    (before : List CommitResult) (commit : CommitResult) : Prop :=
  electLeader sha256 set commit.round
    (seedAfter sha256 seed (before.map CommitResult.anchor)) = .ok (some commit.leader)

/-- A node whose commits were elected one after the other.
Kind: D -/
structure Elected (sha256 : List UInt8 → Bytes 32) (set : ValidatorSet) (seed : Bytes 32)
    (made : List CommitResult) (node : ConsensusNode) : Prop where
  set_eq : node.detector.validatorSet = set
  seed_eq : node.detector.seed = seedAfter sha256 seed (made.map CommitResult.anchor)
  growing : Growing (ElectedAfter sha256 set seed) made

variable {sha256 : List UInt8 → Bytes 32} {set : ValidatorSet} {seed : Bytes 32}

/-- A commit keeps the record of elections: its leader was elected with the seed after the anchors
before it. Kind: L -/
theorem Elected.commit {made : List CommitResult} {dag : DagStore} {d : CommitDetector}
    (h : Elected sha256 set seed made ⟨dag, d⟩) {result : CommitResult}
    (hcheck : d.checkCommit sha256 dag (d.lastCommitted + 1) = .ok (some result)) :
    Elected sha256 set seed (made ++ [result])
      ⟨dag, d.confirmCommit sha256 result.round result.anchorId⟩ := by
  obtain ⟨hround, -, hleader, -⟩ := CommitDetector.checkCommit_eq_some hcheck
  have hset : d.validatorSet = set := h.set_eq
  have hseed : d.seed = seedAfter sha256 seed (made.map CommitResult.anchor) := h.seed_eq
  rw [CommitDetector.confirmCommit_of_checkCommit hcheck]
  refine ⟨hset, ?_, h.growing.concat ?_⟩
  · simp [seedAfter, CommitResult.anchor]
  · unfold ElectedAfter
    rw [← hset, ← hseed, hround]
    exact hleader

/-- **Every commit of a run was elected with the seed of the commit before it.** Kind: P -/
theorem elected_runNode (actions : List Action) :
    Growing (ElectedAfter sha256 set seed) (runNode sha256 actions (.start set seed)) := by
  have hstart : Elected sha256 set seed [] (.start set seed) := ⟨rfl, rfl, .nil⟩
  have hrun : ∃ node, Elected sha256 set seed
      ([] ++ runNode sha256 actions (.start set seed)) node :=
    runNode_induction (P := Elected sha256 set seed)
      (fun h _ => ⟨h.set_eq, h.seed_eq, h.growing⟩) (fun h hcheck => h.commit hcheck) hstart
  obtain ⟨node, h⟩ := hrun
  exact h.growing

/-! ### The account for the fees -/

/-- **When the fees of a commit go to its leader.** The commit is the `i`-th of a run of a detector
with the validators of the node; the seed of its election is that of the commits before it.
Source: `node/node.rs`, `coinbase` in `RytherNode::process_commit`
Kind: P -/
theorem RytherNode.coinbase_is_leader_iff (sha256 : List UInt8 → Bytes 32) (node : RytherNode)
    (actions : List Action) (i : ℕ) (commit : CommitResult)
    (hcommit : (runNode sha256 actions (.start node.validators (.fill 32 0)))[i]? = some commit) :
    let before := (runNode sha256 actions (.start node.validators (.fill 32 0))).take i
    let seed := seedAfter sha256 (.fill 32 0) (before.map CommitResult.anchor)
    (∃ address, node.coinbaseFor sha256 commit.round = .ok address ∧
        node.validators.getAddress commit.leader = some address) ↔
      addressAt node.validators (stakeDraw sha256 node.validators commit.round (.fill 32 0)) =
        addressAt node.validators (stakeDraw sha256 node.validators commit.round seed) := by
  intro before seed
  have hrun : Growing (ElectedAfter sha256 node.validators (.fill 32 0))
      (runNode sha256 actions (.start node.validators (.fill 32 0))) := elected_runNode actions
  have helected := hrun.next_take hcommit
  obtain ⟨hempty, htotal, hholder⟩ := electLeader_eq_some helected
  have hcoinbase : node.coinbaseFor sha256 commit.round =
      .ok (addressAt node.validators
        (stakeDraw sha256 node.validators commit.round (.fill 32 0))) := by
    unfold coinbaseFor
    rw [if_neg (by rw [hempty]; exact Bool.false_ne_true), electLeader_eq hempty htotal]
    rfl
  rw [hcoinbase, getAddress_of_holderOf hholder]
  constructor
  · rintro ⟨address, hpaid, hleader⟩
    exact (Except.ok.inj hpaid).trans (Option.some.inj hleader).symm
  · intro heq
    exact ⟨_, rfl, congrArg some heq.symm⟩

/-! ### Three rounds of the sample network -/

/-- The digests of SHA-256 for three rounds: the ids of the events, the seeds after the first two
anchors, the elections of the detector, and that of round 2 with the zero seed.
Kind: D -/
def threeRoundsSha256 : List UInt8 → Bytes 32 :=
  tableHash
    [([1, 1], 71379901088232975507798798260651998586478967735210676092014082612906009798578),
      ([2, 1], 17131035866498858431256477057707904204956020817456185383129974919648822694560),
      ([3, 1], 46661195972544627040105238276913415440590179569086896199269013123043307314684),
      ([1, 2], 72893829273468228809779896945482732896068609005696529242450300490286242345506),
      ([2, 2], 36552471161645068118095505495292026845668113086630548508283667123465643719342),
      ([3, 2], 96304206242732258081864055310962121976569737654897228264769638628762545782983),
      ([1, 3], 90285133963152747558892252866923639110630720360084519069396011565236760890265),
      ([2, 3], 107905332293768723989773363849034891425788068386916574778741276962311738287027),
      ([3, 3], 60760264039984101591417614852188150012219599081988321693424864499398048812770),
      (beBytes 32 17131035866498858431256477057707904204956020817456185383129974919648822694560,
        19278800793620232615037718001271085519545216477531917663778237508649590821244),
      (beBytes 32 72893829273468228809779896945482732896068609005696529242450300490286242345506,
        53665183060237384633179541993752747579988661060173466276776530257581298719707),
      (leBytes 8 1 ++ List.replicate 32 0,
        82574213155787300355150431516268589834400855217640395049567668732314333502434),
      (leBytes 8 2 ++
          beBytes 32 19278800793620232615037718001271085519545216477531917663778237508649590821244,
        35751768124928272392357182588634792463439965606367097762034337166664222946414),
      (leBytes 8 2 ++ List.replicate 32 0,
        52851203617364566923307251148005033920663291782548236261190737826721324139147),
      (leBytes 8 3 ++
          beBytes 32 53665183060237384633179541993752747579988661060173466276776530257581298719707,
        113535682788345030903728946678345173355171199829545649478364289719046248548347)]

/-- Three of four validators, with an account each, deliver three rounds. Kind: D -/
def threeRounds : List Action :=
  let round : UInt64 → List EventId → List DagEvent := fun r parents =>
    [1, 2, 3].map fun id => makeEvent threeRoundsSha256 id r parents
  let ids : UInt64 → List EventId := fun r => (round r []).map (·.id)
  (round 1 [] ++ round 2 (ids 1) ++ round 3 (ids 2)).map Action.insert ++ [.tryAdvance]

/-- A node with four validators, each with an account of its own. Kind: D -/
def accountsNode : RytherNode where
  dag := .new
  validators := .fromValidators ([1, 2, 3, 4].map fun id => (makeValidator id, 100, makeAddress id))
  executor := ⟨3, ⟨∅⟩⟩
  stateDb := .new

/-- The first commit of the three rounds is elected with the zero seed, and its fees go to its
leader. Kind: L -/
theorem RytherNode.coinbase_is_leader_first :
    ∃ commit, (runNode threeRoundsSha256 threeRounds
        (.start accountsNode.validators (.fill 32 0)))[0]? = some commit ∧
      ∃ address, accountsNode.coinbaseFor threeRoundsSha256 commit.round = .ok address ∧
        accountsNode.validators.getAddress commit.leader = some address := by
  have hfirst : (runNode threeRoundsSha256 threeRounds
      (.start accountsNode.validators (.fill 32 0)))[0]? =
      some ⟨1, (makeEvent threeRoundsSha256 2 1 []).id, makeValidator 2, 2⟩ := by decide +kernel
  exact ⟨_, hfirst, (coinbase_is_leader_iff threeRoundsSha256 accountsNode threeRounds 0 _
    hfirst).mpr rfl⟩

/-- **Fees miss the leader.** Round 2 of the three rounds is led by validator 1, and validator 2
gets the fees. Kind: P -/
theorem RytherNode.fees_miss_the_leader :
    (runNode threeRoundsSha256 threeRounds (.start accountsNode.validators (.fill 32 0)))[1]? =
        some ⟨2, (makeEvent threeRoundsSha256 1 2 []).id, makeValidator 1, 3⟩ ∧
      accountsNode.validators.getAddress (makeValidator 1) = some (makeAddress 1) ∧
      accountsNode.coinbaseFor threeRoundsSha256 2 = .ok (makeAddress 2) ∧
      makeAddress 1 ≠ makeAddress 2 := by
  decide +kernel

end Ryther
