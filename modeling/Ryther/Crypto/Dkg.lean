import Ryther.Crypto.Threshold

/-!
# Distributed key generation

The sessions of `src/crypto/threshold.rs` in which validators generate a key together, and a network
of them. A validator draws a polynomial and sends every validator its value at that validator's
index; a validator that holds enough of these shares adds them up. The drawn coefficients are
parameters.

* `DkgSession` — one validator's session, as in the source.
* `DkgNetwork.step`, `DkgNetwork.run` — contributions, deliveries in any order, and calls of
  `finalize`, whose results are recorded together with the senders of the shares held then.
* `DkgNetwork.session_step` — what a step does to a session.
* `DkgNetwork.lookup_received_after` — a validator holds exactly the shares that were delivered to
  it after their sender's contribution.
* `DkgNetwork.finalize_after` — once it holds enough, `finalize` returns the value of the senders'
  joint polynomial at its index.
-/

namespace Ryther

open Lib ShamirSecretSharing

/-! ### Sessions -/

/-- One run of the key generation at one validator.
Source: `crypto/threshold.rs`, `DkgSession`
Kind: D -/
structure DkgSession where
  id : Bytes 32
  params : ThresholdParams
  validators : List ValidatorId
  commitments : HashMap ValidatorId (List (Bytes 32))
  receivedShares : HashMap ValidatorId SecretShare
  ourPolynomial : Option (List (Bytes 32))

namespace DkgSession

/-- A session that has received nothing and has not drawn its polynomial.
Source: `crypto/threshold.rs`, `DkgSession::new`
Kind: D -/
def new (sessionId : Bytes 32) (validators : List ValidatorId) : DkgSession where
  id := sessionId
  params := ThresholdParams.bftSafe (UInt32.ofNat validators.length)
  validators := validators
  commitments := ∅
  receivedShares := ∅
  ourPolynomial := none

/-- `drawn i` is the `i`-th draw.
Source: `crypto/threshold.rs`, `DkgSession::generate_contribution`
Kind: D -/
def generateContribution (sha256 : List UInt8 → Bytes 32) (drawn : ℕ → Bytes 32)
    (session : DkgSession) : List (Bytes 32) × DkgSession :=
  let polynomial := (List.range session.params.threshold.toNat).map drawn
  (polynomial.map fun coef => sha256 coef.toList,
    { session with ourPolynomial := some polynomial })

/-- The commitments of a sender replace its earlier ones; nothing is checked.
Source: `crypto/threshold.rs`, `DkgSession::receive_commitment`
Kind: D -/
def receiveCommitment (session : DkgSession) (sender : ValidatorId)
    (commitments : List (Bytes 32)) : DkgSession :=
  { session with commitments := session.commitments.insert sender commitments }

/-- The values of the own polynomial at the validators' indices, which start at 1.
Source: `crypto/threshold.rs`, `DkgSession::generate_shares`
Kind: D -/
def generateShares (session : DkgSession) : HashMap ValidatorId SecretShare :=
  match session.ourPolynomial with
  | none => ∅
  | some polynomial =>
      session.validators.zipIdx.foldl
        (fun shares entry =>
          let x := UInt32.ofNat (entry.2 + 1)
          shares.insert entry.1 ⟨x, evaluatePolynomial polynomial x, entry.1⟩)
        ∅

/-- The commitments of the sender are looked up and compared with nothing.
Source: `crypto/threshold.rs`, `DkgSession::receive_share`
Kind: D -/
def receiveShare (session : DkgSession) (sender : ValidatorId) (share : SecretShare) :
    Bool × DkgSession :=
  (true, { session with receivedShares := session.receivedShares.insert sender share })

/-- There are at least as many shares as the threshold.
Source: `crypto/threshold.rs`, `DkgSession::is_complete`
Kind: D -/
def isComplete (session : DkgSession) : Bool :=
  session.receivedShares.entries.length ≥ session.params.threshold.toNat

/-- The loop over the shares: their sum, and the index of the last one.
Source: `crypto/threshold.rs`, the loop of `DkgSession::finalize`
Kind: D -/
def combine (shares : List SecretShare) : Bytes 32 × UInt32 :=
  shares.foldl (fun acc share => (acc.1.xor share.value, share.index)) (.fill 32 0, 1)

/-- `validators.get(index as usize - 1)`; the difference wraps for index 0, and nothing is there.
Kind: D -/
def holderAt (validators : List ValidatorId) (index : UInt32) : Option ValidatorId :=
  if index = 0 then none else validators[index.toNat - 1]?

/-- The sum of the received shares, under the holder of its index.
Source: `crypto/threshold.rs`, `DkgSession::finalize`
Kind: D -/
def finalize (session : DkgSession) : Option SecretShare :=
  if session.isComplete then
    let combined := combine (session.receivedShares.entries.map fun entry => entry.2)
    (holderAt session.validators combined.2).map fun holder => ⟨combined.2, combined.1, holder⟩
  else none

/-! ### One session -/

/-- The loop adds up the values. Kind: L -/
theorem fst_foldl_combine (shares : List SecretShare) (acc : Bytes 32 × UInt32) :
    (shares.foldl (fun acc share => (acc.1.xor share.value, share.index)) acc).1 =
      acc.1.xor (Bytes.xorAll (shares.map SecretShare.value)) := by
  induction shares generalizing acc with
  | nil => rw [List.foldl_nil, List.map_nil, Bytes.xorAll_nil, Bytes.xor_zero]
  | cons share shares ih =>
      rw [List.foldl_cons, ih, List.map_cons, Bytes.xorAll_cons, Bytes.xor_assoc]

/-- What the loop gives for shares of one index. Kind: L -/
theorem combine_eq {shares : List SecretShare} {x : UInt32} (hne : shares ≠ [])
    (hindex : ∀ share ∈ shares, share.index = x) :
    combine shares = (Bytes.xorAll (shares.map SecretShare.value), x) := by
  apply Prod.ext
  · rw [combine, fst_foldl_combine, Bytes.zero_xor]
  · obtain ⟨before, last, rfl⟩ := (List.eq_nil_or_concat' shares).resolve_left hne
    rw [combine, List.foldl_append, List.foldl_cons, List.foldl_nil]
    exact hindex last (by simp)

end DkgSession

/-! ### A network of sessions -/

/-- What `finalize` returned to a validator, and whose shares it held then.
Kind: D -/
structure DkgResult where
  validator : ValidatorId
  senders : List ValidatorId
  share : SecretShare

/-- The sessions of all validators and the results so far.
Kind: D -/
structure DkgNetwork where
  sessions : ValidatorId → DkgSession
  results : List DkgResult

/-- What can happen next. A message that is not delivered yet stays on its way.
Kind: D -/
inductive DkgStep where
  | contribute (p : ValidatorId)
  | deliverCommitments (p q : ValidatorId)
  | deliverShare (p q : ValidatorId)
  | finalize (q : ValidatorId)
  deriving DecidableEq

/-- The validators that take part in a step.
Kind: D -/
def DkgStep.parties : DkgStep → List ValidatorId
  | .contribute p => [p]
  | .deliverCommitments p q => [p, q]
  | .deliverShare p q => [p, q]
  | .finalize q => [q]

/-- All steps are steps of validators.
Kind: D -/
def Among (validators : List ValidatorId) (steps : List DkgStep) : Prop :=
  ∀ step ∈ steps, ∀ p ∈ step.parties, p ∈ validators

instance (validators : List ValidatorId) (steps : List DkgStep) :
    Decidable (Among validators steps) :=
  inferInstanceAs (Decidable (∀ step ∈ steps, ∀ p ∈ step.parties, p ∈ validators))

/-- The steps of the beginning of a run are among the same validators. Kind: L -/
theorem Among.of_prefix {validators : List ValidatorId} {before steps : List DkgStep}
    (hsteps : Among validators steps) (hstart : before <+: steps) : Among validators before :=
  fun s hs => hsteps s (hstart.subset hs)

namespace DkgNetwork

/-- Every validator has a new session, and no result has been returned. Kind: D -/
def init (sessionId : Bytes 32) (validators : List ValidatorId) : DkgNetwork where
  sessions := fun _ => DkgSession.new sessionId validators
  results := []

variable (sha256 : List UInt8 → Bytes 32) (drawn : ValidatorId → ℕ → Bytes 32)

/-- One step; `drawn p` are the coefficients that validator `p` draws, so a share is the same
whenever it is generated.
Kind: D -/
def step (net : DkgNetwork) : DkgStep → DkgNetwork
  | .contribute p =>
      { net with
        sessions := Function.update net.sessions p
          ((net.sessions p).generateContribution sha256 (drawn p)).2 }
  | .deliverCommitments p q =>
      match (net.sessions p).ourPolynomial with
      | some polynomial =>
          { net with
            sessions := Function.update net.sessions q
              ((net.sessions q).receiveCommitment p
                (polynomial.map fun coef => sha256 coef.toList)) }
      | none => net
  | .deliverShare p q =>
      match (net.sessions p).generateShares.lookup q with
      | some share =>
          { net with
            sessions := Function.update net.sessions q ((net.sessions q).receiveShare p share).2 }
      | none => net
  | .finalize q =>
      { net with
        results := net.results ++ ((net.sessions q).finalize.map fun share =>
          ⟨q, (net.sessions q).receivedShares.keys, share⟩).toList }

/-- The steps in order.
Kind: D -/
def run (net : DkgNetwork) (steps : List DkgStep) : DkgNetwork :=
  steps.foldl (step sha256 drawn) net

end DkgNetwork

/-! ### What was drawn -/

section Shares

variable (validators : List ValidatorId) (drawn : ValidatorId → ℕ → Bytes 32)

/-- The number of shares to wait for, and of coefficients to draw; the product in it wraps.
Kind: D -/
def keygenThreshold : ℕ :=
  (ThresholdParams.bftSafe (UInt32.ofNat validators.length)).threshold.toNat

/-- The threshold in terms of the number of validators; the product wraps as a `u32`. Kind: L -/
theorem keygenThreshold_eq :
    keygenThreshold validators = validators.length * 2 % 2 ^ 32 / 3 + 1 := by
  rw [keygenThreshold, ThresholdParams.bftSafe, UInt32.toNat_add, UInt32.toNat_div,
    UInt32.toNat_mul, UInt32.toNat_ofNat']
  change (validators.length % 2 ^ 32 * 2 % 2 ^ 32 / 3 + 1) % 2 ^ 32 = _
  rw [Nat.mod_mul_mod]
  apply Nat.mod_eq_of_lt
  have hlt : validators.length * 2 % 2 ^ 32 < 2 ^ 32 := Nat.mod_lt _ (by decide)
  omega

/-- A key needs at least one share. Kind: L -/
theorem keygenThreshold_pos : 0 < keygenThreshold validators := by
  rw [keygenThreshold_eq]
  exact Nat.succ_pos _

/-- The polynomial that validator `p` draws.
Kind: D -/
def polynomialOf (p : ValidatorId) : List (Bytes 32) :=
  (List.range (keygenThreshold validators)).map (drawn p)

/-- The index of a validator.
Kind: D -/
def indexOf (q : ValidatorId) : UInt32 := UInt32.ofNat (validators.idxOf q + 1)

/-- The share of `p` for `q`.
Kind: D -/
def shareFor (p q : ValidatorId) : SecretShare :=
  ⟨indexOf validators q,
    evaluatePolynomial (polynomialOf validators drawn p) (indexOf validators q), q⟩

/-- The sum of the polynomials of some validators.
Kind: D -/
def jointPolynomial (participants : List ValidatorId) : List (Bytes 32) :=
  (List.range (keygenThreshold validators)).map fun k =>
    Bytes.xorAll (participants.map fun p => drawn p k)

/-- The shares of the participants add up to the value of their joint polynomial. Kind: L -/
theorem evaluatePolynomial_jointPolynomial (participants : List ValidatorId) (q : ValidatorId) :
    evaluatePolynomial (jointPolynomial validators drawn participants) (indexOf validators q) =
      Bytes.xorAll (participants.map fun p => (shareFor validators drawn p q).value) :=
  evaluatePolynomial_sum drawn participants _ _

/-- A shared set of participants has one joint polynomial. Kind: L -/
theorem jointPolynomial_perm {ps ps' : List ValidatorId} (h : ps.Perm ps') :
    jointPolynomial validators drawn ps = jointPolynomial validators drawn ps' :=
  List.map_congr_left fun _ _ => Bytes.xorAll_perm (h.map _)

end Shares

/-! ### Shares that are sent -/

/-- A session that has drawn its polynomial makes one share per validator, the value of the
polynomial at the validator's index. Kind: L -/
theorem DkgSession.lookup_generateShares {session : DkgSession} {polynomial : List (Bytes 32)}
    (hnodup : session.validators.Nodup) (hpolynomial : session.ourPolynomial = some polynomial)
    (q : ValidatorId) (share : SecretShare) :
    session.generateShares.lookup q = some share ↔
      q ∈ session.validators ∧ share = ⟨indexOf session.validators q,
        evaluatePolynomial polynomial (indexOf session.validators q), q⟩ := by
  have hentries := entries_foldl_insert Prod.fst
    (fun entry : ValidatorId × ℕ => (⟨UInt32.ofNat (entry.2 + 1),
      evaluatePolynomial polynomial (UInt32.ofNat (entry.2 + 1)), entry.1⟩ : SecretShare))
    session.validators.zipIdx ∅ (by rwa [List.zipIdx_map_fst]) (by simp)
  rw [← Option.mem_def, AList.mem_lookup_iff, generateShares, hpolynomial]
  simp only [hentries, AList.empty_entries, List.append_nil, List.mem_reverse, List.mem_map]
  constructor
  · rintro ⟨⟨r, i⟩, hmem, heq⟩
    obtain ⟨rfl, hshare⟩ := Sigma.mk.inj heq
    have hget : session.validators[i]? = some r := List.mem_zipIdx_iff_getElem?.mp hmem
    have hidx : session.validators.idxOf r = i := by
      obtain ⟨hi, hr⟩ := List.getElem?_eq_some_iff.mp hget
      rw [← hr]
      exact hnodup.idxOf_getElem i hi
    refine ⟨List.mem_of_getElem? hget, ?_⟩
    rw [indexOf, hidx]
    exact (eq_of_heq hshare).symm
  · rintro ⟨hq, rfl⟩
    refine ⟨(q, session.validators.idxOf q), ?_, rfl⟩
    rw [List.mem_zipIdx_iff_getElem?]
    exact List.getElem?_idxOf hq

namespace DkgNetwork

variable (sha256 : List UInt8 → Bytes 32) (drawn : ValidatorId → ℕ → Bytes 32)

/-! ### One step -/

/-- What a step does to a session: a contribution, a message that arrives, or nothing. Kind: L -/
theorem session_step (net : DkgNetwork) (s : DkgStep) (r : ValidatorId) :
    (s = .contribute r ∧ (net.step sha256 drawn s).sessions r =
        ((net.sessions r).generateContribution sha256 (drawn r)).2)
      ∨ (∃ p commitments, s = .deliverCommitments p r ∧
        (net.step sha256 drawn s).sessions r = (net.sessions r).receiveCommitment p commitments)
      ∨ (∃ p share, s = .deliverShare p r ∧ (net.sessions p).generateShares.lookup r = some share ∧
        (net.step sha256 drawn s).sessions r = ((net.sessions r).receiveShare p share).2)
      ∨ ((net.step sha256 drawn s).sessions r = net.sessions r ∧ s ≠ .contribute r ∧
        ∀ p, s = .deliverShare p r → (net.sessions p).generateShares.lookup r = none) := by
  cases s with
  | contribute p =>
      rcases eq_or_ne r p with rfl | hne
      · exact .inl ⟨rfl, Function.update_self ..⟩
      · exact .inr (.inr (.inr ⟨Function.update_of_ne hne .., by simp [hne.symm], by simp⟩))
  | deliverCommitments p q =>
      rcases hp : (net.sessions p).ourPolynomial with _ | polynomial
      · exact .inr (.inr (.inr ⟨by simp only [step, hp], by simp, by simp⟩))
      · rcases eq_or_ne r q with rfl | hne
        · exact .inr (.inl ⟨p, _, rfl, by simp only [step, hp]; exact Function.update_self ..⟩)
        · exact .inr (.inr (.inr ⟨by simp [step, hp, hne], by simp, by simp⟩))
  | deliverShare p q =>
      rcases hshare : (net.sessions p).generateShares.lookup q with _ | share
      · refine .inr (.inr (.inr ⟨by simp only [step, hshare], by simp, ?_⟩))
        rintro p' heq
        cases heq
        exact hshare
      · rcases eq_or_ne r q with rfl | hne
        · refine .inr (.inr (.inl ⟨p, share, rfl, hshare, ?_⟩))
          simp only [step, hshare]
          exact Function.update_self ..
        · exact .inr (.inr (.inr ⟨by simp [step, hshare, hne], by simp, by simp [hne.symm]⟩))
  | finalize q => exact .inr (.inr (.inr ⟨rfl, by simp, by simp⟩))

/-- The parameters of a session never change. Kind: L -/
theorem config_step (net : DkgNetwork) (s : DkgStep) (r : ValidatorId) :
    ((net.step sha256 drawn s).sessions r).validators = (net.sessions r).validators
      ∧ ((net.step sha256 drawn s).sessions r).params = (net.sessions r).params := by
  rcases session_step sha256 drawn net s r with
    ⟨-, h⟩ | ⟨p, commitments, -, h⟩ | ⟨p, share, -, -, h⟩ | ⟨h, -, -⟩
  all_goals
    rw [h]
    exact ⟨rfl, rfl⟩

/-- A polynomial is set by a contribution only. Kind: L -/
theorem ourPolynomial_step (net : DkgNetwork) (s : DkgStep) (r : ValidatorId) :
    ((net.step sha256 drawn s).sessions r).ourPolynomial =
      if s = .contribute r then
        some ((List.range (net.sessions r).params.threshold.toNat).map (drawn r))
      else (net.sessions r).ourPolynomial := by
  rcases session_step sha256 drawn net s r with
    ⟨rfl, h⟩ | ⟨p, commitments, rfl, h⟩ | ⟨p, share, rfl, -, h⟩ | ⟨h, hne, -⟩
  · rw [h, if_pos rfl]
    rfl
  · rw [h, if_neg (by simp)]
    rfl
  · rw [h, if_neg (by simp)]
    rfl
  · rw [h, if_neg hne]

/-- A share is received by its delivery only, and only if it was generated. Kind: L -/
theorem lookup_received_step (net : DkgNetwork) (s : DkgStep) (p q : ValidatorId) :
    ((net.step sha256 drawn s).sessions q).receivedShares.lookup p =
      if s = .deliverShare p q then
        ((net.sessions p).generateShares.lookup q).or ((net.sessions q).receivedShares.lookup p)
      else (net.sessions q).receivedShares.lookup p := by
  rcases session_step sha256 drawn net s q with
    ⟨rfl, h⟩ | ⟨r, commitments, rfl, h⟩ | ⟨r, share, rfl, hshare, h⟩ | ⟨h, -, hnone⟩
  · rw [h, if_neg (by simp)]
    rfl
  · rw [h, if_neg (by simp)]
    rfl
  · rw [h]
    change ((net.sessions q).receivedShares.insert r share).lookup p = _
    rcases eq_or_ne p r with rfl | hne
    · rw [if_pos rfl, hshare, AList.lookup_insert, Option.some_or]
    · rw [if_neg (by simp [hne.symm]), AList.lookup_insert_ne hne]
  · rw [h]
    split_ifs with heq
    · rw [hnone p heq, Option.none_or]
    · rfl

/-! ### Runs -/

variable (sessionId : Bytes 32) (validators : List ValidatorId)

/-- The network after some steps from its start.
Kind: D -/
def after (steps : List DkgStep) : DkgNetwork := (init sessionId validators).run sha256 drawn steps

/-- The network after one more step. Kind: L -/
theorem after_concat (steps : List DkgStep) (s : DkgStep) :
    after sha256 drawn sessionId validators (steps ++ [s]) =
      (after sha256 drawn sessionId validators steps).step sha256 drawn s := by
  rw [after, run, List.foldl_append]
  rfl

/-- Every session is one of the given validators. Kind: L -/
theorem config_after (steps : List DkgStep) (r : ValidatorId) :
    ((after sha256 drawn sessionId validators steps).sessions r).validators = validators
      ∧ ((after sha256 drawn sessionId validators steps).sessions r).params =
        ThresholdParams.bftSafe (UInt32.ofNat validators.length) := by
  induction steps using List.reverseRecOn with
  | nil => exact ⟨rfl, rfl⟩
  | append_singleton steps s ih =>
      obtain ⟨hvalidators, hparams⟩ :=
        config_step sha256 drawn (after sha256 drawn sessionId validators steps) s r
      rw [after_concat, hvalidators, hparams]
      exact ih

/-- Who contributed has its polynomial. Kind: L -/
theorem ourPolynomial_after (steps : List DkgStep) (r : ValidatorId) :
    ((after sha256 drawn sessionId validators steps).sessions r).ourPolynomial =
      if .contribute r ∈ steps then some (polynomialOf validators drawn r) else none := by
  induction steps using List.reverseRecOn with
  | nil => rfl
  | append_singleton steps s ih =>
      rw [after_concat, ourPolynomial_step, (config_after ..).2, ih]
      by_cases heq : s = .contribute r
      · rw [if_pos heq, if_pos (by simp [heq])]
        rfl
      · rw [if_neg heq]
        simp only [List.mem_append, List.mem_singleton, Ne.symm heq, or_false]

/-- The shares that can be sent are those of the validators that contributed. Kind: L -/
theorem lookup_generateShares_after (hnodup : validators.Nodup) (steps : List DkgStep)
    (p q : ValidatorId) (share : SecretShare) :
    ((after sha256 drawn sessionId validators steps).sessions p).generateShares.lookup q =
        some share ↔
      .contribute p ∈ steps ∧ q ∈ validators ∧ share = shareFor validators drawn p q := by
  have hvalidators := (config_after sha256 drawn sessionId validators steps p).1
  have hpolynomial := ourPolynomial_after sha256 drawn sessionId validators steps p
  split_ifs at hpolynomial with hcontributed
  · rw [DkgSession.lookup_generateShares (by rwa [hvalidators]) hpolynomial, hvalidators]
    exact (and_iff_right hcontributed).symm
  · simp [DkgSession.generateShares, hpolynomial, hcontributed]

/-- The share of `p` was delivered to `q`, after `p` had contributed.
Kind: D -/
def Delivered (steps : List DkgStep) (p q : ValidatorId) : Prop :=
  ∃ before, before ++ [.deliverShare p q] <+: steps ∧ .contribute p ∈ before

/-- A share has been delivered by the last step, if it was contributed before, or earlier. Kind: L
-/
theorem delivered_concat (steps : List DkgStep) (s : DkgStep) (p q : ValidatorId) :
    Delivered (steps ++ [s]) p q ↔
      (s = .deliverShare p q ∧ .contribute p ∈ steps) ∨ Delivered steps p q := by
  constructor
  · rintro ⟨before, hstart, hcontributed⟩
    rcases List.prefix_concat_iff.mp hstart with heq | hstart
    · obtain ⟨rfl, hs⟩ := List.append_inj' heq rfl
      exact .inl ⟨(List.singleton_inj.mp hs).symm, hcontributed⟩
    · exact .inr ⟨before, hstart, hcontributed⟩
  · rintro (⟨rfl, hcontributed⟩ | ⟨before, hstart, hcontributed⟩)
    · exact ⟨steps, List.prefix_rfl, hcontributed⟩
    · exact ⟨before, hstart.trans (List.prefix_append _ _), hcontributed⟩

/-- **A validator holds exactly the shares delivered to it.** Kind: P -/
theorem lookup_received_after (hnodup : validators.Nodup) {q : ValidatorId} (hq : q ∈ validators)
    (steps : List DkgStep) (p : ValidatorId) (share : SecretShare) :
    ((after sha256 drawn sessionId validators steps).sessions q).receivedShares.lookup p =
        some share ↔
      Delivered steps p q ∧ share = shareFor validators drawn p q := by
  induction steps using List.reverseRecOn with
  | nil =>
      have hnot : ¬ Delivered [] p q := by
        rintro ⟨before, hstart, -⟩
        simp at hstart
      simp [after, run, init, DkgSession.new, hnot]
  | append_singleton steps s ih =>
      rw [after_concat, lookup_received_step, delivered_concat]
      split_ifs with heq
      · by_cases hcontributed : .contribute p ∈ steps
        · -- the share arrives for the first time or again; it is the same share
          have hsent := (lookup_generateShares_after sha256 drawn sessionId validators hnodup steps
            p q _).mpr ⟨hcontributed, hq, rfl⟩
          rw [hsent, Option.some_or]
          simp only [heq, hcontributed, and_self, true_or, true_and, Option.some.injEq]
          exact eq_comm
        · -- nothing was sent yet
          have hsent : ((after sha256 drawn sessionId validators steps).sessions
              p).generateShares.lookup q = none := by
            rw [Option.eq_none_iff_forall_ne_some]
            intro sent hsent
            exact hcontributed ((lookup_generateShares_after _ _ _ _ hnodup ..).mp hsent).1
          rw [hsent, Option.none_or, ih]
          simp only [hcontributed, and_false, false_or]
      · rw [ih]
        simp only [heq, false_and, false_or]

/-- The senders that a validator holds shares of are those whose share was delivered to it. Kind: L
-/
theorem mem_senders_iff (hnodup : validators.Nodup) {q : ValidatorId} (hq : q ∈ validators)
    (steps : List DkgStep) (p : ValidatorId) :
    p ∈ ((after sha256 drawn sessionId validators steps).sessions q).receivedShares.keys ↔
      Delivered steps p q := by
  rw [← AList.mem_keys, ← AList.lookup_isSome, Option.isSome_iff_exists]
  simp only [lookup_received_after sha256 drawn sessionId validators hnodup hq steps p,
    exists_and_left, exists_eq, and_true]

/-- The shares held add up to the value of the joint polynomial of their senders, and all have the
holder's index. Kind: L -/
theorem combine_after (hnodup : validators.Nodup) {q : ValidatorId} (hq : q ∈ validators)
    (steps : List DkgStep) :
    let shares := ((after sha256 drawn sessionId validators steps).sessions q).receivedShares
    shares.keys ≠ [] → DkgSession.combine (shares.entries.map fun entry => entry.2) =
      (evaluatePolynomial (jointPolynomial validators drawn shares.keys) (indexOf validators q),
        indexOf validators q) := by
  intro shares hne
  have hentries : ∀ entry ∈ shares.entries, entry.2 = shareFor validators drawn entry.1 q := by
    intro entry hentry
    have hlookup := Option.mem_def.mp (AList.mem_lookup_iff.mpr hentry)
    exact ((lookup_received_after sha256 drawn sessionId validators hnodup hq ..).mp hlookup).2
  have hvalues : (shares.entries.map fun entry => entry.2) =
      shares.keys.map fun p => shareFor validators drawn p q := by
    rw [AList.keys, List.keys, List.map_map]
    exact List.map_congr_left hentries
  have hindex : ∀ share ∈ shares.keys.map fun p => shareFor validators drawn p q,
      share.index = indexOf validators q := by
    intro share hshare
    obtain ⟨p, -, rfl⟩ := List.mem_map.mp hshare
    rfl
  rw [hvalues, DkgSession.combine_eq (by simpa using hne) hindex, List.map_map,
    evaluatePolynomial_jointPolynomial]
  rfl

/-- **What `finalize` returns**: the value of the joint polynomial of the senders, once there are
enough. Kind: P -/
theorem finalize_after (hnodup : validators.Nodup) {q : ValidatorId} (hq : q ∈ validators)
    (steps : List DkgStep) :
    let session := (after sha256 drawn sessionId validators steps).sessions q
    session.finalize =
      if keygenThreshold validators ≤ session.receivedShares.keys.length then
        (DkgSession.holderAt validators (indexOf validators q)).map fun holder =>
          ⟨indexOf validators q,
            evaluatePolynomial (jointPolynomial validators drawn session.receivedShares.keys)
              (indexOf validators q), holder⟩
      else none := by
  intro session
  obtain ⟨hvalidators, hparams⟩ := config_after sha256 drawn sessionId validators steps q
  have hlength : session.receivedShares.keys.length = session.receivedShares.entries.length :=
    List.length_map _
  have hcomplete : session.isComplete = true
      ↔ keygenThreshold validators ≤ session.receivedShares.keys.length := by
    rw [DkgSession.isComplete, decide_eq_true_iff, hlength, hparams]
    rfl
  by_cases hle : keygenThreshold validators ≤ session.receivedShares.keys.length
  · have hne : session.receivedShares.keys ≠ [] := by
      apply List.ne_nil_of_length_pos
      exact (keygenThreshold_pos validators).trans_le hle
    rw [DkgSession.finalize, if_pos (hcomplete.mpr hle), if_pos hle]
    simp only [session, combine_after sha256 drawn sessionId validators hnodup hq steps hne,
      hvalidators]
  · rw [DkgSession.finalize, if_neg fun h => hle (hcomplete.mp h), if_neg hle]

/-- A result is recorded by a call of `finalize` only. Kind: L -/
theorem mem_results_step (net : DkgNetwork) (s : DkgStep) (r : DkgResult) :
    r ∈ (net.step sha256 drawn s).results ↔ r ∈ net.results ∨
      ∃ q share, s = .finalize q ∧ (net.sessions q).finalize = some share
        ∧ r = ⟨q, (net.sessions q).receivedShares.keys, share⟩ := by
  cases s with
  | contribute p => simp [step]
  | deliverCommitments p q =>
      rcases hp : (net.sessions p).ourPolynomial with _ | polynomial
      · simp [step, hp]
      · simp [step, hp]
  | deliverShare p q =>
      rcases hshare : (net.sessions p).generateShares.lookup q with _ | share
      · simp [step, hshare]
      · simp [step, hshare]
  | finalize q =>
      rcases hshare : (net.sessions q).finalize with _ | share
      · simp [step, hshare]
      · simp [step, hshare]

/-- The results are those of the calls of `finalize` on the way. Kind: L -/
theorem mem_results_after (steps : List DkgStep) (r : DkgResult) :
    r ∈ (after sha256 drawn sessionId validators steps).results ↔
      ∃ before q share, before ++ [.finalize q] <+: steps
        ∧ ((after sha256 drawn sessionId validators before).sessions q).finalize = some share
        ∧ r = ⟨q, ((after sha256 drawn sessionId validators before).sessions
          q).receivedShares.keys, share⟩ := by
  induction steps using List.reverseRecOn with
  | nil =>
      constructor
      · intro hr
        cases hr
      · rintro ⟨before, q, share, hstart, -⟩
        simp at hstart
  | append_singleton steps s ih =>
      rw [after_concat, mem_results_step, ih]
      constructor
      · rintro (⟨before, q, share, hstart, hr⟩ | ⟨q, share, rfl, hr⟩)
        · exact ⟨before, q, share, hstart.trans (List.prefix_append _ _), hr⟩
        · exact ⟨steps, q, share, List.prefix_rfl, hr⟩
      · rintro ⟨before, q, share, hstart, hr⟩
        rcases List.prefix_concat_iff.mp hstart with heq | hstart
        · obtain ⟨rfl, hs⟩ := List.append_inj' heq rfl
          exact .inr ⟨q, share, (List.singleton_inj.mp hs).symm, hr⟩
        · exact .inl ⟨before, q, share, hstart, hr⟩

end DkgNetwork

end Ryther
