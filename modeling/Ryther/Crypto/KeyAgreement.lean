import Ryther.Crypto.Dkg

/-!
# Agreement of a key generation

Whether validators that finish a key generation of `src/crypto/threshold.rs` hold shares of one key.

* `DkgNetwork.Recorded` — every result is the joint polynomial of its senders at the index of its
  validator.
* `DkgNetwork.Agreement` — the validators with a result added up the same contributions, and each
  has its own index and holder.
* `DkgNetwork.keygen_agreement_iff` — every run ends in agreement exactly if there are at most three
  validators, where all shares are waited for. From four on the threshold is below the number of
  validators, and two of them can finish with shares of different senders. A run in which all
  shares are waited for ends in agreement for any number of validators that has indices.
-/

namespace Ryther

open Lib ShamirSecretSharing

namespace DkgNetwork

variable {sha256 : List UInt8 → Bytes 32} {drawn : ValidatorId → ℕ → Bytes 32}
  {sessionId : Bytes 32} {validators : List ValidatorId}

/-! ### Results of a run -/

/-- Shares come from validators. Kind: L -/
theorem Delivered.mem_validators {steps : List DkgStep} {p q : ValidatorId}
    (hdelivered : Delivered steps p q) (hsteps : Among validators steps) : p ∈ validators := by
  obtain ⟨before, hstart, hcontributed⟩ := hdelivered
  have hmem : DkgStep.contribute p ∈ steps :=
    hstart.subset (List.mem_append_left _ hcontributed)
  exact hsteps _ hmem p List.mem_cons_self

/-- What a recorded result is.
Kind: D -/
structure Recorded (validators : List ValidatorId) (drawn : ValidatorId → ℕ → Bytes 32)
    (r : DkgResult) : Prop where
  mem : r.validator ∈ validators
  nodup : r.senders.Nodup
  senders : ∀ p ∈ r.senders, p ∈ validators
  enough : keygenThreshold validators ≤ r.senders.length
  index : r.share.index = indexOf validators r.validator
  value : r.share.value = evaluatePolynomial (jointPolynomial validators drawn r.senders)
    (indexOf validators r.validator)
  holder : DkgSession.holderAt validators (indexOf validators r.validator) = some r.share.holder

/-- **Every result of a run is the joint polynomial of its senders at the validator's index.**
Kind: P -/
theorem recorded_of_mem_results (hnodup : validators.Nodup) {steps : List DkgStep}
    (hsteps : Among validators steps) {r : DkgResult}
    (hr : r ∈ (after sha256 drawn sessionId validators steps).results) :
    Recorded validators drawn r := by
  obtain ⟨before, q, share, hstart, hfinalize, rfl⟩ := (mem_results_after ..).mp hr
  have hq : q ∈ validators := by
    have hmem : DkgStep.finalize q ∈ steps := hstart.subset (by simp)
    exact hsteps _ hmem q List.mem_cons_self
  have hbefore : Among validators before :=
    hsteps.of_prefix ((List.prefix_append _ _).trans hstart)
  rw [finalize_after _ _ _ _ hnodup hq] at hfinalize
  split_ifs at hfinalize with henough
  obtain ⟨holder, hholder, rfl⟩ := Option.map_eq_some_iff.mp hfinalize
  refine ⟨hq, AList.keys_nodup _, ?_, henough, rfl, rfl, hholder⟩
  intro p hp
  exact ((mem_senders_iff _ _ _ _ hnodup hq _ _).mp hp).mem_validators hbefore

/-- A validator whose index does not wrap is found at it. Kind: L -/
theorem holderAt_indexOf {q : ValidatorId} (hq : q ∈ validators)
    (hlt : validators.idxOf q + 1 < 2 ^ 32) :
    (indexOf validators q).toNat = validators.idxOf q + 1
      ∧ DkgSession.holderAt validators (indexOf validators q) = some q := by
  have hindex : (indexOf validators q).toNat = validators.idxOf q + 1 := by
    rw [indexOf, UInt32.toNat_ofNat']
    exact Nat.mod_eq_of_lt hlt
  refine ⟨hindex, ?_⟩
  have hne : indexOf validators q ≠ 0 := by
    intro hzero
    rw [hzero] at hindex
    exact absurd hindex (Nat.succ_ne_zero _).symm
  rw [DkgSession.holderAt, if_neg hne, hindex, Nat.add_sub_cancel, List.getElem?_idxOf hq]

/-! ### Agreement -/

/-- What the validators agree on: each result carries its own validator's index and holder, and any
two validators added up contributions of the same participants, so that both shares lie on the
joint polynomial of these.
Kind: D -/
structure Agreement (validators : List ValidatorId) (drawn : ValidatorId → ℕ → Bytes 32)
    (net : DkgNetwork) : Prop where
  own : ∀ r ∈ net.results, r.share.index.toNat = validators.idxOf r.validator + 1
    ∧ r.share.holder = r.validator
  participants : ∀ r ∈ net.results, ∀ r' ∈ net.results, r.validator ≠ r'.validator →
    ∀ p, p ∈ r.senders ↔ p ∈ r'.senders
  polynomial : ∀ r ∈ net.results, ∀ r' ∈ net.results, r.validator ≠ r'.validator →
    r.share.value = evaluatePolynomial (jointPolynomial validators drawn r.senders) r.share.index
      ∧ r'.share.value =
        evaluatePolynomial (jointPolynomial validators drawn r.senders) r'.share.index

/-- Results with the same senders agree. Kind: L -/
theorem agreement_of_same_senders (hnodup : validators.Nodup) (hlt : validators.length < 2 ^ 32)
    {steps : List DkgStep} (hsteps : Among validators steps)
    (hsame : ∀ r ∈ (after sha256 drawn sessionId validators steps).results,
      ∀ r' ∈ (after sha256 drawn sessionId validators steps).results,
        r.validator ≠ r'.validator → ∀ p, p ∈ r.senders ↔ p ∈ r'.senders) :
    Agreement validators drawn (after sha256 drawn sessionId validators steps) where
  own := by
    intro r hr
    have hrec := recorded_of_mem_results hnodup hsteps hr
    obtain ⟨hindex, hholder⟩ := holderAt_indexOf hrec.mem
      (lt_of_le_of_lt (List.idxOf_lt_length_of_mem hrec.mem) hlt)
    rw [hrec.index]
    exact ⟨hindex, Option.some.inj (hrec.holder.symm.trans hholder)⟩
  participants := hsame
  polynomial := by
    intro r hr r' hr' hne
    have hrec := recorded_of_mem_results hnodup hsteps hr
    have hrec' := recorded_of_mem_results hnodup hsteps hr'
    have hperm : r.senders.Perm r'.senders :=
      (List.perm_ext_iff_of_nodup hrec.nodup hrec'.nodup).mpr (hsame r hr r' hr' hne)
    refine ⟨by rw [hrec.value, hrec.index], ?_⟩
    rw [jointPolynomial_perm validators drawn hperm, hrec'.value, hrec'.index]

/-- If every result was computed with the shares of all validators, they agree. Kind: L -/
theorem agreement_of_all_senders (hnodup : validators.Nodup) (hlt : validators.length < 2 ^ 32)
    {steps : List DkgStep} (hsteps : Among validators steps)
    (hall : ∀ r ∈ (after sha256 drawn sessionId validators steps).results,
      ∀ p ∈ validators, p ∈ r.senders) :
    Agreement validators drawn (after sha256 drawn sessionId validators steps) := by
  apply agreement_of_same_senders hnodup hlt hsteps
  intro r hr r' hr' _ p
  constructor
  · intro hp
    exact hall r' hr' p ((recorded_of_mem_results hnodup hsteps hr).senders p hp)
  · intro hp
    exact hall r hr p ((recorded_of_mem_results hnodup hsteps hr').senders p hp)

/-- Up to three validators all shares are waited for. Kind: L -/
theorem Recorded.all_senders {r : DkgResult} (h : Recorded validators drawn r)
    (hfew : validators.length ≤ 3) : ∀ p ∈ validators, p ∈ r.senders := by
  have henough := h.enough
  rw [keygenThreshold_eq] at henough
  have hlength : validators.length ≤ r.senders.length := by omega
  have hperm : r.senders.Perm validators :=
    (h.nodup.subperm h.senders).perm_of_length_le hlength
  intro p hp
  exact hperm.mem_iff.mpr hp

/-! ### Two keys -/

/-- A share sent after all contributions is delivered. Kind: L -/
theorem delivered_of_mem {contributions messages : List DkgStep} {p q : ValidatorId}
    (hcontributed : .contribute p ∈ contributions) (hmem : .deliverShare p q ∈ messages) :
    Delivered (contributions ++ messages) p q := by
  obtain ⟨earlier, later, rfl⟩ := List.append_of_mem hmem
  refine ⟨contributions ++ earlier, ⟨later, ?_⟩, List.mem_append_left _ hcontributed⟩
  simp

/-- After all contributions, a validator to which enough shares are sent gets a result from these
and from no others. Kind: L -/
theorem exists_result (hnodup : validators.Nodup) {q : ValidatorId} (hq : q ∈ validators)
    (hlt : validators.idxOf q + 1 < 2 ^ 32) {messages steps : List DkgStep}
    (hstart : validators.map .contribute ++ messages ++ [.finalize q] <+: steps)
    {ps : List ValidatorId} (hps : ps.Nodup) (hsub : ∀ p ∈ ps, p ∈ validators)
    (henough : keygenThreshold validators ≤ ps.length)
    (hsent : ∀ p ∈ ps, .deliverShare p q ∈ messages) :
    ∃ r ∈ (after sha256 drawn sessionId validators steps).results, r.validator = q
      ∧ (∀ p ∈ ps, p ∈ r.senders) ∧ ∀ p ∈ r.senders, .deliverShare p q ∈ messages := by
  have hsenders := mem_senders_iff sha256 drawn sessionId validators hnodup hq
    (validators.map .contribute ++ messages)
  have hfinalize := finalize_after sha256 drawn sessionId validators hnodup hq
    (validators.map .contribute ++ messages)
  dsimp only at hfinalize
  have hheld : ∀ p ∈ ps, p ∈ ((after sha256 drawn sessionId validators
      (validators.map .contribute ++ messages)).sessions q).receivedShares.keys := by
    intro p hp
    rw [hsenders]
    exact delivered_of_mem (List.mem_map_of_mem (hsub p hp)) (hsent p hp)
  have hlength := (hps.subperm hheld).length_le
  rw [if_pos (henough.trans hlength), (holderAt_indexOf hq hlt).2] at hfinalize
  refine ⟨_, (mem_results_after ..).mpr ⟨_, q, _, hstart, hfinalize, rfl⟩, rfl, hheld, ?_⟩
  intro p hp
  obtain ⟨before, hbefore, -⟩ := (hsenders p).mp hp
  have hmem : DkgStep.deliverShare p q ∈ validators.map DkgStep.contribute ++ messages :=
    hbefore.subset (by simp)
  rcases List.mem_append.mp hmem with hmem | hmem
  · simp at hmem
  · exact hmem

/-- The first two validators each get as many shares as they wait for: the first those of the
validators from the first on, the second those from the second on.
Kind: D -/
def twoQuorums (first second : ValidatorId) (rest : List ValidatorId) : List DkgStep :=
  let threshold := keygenThreshold (first :: second :: rest)
  ((first :: second :: rest).take threshold).map (.deliverShare · first) ++
    ((second :: rest).take threshold).map (.deliverShare · second)

/-- All validators contribute, and the first two finish with these shares.
Kind: D -/
def twoKeys (first second : ValidatorId) (rest : List ValidatorId) : List DkgStep :=
  (first :: second :: rest).map .contribute ++ twoQuorums first second rest ++ [.finalize first]
    ++ [.finalize second]

/-- All senders and receivers of the run with two keys are validators. Kind: L -/
theorem among_twoKeys (first second : ValidatorId) (rest : List ValidatorId) :
    Among (first :: second :: rest) (twoKeys first second rest) := by
  intro s hs p hp
  simp only [twoKeys, twoQuorums, List.mem_append, List.mem_map, List.mem_singleton] at hs
  rcases hs with ((⟨r, hr, rfl⟩ | ⟨r, hr, rfl⟩ | ⟨r, hr, rfl⟩) | rfl) | rfl
  · rwa [List.mem_singleton.mp hp]
  · rcases List.mem_pair.mp hp with rfl | rfl
    · exact List.mem_of_mem_take hr
    · exact List.mem_cons_self
  · rcases List.mem_pair.mp hp with rfl | rfl
    · exact List.mem_cons_of_mem _ (List.mem_of_mem_take hr)
    · exact List.mem_cons_of_mem _ List.mem_cons_self
  · rw [List.mem_singleton.mp hp]
    exact List.mem_cons_self
  · rw [List.mem_singleton.mp hp]
    exact List.mem_cons_of_mem _ List.mem_cons_self

section

variable {first second : ValidatorId} {rest : List ValidatorId}

/-- The first validator finishes with its own share among others. Kind: L -/
theorem first_result_twoKeys (hnodup : (first :: second :: rest).Nodup)
    (hthreshold : keygenThreshold (first :: second :: rest) ≤ (second :: rest).length) :
    ∃ r ∈ (after sha256 drawn sessionId (first :: second :: rest)
        (twoKeys first second rest)).results, r.validator = first ∧ first ∈ r.senders := by
  obtain ⟨r, hr, hvalidator, hheld, -⟩ := exists_result hnodup List.mem_cons_self (by simp)
    (List.prefix_append _ [.finalize second])
    (hnodup.sublist (List.take_sublist (keygenThreshold (first :: second :: rest)) _))
    (fun p hp => List.mem_of_mem_take hp)
    (by rw [List.length_take, List.length_cons]; omega)
    (fun p hp => List.mem_append_left _ (List.mem_map_of_mem hp))
  refine ⟨r, hr, hvalidator, hheld first ?_⟩
  obtain ⟨k, hk⟩ := Nat.exists_eq_add_of_lt (keygenThreshold_pos (first :: second :: rest))
  rw [hk, Nat.zero_add, List.take_succ_cons]
  exact List.mem_cons_self

/-- The second validator finishes without the share of the first. Kind: L -/
theorem second_result_twoKeys (hnodup : (first :: second :: rest).Nodup)
    (hthreshold : keygenThreshold (first :: second :: rest) ≤ (second :: rest).length) :
    ∃ r ∈ (after sha256 drawn sessionId (first :: second :: rest)
        (twoKeys first second rest)).results, r.validator = second ∧ first ∉ r.senders := by
  obtain ⟨hfirst, htail⟩ := List.nodup_cons.mp hnodup
  have hne : first ≠ second := fun heq => hfirst (heq ▸ List.mem_cons_self)
  have hstart : (first :: second :: rest).map .contribute ++
      (twoQuorums first second rest ++ [.finalize first]) ++ [.finalize second]
        <+: twoKeys first second rest := by
    rw [← List.append_assoc]
    exact List.prefix_rfl
  obtain ⟨r, hr, hvalidator, -, hsent⟩ := exists_result hnodup
    (List.mem_cons_of_mem _ List.mem_cons_self) (by simp [hne]) hstart
    (htail.sublist (List.take_sublist (keygenThreshold (first :: second :: rest)) _))
    (fun p hp => List.mem_cons_of_mem _ (List.mem_of_mem_take hp))
    (by rw [List.length_take]; omega)
    (fun p hp =>
      List.mem_append_left _ (List.mem_append_right _ (List.mem_map_of_mem hp)))
  refine ⟨r, hr, hvalidator, ?_⟩
  intro hmem
  -- its share is sent to the first validator only
  have hsent := hsent first hmem
  simp only [twoQuorums, List.mem_append, List.mem_map, List.mem_singleton,
    DkgStep.deliverShare.injEq, reduceCtorEq, or_false] at hsent
  rcases hsent with ⟨p, -, -, heq⟩ | ⟨p, hp, rfl, -⟩
  · exact hne heq
  · exact hfirst (List.mem_of_mem_take hp)

/-- **If not all shares are waited for, the first two validators can finish with different
senders.** Kind: P -/
theorem not_agreement_twoKeys (hnodup : (first :: second :: rest).Nodup)
    (hthreshold : keygenThreshold (first :: second :: rest) ≤ (second :: rest).length) :
    ¬ Agreement (first :: second :: rest) drawn
      (after sha256 drawn sessionId (first :: second :: rest) (twoKeys first second rest)) := by
  intro hagree
  obtain ⟨r, hr, hvalidator, hmem⟩ := first_result_twoKeys hnodup hthreshold
  obtain ⟨r', hr', hvalidator', hnot⟩ := second_result_twoKeys hnodup hthreshold
  apply hnot
  refine (hagree.participants r hr r' hr' ?_ first).mp hmem
  rw [hvalidator, hvalidator']
  exact fun heq => (List.nodup_cons.mp hnodup).1 (heq ▸ List.mem_cons_self)

end

/-- From four validators on, not all shares are waited for. Kind: L -/
theorem keygenThreshold_lt (hmany : 3 < validators.length) :
    keygenThreshold validators < validators.length := by
  rw [keygenThreshold_eq]
  omega

/-- **When a key generation ends in agreement.** In every run, if and only if there are at most
three validators; and for fewer than `2 ^ 32` validators in every run in which `finalize` returns a
share only to validators that hold the shares of all.
Source: `crypto/threshold.rs`, `DkgSession`
Kind: P -/
theorem keygen_agreement_iff (sha256 : List UInt8 → Bytes 32) (sessionId : Bytes 32)
    (validators : List ValidatorId) (hnodup : validators.Nodup) :
    ((∀ drawn steps, Among validators steps →
        Agreement validators drawn (after sha256 drawn sessionId validators steps))
      ↔ validators.length ≤ 3)
    ∧ (validators.length < 2 ^ 32 → ∀ drawn steps, Among validators steps →
        (∀ r ∈ (after sha256 drawn sessionId validators steps).results,
          ∀ p ∈ validators, p ∈ r.senders) →
        Agreement validators drawn (after sha256 drawn sessionId validators steps)) := by
  refine ⟨⟨?_, ?_⟩, ?_⟩
  · intro hagree
    by_contra hmany
    rw [Nat.not_le] at hmany
    have hlt := keygenThreshold_lt hmany
    rcases validators with _ | ⟨first, _ | ⟨second, rest⟩⟩
    · simp at hmany
    · simp at hmany
    · exact not_agreement_twoKeys hnodup (Nat.le_of_lt_succ hlt)
        (hagree (fun _ _ => .fill 32 0) _ (among_twoKeys first second rest))
  · intro hfew drawn steps hsteps
    apply agreement_of_all_senders hnodup (by omega) hsteps
    intro r hr
    exact (recorded_of_mem_results hnodup hsteps hr).all_senders hfew
  · intro hlt drawn steps hsteps hall
    exact agreement_of_all_senders hnodup hlt hsteps hall

/-- Three validators agree in every run. Kind: P -/
theorem keygen_agreement_three :
    let validators := [1, 2, 3].map makeValidator
    validators.Nodup ∧ ∀ drawn steps, Among validators steps → Agreement validators drawn
      (after (fun _ => .fill 32 0) drawn (.fill 32 0) validators steps) := by
  intro validators
  have hnodup : validators.Nodup := by decide
  exact ⟨hnodup, (keygen_agreement_iff _ _ validators hnodup).1.mpr (by decide)⟩

/-- The coefficients of the example below: a constant polynomial for each validator.
Kind: D -/
def constantDraw (p : ValidatorId) (k : ℕ) : Bytes 32 :=
  .fill 32 (if k = 0 then p.bytes.head else 0)

/-- Four validators: the first finishes with the shares of 1, 2 and 3, the third with those of 2, 3
and 4. No polynomial has both of their shares. Kind: P -/
theorem keygen_four_two_keys :
    let validators := [1, 2, 3, 4].map makeValidator
    let share := fun i j : UInt8 => DkgStep.deliverShare (makeValidator i) (makeValidator j)
    let steps := validators.map .contribute
      ++ [share 1 1, share 2 1, share 3 1, share 2 3, share 3 3, share 4 3]
      ++ [.finalize (makeValidator 1), .finalize (makeValidator 3)]
    let net := after (fun _ => .fill 32 0) constantDraw (.fill 32 0) validators steps
    validators.Nodup ∧ Among validators steps
      ∧ net.results.map DkgResult.share
        = [⟨1, .fill 32 0, makeValidator 1⟩, ⟨3, .fill 32 5, makeValidator 3⟩]
      ∧ (∀ polynomial, ¬ (evaluatePolynomial polynomial 1 = .fill 32 0
        ∧ evaluatePolynomial polynomial 3 = .fill 32 5))
      ∧ ¬ Agreement validators constantDraw net := by
  intro validators share steps net
  have hresults : net.results.map (fun r => (r.validator, r.senders)) =
      [(makeValidator 1, [3, 2, 1].map makeValidator),
        (makeValidator 3, [4, 3, 2].map makeValidator)] := by decide +kernel
  refine ⟨by decide, by decide, by decide +kernel, ?_, ?_⟩
  · rintro polynomial ⟨h1, h3⟩
    -- a polynomial has one value at all odd points
    rw [evaluatePolynomial_congr_parity polynomial (show isOdd 1 = isOdd 3 from rfl), h3] at h1
    exact absurd h1 (by decide)
  · intro hagree
    have hmem : (makeValidator 1, [3, 2, 1].map makeValidator) ∈
        net.results.map fun r => (r.validator, r.senders) := by
      rw [hresults]
      exact List.mem_cons_self
    have hmem' : (makeValidator 3, [4, 3, 2].map makeValidator) ∈
        net.results.map fun r => (r.validator, r.senders) := by
      rw [hresults]
      exact List.mem_cons_of_mem _ List.mem_cons_self
    obtain ⟨r, hr, heq⟩ := List.mem_map.mp hmem
    obtain ⟨r', hr', heq'⟩ := List.mem_map.mp hmem'
    obtain ⟨hvalidator, hsenders⟩ := Prod.mk.inj heq
    obtain ⟨hvalidator', hsenders'⟩ := Prod.mk.inj heq'
    have hsame := hagree.participants r hr r' hr' (by rw [hvalidator, hvalidator']; decide)
      (makeValidator 1)
    rw [hsenders, hsenders'] at hsame
    exact absurd (hsame.mp (by decide)) (by decide)

end DkgNetwork

end Ryther
