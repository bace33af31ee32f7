import Ryther.Crypto.KeyAgreement

/-!
# Who knows and who decides a generated key

What the key generation of `src/crypto/threshold.rs` gives to one validator. A polynomial takes its
constant term at every even point, and a share that arrives is compared with nothing.

* `DkgNetwork.jointSecret` — the key that some senders generate together.
* `DkgNetwork.even_positions_hold_key` — a validator with an even index is sent the secret of every
  sender, and its own share is the key; those with odd indices all hold one value.
* `DkgNetwork.one_share_forces_result` — one validator can make the result of any other what it
  likes, whatever the rest has sent and committed to.
-/

namespace Ryther

open Lib ShamirSecretSharing

namespace DkgNetwork

/-! ### Reading the key -/

/-- The key of some senders: the sum of their secrets.
Kind: D -/
def jointSecret (drawn : ValidatorId → ℕ → Bytes 32) (senders : List ValidatorId) : Bytes 32 :=
  Bytes.xorAll (senders.map fun p => drawn p 0)

variable (sha256 : List UInt8 → Bytes 32) (drawn : ValidatorId → ℕ → Bytes 32)
  (sessionId : Bytes 32) (validators : List ValidatorId)

/-- The constant term comes first. Kind: L -/
theorem exists_range_eq_cons : ∃ rest, List.range (keygenThreshold validators) = 0 :: rest := by
  obtain ⟨t, ht⟩ := Nat.exists_eq_succ_of_ne_zero (keygenThreshold_pos validators).ne'
  rw [ht, List.range_succ_eq_map]
  exact ⟨_, rfl⟩

/-- An index that wraps keeps its parity. Kind: L -/
theorem isOdd_indexOf (q : ValidatorId) :
    isOdd (indexOf validators q) = (validators.idxOf q % 2 == 0) := by
  unfold isOdd indexOf
  rw [UInt32.toNat_ofNat', Nat.mod_mod_of_dvd _ (by decide : 2 ∣ 2 ^ 32)]
  rw [Bool.eq_iff_iff, beq_iff_eq, beq_iff_eq]
  omega

/-- At an even index the value of a polynomial is its constant coefficient. Kind: L -/
theorem evaluatePolynomial_of_even {coefficient : ℕ → Bytes 32} {q : ValidatorId}
    (heven : validators.idxOf q % 2 = 1) :
    evaluatePolynomial ((List.range (keygenThreshold validators)).map coefficient)
      (indexOf validators q) = coefficient 0 := by
  obtain ⟨rest, hrange⟩ := exists_range_eq_cons validators
  rw [hrange, List.map_cons, evaluatePolynomial_eq, isOdd_indexOf, heven]
  exact Bytes.xor_zero _

/-- At an odd index the value of a polynomial is the sum of all its coefficients. Kind: L -/
theorem evaluatePolynomial_of_odd {coefficient : ℕ → Bytes 32} {q : ValidatorId}
    (hodd : validators.idxOf q % 2 = 0) :
    evaluatePolynomial ((List.range (keygenThreshold validators)).map coefficient)
      (indexOf validators q) =
        Bytes.xorAll ((List.range (keygenThreshold validators)).map coefficient) := by
  obtain ⟨rest, hrange⟩ := exists_range_eq_cons validators
  rw [hrange, List.map_cons, evaluatePolynomial_eq, isOdd_indexOf, hodd, Bytes.xorAll_cons]
  rfl

/-- **Every second validator holds the key.** In every run of a key generation, with messages in any
order: a validator at an even position (the second, the fourth, …) is sent the secret of each sender
as its share, and the share that `finalize` returns to it is the key of its senders. Validators at
odd positions that finalize with the same senders all get the same share. Kind: P -/
theorem even_positions_hold_key (hnodup : validators.Nodup) (steps : List DkgStep)
    (hsteps : Among validators steps) :
    let net := after sha256 drawn sessionId validators steps
    (∀ q ∈ validators, validators.idxOf q % 2 = 1 →
        ∀ p share, (net.sessions q).receivedShares.lookup p = some share →
          share.value = drawn p 0) ∧
      (∀ r ∈ net.results, validators.idxOf r.validator % 2 = 1 →
        r.share.value = jointSecret drawn r.senders) ∧
      ∀ r ∈ net.results, ∀ r' ∈ net.results, r.senders.Perm r'.senders →
        validators.idxOf r.validator % 2 = 0 → validators.idxOf r'.validator % 2 = 0 →
        r.share.value = r'.share.value := by
  intro net
  refine ⟨?_, ?_, ?_⟩
  · intro q hq heven p share hshare
    rw [lookup_received_after _ _ _ _ hnodup hq] at hshare
    rw [hshare.2]
    exact evaluatePolynomial_of_even validators heven
  · intro r hr heven
    rw [(recorded_of_mem_results hnodup hsteps hr).value]
    exact evaluatePolynomial_of_even validators heven
  · intro r hr r' hr' hperm hodd hodd'
    rw [(recorded_of_mem_results hnodup hsteps hr).value,
      (recorded_of_mem_results hnodup hsteps hr').value, jointPolynomial_perm _ _ hperm]
    unfold jointPolynomial
    rw [evaluatePolynomial_of_odd validators hodd, evaluatePolynomial_of_odd validators hodd']

/-- The second of three validators. Kind: P -/
theorem even_positions_hold_key_second :
    let validators := [1, 2, 3].map makeValidator
    let steps := validators.map .contribute ++
      validators.map (DkgStep.deliverShare · (makeValidator 2)) ++ [.finalize (makeValidator 2)]
    let net := after (fun _ => .fill 32 0) constantDraw (.fill 32 0) validators steps
    ∃ r ∈ net.results, r.share.value = jointSecret constantDraw r.senders := by
  intro validators steps net
  have hvalidators : net.results.map (·.validator) = [makeValidator 2] := by decide +kernel
  obtain ⟨r, hr, hvalidator⟩ : ∃ r ∈ net.results, r.validator = makeValidator 2 := by
    rw [← List.mem_map, hvalidators]
    exact List.mem_cons_self
  refine ⟨r, hr, ?_⟩
  apply (even_positions_hold_key _ _ _ validators (by decide) steps (by decide)).2.1 r hr
  rw [hvalidator]
  decide

/-! ### Forcing a result -/

/-- A share that arrives stands before the others. Kind: L -/
theorem values_receiveShare (session : DkgSession) (b : ValidatorId) (share : SecretShare) :
    ((session.receiveShare b share).2.receivedShares.entries.map fun entry => entry.2) =
      share :: (session.receivedShares.erase b).entries.map fun entry => entry.2 :=
  rfl

/-- What `finalize` makes of a share that arrives at shares of the same index. Kind: L -/
theorem finalize_receiveShare {session : DkgSession} {b holder : ValidatorId} {x : UInt32}
    (henough : session.params.threshold.toNat ≤ (session.receivedShares.erase b).entries.length + 1)
    (hindex : ∀ entry ∈ (session.receivedShares.erase b).entries, entry.2.index = x)
    (hholder : DkgSession.holderAt session.validators x = some holder) (value : Bytes 32) :
    (session.receiveShare b ⟨x, value, holder⟩).2.finalize =
      some ⟨x, value.xor (Bytes.xorAll
        ((session.receivedShares.erase b).entries.map fun entry => entry.2.value)), holder⟩ := by
  have hcomplete : (session.receiveShare b ⟨x, value, holder⟩).2.isComplete = true := by
    rw [DkgSession.isComplete, decide_eq_true_iff]
    exact henough
  have hsame : ∀ share ∈ (⟨x, value, holder⟩ : SecretShare) ::
      (session.receivedShares.erase b).entries.map fun entry => entry.2, share.index = x := by
    intro share hshare
    rcases List.mem_cons.mp hshare with rfl | hother
    · rfl
    · obtain ⟨entry, hentry, rfl⟩ := List.mem_map.mp hother
      exact hindex entry hentry
  rw [DkgSession.finalize, if_pos hcomplete, values_receiveShare,
    DkgSession.combine_eq (List.cons_ne_nil _ _) hsame]
  show Option.map _ (DkgSession.holderAt session.validators x) = _
  rw [hholder, List.map_cons, Bytes.xorAll_cons, List.map_map]
  rfl

/-- **One share decides the result.** After any run, let a validator hold enough shares once the one
of `b` is counted. Then for every value there is a share that `b` can send, for the first time or in
place of an earlier one, that is accepted and makes `finalize` return that value under the
validator's own index and name. Kind: P -/
theorem one_share_forces_result (hnodup : validators.Nodup) (hlt : validators.length < 2 ^ 32)
    (steps : List DkgStep) (q b : ValidatorId) (hq : q ∈ validators)
    (henough : keygenThreshold validators ≤
      (((after sha256 drawn sessionId validators steps).sessions q).receivedShares.erase
        b).keys.length + 1)
    (target : Bytes 32) :
    ∃ value session, ((after sha256 drawn sessionId validators steps).sessions q).receiveShare b
        ⟨indexOf validators q, value, q⟩ = (true, session) ∧
      session.finalize = some ⟨indexOf validators q, target, q⟩ := by
  obtain ⟨hvalidators, hparams⟩ := config_after sha256 drawn sessionId validators steps q
  have hheld := lookup_received_after sha256 drawn sessionId validators hnodup hq steps
  generalize (after sha256 drawn sessionId validators steps).sessions q = session at *
  have hindex : ∀ entry ∈ (session.receivedShares.erase b).entries,
      entry.2.index = indexOf validators q := by
    intro entry hentry
    have hmem := (List.kerase_sublist b session.receivedShares.entries).subset hentry
    have hlookup := Option.mem_def.mp (AList.mem_lookup_iff.mpr hmem)
    rw [((hheld _ _).mp hlookup).2]
    rfl
  have hholder := (holderAt_indexOf hq
    (Nat.lt_of_le_of_lt (List.idxOf_lt_length_of_mem hq) hlt)).2
  -- the share makes up for the sum of the others
  let others := Bytes.xorAll
    ((session.receivedShares.erase b).entries.map fun entry => entry.2.value)
  have hlength : (session.receivedShares.erase b).keys.length =
      (session.receivedShares.erase b).entries.length := List.length_map _
  rw [hlength] at henough
  refine ⟨others.xor target, _, rfl,
    (finalize_receiveShare (by rwa [hparams]) hindex (hvalidators.symm ▸ hholder) _).trans ?_⟩
  rw [Bytes.xor_comm, Bytes.xor_xor_cancel]

/-- The third of three validators decides what the second gets. Kind: P -/
theorem one_share_forces_result_third :
    let validators := [1, 2, 3].map makeValidator
    let steps := validators.map .contribute ++
      [.deliverShare (makeValidator 1) (makeValidator 2),
        .deliverShare (makeValidator 2) (makeValidator 2)]
    let net := after (fun _ => .fill 32 0) constantDraw (.fill 32 0) validators steps
    ∃ value session, (net.sessions (makeValidator 2)).receiveShare (makeValidator 3)
        ⟨2, value, makeValidator 2⟩ = (true, session) ∧
      session.finalize = some ⟨2, .fill 32 7, makeValidator 2⟩ := by
  intro validators steps net
  exact one_share_forces_result (fun _ => .fill 32 0) constantDraw (.fill 32 0) validators
    (by decide) (by decide) steps (makeValidator 2) (makeValidator 3) (by decide)
    (by decide +kernel) (.fill 32 7)

end DkgNetwork

end Ryther
