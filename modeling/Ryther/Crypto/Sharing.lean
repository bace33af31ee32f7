import Mathlib.Data.Finset.Insert
import Ryther.Crypto.Threshold

/-!
# What shares reveal and reconstruct

The two promises of a threshold scheme, for the arithmetic of `src/crypto/threshold.rs`: fewer
shares than the threshold reveal nothing, and as many give back the secret. Neither is kept.

* `shares_hide_secret_iff` — shares of different secrets can be told apart exactly if one of them
  has an even index, as it is the secret then.
* `recombinedKey` — the key that a reconstruction returns, from the indices of the used shares.
* `decrypt_encrypt_iff` — a text comes back exactly if this key masks its positions as the drawn key
  does.
-/

namespace Ryther

open Lib ShamirSecretSharing

/-! ### Secrecy -/

/-- **Which shares hide the secret.** The shares at some indices can come from another secret
exactly if no index is even.
Source: `crypto/threshold.rs`, `ShamirSecretSharing::split`
Kind: P -/
theorem shares_hide_secret_iff (params : ThresholdParams) (hthreshold : 2 ≤ params.threshold.toNat)
    (validators : List ValidatorId) (henough : params.totalShares.toNat ≤ validators.length)
    (indices : Finset UInt32) (hrange : ∀ i ∈ indices, 1 ≤ i ∧ i ≤ params.totalShares)
    (secret secret' : Bytes 32) (drawn : ℕ → Bytes 32) :
    (∃ drawn' shares shares', split params drawn secret validators = some shares ∧
        split params drawn' secret' validators = some shares' ∧
        ∀ i ∈ indices, valueAt shares i = valueAt shares' i) ↔
      secret = secret' ∨ ∀ i ∈ indices, isOdd i = true := by
  constructor
  · rintro ⟨drawn', shares, shares', hsplit, hsplit', hsame⟩
    by_contra hnot
    push Not at hnot
    obtain ⟨hne, i, hi, heven⟩ := hnot
    obtain ⟨hpos, hle⟩ := hrange i hi
    have heven' : isOdd i = false := by simpa using heven
    have hvalue := hsame i hi
    rw [valueAt_of_split hsplit hpos hle, valueAt_of_split hsplit' hpos hle, heven'] at hvalue
    simp only [Bytes.keepIf_false, Bytes.xor_zero, Option.some.injEq] at hvalue
    exact hne hvalue
  · intro h
    obtain ⟨shares, hsplit⟩ := split_isSome params drawn secret henough
    -- the first coefficient makes up for the difference of the secrets
    let drawn' : ℕ → Bytes 32 := fun i =>
      if i = 0 then (secret.xor secret').xor (drawn 0) else drawn i
    obtain ⟨shares', hsplit'⟩ := split_isSome params drawn' secret' henough
    refine ⟨drawn', shares, shares', hsplit, hsplit', fun i hi => ?_⟩
    obtain ⟨hpos, hle⟩ := hrange i hi
    have hsum : drawnSum params drawn' = (secret.xor secret').xor (drawnSum params drawn) := by
      obtain ⟨k, hk⟩ : ∃ k, params.threshold.toNat - 1 = k + 1 :=
        ⟨params.threshold.toNat - 2, by omega⟩
      unfold drawnSum
      rw [hk, List.range_succ_eq_map, List.map_cons, List.map_cons, Bytes.xorAll_cons,
        Bytes.xorAll_cons, List.map_map, List.map_map, ← Bytes.xor_assoc]
      rfl
    rw [valueAt_of_split hsplit hpos hle, valueAt_of_split hsplit' hpos hle, hsum]
    rcases h with rfl | hodd
    · rw [Bytes.xor_self, Bytes.zero_xor]
    · rw [hodd i hi, Bytes.keepIf_true, Bytes.keepIf_true]
      congr 1
      rw [Bytes.xor_comm secret secret', Bytes.xor_assoc, Bytes.xor_xor_cancel]

/-- Three validators. Kind: D -/
def threeValidators : List ValidatorId := [1, 2, 3].map makeValidator

/-- The shares 1 and 3 of a 3-of-3 scheme can come from any other secret. Kind: L -/
theorem shares_hide_secret_odd :
    ∃ drawn' shares shares',
      split ⟨3, 3⟩ (fun _ => .fill 32 7) (.fill 32 1) threeValidators = some shares ∧
        split ⟨3, 3⟩ drawn' (.fill 32 2) threeValidators = some shares' ∧
        ∀ i ∈ ({1, 3} : Finset UInt32), valueAt shares i = valueAt shares' i := by
  have hindices : ∀ i ∈ ({1, 3} : Finset UInt32), (1 ≤ i ∧ i ≤ 3) ∧ isOdd i = true := by
    intro i hi
    rcases Finset.mem_insert.mp hi with rfl | hi
    · decide
    · rw [Finset.mem_singleton.mp hi]
      decide
  apply (shares_hide_secret_iff ⟨3, 3⟩ (by decide) threeValidators (by decide) {1, 3} ?_
    (.fill 32 1) (.fill 32 2) fun _ => .fill 32 7).mpr
  · exact .inr fun i hi => (hindices i hi).2
  · exact fun i hi => (hindices i hi).1

/-- The share with index 2 of a 2-of-3 scheme is the secret, so no coefficients make it a share of
another one. Kind: P -/
theorem even_share_tells_secrets_apart :
    ¬ ∃ drawn' shares shares',
      split ⟨3, 2⟩ (fun _ => .fill 32 7) (.fill 32 1) threeValidators = some shares ∧
        split ⟨3, 2⟩ drawn' (.fill 32 2) threeValidators = some shares' ∧
        ∀ i ∈ ({2} : Finset UInt32), valueAt shares i = valueAt shares' i := by
  rintro ⟨drawn', shares, shares', hsplit, hsplit', hsame⟩
  have hvalue := hsame 2 (by decide)
  rw [valueAt_of_split hsplit (by decide) (by decide),
    valueAt_of_split hsplit' (by decide) (by decide)] at hvalue
  have hodd : isOdd 2 = false := rfl
  simp only [hodd, Bytes.keepIf_false, Bytes.xor_zero, Option.some.injEq] at hvalue
  exact absurd hvalue (by decide)

/-! ### The recombined key -/

/-- Whether the coefficient of a share is odd; the other shares do not count.
Kind: D -/
def counts (indices : List UInt32) (entry : UInt32 × ℕ) : Bool :=
  isOddLambda (lambdaAt indices entry.2 entry.1)

/-- The key that shares with these indices give: the drawn key if an odd number of them count, plus
the sum of the coefficients if an odd number of those with an odd index count.
Kind: D -/
def recombinedKey (indices : List UInt32) (key sum : Bytes 32) : Bytes 32 :=
  (Bytes.keepIf (indices.zipIdx.countP (counts indices) % 2 == 1) key).xor
    (Bytes.keepIf
      (indices.zipIdx.countP (fun entry => counts indices entry && isOdd entry.1) % 2 == 1) sum)

/-- **What a reconstruction returns.** Kind: P -/
theorem reconstruct_of_values {params : ThresholdParams} {shares : List SecretShare}
    {key sum : Bytes 32} (henough : params.threshold.toNat ≤ shares.length)
    (hvalues : ∀ share ∈ shares, share.value = key.xor (Bytes.keepIf (isOdd share.index) sum)) :
    reconstruct params shares =
      .ok (recombinedKey ((shares.take params.threshold.toNat).map SecretShare.index) key sum) := by
  rw [reconstruct_eq params shares henough]
  congr 1
  have hused : ∀ share ∈ shares.take params.threshold.toNat,
      share.value = key.xor (Bytes.keepIf (isOdd share.index) sum) :=
    fun share h => hvalues share (List.mem_of_mem_take h)
  generalize shares.take params.threshold.toNat = used at hused
  generalize hindices : used.map SecretShare.index = indices
  -- a counted share contributes the key, and the sum if its index is odd
  have hterm : used.zipIdx.map (fun entry =>
      Bytes.keepIf (isOddLambda (lambdaAt indices entry.2 entry.1.index)) entry.1.value) =
      indices.zipIdx.map fun entry => (Bytes.keepIf (counts indices entry) key).xor
        (Bytes.keepIf (counts indices entry && isOdd entry.1) sum) := by
    rw [← hindices, List.zipIdx_map, List.map_map, hindices]
    apply List.map_congr_left
    rintro ⟨share, i⟩ hmem
    have hvalue := hused share (List.fst_mem_of_mem_zipIdx hmem)
    simp only [Function.comp_apply, Prod.map_apply, id_eq, hvalue]
    show Bytes.keepIf (counts indices (share.index, i)) _ = _
    cases counts indices (share.index, i) with
    | false => simp
    | true => simp
  rw [hterm, Bytes.xorAll_map_xor, Bytes.xorAll_map_keepIf, Bytes.xorAll_map_keepIf]
  rfl

/-! ### Decryption -/

namespace ThresholdEncryptor

variable (sha256 : List UInt8 → Bytes 32)

/-- Masking with two keys in turn leaves a text as it was exactly if they mask every position alike.
Kind: L -/
theorem xorEncrypt_xorEncrypt_eq_iff (plaintext : List UInt8) (key key' : Bytes 32)
    (nonce : Bytes 12) :
    xorEncrypt sha256 (xorEncrypt sha256 plaintext key nonce) key' nonce = plaintext ↔
      ∀ i < plaintext.length, keyByte sha256 key' nonce i = keyByte sha256 key nonce i := by
  have hbyte : ∀ b k k' : UInt8, b ^^^ k ^^^ k' = b ↔ k' = k := by
    intro b k k'
    rw [UInt8.xor_assoc]
    constructor
    · intro h
      have h' : k ^^^ k' = 0 := by
        have := congrArg (b ^^^ ·) h
        simpa [← UInt8.xor_assoc] using this
      exact (UInt8.xor_eq_zero_iff.mp h').symm
    · rintro rfl
      simp
  rw [List.ext_getElem_iff]
  simp only [xorEncrypt, List.length_mapIdx, List.getElem_mapIdx, true_and, hbyte]
  exact ⟨fun h i hi => h i hi hi, fun h i hi _ => h i hi⟩

/-- **When a text comes back.** Encryption succeeds with enough validators, and decryption with
enough shares of its payload returns the text exactly if the recombined key masks every position of
it as the drawn key does.
Source: `crypto/threshold.rs`, `ThresholdEncryptor::decrypt`
Kind: P -/
theorem decrypt_encrypt_iff {n t : UInt32} {params : ThresholdParams}
    (hnew : ThresholdParams.new n t = .ok params) (validators : List ValidatorId)
    (henough : n.toNat ≤ validators.length) (plaintext : List UInt8) (key : Bytes 32)
    (nonce : Bytes 12) (drawn : ℕ → Bytes 32) :
    ∃ payload, encrypt sha256 params key nonce drawn plaintext validators = some payload ∧
      ∀ shares : List SecretShare,
        (∀ share ∈ shares, ⟨share.index, share.value.toList⟩ ∈ payload.keyShares) →
        t.toNat ≤ shares.length →
        (decrypt sha256 params payload shares = .ok plaintext ↔
          ∀ i < plaintext.length,
            keyByte sha256 (recombinedKey ((shares.take t.toNat).map SecretShare.index) key
              (drawnSum params drawn)) nonce i = keyByte sha256 key nonce i) := by
  obtain ⟨rfl, -, -⟩ := ThresholdParams.new_eq_ok hnew
  obtain ⟨split, hsplit⟩ := split_isSome ⟨n, t⟩ drawn key henough
  refine ⟨_, by rw [encrypt, hsplit, Option.map_some], fun shares hshares hcount => ?_⟩
  have hvalues : ∀ share ∈ shares,
      share.value = key.xor (Bytes.keepIf (isOdd share.index) (drawnSum ⟨n, t⟩ drawn)) := by
    intro share hmem
    obtain ⟨original, horiginal, heq⟩ := List.mem_map.mp (hshares share hmem)
    obtain ⟨hindex, hvalue⟩ := EncryptedKeyShare.mk.inj heq
    rw [← List.Vector.toList_injective hvalue, ← hindex]
    exact value_of_mem_split hsplit horiginal
  unfold decrypt
  rw [reconstruct_of_values hcount hvalues]
  simp only [← xorEncrypt_xorEncrypt_eq_iff]
  split_ifs with hcommit
  · -- a text with another digest is another text
    refine iff_of_false nofun fun heq => hcommit ?_
    rw [heq]
  · rw [Except.ok.injEq]

/-- The shares with the given indices that a sharing among five validators makes. Kind: D -/
def chosenShares (params : ThresholdParams) (drawn : ℕ → Bytes 32) (key : Bytes 32)
    (indices : List UInt32) : List SecretShare :=
  let shares := (split params drawn key ([1, 2, 3, 4, 5].map makeValidator)).getD []
  indices.filterMap fun index => shares.find? fun share => share.index = index

/-- The digests of SHA-256 for a text of two bytes: its own and the mask of the drawn key.
Kind: D -/
def twoByteSha256 : List UInt8 → Bytes 32 :=
  tableHash
    [(List.replicate 32 1 ++ List.replicate 20 0,
        29186754806173866096499049109721291404885989454663667377247229215392611901659),
      ([42, 43], 15946966443020654518401343345933346474370592420797646510015854919952808349509)]

/-- The shares 5, 1 and 2 of a 3-of-5 scheme all count; the two with an odd index cancel, and the
third is the key. Kind: L -/
theorem decrypt_encrypt_five :
    let drawn : ℕ → Bytes 32 := fun i => .fill 32 (UInt8.ofNat i)
    let key : Bytes 32 := .fill 32 1
    (encrypt twoByteSha256 ⟨5, 3⟩ key (.fill 12 0) drawn [42, 43]
        ([1, 2, 3, 4, 5].map makeValidator)).map
      (fun payload =>
        decrypt twoByteSha256 ⟨5, 3⟩ payload (chosenShares ⟨5, 3⟩ drawn key [5, 1, 2])) =
      some (.ok [42, 43]) := by
  intro drawn key
  obtain ⟨payload, hpayload, h⟩ := decrypt_encrypt_iff twoByteSha256 (n := 5) (t := 3) rfl
    ([1, 2, 3, 4, 5].map makeValidator) (by decide) [42, 43] key (.fill 12 0) drawn
  rw [hpayload, Option.map_some]
  congr 1
  obtain rfl := Option.some.inj (show some _ = some payload from hpayload)
  exact (h (chosenShares ⟨5, 3⟩ drawn key [5, 1, 2]) (by decide +kernel) (by decide +kernel)).mpr
    (by decide +kernel)

/-- The digests of SHA-256 for a text of one byte: its own, the masks of the drawn key and of the
zero key, and the digest of the wrongly decrypted byte.
Kind: D -/
def maskSha256 : List UInt8 → Bytes 32 :=
  tableHash
    [([1] ++ List.replicate 51 0,
        32029301442869778972259900448282679817174332770029591656846249336995245735669),
      (List.replicate 52 0,
        54881438971330856226658845905089555788616309218142714506582845072295424372602),
      ([42], 47168693079958078218931202593856790437935975962911552787191921557083156729793),
      ([21], 21286655325461074170433854936958520153527866913129257091162428017511033570824)]

/-- The parameters of the node, 3 of 4, with the first three shares: what comes back as key is the
sum of the two drawn coefficients, here zero, and the text is rejected. Kind: P -/
theorem decryption_fails_with_enough_shares :
    let drawn : ℕ → Bytes 32 := fun _ => .fill 32 0
    let key : Bytes 32 := ⟨1 :: List.replicate 31 0, by simp⟩
    ThresholdParams.new 4 3 = .ok ⟨4, 3⟩ ∧
      (chosenShares ⟨4, 3⟩ drawn key [1, 2, 3]).map SecretShare.index = [1, 2, 3] ∧
      (encrypt maskSha256 ⟨4, 3⟩ key (.fill 12 0) drawn [42]
          ([1, 2, 3, 4, 5].map makeValidator)).map
        (fun payload =>
          decrypt maskSha256 ⟨4, 3⟩ payload (chosenShares ⟨4, 3⟩ drawn key [1, 2, 3])) =
        some (.error "Commitment verification failed") := by
  decide +kernel

end ThresholdEncryptor

end Ryther
