import Ryther.Lib.Xor
import Ryther.Network.Message

/-!
# Threshold encryption

The secret sharing and the encryptor of `src/crypto/threshold.rs`. Random values are parameters: the
key, the nonce, and the coefficients a sharing draws, as a sequence.

* `ThresholdParams`, `ShamirSecretSharing.split`, `reconstruct`, `ThresholdEncryptor.encrypt`,
  `decrypt` — as in the source, with 64-bit products that wrap and the assertion of `split` as
  `none`.
* `fieldMulScalar_eq` — the doubling loop adds a string to itself, which is zero, so a product is
  the string for an odd scalar and zero for an even one.
* `evaluatePolynomial_eq` — hence a share with an even index is the secret, and all shares with an
  odd index are the sum of all coefficients.
* `reconstruct_eq` — and a reconstruction is a sum of some of the shares.
-/

namespace Ryther

open Lib

/-! ### Parameters -/

/-- How many shares there are and how many of them are needed.
Source: `crypto/threshold.rs`, `ThresholdParams`
Kind: D -/
structure ThresholdParams where
  totalShares : UInt32
  threshold : UInt32
  deriving DecidableEq

/-- Checked parameters: the threshold is positive and at most the number of shares.
Source: `crypto/threshold.rs`, `ThresholdParams::new`
Kind: D -/
def ThresholdParams.new (total threshold : UInt32) : Except String ThresholdParams :=
  if threshold = 0 then .error "Threshold must be at least 1"
  else if threshold > total then .error "Threshold cannot exceed total shares"
  else .ok ⟨total, threshold⟩

/-- More than two thirds of the validators; the doubling wraps as a `u32`.
Source: `crypto/threshold.rs`, `ThresholdParams::bft_safe`
Kind: D -/
def ThresholdParams.bftSafe (validatorCount : UInt32) : ThresholdParams :=
  ⟨validatorCount, validatorCount * 2 / 3 + 1⟩

/-- What `new` accepts. Kind: L -/
theorem ThresholdParams.new_eq_ok {n t : UInt32} {params : ThresholdParams}
    (h : ThresholdParams.new n t = .ok params) :
    params = ⟨n, t⟩ ∧ 0 < t.toNat ∧ t.toNat ≤ n.toNat := by
  unfold ThresholdParams.new at h
  split_ifs at h with hzero hgt
  cases h
  refine ⟨rfl, ?_, UInt32.le_iff_toNat_le.mp (UInt32.not_lt.mp hgt)⟩
  rw [Nat.pos_iff_ne_zero]
  exact fun h => hzero (UInt32.toNat_inj.mp h)

namespace ShamirSecretSharing

/-! ### Field arithmetic -/

/-- Addition in the field of the code is the bitwise sum.
Source: `crypto/threshold.rs`, `ShamirSecretSharing::field_add`
Kind: D -/
def fieldAdd (a b : Bytes 32) : Bytes 32 := a.xor b

/-- The loop of `field_mul_scalar`, at most `fuel` turns.
Source: `crypto/threshold.rs`, the loop of `ShamirSecretSharing::field_mul_scalar`
Kind: D -/
def mulLoop : ℕ → Bytes 32 → Bytes 32 → UInt32 → Bytes 32
  | 0, result, _, _ => result
  | fuel + 1, result, acc, s =>
      if s > 0 then
        mulLoop fuel (if s &&& 1 = 1 then fieldAdd result acc else result) (fieldAdd acc acc)
          (s >>> 1)
      else result

/-- A 32-bit scalar takes at most 32 turns.
Source: `crypto/threshold.rs`, `ShamirSecretSharing::field_mul_scalar`
Kind: D -/
def fieldMulScalar (a : Bytes 32) (scalar : UInt32) : Bytes 32 := mulLoop 32 (.fill 32 0) a scalar

/-- The sign is dropped.
Source: `crypto/threshold.rs`, `ShamirSecretSharing::field_mul_lambda`
Kind: D -/
def fieldMulLambda (a : Bytes 32) (lambda : Int32) : Bytes 32 :=
  if lambda = 0 then .fill 32 0 else fieldMulScalar a (UInt32.ofNat lambda.toInt.natAbs)

/-! ### Splitting -/

/-- Horner's scheme, from the coefficient of the highest degree on.
Source: `crypto/threshold.rs`, `ShamirSecretSharing::evaluate_polynomial`
Kind: D -/
def evaluatePolynomial (coefficients : List (Bytes 32)) (x : UInt32) : Bytes 32 :=
  coefficients.reverse.foldl (fun result coef => fieldAdd (fieldMulScalar result x) coef)
    (.fill 32 0)

/-- The secret and the drawn coefficients; `drawn i` is the `i`-th draw.
Source: `crypto/threshold.rs`, `coefficients` in `ShamirSecretSharing::split`
Kind: D -/
def coefficients (params : ThresholdParams) (drawn : ℕ → Bytes 32) (secret : Bytes 32) :
    List (Bytes 32) :=
  secret :: (List.range (params.threshold.toNat - 1)).map drawn

/-- `none` is the failed assertion that there are enough validators.
Source: `crypto/threshold.rs`, `ShamirSecretSharing::split`
Kind: D -/
def split (params : ThresholdParams) (drawn : ℕ → Bytes 32) (secret : Bytes 32)
    (validators : List ValidatorId) : Option (List SecretShare) :=
  if validators.length ≥ params.totalShares.toNat then
    some <| (validators.take params.totalShares.toNat).mapIdx fun i holder =>
      let x := UInt32.ofNat i + 1
      ⟨x, evaluatePolynomial (coefficients params drawn secret) x, holder⟩
  else none

/-! ### Reconstruction -/

/-- Numerator and denominator of the `i`-th Lagrange coefficient at zero; products wrap.
Source: `crypto/threshold.rs`, the inner loop of `ShamirSecretSharing::reconstruct`
Kind: D -/
def lagrangeRatio (indices : List UInt32) (i : ℕ) (xi : UInt32) : Int64 × Int64 :=
  indices.zipIdx.foldl
    (fun (numerator, denominator) (xj, j) =>
      if i ≠ j then
        (numerator * -(Int64.ofNat xj.toNat),
          denominator * (Int64.ofNat xi.toNat - Int64.ofNat xj.toNat))
      else (numerator, denominator))
    (1, 1)

/-- The Lagrange coefficient as the code approximates it, with truncated division.
Source: `crypto/threshold.rs`, `ShamirSecretSharing::compute_lambda`
Kind: D -/
def computeLambda (num den : Int64) : Int32 :=
  if den = 0 then 0
  else ((num % 256 + 256) / (den.abs % 256 + 1)).toInt32 * if den < 0 then -1 else 1

/-- The coefficient of the `i`-th share.
Source: `crypto/threshold.rs`, `lambda` in `ShamirSecretSharing::reconstruct`
Kind: D -/
def lambdaAt (indices : List UInt32) (i : ℕ) (xi : UInt32) : Int32 :=
  let (numerator, denominator) := lagrangeRatio indices i xi
  computeLambda numerator denominator

/-- The sum of the first shares, as many as the threshold, each times its coefficient.
Source: `crypto/threshold.rs`, `ShamirSecretSharing::reconstruct`
Kind: D -/
def reconstruct (params : ThresholdParams) (shares : List SecretShare) :
    Except String (Bytes 32) :=
  if shares.length < params.threshold.toNat then .error "Not enough shares for reconstruction"
  else
    let shares := shares.take params.threshold.toNat
    let indices := shares.map SecretShare.index
    .ok <| shares.zipIdx.foldl
      (fun secret (share, i) =>
        fieldAdd secret (fieldMulLambda share.value (lambdaAt indices i share.index)))
      (.fill 32 0)

/-! ### What the arithmetic computes -/

/-- Whether a number is odd, as the loop tests its lowest bit.
Kind: D -/
def isOdd (x : UInt32) : Bool := x.toNat % 2 == 1

/-- The bit that the multiplication tests says whether the scalar is odd. Kind: L -/
theorem and_one_eq_one_iff (s : UInt32) : s &&& 1 = 1 ↔ isOdd s = true := by
  rw [← UInt32.toNat_inj, UInt32.toNat_and]
  show s.toNat &&& 1 = 1 ↔ _
  rw [Nat.and_one_is_mod]
  simp [isOdd]

/-- Once the doubled string is zero, the turns change nothing. Kind: L -/
theorem mulLoop_zero (fuel : ℕ) (result : Bytes 32) (s : UInt32) :
    mulLoop fuel result (.fill 32 0) s = result := by
  induction fuel generalizing s with
  | zero => rfl
  | succ fuel ih =>
      unfold mulLoop
      split_ifs
      · rw [fieldAdd, Bytes.xor_zero, fieldAdd, Bytes.xor_self]
        exact ih _
      · rw [fieldAdd, Bytes.xor_self]
        exact ih _
      · rfl

/-- The loop looks at the lowest bit of the scalar only: the doubling in its first turn leaves
zero. Kind: L -/
theorem mulLoop_succ (fuel : ℕ) (result acc : Bytes 32) (s : UInt32) :
    mulLoop (fuel + 1) result acc s = result.xor (Bytes.keepIf (isOdd s) acc) := by
  unfold mulLoop
  rw [fieldAdd, fieldAdd, Bytes.xor_self, mulLoop_zero]
  by_cases hodd : isOdd s = true
  · have hpos : s > 0 := by
      rw [gt_iff_lt, UInt32.lt_iff_toNat_lt]
      have hmod : s.toNat % 2 = 1 := by simpa [isOdd] using hodd
      show 0 < s.toNat
      omega
    rw [if_pos hpos, if_pos ((and_one_eq_one_iff s).mpr hodd), hodd, Bytes.keepIf_true]
  · rw [if_neg (fun h => hodd ((and_one_eq_one_iff s).mp h)), Bool.not_eq_true] at *
    rw [hodd, Bytes.keepIf_false, Bytes.xor_zero, ite_self]

/-- The turns the source's `while` takes are enough: more fuel gives the same. Kind: L -/
theorem mulLoop_fuel (more : ℕ) (a : Bytes 32) (scalar : UInt32) :
    mulLoop (32 + more) (.fill 32 0) a scalar = fieldMulScalar a scalar := by
  rw [fieldMulScalar, show 32 + more = 31 + more + 1 by omega, mulLoop_succ, mulLoop_succ]

/-- **A product with a scalar is the string or zero.** Kind: P -/
theorem fieldMulScalar_eq (a : Bytes 32) (scalar : UInt32) :
    fieldMulScalar a scalar = Bytes.keepIf (isOdd scalar) a := by
  rw [fieldMulScalar, mulLoop_succ, Bytes.zero_xor]

/-- Whether a coefficient of the reconstruction counts.
Kind: D -/
def isOddLambda (lambda : Int32) : Bool := isOdd (UInt32.ofNat lambda.toInt.natAbs)

/-- A Lagrange coefficient acts by its parity only. Kind: L -/
theorem fieldMulLambda_eq (a : Bytes 32) (lambda : Int32) :
    fieldMulLambda a lambda = Bytes.keepIf (isOddLambda lambda) a := by
  unfold fieldMulLambda
  split_ifs with hzero
  · subst hzero
    rfl
  · exact fieldMulScalar_eq _ _

/-- **A polynomial takes two values**: at even points its constant term, at odd points the sum of
its coefficients. Kind: P -/
theorem evaluatePolynomial_eq (secret : Bytes 32) (rest : List (Bytes 32)) (x : UInt32) :
    evaluatePolynomial (secret :: rest) x =
      secret.xor (Bytes.keepIf (isOdd x) (Bytes.xorAll rest)) := by
  unfold evaluatePolynomial
  rw [List.reverse_cons, List.foldl_append, List.foldl_cons, List.foldl_nil, fieldMulScalar_eq,
    fieldAdd, Bytes.xor_comm]
  cases hodd : isOdd x with
  | false => rfl
  | true =>
      have hfold : (fun result coef : Bytes 32 => fieldAdd (fieldMulScalar result x) coef) =
          Bytes.xor := by
        funext result coef
        rw [fieldMulScalar_eq, hodd, Bytes.keepIf_true, fieldAdd]
      rw [hfold, Bytes.foldl_xor, Bytes.zero_xor, Bytes.xorAll_reverse]

/-- Points of one parity have one value. Kind: L -/
theorem evaluatePolynomial_congr_parity (coefficients : List (Bytes 32)) {x y : UInt32}
    (h : isOdd x = isOdd y) :
    evaluatePolynomial coefficients x = evaluatePolynomial coefficients y := by
  cases coefficients with
  | nil => rfl
  | cons secret rest => rw [evaluatePolynomial_eq, evaluatePolynomial_eq, h]

/-- Evaluation is additive in the coefficients. Kind: L -/
theorem evaluatePolynomial_xor {ι : Type} (f g : ι → Bytes 32) (l : List ι) (x : UInt32) :
    evaluatePolynomial (l.map fun i => (f i).xor (g i)) x =
      (evaluatePolynomial (l.map f) x).xor (evaluatePolynomial (l.map g) x) := by
  cases l with
  | nil => rfl
  | cons i l =>
      simp only [List.map_cons, evaluatePolynomial_eq, Bytes.xorAll_map_xor, Bytes.keepIf_xor]
      ac_rfl

/-- The polynomial with zero coefficients has the value zero everywhere. Kind: L -/
theorem evaluatePolynomial_zero {ι : Type} (l : List ι) (x : UInt32) :
    evaluatePolynomial (l.map fun _ => .fill 32 0) x = .fill 32 0 := by
  have h := evaluatePolynomial_xor (fun _ => .fill 32 0) (fun _ => .fill 32 0) l x
  simpa using h

/-- **The value of a sum of polynomials is the sum of their values.** Kind: P -/
theorem evaluatePolynomial_sum {ι κ : Type} (f : κ → ι → Bytes 32) (ks : List κ) (l : List ι)
    (x : UInt32) :
    evaluatePolynomial (l.map fun i => Bytes.xorAll (ks.map fun k => f k i)) x =
      Bytes.xorAll (ks.map fun k => evaluatePolynomial (l.map (f k)) x) := by
  induction ks with
  | nil => exact evaluatePolynomial_zero l x
  | cons k ks ih =>
      simp only [List.map_cons, Bytes.xorAll_cons]
      rw [evaluatePolynomial_xor, ih]

/-! ### Shares of a splitting -/

/-- The sum of the drawn coefficients.
Kind: D -/
def drawnSum (params : ThresholdParams) (drawn : ℕ → Bytes 32) : Bytes 32 :=
  Bytes.xorAll ((List.range (params.threshold.toNat - 1)).map drawn)

section

variable {params : ThresholdParams} {drawn : ℕ → Bytes 32} {secret : Bytes 32}
  {validators : List ValidatorId} {shares : List SecretShare}

/-- The share with the given index.
Kind: D -/
def valueAt (shares : List SecretShare) (index : UInt32) : Option (Bytes 32) :=
  (shares.find? fun share => share.index = index).map SecretShare.value

/-- With enough validators the assertion holds. Kind: L -/
theorem split_isSome (params : ThresholdParams) (drawn : ℕ → Bytes 32) (secret : Bytes 32)
    (henough : params.totalShares.toNat ≤ validators.length) :
    ∃ shares, split params drawn secret validators = some shares := by
  unfold split
  rw [if_pos henough]
  exact ⟨_, rfl⟩

/-- The value of a share is the secret, or the secret and the sum of the drawn coefficients.
Kind: P -/
theorem value_of_mem_split (hsplit : split params drawn secret validators = some shares)
    {share : SecretShare} (hmem : share ∈ shares) :
    share.value = secret.xor (Bytes.keepIf (isOdd share.index) (drawnSum params drawn)) := by
  unfold split at hsplit
  split_ifs at hsplit
  cases hsplit
  obtain ⟨i, hi, rfl⟩ := List.mem_mapIdx.mp hmem
  exact evaluatePolynomial_eq _ _ _

/-- Every index from 1 to the number of shares has one. Kind: L -/
theorem exists_index_of_split (hsplit : split params drawn secret validators = some shares)
    {index : UInt32} (hpos : 1 ≤ index) (hle : index ≤ params.totalShares) :
    ∃ share ∈ shares, share.index = index := by
  rw [UInt32.le_iff_toNat_le] at hpos hle
  have hpos' : 1 ≤ index.toNat := hpos
  unfold split at hsplit
  split_ifs at hsplit with henough
  cases hsplit
  have hlt : index.toNat - 1 < (validators.take params.totalShares.toNat).length := by
    rw [List.length_take]
    omega
  refine ⟨_, List.mem_mapIdx.mpr ⟨index.toNat - 1, hlt, rfl⟩, ?_⟩
  show UInt32.ofNat (index.toNat - 1) + 1 = index
  rw [← UInt32.toNat_inj, UInt32.toNat_add, UInt32.toNat_ofNat']
  have hbound := index.toNat_lt
  show ((index.toNat - 1) % 2 ^ 32 + 1) % 2 ^ 32 = index.toNat
  omega

/-- **The value at an index.** Kind: P -/
theorem valueAt_of_split (hsplit : split params drawn secret validators = some shares)
    {index : UInt32} (hpos : 1 ≤ index) (hle : index ≤ params.totalShares) :
    valueAt shares index =
      some (secret.xor (Bytes.keepIf (isOdd index) (drawnSum params drawn))) := by
  obtain ⟨share, hmem, hindex⟩ := exists_index_of_split hsplit hpos hle
  unfold valueAt
  cases hfind : shares.find? fun share => share.index = index with
  | none => exact absurd hindex (by simpa using List.find?_eq_none.mp hfind share hmem)
  | some found =>
      have hfound : found.index = index := by simpa using List.find?_some hfind
      rw [Option.map_some, value_of_mem_split hsplit (List.mem_of_find?_eq_some hfind), hfound]

/-- **A reconstruction sums the shares with odd coefficients.** Kind: P -/
theorem reconstruct_eq (params : ThresholdParams) (shares : List SecretShare)
    (henough : params.threshold.toNat ≤ shares.length) :
    reconstruct params shares = .ok (Bytes.xorAll
      ((shares.take params.threshold.toNat).zipIdx.map fun entry =>
        Bytes.keepIf (isOddLambda (lambdaAt
          ((shares.take params.threshold.toNat).map SecretShare.index) entry.2 entry.1.index))
          entry.1.value)) := by
  unfold reconstruct
  rw [if_neg (Nat.not_lt.mpr henough)]
  simp only [fieldMulLambda_eq, fieldAdd]
  rw [Bytes.foldl_xor_map, Bytes.zero_xor]

end

end ShamirSecretSharing

/-! ### Encryption -/

/-- A share for a validator. The code stores it as it is.
Source: `crypto/threshold.rs`, `EncryptedKeyShare`
Kind: D -/
structure EncryptedKeyShare where
  validatorIndex : UInt32
  encryptedShare : List UInt8
  deriving DecidableEq

/-- A ciphertext with its nonce, the commitment to its plaintext and the shares of its key.
Source: `crypto/threshold.rs`, `EncryptedPayload`
Kind: D -/
structure EncryptedPayload where
  ciphertext : List UInt8
  nonce : Bytes 12
  commitment : Bytes 32
  keyShares : List EncryptedKeyShare
  deriving DecidableEq

namespace ThresholdEncryptor

variable (sha256 : List UInt8 → Bytes 32)

/-- The byte that masks position `i`.
Source: `crypto/threshold.rs`, `key_byte` in `ThresholdEncryptor::xor_encrypt`
Kind: D -/
def keyByte (key : Bytes 32) (nonce : Bytes 12) (i : ℕ) : UInt8 :=
  (sha256 (key.toList ++ nonce.toList ++ leBytes 8 i)).head

/-- Every byte is added to a byte of the key stream.
Source: `crypto/threshold.rs`, `ThresholdEncryptor::xor_encrypt`
Kind: D -/
def xorEncrypt (plaintext : List UInt8) (key : Bytes 32) (nonce : Bytes 12) : List UInt8 :=
  plaintext.mapIdx fun i byte => byte ^^^ keyByte sha256 key nonce i

/-- The key is split among the validators, and the plaintext is encrypted under it.
Source: `crypto/threshold.rs`, `ThresholdEncryptor::encrypt`
Kind: D -/
def encrypt (params : ThresholdParams) (key : Bytes 32) (nonce : Bytes 12) (drawn : ℕ → Bytes 32)
    (plaintext : List UInt8) (validators : List ValidatorId) : Option EncryptedPayload :=
  (ShamirSecretSharing.split params drawn key validators).map fun shares =>
    { ciphertext := xorEncrypt sha256 plaintext key nonce
      nonce := nonce
      commitment := sha256 plaintext
      keyShares := shares.map fun share => ⟨share.index, share.value.toList⟩ }

/-- The key is reconstructed, and the plaintext is checked against the commitment.
Source: `crypto/threshold.rs`, `ThresholdEncryptor::decrypt`
Kind: D -/
def decrypt (params : ThresholdParams) (payload : EncryptedPayload) (shares : List SecretShare) :
    Except String (List UInt8) :=
  match ShamirSecretSharing.reconstruct params shares with
  | .error message => .error message
  | .ok key =>
      let plaintext := xorEncrypt sha256 payload.ciphertext key payload.nonce
      if sha256 plaintext ≠ payload.commitment then .error "Commitment verification failed"
      else .ok plaintext

end ThresholdEncryptor

end Ryther
