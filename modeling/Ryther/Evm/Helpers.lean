import Ryther.Evm.Accounts
import Ryther.Lib.Rlp

/-!
# Arithmetic and address helpers of the virtual machine

`sub_u256`, `compare_u256` and `compute_create_address` of `src/evm/vm.rs` against what they stand
for: subtraction and order of 256-bit numbers, and the Ethereum rule for contract addresses.

* `compareU256_eq_zero_iff`, `compareU256_pos_iff` — the comparison is exact.
* `subU256_exact_iff` — the subtraction is exact only for a small subtrahend whose borrow is found
  in the second limb.
* `createNonceBytes_eq` — the nonce is encoded as it should be.
* `createAddress_canonical_iff` — the header in front of it is the one for a nonce of one byte.
-/

namespace Ryther

open Lib

/-! ### Comparison -/

/-- Swapping the numbers flips the sign of the comparison. Kind: L -/
theorem compareLimbs_swap (pairs : List (UInt64 × UInt64)) :
    compareLimbs (pairs.map Prod.swap) = -compareLimbs pairs := by
  induction pairs with
  | nil => rfl
  | cons pair pairs ih =>
      obtain ⟨x, y⟩ := pair
      rw [List.map_cons, Prod.swap_prod_mk]
      simp only [compareLimbs, gt_iff_lt]
      rcases Nat.lt_trichotomy x.toNat y.toNat with h | h | h
      · simp [UInt64.lt_iff_toNat_lt, h, Nat.lt_asymm h]
      · simp [UInt64.lt_iff_toNat_lt, h, ih]
      · simp [UInt64.lt_iff_toNat_lt, h, Nat.lt_asymm h]

/-- The comparison is positive exactly if the first number is larger. Kind: L -/
theorem compareU256_pos_iff (a b : U256) : 0 < compareU256 a b ↔ b.toNat < a.toNat := by
  have hswap : compareU256 b a = -compareU256 a b :=
    compareLimbs_swap
      [(a.limb3, b.limb3), (a.limb2, b.limb2), (a.limb1, b.limb1), (a.limb0, b.limb0)]
  rw [← compareU256_lt_iff, hswap]
  omega

/-- The comparison is 0 exactly for equal numbers. Kind: L -/
theorem compareU256_eq_zero_iff (a b : U256) : compareU256 a b = 0 ↔ a.toNat = b.toNat := by
  have hlt := compareU256_lt_iff a b
  have hpos := compareU256_pos_iff a b
  omega

/-! ### Subtraction -/

/-- What is left of a word without its low limb. Kind: L -/
theorem toNat_eq_limb0_iff (b : U256) : b.toNat = b.limb0.toNat ↔ b.toNat < 2 ^ 64 := by
  have hlt := b.limb0.toNat_lt
  rw [b.toNat_limb0]
  omega

/-- **When the subtraction is exact.** The comparison is the numeric order for all words. For `a`
not below `b`, the difference is right exactly if `b` has one limb only and a borrow, if there is
one, is found in the second limb of `a`.
Source: `evm/vm.rs`, `RytherVm::sub_u256`, `RytherVm::compare_u256`
Kind: P -/
theorem subU256_exact_iff (a b : U256) :
    ((0 ≤ compareU256 a b → (subU256 a b).toNat = a.toNat - b.toNat) ∧
        (compareU256 a b < 0 ↔ a.toNat < b.toNat) ∧ (compareU256 a b = 0 ↔ a.toNat = b.toNat) ∧
        (0 < compareU256 a b ↔ b.toNat < a.toNat)) ↔
      (b.toNat ≤ a.toNat → b.toNat < 2 ^ 64 ∧ (b.limb0 ≤ a.limb0 ∨ a.limb1 ≠ 0)) := by
  have horder : 0 ≤ compareU256 a b ↔ b.toNat ≤ a.toNat := by
    rw [← Int.not_lt, compareU256_lt_iff, Nat.not_lt]
  have hlost : ¬ LostBorrow a b ↔ b.limb0 ≤ a.limb0 ∨ a.limb1 ≠ 0 := by
    rw [LostBorrow, not_and_or, UInt64.not_lt]
  have hsub := toNat_subU256 a b
  have hlow := toNat_eq_limb0_iff b
  have hlimb : b.limb0.toNat ≤ b.toNat := by
    rw [b.toNat_limb0]
    exact Nat.mod_le _ _
  have hcompare := And.intro (compareU256_lt_iff a b)
    (And.intro (compareU256_eq_zero_iff a b) (compareU256_pos_iff a b))
  rw [and_iff_left hcompare, horder, ← hlost, ← hlow]
  refine imp_congr_right fun hle => ?_
  -- a lost borrow leaves too much, and so does a limb of `b` that is not looked at
  split_ifs at hsub with hborrow
  · exact iff_of_false (by omega) fun h => h.2 hborrow
  · rw [and_iff_left hborrow]
    omega

/-- `2 ^ 64` taken from twice as much leaves everything: the second limb of the subtrahend is not
looked at. `1` taken from `2 ^ 128` leaves more than there was: the borrow is not found in the
second limb. Kind: P -/
theorem subU256_ignores_upper_limbs :
    compareU256 ⟨0, 2, 0, 0⟩ ⟨0, 1, 0, 0⟩ = 1 ∧
      (subU256 ⟨0, 2, 0, 0⟩ ⟨0, 1, 0, 0⟩).toNat = 2 * 2 ^ 64 ∧
      compareU256 ⟨0, 0, 1, 0⟩ (.fromU64 1) = 1 ∧
      (subU256 ⟨0, 0, 1, 0⟩ (.fromU64 1)).toNat = 2 ^ 128 + 2 ^ 64 - 1 := by
  decide

/-! ### Contract addresses -/

/-- The string that `compute_create_address` hashes.
Source: `evm/vm.rs`, `data` in `RytherVm::compute_create_address`
Kind: D -/
def createAddressData (sender : Address) (nonce : UInt64) : List UInt8 :=
  [0xd6, 0x94] ++ sender.bytes.toList ++ createNonceBytes nonce

/-- The sender and the nonce as an item.
Kind: D -/
def createItem (sender : Address) (nonce : UInt64) : Rlp :=
  .list [.bytes sender.bytes.toList, .scalar nonce.toNat]

/-- **The nonce is encoded as the rule says.** One case for each branch of the source. Kind: P -/
theorem createNonceBytes_eq (nonce : UInt64) :
    createNonceBytes nonce = (Rlp.scalar nonce.toNat).encode := by
  have hlt : nonce.toNat < 256 ^ 8 := nonce.toNat_lt
  have hzero : nonce = 0 ↔ nonce.toNat = 0 := UInt64.toNat_inj.symm
  have hsmall : nonce < 128 ↔ nonce.toNat < 128 := UInt64.lt_iff_toNat_lt
  unfold createNonceBytes
  split_ifs with h0 h128
  · rw [hzero.mp h0, Rlp.encode_scalar_zero]
  · have hpos : 0 < nonce.toNat := Nat.pos_of_ne_zero fun h => h0 (hzero.mpr h)
    rw [Rlp.encode_scalar_small hpos (hsmall.mp h128)]
    rfl
  · have hlength := length_minimalBytes_le hlt
    rw [Rlp.encode_scalar_large (Nat.not_lt.mp fun h => h128 (hsmall.mpr h)) (by omega),
      dropWhile_beBytes hlt]

/-- How long the encoded nonce is. Kind: L -/
theorem length_createNonceBytes (nonce : UInt64) :
    (createNonceBytes nonce).length ≤ 9 ∧ ((createNonceBytes nonce).length = 1 ↔ nonce < 128) := by
  have hlt : nonce.toNat < 256 ^ 8 := nonce.toNat_lt
  unfold createNonceBytes
  split_ifs with h0 h128
  · subst h0
    decide
  · exact ⟨by simp, by simp [h128]⟩
  · have hpos : 0 < nonce.toNat := Nat.pos_of_ne_zero fun h => h0 (UInt64.toNat_inj.mp h)
    have hmax := length_minimalBytes_le hlt
    have hmin := length_minimalBytes_pos hpos
    rw [dropWhile_beBytes hlt, List.length_cons]
    exact ⟨by omega, iff_of_false (by omega) h128⟩

/-- The canonical encoding differs from the hashed string in the header only. Kind: L -/
theorem encode_createItem (sender : Address) (nonce : UInt64) :
    (createItem sender nonce).encode =
      (0xc0 + UInt8.ofNat (21 + (createNonceBytes nonce).length)) ::
        (createAddressData sender nonce).tail := by
  have hlength := (length_createNonceBytes nonce).1
  have hsender : (Rlp.bytes sender.bytes.toList).encode = 0x94 :: sender.bytes.toList := by
    rw [Rlp.encode_bytes_short] <;> rw [sender.bytes.toList_length]
    · rfl
    · decide
    · decide
  have hpayload : Rlp.encodeAll [.bytes sender.bytes.toList, .scalar nonce.toNat] =
      0x94 :: (sender.bytes.toList ++ createNonceBytes nonce) := by
    rw [Rlp.encodeAll, Rlp.encodeAll, Rlp.encodeAll, hsender, ← createNonceBytes_eq,
      List.append_nil]
    rfl
  have hsize : (0x94 :: (sender.bytes.toList ++ createNonceBytes nonce)).length =
      21 + (createNonceBytes nonce).length := by
    rw [List.length_cons, List.length_append, sender.bytes.toList_length]
    omega
  rw [createItem, Rlp.encode_list_short (by rw [hpayload, hsize]; omega), hpayload, hsize]
  rfl

/-- The bytes that are hashed for a new address are the RLP encoding of sender and nonce exactly for
the nonces that RLP writes as one byte. Kind: L -/
theorem createAddressData_eq_iff (sender : Address) (nonce : UInt64) :
    createAddressData sender nonce = (createItem sender nonce).encode ↔ nonce < 128 := by
  obtain ⟨hle, hone⟩ := length_createNonceBytes nonce
  have hcons : createAddressData sender nonce = 0xd6 :: (createAddressData sender nonce).tail := rfl
  rw [encode_createItem, hcons, List.cons.injEq, List.tail_cons, and_iff_left rfl, ← hone,
    ← UInt8.toNat_inj, UInt8.toNat_add, UInt8.toNat_ofNat']
  show 214 = (192 + _ % 2 ^ 8) % 2 ^ 8 ↔ _
  omega

/-- **Contract addresses follow the Ethereum rule for nonces below 128 only.** For these, and for no
others, the string that is hashed is the canonical encoding of the sender and the nonce: whatever
the hash function is, the address is the end of the digest of that encoding.
Source: `evm/vm.rs`, `RytherVm::compute_create_address`
Kind: P -/
theorem createAddress_canonical_iff (sender : Address) (nonce : UInt64) :
    (∀ keccak256 : List UInt8 → Bytes 32, computeCreateAddress keccak256 sender nonce =
        ⟨(keccak256 (Rlp.list [.bytes sender.bytes.toList, .scalar nonce.toNat]).encode).drop 12⟩) ↔
      nonce < 128 := by
  rw [← createAddressData_eq_iff sender nonce]
  constructor
  · intro h
    -- a function that tells the hashed string from all others
    have hprobe := h fun data =>
      if data = createAddressData sender nonce then .fill 32 1 else .fill 32 0
    by_contra hne
    change (⟨(if createAddressData sender nonce = createAddressData sender nonce then
      Bytes.fill 32 1 else Bytes.fill 32 0).drop 12⟩ : Address) =
      ⟨(if (createItem sender nonce).encode = createAddressData sender nonce then
        Bytes.fill 32 1 else Bytes.fill 32 0).drop 12⟩ at hprobe
    rw [if_pos rfl, if_neg (Ne.symm hne)] at hprobe
    revert hprobe
    decide
  · intro h keccak256
    show (⟨(keccak256 (createAddressData sender nonce)).drop 12⟩ : Address) = _
    rw [h]
    rfl

/-- The digests of the hashed string and of the canonical encoding, for the sender of the tests and
the nonce 128.
Source: `evm/vm.rs`, `test_create_address_computation`
Kind: D -/
def createKeccak : List UInt8 → Bytes 32 :=
  tableHash
    [([0xd6, 0x94] ++ List.replicate 20 0 ++ [0x81, 0x80],
        0x0bea0c9e46aaaa160b5480db9ccab78c560d1dd66f82ef47c52f59e85228d9fb),
      ([0xd7, 0x94] ++ List.replicate 20 0 ++ [0x81, 0x80],
        0x233da9f98ddd79b13f1a7b59c1784bd8a0ffebd60d0bc7099dcd811b57f30bc4)]

/-- The contract that the zero address creates with nonce 128 gets another address than the rule
says: the header says 22 bytes, and 23 follow. Kind: P -/
theorem createAddress_differs_at_128 :
    (Rlp.list [.bytes (Address.fill 0).bytes.toList, .scalar 128]).encode =
        [0xd7, 0x94] ++ List.replicate 20 0 ++ [0x81, 0x80] ∧
      computeCreateAddress createKeccak (.fill 0) 128 ≠
        ⟨(createKeccak ([0xd7, 0x94] ++ List.replicate 20 0 ++ [0x81, 0x80])).drop 12⟩ := by
  refine ⟨?_, by decide +kernel⟩
  exact (encode_createItem (.fill 0) 128).trans (by decide +kernel)

end Ryther
