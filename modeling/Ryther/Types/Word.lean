import Ryther.Types.Basic

/-!
# The byte layout of 256-bit words

`to_be_bytes` and `from_be_bytes` of `src/types/mod.rs` go through the limbs from the top one down.
Both are described by the number that is denoted, from which it follows that they undo each other.

* `U256.ofBeBytes_toBeBytes`, `U256.toNat_fromBeBytes` — neither changes the number.
* `exact_arithmetic_and_layout` — addition and the layouts of words and keys are exact.
-/

namespace Ryther

open Lib

namespace U256

/-- **The bytes of a word denote it.** Kind: P -/
theorem ofBeBytes_toBeBytes (a : U256) : ofBeBytes a.toBeBytes.toList = a.toNat := by
  have hlimb : ∀ limb : UInt64, ofBeBytes (beBytes 8 limb.toNat) = limb.toNat := by
    intro limb
    rw [ofBeBytes_beBytes]
    exact Nat.mod_eq_of_lt limb.toNat_lt
  show ofBeBytes (beBytes 8 a.limb3.toNat ++ beBytes 8 a.limb2.toNat ++ beBytes 8 a.limb1.toNat ++
    beBytes 8 a.limb0.toNat) = _
  simp only [ofBeBytes_append, hlimb, length_beBytes, toNat]
  omega

/-- **A word read from bytes denotes what they denote.** Kind: P -/
theorem toNat_fromBeBytes (bytes : Bytes 32) :
    (fromBeBytes bytes).toNat = ofBeBytes bytes.toList := by
  have hlimb : ∀ block : List UInt8, block.length = 8 →
      (UInt64.ofNat (ofBeBytes block)).toNat = ofBeBytes block := by
    intro block hlength
    have hlt := ofBeBytes_lt block
    rw [hlength] at hlt
    exact UInt64.toNat_ofNat_of_lt' hlt
  -- the four blocks of the loop, from the front
  have hbytes : bytes.toList = bytes.toList.take 8 ++ ((bytes.toList.drop 8).take 8 ++
      ((bytes.toList.drop 16).take 8 ++ (bytes.toList.drop 24).take 8)) := by
    have hlast : (bytes.toList.drop 24).take 8 = bytes.toList.drop 24 :=
      List.take_of_length_le (by simp)
    rw [hlast, show 24 = 16 + 8 from rfl, ← List.drop_drop, List.take_append_drop,
      show 16 = 8 + 8 from rfl, ← List.drop_drop, List.take_append_drop, List.take_append_drop]
  conv_rhs => rw [hbytes]
  simp only [ofBeBytes_append, toNat, fromBeBytes]
  rw [hlimb _ (by simp), hlimb _ (by simp), hlimb _ (by simp), hlimb _ (by simp)]
  simp only [List.length_append, List.length_take, List.length_drop, bytes.toList_length,
    Nat.reduceSub, Nat.min_eq_left (show 8 ≤ 24 by decide), Nat.min_eq_left (show 8 ≤ 16 by decide),
    Nat.min_self]
  omega

/-- A number that is written as bytes is read back. Kind: L -/
theorem fromBeBytes_toBeBytes (a : U256) : fromBeBytes a.toBeBytes = a := by
  apply toNat_injective
  rw [toNat_fromBeBytes, ofBeBytes_toBeBytes]

/-- Bytes that are read as a number are written back. Kind: L -/
theorem toBeBytes_fromBeBytes (bytes : Bytes 32) : (fromBeBytes bytes).toBeBytes = bytes := by
  apply List.Vector.toList_injective
  apply eq_of_ofBeBytes_eq
  · rw [List.Vector.toList_length, List.Vector.toList_length]
  · rw [ofBeBytes_toBeBytes, toNat_fromBeBytes]

end U256

/-- **Addition of words is addition modulo `2 ^ 256`, and the layouts lose nothing.** The bytes of a
word denote it, most significant first, reading and writing them undo each other, and the bytes of
a state key determine it.
Source: `types/mod.rs`, `U256::wrapping_add`, `U256::to_be_bytes`, `U256::from_be_bytes`,
`StateKey::to_bytes`
Kind: P -/
theorem exact_arithmetic_and_layout :
    (∀ a b : U256, (a.wrappingAdd b).toNat = (a.toNat + b.toNat) % 2 ^ 256) ∧
      (∀ a : U256, ofBeBytes a.toBeBytes.toList = a.toNat) ∧
      (∀ a : U256, U256.fromBeBytes a.toBeBytes = a) ∧
      (∀ bytes : Bytes 32, (U256.fromBeBytes bytes).toBeBytes = bytes) ∧
      Function.Injective StateKey.toBytes :=
  ⟨U256.toNat_wrappingAdd, U256.ofBeBytes_toBeBytes, U256.fromBeBytes_toBeBytes,
    U256.toBeBytes_fromBeBytes, StateKey.toBytes_injective⟩

end Ryther
