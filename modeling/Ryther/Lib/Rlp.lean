import Mathlib.Data.Nat.Digits.Lemmas
import Ryther.Lib.Bytes

/-!
# The recursive length encoding of byte strings and lists

An item is a byte string or a list of items. Every item is written with a header for the length of
what follows, except a single byte below `0x80`, which stands for itself. Lengths from 56 on are
themselves written as bytes behind the header. Numbers are byte strings without leading zeros.

* `minimalBytes` — the bytes of a number, most significant first, without leading zeros;
  `dropWhile_beBytes` finds them in the bytes of a fixed width.
* `Rlp.encode` — the encoding.
* `Rlp.encode_scalar_zero`, `Rlp.encode_scalar_small`, `Rlp.encode_scalar_large` — the encoding of a
  number by its size.
-/

namespace Ryther.Lib

/-! ### Numbers without leading zeros -/

/-- The bytes of a number, most significant first, without leading zeros.
Kind: D -/
def minimalBytes (n : ℕ) : List UInt8 := ((Nat.digits 256 n).map UInt8.ofNat).reverse

/-- The bytes of a fixed width are the digits and zeros behind them. Kind: L -/
theorem leBytes_eq_digits {k n : ℕ} (h : n < 256 ^ k) :
    leBytes k n = (Nat.digits 256 n).map UInt8.ofNat ++
      List.replicate (k - (Nat.digits 256 n).length) 0 := by
  induction k generalizing n with
  | zero =>
      rw [Nat.pow_zero, Nat.lt_one_iff] at h
      subst h
      rfl
  | succ k ih =>
      have hhigh : n / 256 < 256 ^ k := by
        rw [Nat.pow_succ] at h
        exact Nat.div_lt_of_lt_mul (by omega)
      rw [leBytes, ih hhigh]
      rcases Nat.eq_zero_or_pos n with rfl | hpos
      · simp [List.replicate_succ]
      · have hlow : UInt8.ofNat (n % 256) = UInt8.ofNat n := by
          apply UInt8.toNat_inj.mp
          simp
        rw [Nat.digits_def' (by omega) hpos, List.map_cons, List.cons_append, hlow,
          List.length_cons, Nat.add_sub_add_right]

/-- Zero has no bytes. Kind: L -/
theorem minimalBytes_zero : minimalBytes 0 = [] := rfl

/-- A positive number below 256 is one byte. Kind: L -/
theorem minimalBytes_small {n : ℕ} (hpos : 0 < n) (h : n < 256) :
    minimalBytes n = [UInt8.ofNat n] := by
  rw [minimalBytes, Nat.digits_of_lt 256 n (by omega) h]
  rfl

/-- A number below `256 ^ k` has at most `k` bytes. Kind: L -/
theorem length_minimalBytes_le {k n : ℕ} (h : n < 256 ^ k) : (minimalBytes n).length ≤ k := by
  rw [minimalBytes, List.length_reverse, List.length_map]
  exact (Nat.digits_length_le_iff (by omega) n).mpr h

/-- A positive number has a byte. Kind: L -/
theorem length_minimalBytes_pos {n : ℕ} (h : 0 < n) : 0 < (minimalBytes n).length := by
  rw [minimalBytes, List.length_reverse, List.length_map]
  exact List.length_pos_of_ne_nil (Nat.digits_ne_nil_iff_ne_zero.mpr (by omega))

/-- The first of the minimal bytes comes from the top digit, which is not zero. Kind: L -/
theorem head_minimalBytes_ne_zero {n : ℕ} {b : UInt8} {bs : List UInt8}
    (h : minimalBytes n = b :: bs) : b ≠ 0 := by
  have hdigits : (Nat.digits 256 n).map UInt8.ofNat = bs.reverse ++ [b] := by
    rw [← List.reverse_cons, ← h, minimalBytes, List.reverse_reverse]
  obtain ⟨low, top, hsplit, -, htop⟩ := List.map_eq_append_iff.mp hdigits
  obtain ⟨d, rfl, rfl⟩ := List.map_eq_singleton_iff.mp htop
  have hne : Nat.digits 256 n ≠ [] := by simp [hsplit]
  have hlast := Nat.getLast_digit_ne_zero 256 (Nat.digits_ne_nil_iff_ne_zero.mp hne)
  have hlt : d < 256 := Nat.digits_lt_base (by omega) (hsplit ▸ by simp : d ∈ Nat.digits 256 n)
  simp only [hsplit, List.getLast_append_singleton] at hlast
  intro hzero
  have hnat := congrArg UInt8.toNat hzero
  rw [UInt8.toNat_ofNat_of_lt' hlt] at hnat
  exact hlast hnat

/-- **Without leading zeros, the bytes of a fixed width are the minimal ones.** Kind: P -/
theorem dropWhile_beBytes {k n : ℕ} (h : n < 256 ^ k) :
    (beBytes k n).dropWhile (· = 0) = minimalBytes n := by
  rw [beBytes, leBytes_eq_digits h, List.reverse_append, List.reverse_replicate,
    List.dropWhile_append_of_pos fun b hb => by simp [List.eq_of_mem_replicate hb], ← minimalBytes]
  rcases hbytes : minimalBytes n with _ | ⟨b, bs⟩
  · rfl
  · exact List.dropWhile_cons_of_neg (by simpa using head_minimalBytes_ne_zero hbytes)

/-! ### Items -/

/-- A byte string or a list of items.
Kind: D -/
inductive Rlp where
  | bytes (data : List UInt8)
  | list (items : List Rlp)

namespace Rlp

/-- A number as an item.
Kind: D -/
def scalar (n : ℕ) : Rlp := .bytes (minimalBytes n)

/-- The header for a length; `offset` tells strings and lists apart.
Kind: D -/
def header (offset : UInt8) (length : ℕ) : List UInt8 :=
  if length < 56 then [offset + UInt8.ofNat length]
  else (offset + 55 + UInt8.ofNat (minimalBytes length).length) :: minimalBytes length

/-- A single byte below `0x80` stands for itself; other strings have a header. Kind: D -/
def encodeBytes (data : List UInt8) : List UInt8 :=
  if data.length = 1 ∧ ∀ b ∈ data, b < 0x80 then data else header 0x80 data.length ++ data

mutual

/-- A string, or a list with a header for the encodings of its items. Kind: D -/
def encode : Rlp → List UInt8
  | .bytes data => encodeBytes data
  | .list items => header 0xc0 (encodeAll items).length ++ encodeAll items

/-- The items of a list, one after the other.
Kind: D -/
def encodeAll : List Rlp → List UInt8
  | [] => []
  | item :: items => encode item ++ encodeAll items

end

/-- Up to 55 bytes the header is one byte. Kind: L -/
theorem header_short {offset : UInt8} {length : ℕ} (h : length < 56) :
    header offset length = [offset + UInt8.ofNat length] := if_pos h

/-- A string that is not a single byte, of less than 56 bytes. Kind: L -/
theorem encode_bytes_short {data : List UInt8} (hne : data.length ≠ 1) (h : data.length < 56) :
    (Rlp.bytes data).encode = (0x80 + UInt8.ofNat data.length) :: data := by
  rw [encode, encodeBytes, if_neg fun hone => hne hone.1, header_short h]
  rfl

/-- A list of at most 55 bytes has a header of one byte. Kind: L -/
theorem encode_list_short {items : List Rlp} (h : (encodeAll items).length < 56) :
    (Rlp.list items).encode =
      (0xc0 + UInt8.ofNat (encodeAll items).length) :: encodeAll items := by
  rw [encode, header_short h]
  rfl

/-- Zero is the empty string. Kind: L -/
theorem encode_scalar_zero : (scalar 0).encode = [0x80] := by
  rw [scalar, minimalBytes_zero, encode_bytes_short (by decide) (by decide)]
  rfl

/-- A small number stands for itself. Kind: L -/
theorem encode_scalar_small {n : ℕ} (hpos : 0 < n) (h : n < 128) :
    (scalar n).encode = [UInt8.ofNat n] := by
  have hbyte : UInt8.ofNat n < 0x80 := by
    rw [UInt8.lt_iff_toNat_lt, UInt8.toNat_ofNat_of_lt' (h.trans (by decide))]
    exact h
  rw [scalar, minimalBytes_small hpos (by omega), encode, encodeBytes, if_pos]
  exact ⟨rfl, fun b hb => by rwa [List.mem_singleton.mp hb]⟩

/-- Any other number has a header. Kind: L -/
theorem encode_scalar_large {n : ℕ} (h : 128 ≤ n) (hlength : (minimalBytes n).length < 56) :
    (scalar n).encode = (0x80 + UInt8.ofNat (minimalBytes n).length) :: minimalBytes n := by
  rw [scalar, encode, encodeBytes, if_neg, header_short hlength]
  · rfl
  · rintro ⟨hone, hsmall⟩
    -- a single byte is the number itself, which is too large
    rcases Nat.lt_or_ge n 256 with hlt | hge
    · rw [minimalBytes_small (by omega) hlt] at hsmall
      have hbyte := UInt8.lt_iff_toNat_lt.mp (hsmall _ (List.mem_singleton_self _))
      rw [UInt8.toNat_ofNat_of_lt' hlt] at hbyte
      exact absurd hbyte (Nat.not_lt.mpr h)
    · rw [minimalBytes, List.length_reverse, List.length_map] at hone
      have hle := (Nat.digits_length_le_iff (b := 256) (k := 1) (by omega) n).mp hone.le
      omega

end Rlp

end Ryther.Lib
