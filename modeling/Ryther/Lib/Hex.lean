import Mathlib.Data.Nat.Digits.Defs
import Ryther.Lib.Bytes

/-!
# Hexadecimal text

Text is a list of characters.

* `encodeHex`, `decodeHex` — two digits a byte; decoding takes digits of both cases and nothing else
  (`decodeHex_eq_ok_iff`), and undoes encoding (`decodeHex_encodeHex`).
* `natToHex`, `parseHexU64` — numbers without leading zeros; reading checks for overflow, takes a
  sign `+`, and undoes writing (`parseHexU64_natToHex`).
* `trimHexMarks` — removes every leading `0x`; hexadecimal text has none (`trimHexMarks_digits`).
-/

namespace Ryther.Lib

/-! ### Digits -/

/-- The digit for a value below 16, in lower case.
Kind: D -/
def hexChar (d : ℕ) : Char := if d < 10 then Char.ofNat (48 + d) else Char.ofNat (87 + d)

/-- The value of a digit, in either case.
Kind: D -/
def hexValue (c : Char) : Option ℕ :=
  if '0' ≤ c ∧ c ≤ '9' then some (c.toNat - 48)
  else if 'a' ≤ c ∧ c ≤ 'f' then some (c.toNat - 87)
  else if 'A' ≤ c ∧ c ≤ 'F' then some (c.toNat - 55)
  else none

/-- A written digit is read back. Kind: L -/
theorem hexValue_hexChar {d : ℕ} (h : d < 16) : hexValue (hexChar d) = some d := by
  revert d
  decide

/-- No digit is the letter of the mark or a sign. Kind: L -/
theorem hexChar_ne {d : ℕ} (h : d < 16) : hexChar d ≠ 'x' ∧ hexChar d ≠ '+' := by
  revert d
  decide

/-- Digits are below 16 and take one byte of text. Kind: L -/
theorem hexValue_eq_some {c : Char} {d : ℕ} (h : hexValue c = some d) :
    d < 16 ∧ c.utf8Size = 1 := by
  have hle : ∀ {a b : Char}, a ≤ b → a.toNat ≤ b.toNat := fun h => UInt32.le_iff_toNat_le.mp h
  have hsize : c.toNat ≤ 102 → c.utf8Size = 1 := fun hc =>
    if_pos (UInt32.le_iff_toNat_le.mpr (hc.trans (by decide)))
  have hdigits : ('0'.toNat = 48 ∧ '9'.toNat = 57) ∧ ('a'.toNat = 97 ∧ 'f'.toNat = 102) ∧
      'A'.toNat = 65 ∧ 'F'.toNat = 70 := by decide
  unfold hexValue at h
  split_ifs at h with h1 h2 h3
  · have := hle h1.1
    have := hle h1.2
    rw [← Option.some.inj h]
    exact ⟨by omega, hsize (by omega)⟩
  · have := hle h2.1
    have := hle h2.2
    rw [← Option.some.inj h]
    exact ⟨by omega, hsize (by omega)⟩
  · have := hle h3.1
    have := hle h3.2
    rw [← Option.some.inj h]
    exact ⟨by omega, hsize (by omega)⟩

/-- Remove `0x` from the front as often as it stands there.
Kind: D -/
def trimHexMarks : List Char → List Char
  | '0' :: 'x' :: text => trimHexMarks text
  | text => text

/-- Digits have no mark in front. Kind: L -/
theorem trimHexMarks_digits {ds : List ℕ} (h : ∀ d ∈ ds, d < 16) :
    trimHexMarks ('0' :: 'x' :: ds.map hexChar) = ds.map hexChar := by
  rw [trimHexMarks]
  unfold trimHexMarks
  split
  · next text htext =>
    have hmem : 'x' ∈ ds.map hexChar := by simp [htext]
    obtain ⟨d, hd, hx⟩ := List.mem_map.mp hmem
    exact absurd hx (hexChar_ne (h d hd)).1
  · rfl

/-- The number of bytes of a text.
Kind: D -/
def byteLength (text : List Char) : ℕ := (text.map Char.utf8Size).sum

/-- Every mark takes two bytes. Kind: L -/
theorem byteLength_trimHexMarks (text : List Char) :
    ∃ k, byteLength text = 2 * k + byteLength (trimHexMarks text) := by
  induction text using trimHexMarks.induct with
  | case1 text ih =>
      obtain ⟨k, hk⟩ := ih
      have hmark : byteLength ('0' :: 'x' :: text) = 2 + byteLength text := by
        simp only [byteLength, List.map_cons, List.sum_cons]
        rw [show '0'.utf8Size = 1 from rfl, show 'x'.utf8Size = 1 from rfl]
        omega
      refine ⟨k + 1, ?_⟩
      rw [trimHexMarks, hmark, hk]
      omega
  | case2 text hnone => exact ⟨0, by rw [trimHexMarks.eq_2 text hnone, Nat.mul_zero, Nat.zero_add]⟩

/-! ### Bytes -/

/-- Why text is not hexadecimal.
Kind: D -/
inductive FromHexError where
  | oddLength
  | invalidHexCharacter (index : ℕ)
  deriving DecidableEq

/-- The digits of some bytes.
Kind: D -/
def hexDigits (bytes : List UInt8) : List ℕ := bytes.flatMap fun b => [b.toNat / 16, b.toNat % 16]

/-- Two digits a byte.
Kind: D -/
def encodeHex (bytes : List UInt8) : List Char := (hexDigits bytes).map hexChar

/-- The digits of bytes are below 16. Kind: L -/
theorem hexDigits_lt {bytes : List UInt8} : ∀ d ∈ hexDigits bytes, d < 16 := by
  intro d hd
  obtain ⟨b, -, hd⟩ := List.mem_flatMap.mp hd
  have hb := b.toNat_lt
  rcases List.mem_pair.mp hd with rfl | rfl
  · omega
  · omega

/-- Pairs of digits, from the given position on.
Kind: D -/
def decodePairs : ℕ → List Char → Except FromHexError (List UInt8)
  | index, c :: c' :: text =>
      match hexValue c with
      | none => .error (.invalidHexCharacter index)
      | some high =>
          match hexValue c' with
          | none => .error (.invalidHexCharacter (index + 1))
          | some low =>
              match decodePairs (index + 2) text with
              | .error e => .error e
              | .ok bytes => .ok (UInt8.ofNat (high * 16 + low) :: bytes)
  -- behind pairs of digits only a character of two or four bytes can be left over
  | index, [_] => .error (.invalidHexCharacter index)
  | _, [] => .ok []

/-- The length is that of the text in bytes.
Kind: D -/
def decodeHex (text : List Char) : Except FromHexError (List UInt8) :=
  if (text.map Char.utf8Size).sum % 2 ≠ 0 then .error .oddLength else decodePairs 0 text

/-- Written bytes are read back. Kind: L -/
theorem decodePairs_encodeHex (bytes : List UInt8) (index : ℕ) :
    decodePairs index (encodeHex bytes) = .ok bytes := by
  induction bytes generalizing index with
  | nil => rfl
  | cons b bytes ih =>
      have hb := b.toNat_lt
      have hcons : encodeHex (b :: bytes) =
          hexChar (b.toNat / 16) :: hexChar (b.toNat % 16) :: encodeHex bytes := rfl
      have hbyte : UInt8.ofNat (b.toNat / 16 * 16 + b.toNat % 16) = b := by
        rw [Nat.div_add_mod', UInt8.ofNat_toNat]
      rw [hcons, decodePairs, hexValue_hexChar (by omega)]
      simp only
      rw [hexValue_hexChar (by omega)]
      simp only [ih, hbyte]

/-- **Decoding undoes encoding.** Kind: P -/
theorem decodeHex_encodeHex (bytes : List UInt8) : decodeHex (encodeHex bytes) = .ok bytes := by
  have hsize : ∀ d < 16, (hexChar d).utf8Size = 1 := by decide
  have hsum : ((encodeHex bytes).map Char.utf8Size).sum = 2 * bytes.length := by
    induction bytes with
    | nil => rfl
    | cons b bytes ih =>
        have hb := b.toNat_lt
        have hcons : encodeHex (b :: bytes) =
            hexChar (b.toNat / 16) :: hexChar (b.toNat % 16) :: encodeHex bytes := rfl
        rw [hcons, List.map_cons, List.map_cons, List.sum_cons, List.sum_cons, ih,
          hsize _ (by omega), hsize _ (by omega), List.length_cons]
        omega
  rw [decodeHex, if_neg (by omega)]
  exact decodePairs_encodeHex bytes 0

/-- A byte has two digits. Kind: L -/
theorem length_hexDigits (bytes : List UInt8) : (hexDigits bytes).length = 2 * bytes.length := by
  induction bytes with
  | nil => rfl
  | cons b bytes ih =>
      show (hexDigits bytes).length + 2 = _
      rw [ih, List.length_cons]
      omega

/-- Two digits in front of others are those of a byte in front of others. Kind: L -/
theorem cons_eq_map_hexDigits_iff {high low : ℕ} (hhigh : high < 16) (hlow : low < 16)
    (digits : List (Option ℕ)) (b : UInt8) (bytes : List UInt8) :
    some high :: some low :: digits = (hexDigits (b :: bytes)).map some ↔
      UInt8.ofNat (high * 16 + low) = b ∧ digits = (hexDigits bytes).map some := by
  have hbyte : (UInt8.ofNat (high * 16 + low)).toNat = high * 16 + low :=
    UInt8.toNat_ofNat_of_lt' (show high * 16 + low < 256 by omega)
  show some high :: some low :: digits =
    some (b.toNat / 16) :: some (b.toNat % 16) :: (hexDigits bytes).map some ↔ _
  rw [List.cons.injEq, List.cons.injEq, Option.some.injEq, Option.some.injEq, ← and_assoc,
    ← UInt8.toNat_inj, hbyte]
  refine and_congr_left fun _ => ?_
  omega

/-- A text is read as some bytes exactly if its characters are their digits. Kind: L -/
theorem decodePairs_eq_ok_iff (index : ℕ) (text : List Char) (bytes : List UInt8) :
    decodePairs index text = .ok bytes ↔ text.map hexValue = (hexDigits bytes).map some := by
  induction index, text using decodePairs.induct generalizing bytes with
  | case1 index c c' text hnone =>
      rw [decodePairs, hnone]
      refine iff_of_false (by simp) ?_
      rcases bytes with _ | ⟨b, bytes⟩ <;> simp [hexDigits, hnone]
  | case2 index c c' text high hhigh hnone =>
      rw [decodePairs, hhigh]
      simp only [hnone]
      refine iff_of_false (by simp) ?_
      rcases bytes with _ | ⟨b, bytes⟩ <;> simp [hexDigits, hnone]
  | case3 index c c' text high hhigh low hlow e herror ih =>
      rw [decodePairs, hhigh]
      simp only [hlow, herror]
      refine iff_of_false (by simp) ?_
      rcases bytes with _ | ⟨b, bytes⟩
      · simp [hexDigits]
      · intro h
        have hrest : text.map hexValue = (hexDigits bytes).map some :=
          (List.cons.inj (List.cons.inj h).2).2
        rw [← ih, herror] at hrest
        cases hrest
  | case4 index c c' text high hhigh low hlow rest hrest ih =>
      rw [decodePairs, hhigh]
      simp only [hlow, hrest, Except.ok.injEq, List.map_cons, hhigh]
      rcases bytes with _ | ⟨b, bytes⟩
      · exact iff_of_false (by simp) (by simp [hexDigits])
      · rw [cons_eq_map_hexDigits_iff (hexValue_eq_some hhigh).1 (hexValue_eq_some hlow).1,
          List.cons.injEq, ← ih, hrest, Except.ok.injEq]
  | case5 index c =>
      refine iff_of_false (by simp [decodePairs]) ?_
      rcases bytes with _ | ⟨b, bytes⟩ <;> simp [hexDigits]
  | case6 index =>
      rw [decodePairs, Except.ok.injEq]
      rcases bytes with _ | ⟨b, bytes⟩ <;> simp [hexDigits]

/-- Text of digits takes one byte for each. Kind: L -/
theorem byteLength_of_digits {text : List Char} (h : ∀ c ∈ text, (hexValue c).isSome) :
    byteLength text = text.length := by
  have hsizes : text.map Char.utf8Size = List.replicate text.length 1 := by
    rw [List.eq_replicate_iff]
    refine ⟨List.length_map _, fun n hn => ?_⟩
    obtain ⟨c, hc, rfl⟩ := List.mem_map.mp hn
    obtain ⟨d, hd⟩ := Option.isSome_iff_exists.mp (h c hc)
    exact (hexValue_eq_some hd).2
  rw [byteLength, hsizes, List.sum_replicate_nat, Nat.mul_one]

/-- A text with given digits consists of hexadecimal characters. Kind: L -/
theorem isSome_of_map_hexValue {text : List Char} {ds : List ℕ}
    (h : text.map hexValue = ds.map some) : ∀ c ∈ text, (hexValue c).isSome := by
  intro c hc
  have hmem : hexValue c ∈ ds.map some := h ▸ List.mem_map_of_mem hc
  obtain ⟨d, -, hd⟩ := List.mem_map.mp hmem
  rw [← hd]
  rfl

/-- **What is decoded**: text of digits only, two for each byte. Kind: P -/
theorem decodeHex_eq_ok_iff (text : List Char) (bytes : List UInt8) :
    decodeHex text = .ok bytes ↔ text.map hexValue = (hexDigits bytes).map some := by
  rw [← decodePairs_eq_ok_iff 0]
  unfold decodeHex
  split_ifs with hodd
  · refine iff_of_false (by simp) fun h => hodd ?_
    have hvalues := (decodePairs_eq_ok_iff 0 text bytes).mp h
    have hlength := congrArg List.length hvalues
    rw [List.length_map, List.length_map, length_hexDigits] at hlength
    show byteLength text % 2 = 0
    rw [byteLength_of_digits (isSome_of_map_hexValue hvalues), hlength]
    omega
  · exact Iff.rfl

/-- Decoded text has two bytes for each byte it denotes. Kind: L -/
theorem byteLength_of_decodeHex {text : List Char} {bytes : List UInt8}
    (h : decodeHex text = .ok bytes) :
    byteLength text = 2 * bytes.length ∧ text.length = 2 * bytes.length := by
  have hvalues := (decodeHex_eq_ok_iff text bytes).mp h
  have hlength := congrArg List.length hvalues
  rw [List.length_map, List.length_map, length_hexDigits] at hlength
  exact ⟨(byteLength_of_digits (isSome_of_map_hexValue hvalues)).trans hlength, hlength⟩

/-- An even number of hexadecimal characters is always read. Kind: L -/
theorem exists_decodePairs (index : ℕ) (text : List Char) (heven : text.length % 2 = 0)
    (h : ∀ c ∈ text, (hexValue c).isSome) : ∃ bytes, decodePairs index text = .ok bytes := by
  induction index, text using decodePairs.induct with
  | case1 index c c' text hnone =>
      have hc := h c List.mem_cons_self
      rw [hnone] at hc
      cases hc
  | case2 index c c' text high hhigh hnone =>
      have hc := h c' (List.mem_cons_of_mem _ List.mem_cons_self)
      rw [hnone] at hc
      cases hc
  | case3 index c c' text high hhigh low hlow e herror ih =>
      obtain ⟨bytes, hbytes⟩ := ih (by simp only [List.length_cons] at heven; omega) fun d hd =>
        h d (List.mem_cons_of_mem _ (List.mem_cons_of_mem _ hd))
      rw [herror] at hbytes
      cases hbytes
  | case4 index c c' text high hhigh low hlow rest hrest ih =>
      refine ⟨UInt8.ofNat (high * 16 + low) :: rest, ?_⟩
      rw [decodePairs, hhigh]
      simp only [hlow, hrest]
  | case5 index c => simp at heven
  | case6 index => exact ⟨[], by rw [decodePairs]⟩

/-- Text of an even number of digits is decoded. Kind: L -/
theorem exists_decodeHex {text : List Char} (heven : byteLength text % 2 = 0)
    (h : ∀ c ∈ text, (hexValue c).isSome) : ∃ bytes, decodeHex text = .ok bytes := by
  have hnot : ¬ (text.map Char.utf8Size).sum % 2 ≠ 0 := not_not.mpr heven
  rw [decodeHex, if_neg hnot]
  rw [byteLength_of_digits h] at heven
  exact exists_decodePairs 0 text heven h

/-! ### Numbers -/

/-- Why text is not a number.
Kind: D -/
inductive ParseIntError where
  | empty
  | invalidDigit
  | posOverflow
  deriving DecidableEq

/-- The digits of a number, most significant first.
Kind: D -/
def natToHex (n : ℕ) : List Char :=
  if n = 0 then [hexChar 0] else (Nat.digits 16 n).reverse.map hexChar

/-- Digits after those that denote `acc`.
Kind: D -/
def parseDigits : ℕ → List Char → Except ParseIntError ℕ
  | acc, [] => .ok acc
  | acc, c :: text =>
      match hexValue c with
      | none => .error .invalidDigit
      | some d =>
          if 2 ^ 64 ≤ acc * 16 + d then .error .posOverflow else parseDigits (acc * 16 + d) text

/-- `u64::from_str_radix` with radix 16.
Kind: D -/
def parseHexU64 : List Char → Except ParseIntError UInt64
  | [] => .error .empty
  | ['+'] => .error .invalidDigit
  | '+' :: text => (parseDigits 0 text).map UInt64.ofNat
  | text => (parseDigits 0 text).map UInt64.ofNat

/-- A number only grows while its digits are read. Kind: L -/
theorem le_foldl_digits (ds : List ℕ) (acc : ℕ) :
    acc ≤ ds.foldl (fun acc d => acc * 16 + d) acc := by
  induction ds generalizing acc with
  | nil => exact Nat.le_refl _
  | cons d ds ih =>
      have h := ih (acc * 16 + d)
      rw [List.foldl_cons]
      omega

/-- The digits of a `u64` are read without overflow. Kind: L -/
theorem parseDigits_map {ds : List ℕ} (hdigits : ∀ d ∈ ds, d < 16) (acc : ℕ)
    (hlt : ds.foldl (fun acc d => acc * 16 + d) acc < 2 ^ 64) :
    parseDigits acc (ds.map hexChar) = .ok (ds.foldl (fun acc d => acc * 16 + d) acc) := by
  induction ds generalizing acc with
  | nil => rfl
  | cons d ds ih =>
      rw [List.foldl_cons] at hlt
      have hle := le_foldl_digits ds (acc * 16 + d)
      rw [List.map_cons, parseDigits, hexValue_hexChar (hdigits d List.mem_cons_self)]
      simp only
      rw [if_neg (by omega), List.foldl_cons]
      exact ih (fun d' hd' => hdigits d' (List.mem_cons_of_mem _ hd')) _ hlt

/-- The digits of a number. Kind: L -/
theorem natToHex_eq (n : ℕ) : ∃ d ds, natToHex n = (d :: ds).map hexChar ∧
    (∀ d' ∈ d :: ds, d' < 16) ∧ (d :: ds).foldl (fun acc d => acc * 16 + d) 0 = n := by
  by_cases hn : n = 0
  · subst hn
    exact ⟨0, [], rfl, by simp, rfl⟩
  · have hfold : (Nat.digits 16 n).reverse.foldl (fun acc d => acc * 16 + d) 0 = n := by
      conv_rhs => rw [← Nat.ofDigits_digits 16 n, Nat.ofDigits_eq_foldr]
      rw [List.foldl_reverse]
      congr 1
      funext d acc
      simp only [Nat.cast_id]
      omega
    cases hdigits : (Nat.digits 16 n).reverse with
    | nil =>
        rw [List.reverse_eq_nil_iff] at hdigits
        exact absurd hdigits (Nat.digits_ne_nil_iff_ne_zero.mpr hn)
    | cons d ds =>
        refine ⟨d, ds, by rw [natToHex, if_neg hn, hdigits], fun d' hd' => ?_, hdigits ▸ hfold⟩
        rw [← hdigits, List.mem_reverse] at hd'
        exact Nat.digits_lt_base (by omega) hd'

/-- **Reading undoes writing.** Kind: P -/
theorem parseHexU64_natToHex (n : UInt64) : parseHexU64 (natToHex n.toNat) = .ok n := by
  obtain ⟨d, ds, htext, hdigits, hfold⟩ := natToHex_eq n.toNat
  have hparse := parseDigits_map hdigits 0 (by rw [hfold]; exact n.toNat_lt)
  have hplus := (hexChar_ne (hdigits d List.mem_cons_self)).2
  rw [hfold] at hparse
  rw [htext, List.map_cons] at *
  unfold parseHexU64
  split
  · next h => cases h
  · next h => exact absurd (List.cons.inj h).1 hplus
  · next h => exact absurd (List.cons.inj h).1 hplus
  · rw [hparse]
    show Except.ok (UInt64.ofNat n.toNat) = _
    rw [UInt64.ofNat_toNat]

end Ryther.Lib
