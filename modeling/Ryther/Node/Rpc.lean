import Ryther.Node.Blocks
import Ryther.Types.Receipt

/-!
# Block queries over RPC

The block methods of `src/node/rpc.rs` and the parsing of their parameters. Parameters are any JSON
value a client sends. A string parameter is told to be a hash by its length in bytes, has every
leading `0x` removed, and is copied into an array of 32 bytes; the copy panics on another length.

* `parseBlockParams`, `parseHashParam` — as in the source; the outer `Except` is a panic.
* `parseBlockParams_total_iff` — parsing does not panic, and returns a hash for its 64 digits only,
  exactly if the parameter is not a hash of the right length with a second `0x`.
* `parseHashParam_total` — the other parser checks the length of the bytes.
* `ethGetBlockByNumber_hexU64` — a block number in hexadecimal is understood here.
-/

namespace Ryther

open Lib

/-! ### Responses -/

/-- An error with its code and text.
Source: `node/rpc.rs`, `RpcError`
Kind: D -/
structure RpcError where
  code : ℤ
  message : String

/-- A response with a result or an error.
Source: `node/rpc.rs`, `RpcResponse`
Kind: D -/
structure RpcResponse where
  jsonrpc : String
  result : Option Json
  error : Option RpcError
  id : Json

namespace RpcResponse

/-- A response with a result.
Source: `node/rpc.rs`, `RpcResponse::success`
Kind: D -/
def success (id result : Json) : RpcResponse := ⟨"2.0", some result, none, id⟩

/-- A response with an error.
Source: `node/rpc.rs`, `RpcResponse::error`
Kind: D -/
def failure (id : Json) (code : ℤ) (message : String) : RpcResponse :=
  ⟨"2.0", none, some ⟨code, message⟩, id⟩

end RpcResponse

/-- The code for parameters that are not understood.
Source: `node/rpc.rs`, `error_codes::INVALID_PARAMS`
Kind: D -/
def invalidParams : ℤ := -32602

/-! ### Parameters -/

/-- `copy_from_slice` between slices of different lengths.
Kind: D -/
structure CopyPanic where
  source : ℕ
  destination : ℕ
  deriving DecidableEq

/-- `copy_from_slice` into an array.
Kind: D -/
def copyFromSlice (n : ℕ) (bytes : List UInt8) : Except CopyPanic (Bytes n) :=
  if h : bytes.length = n then .ok ⟨bytes, h⟩ else .error ⟨bytes.length, n⟩

/-- `s.starts_with("0x")`.
Kind: D -/
def startsWithMark (text : List Char) : Bool := ['0', 'x'].isPrefixOf text

/-- The hash in a string.
Source: `node/rpc.rs`, the first branch of `parse_block_params`
Kind: D -/
def parseBlockHash (text : List Char) : Except CopyPanic (Except String BlockId) :=
  match decodeHex (trimHexMarks text) with
  | .error _ => .ok (.error "Invalid hash")
  | .ok bytes =>
      match copyFromSlice 32 bytes with
      | .error panic => .error panic
      | .ok hash => .ok (.ok (.hash ⟨hash⟩))

/-- The number in a string.
Source: `node/rpc.rs`, the second branch of `parse_block_params`
Kind: D -/
def parseBlockNumber (text : List Char) : Except String BlockId :=
  match parseHexU64 (trimHexMarks text) with
  | .error _ => .error "Invalid number"
  | .ok n => .ok (.number n)

/-- A string is a hash, a number or a tag; numbers that are no `u64` are 0.
Source: `node/rpc.rs`, `block_id` in `parse_block_params`
Kind: D -/
def parseBlockId : Option Json → Except CopyPanic (Except String BlockId)
  | some (.str s) =>
      if startsWithMark s.toList && byteLength s.toList = 66 then parseBlockHash s.toList
      else if startsWithMark s.toList then .ok (parseBlockNumber s.toList)
      else .ok (.ok (.tag s))
  | some (.num n) => .ok (.ok (.number ((asU64 (.num n)).getD 0)))
  | some (.otherNum _) => .ok (.ok (.number 0))
  | _ => .ok (.ok (.tag "latest"))

/-- `v.as_bool()`.
Kind: D -/
def asBool : Json → Option Bool
  | .bool b => some b
  | _ => none

/-- The block and the flag for full transactions; without parameters the latest block.
Source: `node/rpc.rs`, `parse_block_params`
Kind: D -/
def parseBlockParams : Option Json → Except CopyPanic (Except String (BlockId × Bool))
  | some (.arr values) =>
      match parseBlockId values[0]? with
      | .error panic => .error panic
      | .ok (.error e) => .ok (.error e)
      | .ok (.ok blockId) => .ok (.ok (blockId, (values[1]?.bind asBool).getD false))
  | _ => .ok (.ok (.tag "latest", false))

/-- The first parameter as a hash of 32 bytes.
Source: `node/rpc.rs`, `parse_hash_param`
Kind: D -/
def parseHashParam : Option Json → Except CopyPanic (Except String (Bytes 32))
  | some (.arr (.str s :: _)) =>
      match decodeHex (trimHexMarks s.toList) with
      | .error _ => .ok (.error "Invalid hash format")
      | .ok bytes =>
          if bytes.length ≠ 32 then .ok (.error "Hash must be 32 bytes")
          else
            match copyFromSlice 32 bytes with
            | .error panic => .error panic
            | .ok hash => .ok (.ok hash)
  | some (.arr _) => .ok (.error "Missing hash")
  | _ => .ok (.error "Missing params")

/-! ### Methods -/

/-- The largest number of a block, in hexadecimal.
Source: `node/rpc.rs`, `eth_block_number`
Kind: D -/
def ethBlockNumber (blocks : BlockStore) (id : Json) : RpcResponse :=
  .success id (hexU64.encode blocks.latestNumber)

/-- The block that the parameters ask for, or `null`.
Source: `node/rpc.rs`, `eth_get_block_by_number`
Kind: D -/
def ethGetBlockByNumber (blocks : BlockStore) (id : Json) (params : Option Json) :
    Except CopyPanic RpcResponse :=
  let answer (number : UInt64) : RpcResponse :=
    .success id (((blocks.getByNumber number).map Block.toJson).getD .null)
  match parseBlockParams params with
  | .error panic => .error panic
  | .ok (.error e) => .ok (.failure id invalidParams e)
  | .ok (.ok (blockId, _)) =>
      match blockId with
      | .number n => .ok (answer n)
      | .tag tag =>
          if tag = "latest" then .ok (answer blocks.latestNumber)
          else if tag = "earliest" then .ok (answer 0)
          else if tag = "pending" then .ok (answer blocks.latestNumber)
          else .ok (.failure id invalidParams "Invalid block id")
      | .hash _ => .ok (.failure id invalidParams "Invalid block id")

/-- The block of a hash, or `null`.
Source: `node/rpc.rs`, `eth_get_block_by_hash`
Kind: D -/
def ethGetBlockByHash (blocks : BlockStore) (id : Json) (params : Option Json) :
    Except CopyPanic RpcResponse :=
  match parseHashParam params with
  | .error panic => .error panic
  | .ok (.error e) => .ok (.failure id invalidParams e)
  | .ok (.ok hash) => .ok (.success id (((blocks.getByHash hash).map Block.toJson).getD .null))

/-! ### Which parameters make the parser panic -/

/-- The mark is the two characters in front. Kind: L -/
theorem startsWithMark_iff (text : List Char) :
    startsWithMark text = true ↔ ∃ rest, text = '0' :: 'x' :: rest := by
  unfold startsWithMark
  rw [List.isPrefixOf_iff_prefix]
  exact ⟨fun ⟨rest, h⟩ => ⟨rest, h.symm⟩, fun ⟨rest, h⟩ => ⟨rest, h.symm⟩⟩

/-- The mark has two bytes. Kind: L -/
theorem byteLength_mark (text : List Char) :
    byteLength ('0' :: 'x' :: text) = 2 + byteLength text := by
  simp only [byteLength, List.map_cons, List.sum_cons]
  rw [show '0'.utf8Size = 1 from rfl, show 'x'.utf8Size = 1 from rfl]
  omega

/-- A parameter of the length of a hash with a second mark, and digits behind the last one.
Kind: D -/
def RepeatedMark (text : List Char) : Prop :=
  byteLength text = 66 ∧ ∃ rest, text = '0' :: 'x' :: '0' :: 'x' :: rest ∧
    ∀ c ∈ trimHexMarks rest, (hexValue c).isSome

/-- With one mark, what is decoded has the right length. Kind: L -/
theorem parseBlockHash_of_one_mark {text : List Char}
    (hlength : byteLength ('0' :: 'x' :: text) = 66) (hone : ¬ ∃ rest, text = '0' :: 'x' :: rest) :
    parseBlockHash ('0' :: 'x' :: text) = .ok (.error "Invalid hash") ∨
      ∃ hash : Bytes 32, parseBlockHash ('0' :: 'x' :: text) = .ok (.ok (.hash ⟨hash⟩)) ∧
        text.length = 64 ∧ text.map hexValue = (hexDigits hash.toList).map some := by
  have htrim : trimHexMarks ('0' :: 'x' :: text) = text := by
    rw [trimHexMarks, trimHexMarks.eq_2 text fun rest h => hone ⟨rest, h⟩]
  rw [byteLength_mark] at hlength
  unfold parseBlockHash
  rw [htrim]
  rcases hdecode : decodeHex text with e | bytes
  · exact .inl rfl
  · obtain ⟨hsize, hchars⟩ := byteLength_of_decodeHex hdecode
    have h32 : bytes.length = 32 := by omega
    right
    refine ⟨⟨bytes, h32⟩, ?_, by omega, (decodeHex_eq_ok_iff _ _).mp hdecode⟩
    simp only [copyFromSlice, dif_pos h32]

/-- With more marks, too little is left: the text is refused or the copy panics. Kind: L -/
theorem parseBlockHash_of_more_marks {rest : List Char}
    (hlength : byteLength ('0' :: 'x' :: '0' :: 'x' :: rest) = 66) :
    ((∀ c ∈ trimHexMarks rest, (hexValue c).isSome) ∧
        ∃ panic, parseBlockHash ('0' :: 'x' :: '0' :: 'x' :: rest) = .error panic) ∨
      ¬ (∀ c ∈ trimHexMarks rest, (hexValue c).isSome) ∧
        parseBlockHash ('0' :: 'x' :: '0' :: 'x' :: rest) = .ok (.error "Invalid hash") := by
  have htrim : trimHexMarks ('0' :: 'x' :: '0' :: 'x' :: rest) = trimHexMarks rest := by
    rw [trimHexMarks, trimHexMarks]
  rw [byteLength_mark, byteLength_mark] at hlength
  obtain ⟨k, hk⟩ := byteLength_trimHexMarks rest
  unfold parseBlockHash
  rw [htrim]
  rcases hdecode : decodeHex (trimHexMarks rest) with e | bytes
  · refine .inr ⟨fun hdigits => ?_, rfl⟩
    obtain ⟨bytes, hok⟩ := exists_decodeHex (by omega) hdigits
    rw [hdecode] at hok
    cases hok
  · have hsize := (byteLength_of_decodeHex hdecode).1
    have hne : bytes.length ≠ 32 := by omega
    refine .inl ⟨isSome_of_map_hexValue ((decodeHex_eq_ok_iff _ _).mp hdecode), ?_⟩
    refine ⟨⟨bytes.length, 32⟩, ?_⟩
    simp only [copyFromSlice, dif_neg hne]

/-- A block number is never read as a hash. Kind: L -/
theorem parseBlockNumber_ne_hash (text : List Char) (hash : TxHash) :
    parseBlockNumber text ≠ .ok (.hash hash) := by
  unfold parseBlockNumber
  rcases parseHexU64 (trimHexMarks text) with e | n <;> simp

/-- Anything but a string is a number or the latest block. Kind: L -/
theorem parseBlockId_of_not_string {param : Option Json}
    (h : ¬ ∃ s : String, param = some (.str s)) :
    ∃ blockId, parseBlockId param = .ok (.ok blockId) ∧ ∀ hash, blockId ≠ .hash hash := by
  rcases param with _ | value
  · exact ⟨_, rfl, by simp⟩
  · rcases value with _ | b | n | text | s | values | entries
    · exact ⟨_, rfl, by simp⟩
    · exact ⟨_, rfl, by simp⟩
    · exact ⟨_, rfl, by simp⟩
    · exact ⟨_, rfl, by simp⟩
    · exact absurd ⟨s, rfl⟩ h
    · exact ⟨_, rfl, by simp⟩
    · exact ⟨_, rfl, by simp⟩

/-- **What a string can give**: a panic on a repeated mark, and otherwise a result, which is a hash
only if it is the one with these 64 digits. Kind: P -/
theorem parseBlockId_string (s : String) :
    (RepeatedMark s.toList ∧ ∃ panic, parseBlockId (some (.str s)) = .error panic) ∨
      ¬ RepeatedMark s.toList ∧ ∃ result, parseBlockId (some (.str s)) = .ok result ∧
        ∀ hash, result = .ok (.hash hash) → ∃ digits, s.toList = '0' :: 'x' :: digits ∧
          digits.length = 64 ∧ digits.map hexValue = (hexDigits hash.bytes.toList).map some := by
  by_cases hmark : ∃ text, s.toList = '0' :: 'x' :: text
  · have hstarts := (startsWithMark_iff s.toList).mpr hmark
    obtain ⟨text, htext⟩ := hmark
    by_cases hlength : byteLength s.toList = 66
    · have hparse : parseBlockId (some (.str s)) = parseBlockHash s.toList := by
        simp only [parseBlockId, hstarts, hlength, decide_true, Bool.and_self, if_true]
      rw [hparse]
      by_cases hmore : ∃ rest, text = '0' :: 'x' :: rest
      · obtain ⟨rest, rfl⟩ := hmore
        rcases parseBlockHash_of_more_marks (htext ▸ hlength) with
          ⟨hdigits, hpanic⟩ | ⟨hdigits, hresult⟩
        · exact .inl ⟨⟨hlength, rest, htext, hdigits⟩, htext ▸ hpanic⟩
        · right
          refine ⟨?_, _, htext ▸ hresult, by simp⟩
          rintro ⟨-, rest', htext', hdigits'⟩
          obtain rfl : rest = rest' := by simpa using htext.symm.trans htext'
          exact hdigits hdigits'
      · right
        refine ⟨?_, ?_⟩
        · rintro ⟨-, rest, htext', -⟩
          exact hmore ⟨rest, by simpa using htext.symm.trans htext'⟩
        · rcases parseBlockHash_of_one_mark (htext ▸ hlength) hmore with
            hresult | ⟨hash, hresult, hdigits⟩
          · exact ⟨_, htext ▸ hresult, by simp⟩
          · refine ⟨_, htext ▸ hresult, ?_⟩
            rintro hash' h
            cases h
            exact ⟨text, htext, hdigits⟩
    · right
      refine ⟨fun h => hlength h.1, parseBlockNumber s.toList, ?_, ?_⟩
      · simp only [parseBlockId, hstarts, hlength, decide_false, Bool.and_false, if_true]
        rfl
      · exact fun hash h => absurd h (parseBlockNumber_ne_hash _ _)
  · have hstarts : startsWithMark s.toList = false := by
      rw [← Bool.not_eq_true, startsWithMark_iff]
      exact hmark
    right
    refine ⟨?_, .ok (.tag s), ?_, by simp⟩
    · rintro ⟨-, rest, htext, -⟩
      exact hmark ⟨_, htext⟩
    · simp only [parseBlockId, hstarts]
      rfl

/-- The first element of an array is the block, the second the flag for full transactions. Kind: L
-/
theorem parseBlockParams_arr (values : List Json) :
    parseBlockParams (some (.arr values)) =
      match parseBlockId values[0]? with
      | .error panic => .error panic
      | .ok (.error e) => .ok (.error e)
      | .ok (.ok blockId) => .ok (.ok (blockId, (values[1]?.bind asBool).getD false)) := rfl

/-- Without a string as the first parameter there is a result, and it is no hash. Kind: L -/
theorem parseBlockParams_of_not_string {params : Option Json}
    (h : ¬ ∃ (s : String) (others : List Json), params = some (.arr (.str s :: others))) :
    ∃ blockId fullTx, parseBlockParams params = .ok (.ok (blockId, fullTx)) ∧
      ∀ hash, blockId ≠ .hash hash := by
  by_cases harr : ∃ values, params = some (.arr values)
  · obtain ⟨values, rfl⟩ := harr
    have hfirst : ¬ ∃ s : String, values[0]? = some (.str s) := by
      rintro ⟨s, hs⟩
      rcases values with _ | ⟨value, others⟩
      · cases hs
      · exact h ⟨s, others, by rw [← Option.some.inj hs]⟩
    obtain ⟨blockId, hparse, hne⟩ := parseBlockId_of_not_string hfirst
    refine ⟨blockId, (values[1]?.bind asBool).getD false, ?_, hne⟩
    rw [parseBlockParams_arr, hparse]
  · refine ⟨.tag "latest", false, ?_, by simp⟩
    rcases params with _ | value
    · rfl
    · rcases value with _ | b | n | text | s | values | entries
      case arr => exact absurd ⟨values, rfl⟩ harr
      all_goals rfl

/-- **When block parameters are parsed as they should be.** Parsing gives a result or an error
without a panic, and a hash only for `0x` and the 64 digits of its bytes, exactly if the first
parameter is not a string of 66 bytes that has a second `0x` and digits behind the last one.
Source: `node/rpc.rs`, `parse_block_params`
Kind: P -/
theorem parseBlockParams_total_iff (params : Option Json) :
    ((∃ result, parseBlockParams params = .ok result) ∧
        ∀ hash fullTx, parseBlockParams params = .ok (.ok (.hash hash, fullTx)) →
          ∃ (s : String) (others : List Json) (digits : List Char),
            params = some (.arr (.str s :: others)) ∧ s.toList = '0' :: 'x' :: digits ∧
            digits.length = 64 ∧ digits.map hexValue = (hexDigits hash.bytes.toList).map some) ↔
      ¬ ∃ (s : String) (others : List Json), params = some (.arr (.str s :: others)) ∧
        RepeatedMark s.toList := by
  by_cases hstring : ∃ s others, params = some (.arr (Json.str s :: others))
  · obtain ⟨s, others, rfl⟩ := hstring
    rw [parseBlockParams_arr, show (Json.str s :: others)[0]? = some (.str s) from rfl]
    rcases parseBlockId_string s with ⟨hrepeated, panic, hparse⟩ | ⟨hnot, result, hparse, hhash⟩
    · rw [hparse]
      refine iff_of_false ?_ (not_not.mpr ⟨s, others, rfl, hrepeated⟩)
      rintro ⟨⟨result, h⟩, -⟩
      cases h
    · rw [hparse]
      refine iff_of_true ⟨?_, ?_⟩ ?_
      · rcases result with e | blockId
        · exact ⟨_, rfl⟩
        · exact ⟨_, rfl⟩
      · intro hash fullTx h
        rcases result with e | blockId
        · cases h
        · simp only [Except.ok.injEq, Prod.mk.injEq] at h
          obtain ⟨digits, htext, hdigits⟩ := hhash hash (congrArg Except.ok h.1)
          exact ⟨s, others, digits, rfl, htext, hdigits⟩
      · rintro ⟨s', others', h, hrepeated⟩
        cases h
        exact hnot hrepeated
  · obtain ⟨blockId, fullTx, hparse, hne⟩ := parseBlockParams_of_not_string hstring
    refine iff_of_true ⟨⟨_, hparse⟩, ?_⟩ ?_
    · intro hash fullTx' h
      rw [hparse] at h
      simp only [Except.ok.injEq, Prod.mk.injEq] at h
      exact absurd h.1 (hne hash)
    · rintro ⟨s, others, h, -⟩
      exact hstring ⟨s, others, h⟩

/-- Two marks and 62 zeros: 31 bytes are copied into 32. Kind: P -/
theorem parseBlockParams_panics :
    parseBlockParams (some (.arr [.str (String.ofList
      (['0', 'x', '0', 'x'] ++ List.replicate 62 '0')), .bool false])) = .error ⟨31, 32⟩ := by
  decide +kernel

/-- The parser for hashes checks the number of bytes and does not panic. Kind: P -/
theorem parseHashParam_total (params : Option Json) :
    ∃ result, parseHashParam params = .ok result := by
  unfold parseHashParam
  split
  · next s others =>
    rcases decodeHex (trimHexMarks s.toList) with e | bytes
    · exact ⟨_, rfl⟩
    · by_cases h32 : bytes.length = 32
      · refine ⟨.ok ⟨bytes, h32⟩, ?_⟩
        simp only [h32, ne_eq, not_true_eq_false, if_false, copyFromSlice, dif_pos]
      · refine ⟨.error "Hash must be 32 bytes", ?_⟩
        simp only [ne_eq, h32, not_false_eq_true, if_true]
  · exact ⟨_, rfl⟩
  · exact ⟨_, rfl⟩

/-! ### Numbers in hexadecimal -/

/-- The text of a number, as `eth_blockNumber` answers it, is read back. Kind: L -/
theorem parseBlockId_hexU64 (n : UInt64) :
    parseBlockId (some (hexU64.encode n)) = .ok (.ok (.number n)) := by
  obtain ⟨d, ds, htext, hdigits, -⟩ := natToHex_eq n.toNat
  have htrim : trimHexMarks ('0' :: 'x' :: natToHex n.toNat) = natToHex n.toNat := by
    rw [htext]
    exact trimHexMarks_digits hdigits
  have hhex : ∀ c ∈ natToHex n.toNat, (hexValue c).isSome := by
    rw [htext]
    intro c hc
    obtain ⟨d', hd', rfl⟩ := List.mem_map.mp hc
    rw [hexValue_hexChar (hdigits d' hd')]
    rfl
  have hlength : byteLength ('0' :: 'x' :: natToHex n.toNat) ≠ 66 := by
    have hle := BlockId.length_natToHex_le n
    rw [byteLength_mark, byteLength_of_digits hhex]
    omega
  have hstarts := (startsWithMark_iff _).mpr ⟨natToHex n.toNat, rfl⟩
  have hnumber : parseBlockNumber ('0' :: 'x' :: natToHex n.toNat) = .ok (.number n) := by
    unfold parseBlockNumber
    rw [htrim, parseHexU64_natToHex]
  show parseBlockId (some (.str (String.ofList ('0' :: 'x' :: natToHex n.toNat)))) = _
  simp only [parseBlockId, String.toList_ofList, hstarts, hlength, hnumber, decide_false,
    Bool.and_false, if_true]
  rfl

/-- **Block queries understand numbers in hexadecimal**: the answer is the block with that number,
or `null`.
Source: `node/rpc.rs`, `eth_get_block_by_number`
Kind: P -/
theorem ethGetBlockByNumber_hexU64 (blocks : BlockStore) (id : Json) (n : UInt64)
    (others : List Json) :
    ethGetBlockByNumber blocks id (some (.arr (hexU64.encode n :: others))) =
      .ok (.success id (((blocks.getByNumber n).map Block.toJson).getD .null)) := by
  unfold ethGetBlockByNumber
  rw [parseBlockParams_arr, List.getElem?_cons_zero, parseBlockId_hexU64]

end Ryther
