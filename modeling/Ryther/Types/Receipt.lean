import Mathlib.Data.Nat.Digits.Lemmas
import Ryther.Types.Block

/-!
# Receipts, logs and filters

The other types of `src/types/block.rs`: receipts of transactions with the logs they emitted, block
identifiers, and the filter of a log query. A block identifier in JSON is a number, a hash or a tag,
tried in this order; a string is never a number.

* `BlockLog.json` — the derived format of logs, with hexadecimal numbers.
* `BlockId.fromJson`, `LogFilter.fromJson` — the derived readers; a field that is missing or `null`
  is none.
* `BlockId.fromJson_hexU64` — a number written in hexadecimal is read as a tag.
-/

namespace Ryther

open Lib

/-! ### Logs and receipts -/

/-- A log as the RPC interface returns it.
Source: `types/block.rs`, `Log`
Kind: D -/
structure BlockLog where
  address : Address
  topics : List TxHash
  data : List UInt8
  blockNumber : UInt64
  transactionHash : TxHash
  transactionIndex : UInt64
  blockHash : TxHash
  logIndex : UInt64
  removed : Bool
  deriving DecidableEq

/-- The receipt of a transaction as the RPC server shows it.
Source: `types/block.rs`, `TransactionReceipt`
Kind: D -/
structure TransactionReceipt where
  transactionHash : TxHash
  transactionIndex : UInt64
  blockHash : TxHash
  blockNumber : UInt64
  «from» : Address
  «to» : Option Address
  cumulativeGasUsed : UInt64
  gasUsed : UInt64
  contractAddress : Option Address
  logs : List BlockLog
  logsBloom : Bytes 256
  status : UInt64
  effectiveGasPrice : UInt64
  txType : UInt64

/-- The fields of a log.
Kind: D -/
inductive LogField where
  | address
  | topics
  | data
  | blockNumber
  | transactionHash
  | transactionIndex
  | blockHash
  | logIndex
  | removed
  deriving DecidableEq

namespace LogField

/-- The fields in the order of the source.
Kind: D -/
def all : List LogField :=
  [address, topics, data, blockNumber, transactionHash, transactionIndex, blockHash, logIndex,
    removed]

/-- The names in camel case.
Source: `types/block.rs`, `rename_all` of `Log`
Kind: D -/
def name : LogField → String
  | address => "address"
  | topics => "topics"
  | data => "data"
  | blockNumber => "blockNumber"
  | transactionHash => "transactionHash"
  | transactionIndex => "transactionIndex"
  | blockHash => "blockHash"
  | logIndex => "logIndex"
  | removed => "removed"

/-- The type of a field.
Kind: D -/
def Value : LogField → Type
  | address => Address
  | topics => List TxHash
  | data => List UInt8
  | blockNumber | transactionIndex | logIndex => UInt64
  | transactionHash | blockHash => TxHash
  | removed => Bool

/-- The format of a field.
Source: `types/block.rs`, the attributes `with` of `Log`
Kind: D -/
def codec : (f : LogField) → JsonCodec f.Value
  | address => addressJson
  | topics => txHash.list
  | data => hexBytes
  | blockNumber | transactionIndex | logIndex => hexU64
  | transactionHash | blockHash => txHash
  | removed => .bool

/-- The list has every field of a log. Kind: L -/
theorem mem_all (f : LogField) : f ∈ all := by
  cases f <;> decide

/-- No two fields of a log have one name. Kind: L -/
theorem name_injective : Function.Injective name := by
  intro f f' h
  have hnames : (all.map name).Nodup := by decide
  exact List.inj_on_of_nodup_map hnames (mem_all f) (mem_all f') h

end LogField

namespace BlockLog

/-- A log as a function on its fields.
Kind: D -/
def equivRecord : BlockLog ≃ ((f : LogField) → f.Value) where
  toFun log
    | .address => log.address
    | .topics => log.topics
    | .data => log.data
    | .blockNumber => log.blockNumber
    | .transactionHash => log.transactionHash
    | .transactionIndex => log.transactionIndex
    | .blockHash => log.blockHash
    | .logIndex => log.logIndex
    | .removed => log.removed
  invFun r :=
    { address := r .address
      topics := r .topics
      data := r .data
      blockNumber := r .blockNumber
      transactionHash := r .transactionHash
      transactionIndex := r .transactionIndex
      blockHash := r .blockHash
      logIndex := r .logIndex
      removed := r .removed }
  left_inv _ := rfl
  right_inv r := by
    funext f
    cases f <;> rfl

/-- The fields of a log with their names and formats.
Source: `types/block.rs`, the derived `Serialize` and `Deserialize` of `Log`
Kind: D -/
def format : RecordFormat LogField LogField.Value where
  fields := LogField.all
  nodup := by decide
  complete := LogField.mem_all
  name := LogField.name
  name_injective := LogField.name_injective
  codec := LogField.codec
  skip _ _ := false

/-- A log as an object of all its fields. Kind: D -/
def json : JsonCodec BlockLog := (format.total fun _ _ => rfl).map equivRecord

end BlockLog

/-! ### Block identifiers -/

/-- A block by number, hash or tag.
Source: `types/block.rs`, `BlockId`
Kind: D -/
inductive BlockId where
  | number (n : UInt64)
  | hash (hash : TxHash)
  | tag (tag : String)
  deriving DecidableEq

/-- The `u64` that a JSON number is, if it is one.
Source: `serde_json::Number::as_u64`
Kind: D -/
def asU64 : Json → Option UInt64
  | .num n => if n < 2 ^ 64 then some (UInt64.ofNat n) else none
  | _ => none

namespace BlockId

/-- The variants are tried in the order of their declaration.
Source: `types/block.rs`, the derived `Deserialize` of `BlockId`
Kind: D -/
def fromJson (json : Json) : Except DeError BlockId :=
  match asU64 json with
  | some n => .ok (.number n)
  | none =>
      match txHash.decode json with
      | .ok txHash => .ok (.hash txHash)
      | .error _ =>
          match json with
          | .str s => .ok (.tag s)
          | _ => .error (.custom "data did not match any variant of untagged enum BlockId")

/-- A `u64` has at most sixteen hexadecimal digits. Kind: L -/
theorem length_natToHex_le (n : UInt64) : (natToHex n.toNat).length ≤ 16 := by
  unfold natToHex
  split_ifs with hzero
  · decide
  · rw [List.length_map, List.length_reverse]
    exact (Nat.digits_length_le_iff (by omega) _).mpr n.toNat_lt

/-- They are too few for a hash. Kind: L -/
theorem txHash_decode_hexU64 (n : UInt64) : ∃ e, txHash.decode (hexU64.encode n) = .error e := by
  obtain ⟨d, ds, htext, hdigits, -⟩ := natToHex_eq n.toNat
  have htrim : trimHexMarks ('0' :: 'x' :: natToHex n.toNat) = natToHex n.toNat := by
    rw [htext]
    exact trimHexMarks_digits hdigits
  have hbytes : hexBytes.decode (hexU64.encode n) =
      (decodeHex (natToHex n.toNat)).mapError .hex := by
    simp only [hexBytes, hexU64, JsonCodec.text, String.toList_ofList, htrim]
  unfold txHash JsonCodec.map hexSized
  simp only [hbytes]
  rcases hdecode : decodeHex (natToHex n.toNat) with e | bytes
  · exact ⟨.hex e, rfl⟩
  · have hlength := congrArg List.length ((decodeHex_eq_ok_iff _ _).mp hdecode)
    rw [List.length_map, List.length_map, length_hexDigits] at hlength
    have hle := length_natToHex_le n
    have hne : bytes.length ≠ 32 := by omega
    simp only [Except.mapError, dif_neg hne]
    exact ⟨_, rfl⟩

/-- **A number written in hexadecimal is read as a tag.** Kind: P -/
theorem fromJson_hexU64 (n : UInt64) :
    fromJson (hexU64.encode n) = .ok (.tag (String.ofList ('0' :: 'x' :: natToHex n.toNat))) := by
  obtain ⟨e, herror⟩ := txHash_decode_hexU64 n
  unfold fromJson
  rw [herror]
  rfl

end BlockId

/-! ### Filters -/

/-- A query for logs: a range of blocks, addresses, and topics by position.
Source: `types/block.rs`, `LogFilter`
Kind: D -/
structure LogFilter where
  fromBlock : Option BlockId
  toBlock : Option BlockId
  address : Option (List Address)
  topics : Option (List (Option (List TxHash)))

namespace LogFilter

/-- A filter that restricts nothing.
Source: `types/block.rs`, the derived `Default` of `LogFilter`
Kind: D -/
def default : LogFilter := ⟨none, none, none, none⟩

/-- A list of addresses or none.
Kind: D -/
def addressField : JsonCodec (Option (List Address)) :=
  addressJson.list.option (by simp [JsonCodec.list])

/-- For each position a list of topics or none.
Kind: D -/
def topicsField : JsonCodec (Option (List (Option (List TxHash)))) :=
  (txHash.list.option (by simp [JsonCodec.list])).list.option (by simp [JsonCodec.list])

/-- A block of a filter may be missing or `null`. Kind: D -/
def blockField : Json → Except DeError (Option BlockId) := JsonCodec.decodeOption BlockId.fromJson

/-- An entry of an object; a missing one is none.
Kind: D -/
def entry {α : Type} (entries : List (String × Json)) (name : String)
    (decode : Json → Except DeError (Option α)) : Except DeError (Option α) :=
  match entries.lookup name with
  | some value => decode value
  | none => .ok none

/-- An element of an array; a missing one is an error.
Kind: D -/
def element {α : Type} (values : List Json) (i : ℕ) (decode : Json → Except DeError α) :
    Except DeError α :=
  match values[i]? with
  | some value => decode value
  | none => .error (.invalidLength i)

/-- The entries of an object are read in the order of their names, an array in the order of the
fields.
Source: `types/block.rs`, the derived `Deserialize` of `LogFilter`
Kind: D -/
def fromJson : Json → Except DeError LogFilter
  | .obj entries => do
      let address ← entry entries "address" addressField.decode
      let fromBlock ← entry entries "fromBlock" blockField
      let toBlock ← entry entries "toBlock" blockField
      let topics ← entry entries "topics" topicsField.decode
      return ⟨fromBlock, toBlock, address, topics⟩
  | .arr values => do
      let fromBlock ← element values 0 blockField
      let toBlock ← element values 1 blockField
      let address ← element values 2 addressField.decode
      let topics ← element values 3 topicsField.decode
      if values.length ≤ 4 then return ⟨fromBlock, toBlock, address, topics⟩
      else throw (.invalidLength values.length)
  | _ => .error .invalidType

end LogFilter

end Ryther
