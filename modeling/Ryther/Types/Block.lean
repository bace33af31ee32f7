import Ryther.Lib.Json
import Ryther.Types.Event

/-!
# Blocks and their JSON form

`src/types/block.rs`: a block is a committed round as the RPC interface returns it. Its JSON form is
derived: an object with one entry a field, under the field's name in camel case, with hand-written
hexadecimal formats for most fields. The events of the round are left out if there are none.

* `hexU64`, `hexBytes`, `hexBytes32`, `hexBytes256`, `txHash` — the formats; each reads what it
  wrote.
* `BlockField`, `Block.format` — the fields with their names, types and formats.
* `Block.fromJson_toJson_iff` — a block comes back exactly if it has events.
-/

namespace Ryther

open Lib

/-! ### Blocks -/

/-- The hash of a transaction.
Source: `types/block.rs`, `TxHash`
Kind: D -/
structure TxHash where
  bytes : Bytes 32
  deriving DecidableEq

/-- A block as the RPC server shows it.
Source: `types/block.rs`, `Block`
Kind: D -/
structure Block where
  number : UInt64
  hash : Bytes 32
  parentHash : Bytes 32
  stateRoot : Bytes 32
  transactionsRoot : Bytes 32
  receiptsRoot : Bytes 32
  logsBloom : Bytes 256
  miner : Address
  difficulty : UInt64
  totalDifficulty : UInt64
  extraData : List UInt8
  size : UInt64
  gasLimit : UInt64
  gasUsed : UInt64
  timestamp : UInt64
  transactions : List TxHash
  uncles : List TxHash
  baseFeePerGas : UInt64
  dagEvents : List EventId
  deriving DecidableEq

/-- The first block, with zeros for all hashes.
Source: `types/block.rs`, `Block::genesis`
Kind: D -/
def Block.genesis (chainId : UInt64) : Block where
  number := 0
  hash := .fill 32 0
  parentHash := .fill 32 0
  stateRoot := .fill 32 0
  transactionsRoot := .fill 32 0
  receiptsRoot := .fill 32 0
  logsBloom := .fill 256 0
  miner := .fill 0
  difficulty := 0
  totalDifficulty := 0
  extraData := ("Ryther Genesis - Chain " ++ toString chainId).toUTF8.data.toList
  size := 0
  gasLimit := 30000000
  gasUsed := 0
  timestamp := 0
  transactions := []
  uncles := []
  baseFeePerGas := 1000000000
  dagEvents := []

/-- The block of a committed round. Its hash covers the number, the parent and the state root.
Source: `types/block.rs`, `Block::from_round`
Kind: D -/
def Block.fromRound (sha256 : List UInt8 → Bytes 32) (number : UInt64)
    (parentHash stateRoot : Bytes 32) (transactions : List (Bytes 32)) (dagEvents : List EventId)
    (leader : Address) (gasUsed timestamp : UInt64) : Block where
  number := number
  hash := sha256 (leBytes 8 number.toNat ++ parentHash.toList ++ stateRoot.toList)
  parentHash := parentHash
  stateRoot := stateRoot
  transactionsRoot :=
    if transactions.isEmpty then .fill 32 0 else sha256 (transactions.flatMap (·.toList))
  receiptsRoot := .fill 32 0
  logsBloom := .fill 256 0
  miner := leader
  difficulty := 0
  totalDifficulty := 0
  extraData := []
  size := UInt64.ofNat (transactions.length * 32)
  gasLimit := 30000000
  gasUsed := gasUsed
  timestamp := timestamp
  transactions := transactions.map TxHash.mk
  uncles := []
  baseFeePerGas := 1000000000
  dagEvents := dagEvents

/-! ### Hexadecimal formats -/

/-- A number with the mark in front, without leading zeros.
Source: `types/block.rs`, `hex_u64`
Kind: D -/
def hexU64 : JsonCodec UInt64 :=
  .text (fun value => '0' :: 'x' :: natToHex value.toNat)
    (fun s => (parseHexU64 (trimHexMarks s)).mapError .parseInt) fun value => by
      obtain ⟨d, ds, htext, hdigits, -⟩ := natToHex_eq value.toNat
      have hparse := parseHexU64_natToHex value
      rw [htext] at hparse ⊢
      rw [trimHexMarks_digits hdigits, hparse]
      rfl

/-- Bytes in hexadecimal behind a mark; several marks are read as one.
Source: `types/block.rs`, `hex_bytes`
Kind: D -/
def hexBytes : JsonCodec (List UInt8) :=
  .text (fun value => '0' :: 'x' :: encodeHex value)
    (fun s => (decodeHex (trimHexMarks s)).mapError .hex) fun value => by
      have hdigits : ∀ d ∈ hexDigits value, d < 16 := hexDigits_lt
      have htrim := trimHexMarks_digits hdigits
      show (decodeHex (trimHexMarks ('0' :: 'x' :: (hexDigits value).map hexChar))).mapError _ = _
      rw [htrim]
      show (decodeHex (encodeHex value)).mapError _ = _
      rw [decodeHex_encodeHex]
      rfl

/-- Bytes of a fixed length, with the message for another length.
Kind: D -/
def hexSized (n : ℕ) (message : String) : JsonCodec (Bytes n) where
  encode value := hexBytes.encode value.toList
  decode json :=
    match hexBytes.decode json with
    | .error e => .error e
    | .ok bytes => if h : bytes.length = n then .ok ⟨bytes, h⟩ else .error (.custom message)
  decode_encode value := by
    rw [hexBytes.decode_encode]
    exact dif_pos value.toList_length

/-- 32 bytes in hexadecimal.
Source: `types/block.rs`, `hex_bytes32`
Kind: D -/
def hexBytes32 : JsonCodec (Bytes 32) := hexSized 32 "expected 32 bytes"

/-- 256 bytes in hexadecimal.
Source: `types/block.rs`, `hex_bytes256`
Kind: D -/
def hexBytes256 : JsonCodec (Bytes 256) := hexSized 256 "expected 256 bytes"

/-- A transaction's hash in hexadecimal.
Source: `types/block.rs`, `Serialize` and `Deserialize` for `TxHash`
Kind: D -/
def txHash : JsonCodec TxHash :=
  (hexSized 32 "hash must be 32 bytes").map ⟨TxHash.bytes, TxHash.mk, fun _ => rfl, fun _ => rfl⟩

/-- An address is written as an array of its bytes.
Source: `types/mod.rs`, the derived format of `Address`
Kind: D -/
def addressJson : JsonCodec Address :=
  (JsonCodec.byteArray 20).map Address.equivBytes

/-! ### The derived format -/

/-- The fields of a block.
Kind: D -/
inductive BlockField where
  | number
  | hash
  | parentHash
  | stateRoot
  | transactionsRoot
  | receiptsRoot
  | logsBloom
  | miner
  | difficulty
  | totalDifficulty
  | extraData
  | size
  | gasLimit
  | gasUsed
  | timestamp
  | transactions
  | uncles
  | baseFeePerGas
  | dagEvents
  deriving DecidableEq

namespace BlockField

/-- The fields in the order of the source.
Kind: D -/
def all : List BlockField :=
  [number, hash, parentHash, stateRoot, transactionsRoot, receiptsRoot, logsBloom, miner,
    difficulty, totalDifficulty, extraData, size, gasLimit, gasUsed, timestamp, transactions,
    uncles, baseFeePerGas, dagEvents]

/-- The names in camel case.
Source: `types/block.rs`, `rename_all` of `Block`
Kind: D -/
def name : BlockField → String
  | number => "number"
  | hash => "hash"
  | parentHash => "parentHash"
  | stateRoot => "stateRoot"
  | transactionsRoot => "transactionsRoot"
  | receiptsRoot => "receiptsRoot"
  | logsBloom => "logsBloom"
  | miner => "miner"
  | difficulty => "difficulty"
  | totalDifficulty => "totalDifficulty"
  | extraData => "extraData"
  | size => "size"
  | gasLimit => "gasLimit"
  | gasUsed => "gasUsed"
  | timestamp => "timestamp"
  | transactions => "transactions"
  | uncles => "uncles"
  | baseFeePerGas => "baseFeePerGas"
  | dagEvents => "dagEvents"

/-- The type of a field.
Kind: D -/
def Value : BlockField → Type
  | number | difficulty | totalDifficulty | size | gasLimit | gasUsed | timestamp
  | baseFeePerGas => UInt64
  | hash | parentHash | stateRoot | transactionsRoot | receiptsRoot => Bytes 32
  | logsBloom => Bytes 256
  | miner => Address
  | extraData => List UInt8
  | transactions | uncles => List TxHash
  | dagEvents => List EventId

/-- The format of a field.
Source: `types/block.rs`, the attributes `with` of `Block`
Kind: D -/
def codec : (f : BlockField) → JsonCodec f.Value
  | number | difficulty | totalDifficulty | size | gasLimit | gasUsed | timestamp
  | baseFeePerGas => hexU64
  | hash | parentHash | stateRoot | transactionsRoot | receiptsRoot => hexBytes32
  | logsBloom => hexBytes256
  | miner => addressJson
  | extraData => hexBytes
  | transactions | uncles => txHash.list
  | dagEvents => (JsonCodec.byteArray 32).list

/-- When a field is left out.
Source: `types/block.rs`, `skip_serializing_if` of `Block`
Kind: D -/
def skip : (f : BlockField) → f.Value → Bool
  | dagEvents, events => List.isEmpty events
  | _, _ => false

/-- The list has every field of a block. Kind: L -/
theorem mem_all (f : BlockField) : f ∈ all := by
  cases f <;> decide

/-- No two fields of a block have one name. Kind: L -/
theorem name_injective : Function.Injective name := by
  intro f f' h
  have hnames : (all.map name).Nodup := by decide
  exact List.inj_on_of_nodup_map hnames (mem_all f) (mem_all f') h

end BlockField

namespace Block

/-- The fields of a block with their names and formats.
Source: `types/block.rs`, the derived `Serialize` and `Deserialize` of `Block`
Kind: D -/
def format : RecordFormat BlockField BlockField.Value where
  fields := BlockField.all
  nodup := by decide
  complete := BlockField.mem_all
  name := BlockField.name
  name_injective := BlockField.name_injective
  codec := BlockField.codec
  skip := BlockField.skip

/-- A block as a function on its fields.
Kind: D -/
def equivRecord : Block ≃ ((f : BlockField) → f.Value) where
  toFun b
    | .number => b.number
    | .hash => b.hash
    | .parentHash => b.parentHash
    | .stateRoot => b.stateRoot
    | .transactionsRoot => b.transactionsRoot
    | .receiptsRoot => b.receiptsRoot
    | .logsBloom => b.logsBloom
    | .miner => b.miner
    | .difficulty => b.difficulty
    | .totalDifficulty => b.totalDifficulty
    | .extraData => b.extraData
    | .size => b.size
    | .gasLimit => b.gasLimit
    | .gasUsed => b.gasUsed
    | .timestamp => b.timestamp
    | .transactions => b.transactions
    | .uncles => b.uncles
    | .baseFeePerGas => b.baseFeePerGas
    | .dagEvents => b.dagEvents
  invFun r :=
    { number := r .number
      hash := r .hash
      parentHash := r .parentHash
      stateRoot := r .stateRoot
      transactionsRoot := r .transactionsRoot
      receiptsRoot := r .receiptsRoot
      logsBloom := r .logsBloom
      miner := r .miner
      difficulty := r .difficulty
      totalDifficulty := r .totalDifficulty
      extraData := r .extraData
      size := r .size
      gasLimit := r .gasLimit
      gasUsed := r .gasUsed
      timestamp := r .timestamp
      transactions := r .transactions
      uncles := r .uncles
      baseFeePerGas := r .baseFeePerGas
      dagEvents := r .dagEvents }
  left_inv _ := rfl
  right_inv r := by
    funext f
    cases f <;> rfl

/-- A block as an object.
Source: `types/block.rs`, `Serialize` of `Block`
Kind: D -/
def toJson (b : Block) : Json := format.encode (equivRecord b)

/-- A block from an object.
Source: `types/block.rs`, `Deserialize` of `Block`
Kind: D -/
def fromJson (json : Json) : Except DeError Block := (format.decode json).map equivRecord.symm

/-- Only the events can be left out. Kind: L -/
theorem skip_equivRecord (b : Block) (f : BlockField) :
    format.skip f (equivRecord b f) = true ↔ f = .dagEvents ∧ b.dagEvents = [] := by
  cases f with
  | dagEvents =>
      show List.isEmpty b.dagEvents = true ↔ _
      simp
  | _ => exact iff_of_false nofun nofun

/-- **Which blocks come back.**
Source: `types/block.rs`, `Block`
Kind: P -/
theorem fromJson_toJson_iff (b : Block) : fromJson b.toJson = .ok b ↔ b.dagEvents ≠ [] := by
  have hrecord : fromJson b.toJson = .ok b ↔
      format.decode (format.encode (equivRecord b)) = .ok (equivRecord b) := by
    unfold fromJson toJson
    cases format.decode (format.encode (equivRecord b)) with
    | error e => exact iff_of_false nofun nofun
    | ok record =>
        show Except.ok (equivRecord.symm record) = .ok b ↔ _
        rw [Except.ok.injEq, Except.ok.injEq, Equiv.symm_apply_eq]
  rw [hrecord, format.decode_encode_iff]
  constructor
  · intro h hempty
    have hskip := (skip_equivRecord b .dagEvents).mpr ⟨rfl, hempty⟩
    rw [h .dagEvents] at hskip
    cases hskip
  · intro h f
    by_contra hskip
    exact h ((skip_equivRecord b f).mp (by simpa using hskip)).2

/-- A block without events misses the entry for them. Kind: L -/
theorem fromJson_toJson_of_empty {b : Block} (h : b.dagEvents = []) :
    fromJson b.toJson = .error (.missingField "dagEvents") := by
  have hskip := (skip_equivRecord b .dagEvents).mpr ⟨rfl, h⟩
  obtain ⟨f, hf, herror⟩ := format.finish_eq_error hskip
  obtain ⟨rfl, -⟩ := (skip_equivRecord b f).mp hf
  unfold fromJson toJson
  rw [format.decode_encode, herror]
  rfl

/-- **The genesis block cannot be read back.** Kind: P -/
theorem genesis_does_not_come_back :
    fromJson (genesis 1).toJson = .error (.missingField "dagEvents") :=
  fromJson_toJson_of_empty rfl

end Block

end Ryther
