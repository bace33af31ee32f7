import Ryther.Types.Receipt

/-!
# Receipts in JSON

The derived format of `TransactionReceipt` in `src/types/block.rs`: names in camel case, the type of
the transaction under `type`, numbers in hexadecimal, and `null` for an address that is missing.

* `TransactionReceipt.toJson` — what the RPC interface returns for a receipt.
* `TransactionReceipt.toJson_injective` — it determines the receipt; nothing is left out.
-/

namespace Ryther

open Lib

/-- The fields of a receipt.
Kind: D -/
inductive ReceiptField where
  | transactionHash
  | transactionIndex
  | blockHash
  | blockNumber
  | «from»
  | «to»
  | cumulativeGasUsed
  | gasUsed
  | contractAddress
  | logs
  | logsBloom
  | status
  | effectiveGasPrice
  | txType
  deriving DecidableEq

namespace ReceiptField

/-- The fields in the order of the source.
Kind: D -/
def all : List ReceiptField :=
  [transactionHash, transactionIndex, blockHash, blockNumber, «from», «to», cumulativeGasUsed,
    gasUsed, contractAddress, logs, logsBloom, status, effectiveGasPrice, txType]

/-- The names in camel case, but for the last one.
Source: `types/block.rs`, `rename_all` and `rename` of `TransactionReceipt`
Kind: D -/
def name : ReceiptField → String
  | transactionHash => "transactionHash"
  | transactionIndex => "transactionIndex"
  | blockHash => "blockHash"
  | blockNumber => "blockNumber"
  | «from» => "from"
  | «to» => "to"
  | cumulativeGasUsed => "cumulativeGasUsed"
  | gasUsed => "gasUsed"
  | contractAddress => "contractAddress"
  | logs => "logs"
  | logsBloom => "logsBloom"
  | status => "status"
  | effectiveGasPrice => "effectiveGasPrice"
  | txType => "type"

/-- The type of a field.
Kind: D -/
def Value : ReceiptField → Type
  | transactionHash | blockHash => TxHash
  | «from» => Address
  | «to» | contractAddress => Option Address
  | logs => List BlockLog
  | logsBloom => Bytes 256
  | transactionIndex | blockNumber | cumulativeGasUsed | gasUsed | status | effectiveGasPrice
  | txType => UInt64

/-- An address that may be missing.
Kind: D -/
def optionalAddress : JsonCodec (Option Address) :=
  addressJson.option fun address => by
    simp [addressJson, JsonCodec.map, JsonCodec.byteArray, JsonCodec.list]

/-- The format of a field.
Source: `types/block.rs`, the attributes `with` of `TransactionReceipt`
Kind: D -/
def codec : (f : ReceiptField) → JsonCodec f.Value
  | transactionHash | blockHash => txHash
  | «from» => addressJson
  | «to» | contractAddress => optionalAddress
  | logs => BlockLog.json.list
  | logsBloom => hexBytes256
  | transactionIndex | blockNumber | cumulativeGasUsed | gasUsed | status | effectiveGasPrice
  | txType => hexU64

/-- The list has every field of a receipt. Kind: L -/
theorem mem_all (f : ReceiptField) : f ∈ all := by
  cases f <;> decide

/-- No two fields of a receipt have one name. Kind: L -/
theorem name_injective : Function.Injective name := by
  intro f f' h
  have hnames : (all.map name).Nodup := by decide
  exact List.inj_on_of_nodup_map hnames (mem_all f) (mem_all f') h

end ReceiptField

namespace TransactionReceipt

/-- The value of a field.
Kind: D -/
def get (receipt : TransactionReceipt) : (f : ReceiptField) → f.Value
  | .transactionHash => receipt.transactionHash
  | .transactionIndex => receipt.transactionIndex
  | .blockHash => receipt.blockHash
  | .blockNumber => receipt.blockNumber
  | .from => receipt.from
  | .to => receipt.to
  | .cumulativeGasUsed => receipt.cumulativeGasUsed
  | .gasUsed => receipt.gasUsed
  | .contractAddress => receipt.contractAddress
  | .logs => receipt.logs
  | .logsBloom => receipt.logsBloom
  | .status => receipt.status
  | .effectiveGasPrice => receipt.effectiveGasPrice
  | .txType => receipt.txType

/-- The fields of a receipt with their names and formats.
Source: `types/block.rs`, the derived `Serialize` of `TransactionReceipt`
Kind: D -/
def format : RecordFormat ReceiptField ReceiptField.Value where
  fields := ReceiptField.all
  nodup := by decide
  complete := ReceiptField.mem_all
  name := ReceiptField.name
  name_injective := ReceiptField.name_injective
  codec := ReceiptField.codec
  skip _ _ := false

/-- A receipt as an object of all its fields. Kind: D -/
def toJson (receipt : TransactionReceipt) : Json := format.encode receipt.get

/-- A receipt is determined by its fields. Kind: L -/
theorem get_injective : Function.Injective get := by
  intro receipt receipt' h
  have hfield : ∀ f, receipt.get f = receipt'.get f := fun f => congrFun h f
  obtain ⟨⟩ := receipt
  obtain ⟨⟩ := receipt'
  congr
  · exact hfield .transactionHash
  · exact hfield .transactionIndex
  · exact hfield .blockHash
  · exact hfield .blockNumber
  · exact hfield .from
  · exact hfield .to
  · exact hfield .cumulativeGasUsed
  · exact hfield .gasUsed
  · exact hfield .contractAddress
  · exact hfield .logs
  · exact hfield .logsBloom
  · exact hfield .status
  · exact hfield .effectiveGasPrice
  · exact hfield .txType

/-- **The JSON of a receipt determines it.** Kind: P -/
theorem toJson_injective : Function.Injective toJson :=
  (format.total fun _ _ => rfl).encode_injective.comp get_injective

end TransactionReceipt

end Ryther
