import Ryther.Node.Rpc

/-!
# Log queries over RPC

The receipts and logs of `BlockStore` in `src/node/blocks.rs`, and `eth_getLogs` of
`src/node/rpc.rs`. The bounds of a query are read by the derived reader of `BlockId`, which takes a
number in hexadecimal for a tag, and a tag that is not known stands for the first block as the lower
bound and for the latest one as the upper bound.

* `LogStore.logsAt_insertReceipts` — the logs of a block are those of its receipts, in order.
* `LogStore.getLogs` — the logs of a range of blocks that match a filter.
* `ethGetLogs_hexU64` — a query with bounds in hexadecimal is one for all blocks.
* `ethGetLogs_hexU64_iff` — when its answer is that for the block it names.
-/

namespace Ryther

open Lib

/-! ### Receipts and logs -/

/-- The block store with its receipts and logs.
Source: `node/blocks.rs`, `BlockStore`
Kind: D -/
structure LogStore extends BlockStore where
  receipts : HashMap (Bytes 32) TransactionReceipt
  logsByBlock : HashMap UInt64 (List BlockLog)

/-- The loop over the topic filters, from a position on.
Source: `node/blocks.rs`, `BlockStore::get_logs`
Kind: D -/
def topicsMatch (log : BlockLog) : ℕ → List (Option (List (Bytes 32))) → Bool
  | _, [] => true
  | i, none :: filters => topicsMatch log (i + 1) filters
  | i, some allowed :: filters =>
      match log.topics[i]? with
      | none => false
      | some topic => if topic.bytes ∈ allowed then topicsMatch log (i + 1) filters else false

/-- A log passes both filters.
Source: `node/blocks.rs`, `BlockStore::get_logs`
Kind: D -/
def logMatches (addresses : Option (List Address))
    (topics : Option (List (Option (List (Bytes 32))))) (log : BlockLog) : Bool :=
  (match addresses with
    | some addrs => log.address ∈ addrs
    | none => true) &&
  match topics with
  | some filters => topicsMatch log 0 filters
  | none => true

/-- `from..=to`.
Kind: D -/
def blockRange (fromBlock toBlock : UInt64) : List UInt64 :=
  (List.range' fromBlock.toNat (toBlock.toNat + 1 - fromBlock.toNat)).map UInt64.ofNat

namespace LogStore

/-- A store without blocks, receipts and logs.
Source: `node/blocks.rs`, `BlockStore::new`
Kind: D -/
def new : LogStore := { BlockStore.new with receipts := ∅, logsByBlock := ∅ }

/-- The block enters the indices of the blocks.
Source: `node/blocks.rs`, `BlockStore::insert_block`
Kind: D -/
def insertBlock (store : LogStore) (block : Block) : LogStore :=
  { store with toBlockStore := store.toBlockStore.insertBlock block }

/-- The logs stored for a block.
Kind: D -/
def logsAt (store : LogStore) (number : UInt64) : List BlockLog :=
  (store.logsByBlock.lookup number).getD []

/-- The receipt is stored under its transaction, and its logs are appended to those of its block.
Source: `node/blocks.rs`, `BlockStore::insert_receipt`
Kind: D -/
def insertReceipt (store : LogStore) (txHash : Bytes 32) (receipt : TransactionReceipt) :
    LogStore :=
  { store with
    logsByBlock := store.logsByBlock.insert receipt.blockNumber
      (store.logsAt receipt.blockNumber ++ receipt.logs)
    receipts := store.receipts.insert txHash receipt }

/-- The receipt of a transaction.
Source: `node/blocks.rs`, `BlockStore::get_receipt`
Kind: D -/
def getReceipt (store : LogStore) (txHash : Bytes 32) : Option TransactionReceipt :=
  store.receipts.lookup txHash

/-- The logs of a range of blocks that match the filter.
Source: `node/blocks.rs`, `BlockStore::get_logs`
Kind: D -/
def getLogs (store : LogStore) (fromBlock toBlock : UInt64) (addresses : Option (List Address))
    (topics : Option (List (Option (List (Bytes 32))))) : List BlockLog :=
  (blockRange fromBlock toBlock).flatMap fun number =>
    (store.logsAt number).filter (logMatches addresses topics)

/-- The store after some receipts, each under a hash.
Kind: D -/
def insertReceipts (store : LogStore) (receipts : List (Bytes 32 × TransactionReceipt)) :
    LogStore :=
  receipts.foldl (fun store entry => store.insertReceipt entry.1 entry.2) store

/-- A receipt adds its logs to those of its block. Kind: L -/
theorem logsAt_insertReceipt (store : LogStore) (txHash : Bytes 32) (receipt : TransactionReceipt)
    (number : UInt64) :
    (store.insertReceipt txHash receipt).logsAt number =
      store.logsAt number ++ if receipt.blockNumber = number then receipt.logs else [] := by
  show ((store.logsByBlock.insert receipt.blockNumber
    (store.logsAt receipt.blockNumber ++ receipt.logs)).lookup number).getD [] = _
  split_ifs with heq
  · subst heq
    rw [AList.lookup_insert, Option.getD_some]
  · rw [AList.lookup_insert_ne (Ne.symm heq), List.append_nil]
    rfl

/-- **The logs of a block are those of its receipts**, in the order in which they were inserted.
Source: `node/blocks.rs`, `BlockStore::insert_receipt`
Kind: P -/
theorem logsAt_insertReceipts (store : LogStore)
    (receipts : List (Bytes 32 × TransactionReceipt)) (number : UInt64) :
    (store.insertReceipts receipts).logsAt number =
      store.logsAt number ++ (receipts.filter fun entry => entry.2.blockNumber = number).flatMap
        fun entry => entry.2.logs := by
  induction receipts generalizing store with
  | nil => exact (List.append_nil _).symm
  | cons entry receipts ih =>
      have hfirst := logsAt_insertReceipt store entry.1 entry.2 number
      show ((store.insertReceipt entry.1 entry.2).insertReceipts receipts).logsAt number = _
      rw [ih, hfirst, List.append_assoc]
      by_cases heq : entry.2.blockNumber = number
      · simp [heq]
      · simp [heq]

/-- The topics of a filter as `get_logs` takes them.
Source: `node/rpc.rs`, `topics` in `eth_get_logs`
Kind: D -/
def topicBytes (filter : LogFilter) : Option (List (Option (List (Bytes 32)))) :=
  filter.topics.map fun topics => topics.map fun allowed => allowed.map fun hashes =>
    hashes.map TxHash.bytes

/-- The logs stored for a block that match the address and topic filters.
Kind: D -/
def matching (store : LogStore) (filter : LogFilter) (number : UInt64) : List BlockLog :=
  (store.logsAt number).filter (logMatches filter.address (topicBytes filter))

end LogStore

/-! ### The query -/

/-- The texts of the errors of the JSON reader are a parameter.
Source: `node/rpc.rs`, `parse_log_filter`
Kind: D -/
def parseLogFilter (errorText : DeError → String) : Option Json → Except String LogFilter
  | some (.arr values) =>
      (LogFilter.fromJson (values[0]?.getD (.obj []))).mapError fun e =>
        "Invalid filter: " ++ errorText e
  | _ => .ok .default

/-- A bound of a query, with the block for everything that is not understood.
Source: `node/rpc.rs`, `from_block` and `to_block` in `eth_get_logs`
Kind: D -/
def resolveBound (latest otherwise : UInt64) : Option BlockId → UInt64
  | some (.number n) => n
  | some (.tag tag) =>
      if tag = "latest" then latest else if tag = "earliest" then 0 else otherwise
  | _ => otherwise

/-- The filter of the parameters is read, its bounds are resolved, and the matching logs are
returned.
Source: `node/rpc.rs`, `eth_get_logs`
Kind: D -/
def ethGetLogs (errorText : DeError → String) (store : LogStore) (id : Json)
    (params : Option Json) : RpcResponse :=
  match parseLogFilter errorText params with
  | .error e => .failure id invalidParams e
  | .ok filter =>
      let latest := store.latestNumber
      let fromBlock := resolveBound latest 0 filter.fromBlock
      let toBlock := resolveBound latest latest filter.toBlock
      let logs := store.getLogs fromBlock toBlock filter.address (LogStore.topicBytes filter)
      .success id (BlockLog.json.list.encode logs)

/-- A number in hexadecimal is not a tag that is understood. Kind: L -/
theorem resolveBound_hexU64 (latest otherwise n : UInt64) :
    resolveBound latest otherwise
      (some (.tag (String.ofList ('0' :: 'x' :: natToHex n.toNat)))) = otherwise := by
  have hne : ∀ tag : String, tag.toList.head? ≠ some '0' →
      String.ofList ('0' :: 'x' :: natToHex n.toNat) ≠ tag := by
    rintro tag htag rfl
    rw [String.toList_ofList] at htag
    exact htag rfl
  rw [resolveBound, if_neg (hne "latest" (by decide)), if_neg (hne "earliest" (by decide))]

/-- What is read from the entries of a filter. Kind: L -/
theorem LogFilter.entry_of_fromJson {entries : List (String × Json)} {filter : LogFilter}
    (h : LogFilter.fromJson (.obj entries) = .ok filter) :
    LogFilter.entry entries "fromBlock" LogFilter.blockField = .ok filter.fromBlock ∧
      LogFilter.entry entries "toBlock" LogFilter.blockField = .ok filter.toBlock := by
  unfold LogFilter.fromJson at h
  dsimp only at h
  rcases haddress : LogFilter.entry entries "address" LogFilter.addressField.decode with e | address
  · rw [haddress] at h
    cases h
  rcases hfrom : LogFilter.entry entries "fromBlock" LogFilter.blockField with e | fromBlock
  · rw [haddress, hfrom] at h
    cases h
  rcases hto : LogFilter.entry entries "toBlock" LogFilter.blockField with e | toBlock
  · rw [haddress, hfrom, hto] at h
    cases h
  rcases htopics : LogFilter.entry entries "topics" LogFilter.topicsField.decode with e | topics
  · rw [haddress, hfrom, hto, htopics] at h
    cases h
  rw [haddress, hfrom, hto, htopics] at h
  cases h
  exact ⟨rfl, rfl⟩

/-- A number written in hexadecimal is read as a block tag with that text. Kind: L -/
theorem LogFilter.entry_hexU64 {entries : List (String × Json)} {name : String} {n : UInt64}
    (h : entries.lookup name = some (hexU64.encode n)) :
    LogFilter.entry entries name LogFilter.blockField =
      .ok (some (.tag (String.ofList ('0' :: 'x' :: natToHex n.toNat)))) := by
  have hne : hexU64.encode n ≠ .null := by simp [hexU64, JsonCodec.text]
  unfold LogFilter.entry
  rw [h]
  show JsonCodec.decodeOption BlockId.fromJson (hexU64.encode n) = _
  rw [JsonCodec.decodeOption_of_ne_null _ hne, BlockId.fromJson_hexU64]
  rfl

section Query

variable (errorText : DeError → String) (store : LogStore) (id : Json) (n : UInt64)
  {entries : List (String × Json)} (others : List Json) {filter : LogFilter}
  (hfilter : LogFilter.fromJson (.obj entries) = .ok filter)
  (hfrom : entries.lookup "fromBlock" = some (hexU64.encode n))
  (hto : entries.lookup "toBlock" = some (hexU64.encode n))

include hfilter hfrom hto

/-- **Bounds in hexadecimal are not understood**: the answer has the matching logs of all blocks.
Kind: P -/
theorem ethGetLogs_hexU64 :
    ethGetLogs errorText store id (some (.arr (.obj entries :: others))) =
      .success id (BlockLog.json.list.encode
        ((blockRange 0 store.latestNumber).flatMap (store.matching filter))) := by
  obtain ⟨hfromEntry, htoEntry⟩ := LogFilter.entry_of_fromJson hfilter
  rw [LogFilter.entry_hexU64 hfrom, Except.ok.injEq] at hfromEntry
  rw [LogFilter.entry_hexU64 hto, Except.ok.injEq] at htoEntry
  have hparse : parseLogFilter errorText (some (.arr (.obj entries :: others))) = .ok filter := by
    show (LogFilter.fromJson (.obj entries)).mapError _ = _
    rw [hfilter]
    rfl
  unfold ethGetLogs
  rw [hparse]
  simp only [← hfromEntry, ← htoEntry, resolveBound_hexU64]
  rfl

end Query

/-! ### When the answer is right -/

/-- In a list of all different elements, only one contributes. Kind: L -/
theorem flatMap_eq_apply_iff {α β : Type} {l : List α} (hnodup : l.Nodup) {a : α} (ha : a ∈ l)
    (f : α → List β) : l.flatMap f = f a ↔ ∀ b ∈ l, b ≠ a → f b = [] := by
  obtain ⟨front, back, rfl⟩ := List.append_of_mem ha
  have hne : ∀ b ∈ front ++ back, b ≠ a := by
    rintro b hb rfl
    exact (List.nodup_middle.mp hnodup).notMem hb
  rw [List.flatMap_append, List.flatMap_cons]
  constructor
  · intro h b hb hba
    have hlength := congrArg List.length h
    simp only [List.length_append] at hlength
    have hfront : front.flatMap f = [] := List.eq_nil_of_length_eq_zero (by omega)
    have hback : back.flatMap f = [] := List.eq_nil_of_length_eq_zero (by omega)
    rcases List.mem_append.mp hb with hb | hb
    · exact List.flatMap_eq_nil_iff.mp hfront b hb
    · rcases List.mem_cons.mp hb with rfl | hb
      · exact absurd rfl hba
      · exact List.flatMap_eq_nil_iff.mp hback b hb
  · intro h
    have hfront : front.flatMap f = [] := List.flatMap_eq_nil_iff.mpr fun b hb =>
      h b (List.mem_append_left _ hb) (hne b (List.mem_append_left _ hb))
    have hback : back.flatMap f = [] := List.flatMap_eq_nil_iff.mpr fun b hb =>
      h b (List.mem_append_right _ (List.mem_cons_of_mem _ hb)) (hne b (List.mem_append_right _ hb))
    rw [hfront, hback, List.nil_append, List.append_nil]

/-- A range has the numbers from its first to its last. Kind: L -/
theorem mem_blockRange (fromBlock toBlock number : UInt64) :
    number ∈ blockRange fromBlock toBlock ↔ fromBlock ≤ number ∧ number ≤ toBlock := by
  have hlt := toBlock.toNat_lt
  unfold blockRange
  rw [List.mem_map, UInt64.le_iff_toNat_le, UInt64.le_iff_toNat_le]
  constructor
  · rintro ⟨m, hm, rfl⟩
    rw [List.mem_range'_1] at hm
    rw [UInt64.toNat_ofNat_of_lt' (show m < 2 ^ 64 by omega)]
    omega
  · intro hle
    refine ⟨number.toNat, ?_, UInt64.ofNat_toNat⟩
    rw [List.mem_range'_1]
    omega

/-- A range has no number twice. Kind: L -/
theorem nodup_blockRange (fromBlock toBlock : UInt64) : (blockRange fromBlock toBlock).Nodup := by
  have hlt := toBlock.toNat_lt
  refine List.Nodup.map_on ?_ List.nodup_range'
  intro a ha b hb heq
  rw [List.mem_range'_1] at ha hb
  have hnat := congrArg UInt64.toNat heq
  rwa [UInt64.toNat_ofNat_of_lt' (show a < 2 ^ 64 by omega),
    UInt64.toNat_ofNat_of_lt' (show b < 2 ^ 64 by omega)] at hnat

/-- **When a query with bounds in hexadecimal is answered for the block it names.** Both bounds are
the text of `n`, and the filter is read. The answer has exactly the matching logs of block `n` if
and only if no other block up to the latest one has matching logs, or `n` is above the latest block
and the blocks up to that happen to have, one after the other, the same matching logs as `n`.
Source: `node/rpc.rs`, `eth_get_logs`
Kind: P -/
theorem ethGetLogs_hexU64_iff (errorText : DeError → String) (store : LogStore) (id : Json)
    (n : UInt64) (entries : List (String × Json)) (others : List Json) (filter : LogFilter)
    (hfilter : LogFilter.fromJson (.obj entries) = .ok filter)
    (hfrom : entries.lookup "fromBlock" = some (hexU64.encode n))
    (hto : entries.lookup "toBlock" = some (hexU64.encode n)) :
    ethGetLogs errorText store id (some (.arr (.obj entries :: others))) =
        .success id (BlockLog.json.list.encode (store.matching filter n)) ↔
      (n ≤ store.latestNumber ∧
          ∀ b ≤ store.latestNumber, b ≠ n → store.matching filter b = []) ∨
        store.latestNumber < n ∧
          (blockRange 0 store.latestNumber).flatMap (store.matching filter) =
            store.matching filter n := by
  have hsuccess : ∀ {a b : Json}, RpcResponse.success id a = .success id b ↔ a = b := by
    intro a b
    simp [RpcResponse.success]
  rw [ethGetLogs_hexU64 errorText store id n others hfilter hfrom hto, hsuccess,
    BlockLog.json.list.encode_injective.eq_iff]
  rcases Nat.lt_or_ge store.latestNumber.toNat n.toNat with hlt | hle
  · have hlt' : store.latestNumber < n := UInt64.lt_iff_toNat_lt.mpr hlt
    rw [or_iff_right fun h => UInt64.not_le.mpr hlt' h.1, and_iff_right hlt']
  · have hle' : n ≤ store.latestNumber := UInt64.le_iff_toNat_le.mpr hle
    rw [or_iff_left fun h => UInt64.not_le.mpr h.1 hle', and_iff_right hle',
      flatMap_eq_apply_iff (nodup_blockRange _ _)
        ((mem_blockRange _ _ _).mpr ⟨UInt64.zero_le, hle'⟩)]
    simp only [mem_blockRange, UInt64.zero_le, true_and]

/-- A query with two bounds in hexadecimal and nothing else.
Kind: D -/
def hexQuery (n : UInt64) : List (String × Json) :=
  [("fromBlock", hexU64.encode n), ("toBlock", hexU64.encode n)]

/-- Its filter has two tags. Kind: L -/
theorem fromJson_hexQuery (n : UInt64) :
    LogFilter.fromJson (.obj (hexQuery n)) =
      .ok ⟨some (.tag (String.ofList ('0' :: 'x' :: natToHex n.toNat))),
        some (.tag (String.ofList ('0' :: 'x' :: natToHex n.toNat))), none, none⟩ := by
  have hfrom : (hexQuery n).lookup "fromBlock" = some (hexU64.encode n) := rfl
  have hto : (hexQuery n).lookup "toBlock" = some (hexU64.encode n) := rfl
  unfold LogFilter.fromJson
  dsimp only
  rw [LogFilter.entry_hexU64 hfrom, LogFilter.entry_hexU64 hto]
  rfl

/-- A log of a block, empty but for the number.
Kind: D -/
def emptyLog (number : UInt64) : BlockLog :=
  ⟨.fill 0, [], [], number, ⟨.fill 32 0⟩, 0, ⟨.fill 32 0⟩, 0, false⟩

/-- A receipt with one log.
Kind: D -/
def oneLogReceipt (number : UInt64) : TransactionReceipt :=
  { transactionHash := ⟨.fill 32 0⟩
    transactionIndex := 0
    blockHash := ⟨.fill 32 0⟩
    blockNumber := number
    «from» := .fill 0
    «to» := none
    cumulativeGasUsed := 0
    gasUsed := 0
    contractAddress := none
    logs := [emptyLog number]
    logsBloom := .fill 256 0
    status := 1
    effectiveGasPrice := 0
    txType := 0 }

/-- Blocks 1 and 2, and a receipt with one log for each number of a list.
Kind: D -/
def twoBlocks (numbers : List UInt64) : LogStore :=
  ((LogStore.new.insertBlock (BlockStore.makeBlock 1 [])).insertBlock
    (BlockStore.makeBlock 2 [])).insertReceipts
      (numbers.map fun number => (.fill 32 number.toUInt8, oneLogReceipt number))

/-- With logs in block 1 only, the query for block 1 is answered with them. Kind: L -/
theorem ethGetLogs_hexU64_one :
    ethGetLogs (fun _ => "") (twoBlocks [1]) (.num 1) (some (.arr [.obj (hexQuery 1)])) =
      .success (.num 1) (BlockLog.json.list.encode [emptyLog 1]) := by
  refine (ethGetLogs_hexU64_iff _ _ _ 1 _ _ _ (fromJson_hexQuery 1) rfl rfl).mpr (.inl ⟨?_, ?_⟩)
  · decide +kernel
  · intro b hle hne
    have hrange : blockRange 0 (twoBlocks [1]).latestNumber = [0, 1, 2] := by decide +kernel
    have hmem := (mem_blockRange 0 _ b).mpr ⟨UInt64.zero_le, hle⟩
    rw [hrange, List.mem_cons, List.mem_cons, List.mem_singleton] at hmem
    rcases hmem with rfl | rfl | rfl
    · rfl
    · exact absurd rfl hne
    · rfl

/-- **Logs of another block.** Blocks 1 and 2 have one log each. The query for block 1 is answered
with both. Kind: P -/
theorem ethGetLogs_mixes_blocks :
    ethGetLogs (fun _ => "") (twoBlocks [1, 2]) (.num 1) (some (.arr [.obj (hexQuery 1)])) =
        .success (.num 1) (BlockLog.json.list.encode [emptyLog 1, emptyLog 2]) ∧
      (twoBlocks [1, 2]).logsAt 1 = [emptyLog 1] ∧
      BlockLog.json.list.encode [emptyLog 1, emptyLog 2] ≠
        BlockLog.json.list.encode [emptyLog 1] := by
  refine ⟨?_, by decide +kernel, ?_⟩
  · rw [ethGetLogs_hexU64 _ _ _ 1 _ (fromJson_hexQuery 1) rfl rfl]
    have hlogs : ∀ filter : LogFilter, filter.address = none → filter.topics = none →
        (blockRange 0 (twoBlocks [1, 2]).latestNumber).flatMap
          ((twoBlocks [1, 2]).matching filter) = [emptyLog 1, emptyLog 2] := by
      rintro ⟨fromBlock, toBlock, address, topics⟩ rfl rfl
      rfl
    rw [hlogs _ rfl rfl]
  · intro heq
    exact absurd (BlockLog.json.list.encode_injective heq) (by decide +kernel)

end Ryther
