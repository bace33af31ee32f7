import Ryther.Node.Logs
import Ryther.Types.ReceiptFormat

/-!
# What the chain queries answer

The queries of `src/node/rpc.rs` for transactions, receipts and logs, over the store of
`src/node/blocks.rs` after any sequence of insertions of blocks and receipts.

* `LogStore.ofOps` — the store after some insertions; the blocks, receipts and logs in it are read
  off the insertions.
* `transaction_found_unless_replaced` — a transaction is located in the block with it that was
  inserted last, unless another block took the place of that one since.
* `receipt_answer_determined` — a receipt is answered with the one inserted last, and the answer
  determines it.
* `logs_of_range` — a range of blocks has the matching logs of the receipts for it, each as often
  as its receipts were inserted.
-/

namespace Ryther

open Lib

/-! ### Insertions -/

/-- A call that adds to the store.
Source: `node/blocks.rs`, `BlockStore::insert_block` and `BlockStore::insert_receipt`
Kind: D -/
inductive StoreOp where
  | block (block : Block)
  | receipt (txHash : Bytes 32) (receipt : TransactionReceipt)

namespace StoreOp

/-- The block of an operation that inserts one. Kind: D -/
def block? : StoreOp → Option Block
  | .block b => some b
  | .receipt _ _ => none

/-- The receipt of an operation that inserts one, with its transaction. Kind: D -/
def receipt? : StoreOp → Option (Bytes 32 × TransactionReceipt)
  | .block _ => none
  | .receipt txHash r => some (txHash, r)

/-- The blocks that are inserted.
Kind: D -/
def blocks (ops : List StoreOp) : List Block := ops.filterMap block?

/-- The receipts that are inserted, each with its hash.
Kind: D -/
def receipts (ops : List StoreOp) : List (Bytes 32 × TransactionReceipt) := ops.filterMap receipt?

end StoreOp

namespace LogStore

/-- The store after a call.
Kind: D -/
def step (store : LogStore) : StoreOp → LogStore
  | .block b => store.insertBlock b
  | .receipt txHash r => store.insertReceipt txHash r

/-- The store after some calls.
Kind: D -/
def ofOps (ops : List StoreOp) : LogStore := ops.foldl step .new

/-- What is in a store: the blocks, under each hash the receipt inserted last, and for each block
the logs of its receipts.
Kind: D -/
structure Holds (store : LogStore) (ops : List StoreOp) : Prop where
  blocks_eq : store.toBlockStore = .ofBlocks (StoreOp.blocks ops)
  getReceipt_eq : ∀ hash, store.getReceipt hash =
    (((StoreOp.receipts ops).filter fun entry => entry.1 = hash).getLast?).map Prod.snd
  logsAt_eq : ∀ number, store.logsAt number =
    ((StoreOp.receipts ops).filter fun entry => entry.2.blockNumber = number).flatMap
      fun entry => entry.2.logs

/-- A receipt is found under its transaction and hides none of the others. Kind: L -/
theorem getReceipt_insertReceipt (store : LogStore) (txHash : Bytes 32) (r : TransactionReceipt)
    (hash : Bytes 32) :
    (store.insertReceipt txHash r).getReceipt hash =
      if txHash = hash then some r else store.getReceipt hash := by
  show (store.receipts.insert txHash r).lookup hash = _
  split_ifs with heq
  · subst heq
    exact AList.lookup_insert _
  · exact AList.lookup_insert_ne (Ne.symm heq)

/-- One more call. Kind: L -/
theorem Holds.step {store : LogStore} {ops : List StoreOp} (h : Holds store ops) (op : StoreOp) :
    Holds (store.step op) (ops ++ [op]) := by
  rcases op with b | ⟨txHash, r⟩
  · -- a block leaves receipts and logs as they are
    have hblocks : StoreOp.blocks (ops ++ [.block b]) = StoreOp.blocks ops ++ [b] := by
      simp [StoreOp.blocks, StoreOp.block?]
    have hreceipts : StoreOp.receipts (ops ++ [.block b]) = StoreOp.receipts ops := by
      simp [StoreOp.receipts, StoreOp.receipt?]
    refine ⟨?_, ?_, ?_⟩
    · rw [hblocks, BlockStore.ofBlocks_concat, ← h.blocks_eq]
      rfl
    · rw [hreceipts]
      exact h.getReceipt_eq
    · rw [hreceipts]
      exact h.logsAt_eq
  · have hblocks : StoreOp.blocks (ops ++ [.receipt txHash r]) = StoreOp.blocks ops := by
      simp [StoreOp.blocks, StoreOp.block?]
    have hreceipts : StoreOp.receipts (ops ++ [.receipt txHash r]) =
        StoreOp.receipts ops ++ [(txHash, r)] := by
      simp [StoreOp.receipts, StoreOp.receipt?]
    refine ⟨?_, fun hash => ?_, fun number => ?_⟩
    · rw [hblocks, ← h.blocks_eq]
      rfl
    · have hinsert := store.getReceipt_insertReceipt txHash r hash
      rw [hreceipts, List.filter_append, LogStore.step, hinsert, h.getReceipt_eq]
      by_cases heq : txHash = hash
      · simp [heq]
      · simp [heq]
    · have hinsert := store.logsAt_insertReceipt txHash r number
      rw [hreceipts, List.filter_append, List.flatMap_append, LogStore.step, hinsert, h.logsAt_eq]
      by_cases heq : r.blockNumber = number
      · simp [heq]
      · simp [heq]

/-- **What is in the store after any insertions.** Kind: L -/
theorem holds_ofOps (ops : List StoreOp) : Holds (ofOps ops) ops := by
  induction ops using List.reverseRecOn with
  | nil => exact ⟨rfl, fun _ => rfl, fun _ => rfl⟩
  | append_singleton ops op ih =>
      have hconcat : ofOps (ops ++ [op]) = (ofOps ops).step op := by
        rw [ofOps, List.foldl_append]
        rfl
      rw [hconcat]
      exact ih.step op

end LogStore

/-! ### Queries by a hash -/

/-- A query whose parameter is a hash: the value for it, or an error if there is none.
Kind: D -/
def hashQuery (id : Json) (params : Option Json) (answer : Bytes 32 → Json) :
    Except CopyPanic RpcResponse :=
  match parseHashParam params with
  | .error panic => .error panic
  | .ok (.error e) => .ok (.failure id invalidParams e)
  | .ok (.ok hash) => .ok (.success id (answer hash))

/-- The parameters of a query for a hash: its text, and anything behind it.
Kind: D -/
def hashParams (hash : Bytes 32) (others : List Json) : Option Json :=
  some (.arr (txHash.encode ⟨hash⟩ :: others))

/-- A hash as the first parameter is read back, whatever follows it. Kind: L -/
theorem parseHashParam_hashParams (hash : Bytes 32) (others : List Json) :
    parseHashParam (hashParams hash others) = .ok (.ok hash) := by
  have htrim : trimHexMarks ('0' :: 'x' :: encodeHex hash.toList) = encodeHex hash.toList :=
    trimHexMarks_digits hexDigits_lt
  have hlength : hash.toList.length = 32 := hash.toList_length
  show parseHashParam (some (.arr (.str (String.ofList
    ('0' :: 'x' :: encodeHex hash.toList)) :: others))) = _
  simp only [parseHashParam, String.toList_ofList, htrim, decodeHex_encodeHex, hlength, ne_eq,
    not_true_eq_false, if_false, copyFromSlice, dif_pos]
  rfl

/-- A query for a hash is answered for that hash. Kind: L -/
theorem hashQuery_hashParams (id : Json) (hash : Bytes 32) (others : List Json)
    (answer : Bytes 32 → Json) :
    hashQuery id (hashParams hash others) answer = .ok (.success id (answer hash)) := by
  unfold hashQuery
  rw [parseHashParam_hashParams]

/-! ### Transactions -/

/-- The object for a transaction at an index of a block.
Source: `node/rpc.rs`, `json!` in `eth_get_transaction_by_hash`
Kind: D -/
def transactionJson (hash : Bytes 32) (block : Block) (index : ℕ) : Json :=
  .obj
    [("hash", hexBytes.encode hash.toList), ("blockHash", hexBytes.encode block.hash.toList),
      ("blockNumber", hexU64.encode block.number),
      ("transactionIndex", .str (String.ofList ('0' :: 'x' :: natToHex index)))]

/-- The block that is recorded for a transaction, and the first index at which it has it.
Source: `node/rpc.rs`, the loop in `eth_get_transaction_by_hash`
Kind: D -/
def BlockStore.findTransaction (store : BlockStore) (hash : Bytes 32) : Option (Block × ℕ) := do
  let number ← store.getTxBlock hash
  let block ← store.getByNumber number
  let index ← block.transactions.findIdx? fun tx => tx.bytes = hash
  return (block, index)

/-- The transaction of a hash with its place in its block, or `null`.
Source: `node/rpc.rs`, `eth_get_transaction_by_hash`
Kind: D -/
def ethGetTransactionByHash (blocks : BlockStore) (id : Json) (params : Option Json) :
    Except CopyPanic RpcResponse :=
  hashQuery id params fun hash =>
    ((blocks.findTransaction hash).map fun found => transactionJson hash found.1 found.2).getD .null

/-- The last element with a property splits the list. Kind: L -/
theorem getLast?_filter_eq_some_iff {α : Type} {p : α → Bool} {l : List α} {b : α} :
    (l.filter p).getLast? = some b ↔
      ∃ front back, l = front ++ b :: back ∧ p b = true ∧ ∀ d ∈ back, p d = false := by
  rw [List.getLast?_filter, List.find?_eq_some_iff_append]
  constructor
  · rintro ⟨hb, back, front, heq, hback⟩
    refine ⟨front.reverse, back.reverse, ?_, hb, fun d hd => ?_⟩
    · rw [← List.reverse_reverse l, heq]
      simp
    · simpa using hback d (List.mem_reverse.mp hd)
  · rintro ⟨front, back, rfl, hb, hback⟩
    refine ⟨hb, back.reverse, front.reverse, by simp, fun d hd => ?_⟩
    simpa using hback d (List.mem_reverse.mp hd)

/-- The block inserted last with a transaction, and the last one with its number. Kind: L -/
theorem BlockStore.findTransaction_ofBlocks {blocks front back : List Block} {b : Block}
    {hash : Bytes 32} (hsplit : blocks = front ++ b :: back) (hb : ⟨hash⟩ ∈ b.transactions)
    (hback : ∀ d ∈ back, ⟨hash⟩ ∉ d.transactions) :
    (ofBlocks blocks).findTransaction hash =
      if ∃ d ∈ back, d.number = b.number then none
      else (b.transactions.findIdx? fun tx => tx.bytes = hash).map (b, ·) := by
  have hanswers := answers_ofBlocks blocks
  have htx : (ofBlocks blocks).getTxBlock hash = some b.number := by
    have hlast : (blocks.filter fun b => ⟨hash⟩ ∈ b.transactions).getLast? = some b :=
      getLast?_filter_eq_some_iff.mpr
        ⟨front, back, hsplit, by simpa using hb, by simpa using hback⟩
    rw [hanswers.getTxBlock_eq, hlast]
    rfl
  unfold findTransaction
  rw [htx]
  show ((ofBlocks blocks).getByNumber b.number).bind _ = _
  rw [hanswers.getByNumber_eq]
  split_ifs with hreplaced
  · -- the block that took the place does not have the transaction
    obtain ⟨d, hd, hnumber⟩ := hreplaced
    have hmem : d ∈ back.filter fun b' => b'.number = b.number :=
      List.mem_filter.mpr ⟨hd, decide_eq_true hnumber⟩
    obtain ⟨c, hc⟩ := Option.isSome_iff_exists.mp
      (List.getLast?_isSome.mpr (List.ne_nil_of_mem hmem))
    have hlast : (blocks.filter fun b' => b'.number = b.number).getLast? = some c := by
      rw [hsplit, List.filter_append, List.filter_cons_of_pos (by simp), List.getLast?_append,
        List.getLast?_cons, hc]
      rfl
    have hcback : c ∈ back := List.mem_of_mem_filter (List.mem_of_getLast? hc)
    rw [hlast]
    show (c.transactions.findIdx? fun tx => tx.bytes = hash).bind _ = none
    have hnone : c.transactions.findIdx? (fun tx => tx.bytes = hash) = none := by
      rw [List.findIdx?_eq_none_iff]
      intro tx htx
      refine decide_eq_false fun heq => hback c hcback ?_
      rwa [← heq]
    rw [hnone]
    rfl
  · have hlast : (blocks.filter fun b' => b'.number = b.number).getLast? = some b := by
      refine getLast?_filter_eq_some_iff.mpr ⟨front, back, hsplit, by simp, fun d hd => ?_⟩
      exact decide_eq_false fun heq => hreplaced ⟨d, hd, heq⟩
    rw [hlast]
    show (b.transactions.findIdx? fun tx => tx.bytes = hash).bind _ = _
    rw [Option.map_eq_bind]
    rfl

/-- Without a block that is the last with the transaction and kept its number, nothing is found.
Kind: L -/
theorem BlockStore.findTransaction_eq_none {blocks : List Block} {hash : Bytes 32}
    (h : ∀ front b back, blocks = front ++ b :: back → ⟨hash⟩ ∈ b.transactions →
      (∀ d ∈ back, ⟨hash⟩ ∉ d.transactions) → ∃ d ∈ back, d.number = b.number) :
    (ofBlocks blocks).findTransaction hash = none := by
  rcases hlast : (blocks.filter fun b => ⟨hash⟩ ∈ b.transactions).getLast? with _ | b
  · unfold findTransaction
    rw [(answers_ofBlocks blocks).getTxBlock_eq, hlast]
    rfl
  · obtain ⟨front, back, hsplit, hb, hback⟩ := getLast?_filter_eq_some_iff.mp hlast
    have hb' : ⟨hash⟩ ∈ b.transactions := of_decide_eq_true hb
    have hback' : ∀ d ∈ back, ⟨hash⟩ ∉ d.transactions := fun d hd => of_decide_eq_false (hback d hd)
    rw [findTransaction_ofBlocks hsplit hb' hback', if_pos (h front b back hsplit hb' hback')]

/-- A transaction of a block has a first index. Kind: L -/
theorem exists_findIdx?_of_mem {txs : List TxHash} {hash : Bytes 32} (h : ⟨hash⟩ ∈ txs) :
    ∃ i, txs.findIdx? (fun tx => tx.bytes = hash) = some i ∧ txs[i]? = some ⟨hash⟩ ∧
      ∀ j < i, txs[j]? ≠ some ⟨hash⟩ := by
  rcases hfind : txs.findIdx? (fun tx => tx.bytes = hash) with _ | i
  · have hnone := List.findIdx?_eq_none_iff.mp hfind ⟨hash⟩ h
    simp at hnone
  · obtain ⟨hlt, hat, hfirst⟩ := List.findIdx?_eq_some_iff_getElem.mp hfind
    have heq : txs[i] = ⟨hash⟩ := by
      rw [← of_decide_eq_true hat]
    refine ⟨i, hfind, ?_, fun j hj hsome => ?_⟩
    · rw [List.getElem?_eq_getElem hlt, heq]
    · rw [List.getElem?_eq_getElem (hj.trans hlt), Option.some.injEq] at hsome
      exact hfirst j hj (decide_eq_true (congrArg TxHash.bytes hsome))

/-- **A transaction is found in the block that was inserted last with it, unless that block was
replaced.** After any insertions the query for a hash is answered, without an error, in one of two
ways. Either some inserted block has the transaction, no later block has it, and none has taken the
number of that block: the answer is the place in it, at the first index. Or the answer is `null`:
then every block that was the last with the transaction has lost its number to a later one, also
when an earlier block with the transaction is still there.
Source: `node/rpc.rs`, `eth_get_transaction_by_hash`; `node/blocks.rs`, `BlockStore::insert_block`
Kind: P -/
theorem transaction_found_unless_replaced (ops : List StoreOp) (id : Json) (hash : Bytes 32)
    (others : List Json) :
    let blocks := StoreOp.blocks ops
    let answer := ethGetTransactionByHash (LogStore.ofOps ops).toBlockStore id
      (hashParams hash others)
    (∃ front b back i, blocks = front ++ b :: back ∧
        (∀ d ∈ back, ⟨hash⟩ ∉ d.transactions ∧ d.number ≠ b.number) ∧
        b.transactions[i]? = some ⟨hash⟩ ∧ (∀ j < i, b.transactions[j]? ≠ some ⟨hash⟩) ∧
        answer = .ok (.success id (transactionJson hash b i))) ∨
      answer = .ok (.success id .null) ∧
        ∀ front b back, blocks = front ++ b :: back → ⟨hash⟩ ∈ b.transactions →
          (∀ d ∈ back, ⟨hash⟩ ∉ d.transactions) → ∃ d ∈ back, d.number = b.number := by
  intro blocks answer
  have hanswer : answer = .ok (.success id (((BlockStore.ofBlocks blocks).findTransaction hash).map
      (fun found => transactionJson hash found.1 found.2) |>.getD .null)) := by
    show ethGetTransactionByHash _ _ _ = _
    rw [ethGetTransactionByHash, hashQuery_hashParams, (LogStore.holds_ofOps ops).blocks_eq]
  by_cases hfound : ∃ front b back, blocks = front ++ b :: back ∧ ⟨hash⟩ ∈ b.transactions ∧
      (∀ d ∈ back, ⟨hash⟩ ∉ d.transactions) ∧ ¬ ∃ d ∈ back, d.number = b.number
  · obtain ⟨front, b, back, hsplit, hb, hback, hkept⟩ := hfound
    obtain ⟨i, hi, hat, hfirst⟩ := exists_findIdx?_of_mem hb
    left
    refine ⟨front, b, back, i, hsplit, fun d hd => ⟨hback d hd, fun h => hkept ⟨d, hd, h⟩⟩, hat,
      hfirst, ?_⟩
    rw [hanswer, BlockStore.findTransaction_ofBlocks hsplit hb hback, if_neg hkept, hi]
    rfl
  · have hreplaced : ∀ front b back, blocks = front ++ b :: back → ⟨hash⟩ ∈ b.transactions →
        (∀ d ∈ back, ⟨hash⟩ ∉ d.transactions) → ∃ d ∈ back, d.number = b.number := by
      intro front b back hsplit hb hback
      by_contra hkept
      exact hfound ⟨front, b, back, hsplit, hb, hback, hkept⟩
    refine .inr ⟨?_, hreplaced⟩
    rw [hanswer, BlockStore.findTransaction_eq_none hreplaced]
    rfl

/-! ### Receipts -/

/-- The receipt of a transaction, or `null`.
Source: `node/rpc.rs`, `eth_get_transaction_receipt`
Kind: D -/
def ethGetTransactionReceipt (store : LogStore) (id : Json) (params : Option Json) :
    Except CopyPanic RpcResponse :=
  hashQuery id params fun hash =>
    ((store.getReceipt hash).map TransactionReceipt.toJson).getD .null

/-- The receipt that was inserted last under a hash.
Kind: D -/
def StoreOp.lastReceipt (ops : List StoreOp) (hash : Bytes 32) : Option TransactionReceipt :=
  (((receipts ops).filter fun entry => entry.1 = hash).getLast?).map Prod.snd

/-- A receipt is not answered like a missing one. Kind: L -/
theorem receiptJson_injective :
    Function.Injective fun receipt : Option TransactionReceipt =>
      (receipt.map TransactionReceipt.toJson).getD .null := by
  rintro (_ | r) (_ | r') h
  · rfl
  · cases h
  · cases h
  · exact congrArg some (TransactionReceipt.toJson_injective h)

/-- **A receipt is answered with the one inserted last, in full.** After any insertions the query
for a hash is answered with the receipt that was inserted last under it, or with `null`, and two
stores give one answer exactly if these receipts are the same, fields and logs included.
Source: `node/rpc.rs`, `eth_get_transaction_receipt`; `node/blocks.rs`, `BlockStore::insert_receipt`
Kind: P -/
theorem receipt_answer_determined (ops ops' : List StoreOp) (id : Json) (hash : Bytes 32)
    (others : List Json) :
    let answer (ops : List StoreOp) :=
      ethGetTransactionReceipt (LogStore.ofOps ops) id (hashParams hash others)
    answer ops = .ok (.success id
        (((StoreOp.lastReceipt ops hash).map TransactionReceipt.toJson).getD .null)) ∧
      (answer ops = answer ops' ↔
        StoreOp.lastReceipt ops hash = StoreOp.lastReceipt ops' hash) := by
  intro answer
  have hanswer : ∀ ops, answer ops = .ok (.success id
      (((StoreOp.lastReceipt ops hash).map TransactionReceipt.toJson).getD .null)) := by
    intro ops
    show ethGetTransactionReceipt _ _ _ = _
    rw [ethGetTransactionReceipt, hashQuery_hashParams, (LogStore.holds_ofOps ops).getReceipt_eq]
    rfl
  refine ⟨hanswer ops, ?_⟩
  rw [hanswer, hanswer]
  constructor
  · intro heq
    apply receiptJson_injective
    simpa [RpcResponse.success] using heq
  · intro heq
    rw [heq]

/-! ### Logs -/

/-- What a filter asks of a log: one of the addresses, and at each position with topics one of
them. Positions the filter does not have are free.
Kind: D -/
structure FilterMatches (addresses : Option (List Address))
    (topics : Option (List (Option (List (Bytes 32))))) (log : BlockLog) : Prop where
  address_mem : ∀ addrs, addresses = some addrs → log.address ∈ addrs
  topic_mem : ∀ filters, topics = some filters → ∀ (i : ℕ) (allowed : List (Bytes 32)),
    filters[i]? = some (some allowed) →
    ∃ topic, log.topics[i]? = some topic ∧ topic.bytes ∈ allowed

/-- The loop over the topics. By induction on the filters, at any position. Kind: L -/
theorem topicsMatch_iff (log : BlockLog) (filters : List (Option (List (Bytes 32)))) :
    ∀ i, topicsMatch log i filters = true ↔ ∀ (j : ℕ) (allowed : List (Bytes 32)),
      filters[j]? = some (some allowed) →
      ∃ topic, log.topics[i + j]? = some topic ∧ topic.bytes ∈ allowed := by
  induction filters with
  | nil => simp [topicsMatch]
  | cons first filters ih =>
      intro i
      -- the first position on its own, and the others moved by one
      have hsplit : ∀ P : ℕ → List (Bytes 32) → Prop,
          (∀ j allowed, (first :: filters)[j]? = some (some allowed) → P j allowed) ↔
            (∀ allowed, first = some allowed → P 0 allowed) ∧
              ∀ j allowed, filters[j]? = some (some allowed) → P (j + 1) allowed := by
        intro P
        constructor
        · intro h
          refine ⟨fun allowed heq => h 0 allowed (by simp [heq]), fun j allowed hj => ?_⟩
          exact h (j + 1) allowed (by simpa using hj)
        · rintro ⟨hzero, hsucc⟩ (_ | j) allowed hj
          · exact hzero allowed (by simpa using hj)
          · exact hsucc j allowed (by simpa using hj)
      have hrest := ih (i + 1)
      simp only [Nat.add_assoc, Nat.add_comm 1] at hrest
      rw [hsplit]
      rcases first with _ | allowed
      · rw [topicsMatch, hrest]
        simp
      · rw [topicsMatch]
        rcases htopic : log.topics[i]? with _ | topic
        · simp
        · by_cases hmem : topic.bytes ∈ allowed
          · simp [hmem, hrest]
          · simp [hmem]

/-- The test of `get_logs` is the filter. Kind: L -/
theorem logMatches_iff (addresses : Option (List Address))
    (topics : Option (List (Option (List (Bytes 32))))) (log : BlockLog) :
    logMatches addresses topics log = true ↔ FilterMatches addresses topics log := by
  unfold logMatches
  rw [Bool.and_eq_true]
  constructor
  · rintro ⟨haddress, htopics⟩
    refine ⟨?_, ?_⟩
    · rintro addrs rfl
      simpa using haddress
    · rintro filters rfl i allowed hi
      simpa using (topicsMatch_iff log filters 0).mp htopics i allowed hi
  · rintro ⟨haddress, htopics⟩
    refine ⟨?_, ?_⟩
    · rcases addresses with _ | addrs
      · rfl
      · simpa using haddress addrs rfl
    · rcases topics with _ | filters
      · rfl
      · apply (topicsMatch_iff log filters 0).mpr
        intro j allowed hj
        simpa using htopics filters rfl j allowed hj

instance (addresses : Option (List Address)) (topics : Option (List (Option (List (Bytes 32)))))
    (log : BlockLog) : Decidable (FilterMatches addresses topics log) :=
  decidable_of_iff _ (logMatches_iff addresses topics log)

/-- Elements gathered by a key, one key after the other: those with one of the keys. By induction on
the elements. Kind: L -/
theorem flatMap_keys_perm {α β κ : Type} [DecidableEq κ] (key : α → κ) (g : α → List β)
    {keys : List κ} (hnodup : keys.Nodup) (l : List α) :
    (keys.flatMap fun k => (l.filter fun a => key a = k).flatMap g).Perm
      ((l.filter fun a => key a ∈ keys).flatMap g) := by
  induction l with
  | nil => simp
  | cons a l ih =>
      have hcons : ∀ k, ((a :: l).filter fun a => key a = k).flatMap g =
          (if key a = k then g a else []) ++ (l.filter fun a => key a = k).flatMap g := by
        intro k
        by_cases heq : key a = k
        · simp [heq]
        · simp [heq]
      have hfirst : (keys.flatMap fun k => if key a = k then g a else []) =
          if key a ∈ keys then g a else [] := by
        split_ifs with hmem
        · refine ((flatMap_eq_apply_iff hnodup hmem _).mpr ?_).trans (if_pos rfl)
          exact fun k _ hne => if_neg (Ne.symm hne)
        · refine List.flatMap_eq_nil_iff.mpr fun k hk => if_neg ?_
          rintro rfl
          exact hmem hk
      have hrest : ((a :: l).filter fun a => key a ∈ keys).flatMap g =
          (if key a ∈ keys then g a else []) ++ (l.filter fun a => key a ∈ keys).flatMap g := by
        by_cases hmem : key a ∈ keys
        · simp [hmem]
        · simp [hmem]
      simp only [hcons]
      rw [hrest, ← hfirst]
      exact (List.flatMap_append_perm _ _ _).symm.trans (ih.append_left _)

/-- **No log is lost or made up.** After any insertions of blocks and receipts, the logs of a range
of blocks are, up to their order, those logs of the receipts for these blocks that the filter asks
for; a receipt that was inserted twice, also under one hash, counts twice.
Source: `node/blocks.rs`, `BlockStore::get_logs`, `BlockStore::insert_receipt`
Kind: P -/
theorem logs_of_range (ops : List StoreOp) (fromBlock toBlock : UInt64)
    (addresses : Option (List Address)) (topics : Option (List (Option (List (Bytes 32))))) :
    let inRange := (StoreOp.receipts ops).filter fun entry =>
      fromBlock ≤ entry.2.blockNumber ∧ entry.2.blockNumber ≤ toBlock
    ((LogStore.ofOps ops).getLogs fromBlock toBlock addresses topics).Perm
      ((inRange.flatMap fun entry => entry.2.logs).filter fun log =>
        FilterMatches addresses topics log) := by
  intro inRange
  have hkeys := flatMap_keys_perm (fun entry : Bytes 32 × TransactionReceipt =>
    entry.2.blockNumber) (fun entry => entry.2.logs.filter (logMatches addresses topics))
    (nodup_blockRange fromBlock toBlock) (StoreOp.receipts ops)
  have htest : (fun log => decide (FilterMatches addresses topics log)) =
      logMatches addresses topics := by
    funext log
    rw [Bool.eq_iff_iff, decide_eq_true_iff, logMatches_iff]
  simp only [mem_blockRange] at hkeys
  unfold LogStore.getLogs
  simp only [(LogStore.holds_ofOps ops).logsAt_eq, List.filter_flatMap, htest]
  exact hkeys

end Ryther
