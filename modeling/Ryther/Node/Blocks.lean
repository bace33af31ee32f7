import Ryther.Types.Block

/-!
# The block store

`src/node/blocks.rs`: blocks for RPC queries, by number and by hash. The hash of a block that
`from_round` of `src/types/block.rs` builds covers its number, the parent hash and the state root;
the transactions have a root of their own, which is not hashed, and the events of the round none.
The receipts and logs of the store are kept apart from the blocks and are in `Node/Logs`.

* `Block.hashInput`, `Block.hash_eq_iff` — what the hash determines.
* `BlockStore.insertBlock`, `getByNumber`, `getByHash`, `latestNumber`, `getTxBlock` — as in the
  source; `Answers` says what they return after any sequence of insertions.
* `BlockStore.hash_binds_iff` — the blocks of a store are told apart by their hashes exactly if no
  two of them have one number, parent and state root and different contents.
-/

namespace Ryther

open Lib

/-! ### The hash of a block -/

namespace Block

/-- The string that is hashed for a block.
Source: `types/block.rs`, `hash_input` in `Block::from_round`
Kind: D -/
def hashInput (block : Block) : List UInt8 :=
  leBytes 8 block.number.toNat ++ (block.parentHash.toList ++ block.stateRoot.toList)

/-- The hashed bytes of a block determine its number, its parent and its state root. Kind: L -/
theorem hashInput_eq_iff (block block' : Block) :
    block.hashInput = block'.hashInput ↔
      block.number = block'.number ∧ block.parentHash = block'.parentHash ∧
        block.stateRoot = block'.stateRoot := by
  constructor
  · intro heq
    obtain ⟨hnumber, heq⟩ := selfDelimiting_u64 heq
    obtain ⟨hparent, hroot⟩ := selfDelimiting_vector 32 heq
    exact ⟨hnumber, hparent, List.Vector.toList_injective hroot⟩
  · rintro ⟨hnumber, hparent, hroot⟩
    rw [hashInput, hashInput, hnumber, hparent, hroot]

/-- The blocks that `from_round` builds.
Kind: D -/
def IsFromRound (sha256 : List UInt8 → Bytes 32) (block : Block) : Prop :=
  ∃ number parentHash stateRoot transactions dagEvents leader gasUsed timestamp,
    block = fromRound sha256 number parentHash stateRoot transactions dagEvents leader gasUsed
      timestamp

/-- A block made from a round has the digest of its own fields as its hash. Kind: L -/
theorem IsFromRound.hash_eq {sha256 : List UInt8 → Bytes 32} {block : Block}
    (h : block.IsFromRound sha256) : block.hash = sha256 block.hashInput := by
  obtain ⟨number, parentHash, stateRoot, transactions, dagEvents, leader, gasUsed, timestamp,
    rfl⟩ := h
  show sha256 _ = sha256 _
  rw [List.append_assoc]
  rfl

/-- **What a hash determines**: number, parent and state root, and nothing of the transactions and
events. Kind: P -/
theorem hash_eq_iff {sha256 : List UInt8 → Bytes 32} {block block' : Block}
    (h : block.IsFromRound sha256) (h' : block'.IsFromRound sha256)
    (hinj : InjectiveOn sha256 [block.hashInput, block'.hashInput]) :
    block.hash = block'.hash ↔
      block.number = block'.number ∧ block.parentHash = block'.parentHash ∧
        block.stateRoot = block'.stateRoot := by
  rw [h.hash_eq, h'.hash_eq, ← hashInput_eq_iff]
  constructor
  · exact hinj _ List.mem_cons_self _ (List.mem_cons_of_mem _ List.mem_cons_self)
  · intro heq
    rw [heq]

end Block

/-! ### The store -/

/-- The blocks by number and by hash, the block of every transaction, and the largest number.
Source: `node/blocks.rs`, `BlockStore`
Kind: D -/
structure BlockStore where
  byNumber : HashMap UInt64 Block
  byHash : HashMap (Bytes 32) Block
  txToBlock : HashMap (Bytes 32) UInt64
  latest : UInt64

namespace BlockStore

/-- A store without blocks.
Source: `node/blocks.rs`, `BlockStore::new`
Kind: D -/
def new : BlockStore := ⟨∅, ∅, ∅, 0⟩

/-- The block enters all indices, and the largest number is updated.
Source: `node/blocks.rs`, `BlockStore::insert_block`
Kind: D -/
def insertBlock (store : BlockStore) (block : Block) : BlockStore where
  txToBlock := block.transactions.foldl (fun m tx => m.insert tx.bytes block.number) store.txToBlock
  byNumber := store.byNumber.insert block.number block
  byHash := store.byHash.insert block.hash block
  latest := if block.number > store.latest then block.number else store.latest

/-- The block of a number.
Source: `node/blocks.rs`, `BlockStore::get_by_number`
Kind: D -/
def getByNumber (store : BlockStore) (number : UInt64) : Option Block :=
  store.byNumber.lookup number

/-- The block of a hash.
Source: `node/blocks.rs`, `BlockStore::get_by_hash`
Kind: D -/
def getByHash (store : BlockStore) (hash : Bytes 32) : Option Block := store.byHash.lookup hash

/-- The largest number of an inserted block, 0 before the first.
Source: `node/blocks.rs`, `BlockStore::latest_number`
Kind: D -/
def latestNumber (store : BlockStore) : UInt64 := store.latest

/-- The block of the largest number.
Source: `node/blocks.rs`, `BlockStore::latest_block`
Kind: D -/
def latestBlock (store : BlockStore) : Option Block := store.getByNumber store.latestNumber

/-- The number of the block that has a transaction.
Source: `node/blocks.rs`, `BlockStore::get_tx_block`
Kind: D -/
def getTxBlock (store : BlockStore) (txHash : Bytes 32) : Option UInt64 :=
  store.txToBlock.lookup txHash

/-- The store after some insertions.
Kind: D -/
def ofBlocks (blocks : List Block) : BlockStore := blocks.foldl insertBlock .new

/-- One more insertion. Kind: L -/
theorem ofBlocks_concat (blocks : List Block) (block : Block) :
    ofBlocks (blocks ++ [block]) = (ofBlocks blocks).insertBlock block := by
  rw [ofBlocks, List.foldl_append]
  rfl

/-! ### What the store answers -/

/-- The two maps of blocks are built by insertions of the blocks. Kind: L -/
theorem maps_ofBlocks (blocks : List Block) :
    (ofBlocks blocks).byNumber =
        blocks.foldl (fun m block => m.insert block.number block) ∅ ∧
      (ofBlocks blocks).byHash = blocks.foldl (fun m block => m.insert block.hash block) ∅ := by
  induction blocks using List.reverseRecOn with
  | nil => exact ⟨rfl, rfl⟩
  | append_singleton blocks block ih =>
      rw [ofBlocks_concat, List.foldl_append, List.foldl_append, ← ih.1, ← ih.2]
      exact ⟨rfl, rfl⟩

/-- After a block is indexed its transactions are found under its number, the others where they
were. Kind: L -/
theorem lookup_foldl_txs (txs : List TxHash) (number : UInt64) (m : HashMap (Bytes 32) UInt64)
    (hash : Bytes 32) :
    (txs.foldl (fun m tx => m.insert tx.bytes number) m).lookup hash =
      if ⟨hash⟩ ∈ txs then some number else m.lookup hash := by
  induction txs generalizing m with
  | nil => simp
  | cons tx txs ih =>
      rw [List.foldl_cons, ih]
      by_cases hin : ⟨hash⟩ ∈ txs
      · simp [hin]
      · by_cases htx : tx = ⟨hash⟩
        · subst htx
          simp [hin]
        · have hne : hash ≠ tx.bytes := by
            rintro rfl
            exact htx rfl
          have hne' : (⟨hash⟩ : TxHash) ≠ tx := Ne.symm htx
          simp [hin, hne', AList.lookup_insert_ne hne]

/-- What the lookups of a store return: under a number, a hash or a transaction the block inserted
last, and as the latest number the highest.
Kind: D -/
structure Answers (store : BlockStore) (blocks : List Block) : Prop where
  getByNumber_eq : ∀ number,
    store.getByNumber number = (blocks.filter fun b => b.number = number).getLast?
  getByHash_eq : ∀ hash, store.getByHash hash = (blocks.filter fun b => b.hash = hash).getLast?
  getTxBlock_eq : ∀ hash, store.getTxBlock hash =
    ((blocks.filter fun b => ⟨hash⟩ ∈ b.transactions).getLast?).map Block.number
  number_le : ∀ b ∈ blocks, b.number ≤ store.latestNumber

/-- **The answers after any insertions.** Kind: P -/
theorem answers_ofBlocks (blocks : List Block) : Answers (ofBlocks blocks) blocks where
  getByNumber_eq number := by
    rw [getByNumber, (maps_ofBlocks blocks).1]
    rw [lookup_foldl_insert_key Block.number, AList.lookup_empty, Option.or_none]
  getByHash_eq hash := by
    rw [getByHash, (maps_ofBlocks blocks).2]
    rw [lookup_foldl_insert_key Block.hash, AList.lookup_empty, Option.or_none]
  getTxBlock_eq hash := by
    induction blocks using List.reverseRecOn with
    | nil => rfl
    | append_singleton blocks block ih =>
        rw [ofBlocks_concat, List.filter_append]
        have hinsert := lookup_foldl_txs block.transactions block.number
          (ofBlocks blocks).txToBlock hash
        unfold getTxBlock at ih ⊢
        rw [insertBlock, hinsert, ih]
        by_cases hin : ⟨hash⟩ ∈ block.transactions
        · simp [hin]
        · simp [hin]
  number_le := by
    induction blocks using List.reverseRecOn with
    | nil => simp
    | append_singleton blocks block ih =>
        intro b hb
        rw [ofBlocks_concat]
        unfold latestNumber at ih ⊢
        rw [insertBlock]
        split_ifs with hgt
        · rcases List.mem_append.mp hb with hb | hb
          · exact UInt64.le_trans (ih b hb) (UInt64.le_of_lt hgt)
          · rw [List.mem_singleton.mp hb]
            exact UInt64.le_refl _
        · rcases List.mem_append.mp hb with hb | hb
          · exact ih b hb
          · rw [List.mem_singleton.mp hb]
            exact UInt64.not_lt.mp hgt

/-- A stored hash finds a block with this hash. Kind: L -/
theorem exists_getByHash {blocks : List Block} {b : Block} (hb : b ∈ blocks) :
    ∃ found ∈ blocks, found.hash = b.hash ∧ (ofBlocks blocks).getByHash b.hash = some found := by
  rw [(answers_ofBlocks blocks).getByHash_eq]
  have hne : blocks.filter (fun b' => b'.hash = b.hash) ≠ [] :=
    List.ne_nil_of_mem (List.mem_filter.mpr ⟨hb, decide_eq_true rfl⟩)
  have hlast := List.getLast_mem hne
  rw [List.mem_filter] at hlast
  exact ⟨_, hlast.1, of_decide_eq_true hlast.2, List.getLast?_eq_some_getLast hne⟩

/-! ### Blocks with one hash -/

/-- **When hashes tell blocks apart.** The blocks come from `from_round`, and the hash function has
no collision on their strings. Equal hashes mean equal contents, and the store returns the
transactions of the block that was asked for, exactly if no two blocks have one number, parent and
state root and different transactions or events.
Source: `types/block.rs`, "Block hash (derived from committed events)"
Kind: P -/
theorem hash_binds_iff (sha256 : List UInt8 → Bytes 32) (blocks : List Block)
    (hblocks : ∀ b ∈ blocks, b.IsFromRound sha256)
    (hinj : InjectiveOn sha256 (blocks.map Block.hashInput)) :
    ((∀ b ∈ blocks, ∀ b' ∈ blocks, b.hash = b'.hash →
        b.number = b'.number ∧ b.parentHash = b'.parentHash ∧ b.stateRoot = b'.stateRoot ∧
          b.transactions = b'.transactions ∧ b.dagEvents = b'.dagEvents) ∧
      ∀ b ∈ blocks, ∃ found, (ofBlocks blocks).getByHash b.hash = some found ∧
        found.transactions = b.transactions) ↔
      ∀ b ∈ blocks, ∀ b' ∈ blocks, b.number = b'.number → b.parentHash = b'.parentHash →
        b.stateRoot = b'.stateRoot →
        b.transactions = b'.transactions ∧ b.dagEvents = b'.dagEvents := by
  have hhash : ∀ b ∈ blocks, ∀ b' ∈ blocks, (b.hash = b'.hash ↔
      b.number = b'.number ∧ b.parentHash = b'.parentHash ∧ b.stateRoot = b'.stateRoot) := by
    intro b hb b' hb'
    refine Block.hash_eq_iff (hblocks b hb) (hblocks b' hb') (hinj.mono ?_)
    intro input hinput
    rcases List.mem_cons.mp hinput with rfl | hinput
    · exact List.mem_map_of_mem hb
    · rw [List.mem_singleton.mp hinput]
      exact List.mem_map_of_mem hb'
  constructor
  · rintro ⟨hbinds, -⟩ b hb b' hb' hnumber hparent hroot
    have hsame := (hhash b hb b' hb').mpr ⟨hnumber, hparent, hroot⟩
    exact (hbinds b hb b' hb' hsame).2.2.2
  · intro hcontents
    refine ⟨fun b hb b' hb' hsame => ?_, fun b hb => ?_⟩
    · obtain ⟨hnumber, hparent, hroot⟩ := (hhash b hb b' hb').mp hsame
      exact ⟨hnumber, hparent, hroot, hcontents b hb b' hb' hnumber hparent hroot⟩
    · obtain ⟨found, hfound, hsame, hget⟩ := exists_getByHash hb
      obtain ⟨hnumber, hparent, hroot⟩ := (hhash found hfound b hb).mp hsame
      exact ⟨found, hget, (hcontents found hfound b hb hnumber hparent hroot).1⟩

/-- SHA-256 on the strings of the blocks below and of their transactions.
Kind: D -/
def blockSha256 : List UInt8 → Bytes 32 :=
  tableHash
    [(leBytes 8 1 ++ List.replicate 32 0 ++ List.replicate 32 1,
        79792595841822423018447619647112769753338248401861594642398196476947740717009),
      (leBytes 8 2 ++ List.replicate 32 0 ++ List.replicate 32 2,
        11838808015495047562519094607083570318206766910920193408570621998484591076517),
      (List.replicate 32 7,
        34235198657541305186801610448329509345738866099452069463933687586388098323680)]

/-- A block with given transactions; the state root is filled with the block number.
Source: `node/blocks.rs`, after the blocks of `test_latest_tracking`
Kind: D -/
def makeBlock (number : UInt64) (transactions : List (Bytes 32)) : Block :=
  .fromRound blockSha256 number (.fill 32 0) (.fill 32 number.toUInt8) transactions [] (.fill 0) 0
    100

/-- The blocks of two rounds are told apart. Kind: L -/
theorem hash_binds_two_rounds :
    let blocks := [makeBlock 1 [.fill 32 7], makeBlock 2 []]
    ∀ b ∈ blocks, ∃ found, (ofBlocks blocks).getByHash b.hash = some found ∧
      found.transactions = b.transactions := by
  intro blocks
  have hblocks : ∀ b ∈ blocks, b.IsFromRound blockSha256 := by
    intro b hb
    rcases List.mem_cons.mp hb with rfl | hb
    · exact ⟨_, _, _, _, _, _, _, _, rfl⟩
    · rw [List.mem_singleton.mp hb]
      exact ⟨_, _, _, _, _, _, _, _, rfl⟩
  exact ((hash_binds_iff blockSha256 blocks hblocks (by decide +kernel)).mpr
    (by decide +kernel)).2

/-- **Two blocks with one hash.** A block of round 1 without transactions and one with a transaction
that leaves the state as it is: they have one hash, and the store returns the second one for both.
Kind: P -/
theorem blocks_with_one_hash :
    let empty := makeBlock 1 []
    let full := makeBlock 1 [.fill 32 7]
    empty.hash = full.hash ∧ empty.transactions ≠ full.transactions ∧
      empty.transactionsRoot ≠ full.transactionsRoot ∧
      (ofBlocks [empty, full]).getByHash empty.hash = some full := by
  decide +kernel

end BlockStore

end Ryther
