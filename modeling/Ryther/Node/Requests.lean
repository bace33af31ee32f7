import Ryther.Network.PeerTable
import Ryther.Node.Lifecycle
import Ryther.Node.Queries
import Ryther.Node.Replica

/-!
# Requests to a node

The server of `src/node/rpc.rs`: all methods, their dispatch, and the responses as JSON. Requests
read the node and the block store and change neither.

* `RpcMethod`, `processRequest` — the methods and which one a request calls.
* `every_request_answered` — a request gets a response with its own id and either a result or an
  error, unless the parser of block parameters panics; errors are those of the method.
* `served`, `served_chain_stays_genesis` — the program of `src/bin/ryther.rs` inserts the genesis
  block into the store of the server and nothing else, and no step of the node reaches the store:
  whatever the node commits, the server knows one block, no transaction, no receipt and no log.
-/

namespace Ryther

open Lib

/-! ### What is read and written -/

/-- The states as `Debug` prints them.
Source: `node/node.rs`, the derived `Debug` of `NodeState`
Kind: D -/
def NodeState.debug : NodeState → String
  | starting => "Starting"
  | syncing => "Syncing"
  | running => "Running"
  | stopping => "Stopping"
  | stopped => "Stopped"

/-- A request with its method, its parameters and its id.
Source: `node/rpc.rs`, `RpcRequest`
Kind: D -/
structure RpcRequest where
  jsonrpc : String
  method : String
  params : Option Json
  id : Json

/-- The parts of the node that the methods read, and the blocks.
Source: `node/rpc.rs`, `RpcState`
Kind: D -/
structure RpcState (Addr : Type) where
  peerId : PeerId
  nodeState : NodeState
  nodeStats : NodeStats
  peers : PeerTable Addr
  blocks : LogStore

/-- The counters of the node, with the number of connected peers filled in.
Source: `node/node.rs`, `RytherNode::stats`
Kind: D -/
def RpcState.stats {Addr : Type} (state : RpcState Addr) : NodeStats :=
  { state.nodeStats with connectedPeers := state.peers.connectedCount }

/-- A number that may be negative.
Kind: D -/
def intJson : ℤ → Json
  | .ofNat n => .num n
  | .negSucc n => .otherNum ("-" ++ toString (n + 1))

/-- There is never data with an error.
Source: `node/rpc.rs`, the derived `Serialize` of `RpcError`
Kind: D -/
def RpcError.toJson (error : RpcError) : Json :=
  .obj [("code", intJson error.code), ("message", .str error.message)]

/-- Result and error are left out if there is none.
Source: `node/rpc.rs`, the derived `Serialize` of `RpcResponse`
Kind: D -/
def RpcResponse.toJson (response : RpcResponse) : Json :=
  .obj ([("jsonrpc", .str response.jsonrpc)] ++
    (response.result.map fun result => ("result", result)).toList ++
    (response.error.map fun error => ("error", error.toJson)).toList ++ [("id", response.id)])

/-- The code for a method that is not known.
Source: `node/rpc.rs`, `error_codes::METHOD_NOT_FOUND`
Kind: D -/
def methodNotFound : ℤ := -32601

/-- The code for a method that cannot be carried out.
Source: `node/rpc.rs`, `error_codes::INTERNAL_ERROR`
Kind: D -/
def internalError : ℤ := -32603

/-! ### The methods with fixed answers -/

/-- Always chain 1, whatever the configuration.
Source: `node/rpc.rs`, `eth_chain_id`
Kind: D -/
def ethChainId (id : Json) : RpcResponse := .success id (.str "0x1")

/-- Always `10 ^ 9` wei.
Source: `node/rpc.rs`, `eth_gas_price`
Kind: D -/
def ethGasPrice (id : Json) : RpcResponse := .success id (.str "0x3b9aca00")

/-- The answer is fixed: no state is read.
Source: `node/rpc.rs`, `eth_get_balance`
Kind: D -/
def ethGetBalance (id : Json) : RpcResponse := .success id (.str "0x0")

/-- The answer is fixed: no state is read.
Source: `node/rpc.rs`, `eth_get_transaction_count`
Kind: D -/
def ethGetTransactionCount (id : Json) : RpcResponse := .success id (.str "0x0")

/-- The method is known and not implemented.
Source: `node/rpc.rs`, `eth_send_raw_transaction`
Kind: D -/
def ethSendRawTransaction (id : Json) : RpcResponse := .failure id internalError "Not implemented"

/-- The answer is fixed: nothing is executed.
Source: `node/rpc.rs`, `eth_call`
Kind: D -/
def ethCall (id : Json) : RpcResponse := .success id (.str "0x")

/-- The answer is fixed: the gas of a plain transfer.
Source: `node/rpc.rs`, `eth_estimate_gas`
Kind: D -/
def ethEstimateGas (id : Json) : RpcResponse := .success id (.str "0x5208")

/-- The answer is fixed: no code is read.
Source: `node/rpc.rs`, `eth_get_code`
Kind: D -/
def ethGetCode (id : Json) : RpcResponse := .success id (.str "0x")

/-- The answer is fixed: no state is read.
Source: `node/rpc.rs`, `eth_get_storage_at`
Kind: D -/
def ethGetStorageAt (id : Json) : RpcResponse :=
  .success id (.str "0x0000000000000000000000000000000000000000000000000000000000000000")

/-- The answer is fixed: the pool is not looked at.
Source: `node/rpc.rs`, `ryther_pool_status`
Kind: D -/
def rytherPoolStatus (id : Json) : RpcResponse :=
  .success id (.obj [("pending", .num 0), ("queued", .num 0)])

/-- Always network 1, whatever the configuration.
Source: `node/rpc.rs`, `net_version`
Kind: D -/
def netVersion (id : Json) : RpcResponse := .success id (.str "1")

/-- Always true.
Source: `node/rpc.rs`, `net_listening`
Kind: D -/
def netListening (id : Json) : RpcResponse := .success id (.bool true)

/-- The name and the version of the client.
Source: `node/rpc.rs`, `web3_client_version`
Kind: D -/
def web3ClientVersion (id : Json) : RpcResponse := .success id (.str "Ryther/v0.1.0")

/-! ### The methods that read the node -/

section Methods

variable {Addr : Type} (state : RpcState Addr) (id : Json)

/-- The id, the state and the counters of the node.
Source: `node/rpc.rs`, `ryther_node_info`
Kind: D -/
def rytherNodeInfo : RpcResponse :=
  let stats := state.stats
  .success id (.obj
    [("peerId", .str (String.ofList (encodeHex state.peerId.toList))),
      ("state", .str state.nodeState.debug),
      ("currentRound", .num stats.currentRound.toNat),
      ("eventsCreated", .num stats.eventsCreated.toNat),
      ("eventsReceived", .num stats.eventsReceived.toNat),
      ("roundsCommitted", .num stats.roundsCommitted.toNat),
      ("transactionsProcessed", .num stats.transactionsProcessed.toNat),
      ("connectedPeers", .num stats.connectedPeers),
      ("blocksStored", .num state.blocks.byNumber.keys.length),
      ("version", .str "0.1.0")])

/-- The round and the events of the node's counters, next to the latest block of the store.
Source: `node/rpc.rs`, `ryther_dag_info`
Kind: D -/
def rytherDagInfo : RpcResponse :=
  let stats := state.stats
  .success id (.obj
    [("maxRound", .num stats.currentRound.toNat),
      ("totalEvents", .num (stats.eventsReceived + stats.eventsCreated).toNat),
      ("latestBlock", .num state.blocks.latestNumber.toNat)])

/-- The number of connected peers; the list of them is always empty.
Source: `node/rpc.rs`, `ryther_get_peers`
Kind: D -/
def rytherGetPeers : RpcResponse :=
  .success id (.obj [("count", .num state.stats.connectedPeers), ("peers", .arr [])])

/-- The number of connected peers in hexadecimal.
Source: `node/rpc.rs`, `net_peer_count`
Kind: D -/
def netPeerCount : RpcResponse :=
  .success id (.str (String.ofList ('0' :: 'x' :: natToHex state.stats.connectedPeers)))

end Methods

/-- The digest of the bytes that the first parameter writes in hexadecimal.
Source: `node/rpc.rs`, `web3_sha3`
Kind: D -/
def web3Sha3 (keccak256 : List UInt8 → Bytes 32) (id : Json) (params : Option Json) :
    RpcResponse :=
  match params with
  | some (.arr (.str data :: _)) =>
      match decodeHex (trimHexMarks data.toList) with
      | .ok bytes => .success id (hexBytes.encode (keccak256 bytes).toList)
      | .error _ => .failure id invalidParams "Invalid input"
  | _ => .failure id invalidParams "Invalid input"

/-! ### The dispatch -/

/-- The methods that the server knows.
Source: `node/rpc.rs`, the patterns of `process_request`
Kind: D -/
inductive RpcMethod where
  | ethChainId
  | ethBlockNumber
  | ethGasPrice
  | ethGetBalance
  | ethGetTransactionCount
  | ethSendRawTransaction
  | ethCall
  | ethEstimateGas
  | ethGetBlockByNumber
  | ethGetBlockByHash
  | ethGetTransactionByHash
  | ethGetTransactionReceipt
  | ethGetLogs
  | ethGetCode
  | ethGetStorageAt
  | rytherNodeInfo
  | rytherDagInfo
  | rytherGetPeers
  | rytherPoolStatus
  | netVersion
  | netPeerCount
  | netListening
  | web3ClientVersion
  | web3Sha3
  deriving DecidableEq

namespace RpcMethod

/-- The methods in the order of the source.
Kind: D -/
def all : List RpcMethod :=
  [ethChainId, ethBlockNumber, ethGasPrice, ethGetBalance, ethGetTransactionCount,
    ethSendRawTransaction, ethCall, ethEstimateGas, ethGetBlockByNumber, ethGetBlockByHash,
    ethGetTransactionByHash, ethGetTransactionReceipt, ethGetLogs, ethGetCode, ethGetStorageAt,
    rytherNodeInfo, rytherDagInfo, rytherGetPeers, rytherPoolStatus, netVersion, netPeerCount,
    netListening, web3ClientVersion, web3Sha3]

/-- The name of a method in a request. Kind: D -/
def name : RpcMethod → String
  | ethChainId => "eth_chainId"
  | ethBlockNumber => "eth_blockNumber"
  | ethGasPrice => "eth_gasPrice"
  | ethGetBalance => "eth_getBalance"
  | ethGetTransactionCount => "eth_getTransactionCount"
  | ethSendRawTransaction => "eth_sendRawTransaction"
  | ethCall => "eth_call"
  | ethEstimateGas => "eth_estimateGas"
  | ethGetBlockByNumber => "eth_getBlockByNumber"
  | ethGetBlockByHash => "eth_getBlockByHash"
  | ethGetTransactionByHash => "eth_getTransactionByHash"
  | ethGetTransactionReceipt => "eth_getTransactionReceipt"
  | ethGetLogs => "eth_getLogs"
  | ethGetCode => "eth_getCode"
  | ethGetStorageAt => "eth_getStorageAt"
  | rytherNodeInfo => "ryther_nodeInfo"
  | rytherDagInfo => "ryther_dagInfo"
  | rytherGetPeers => "ryther_getPeers"
  | rytherPoolStatus => "ryther_poolStatus"
  | netVersion => "net_version"
  | netPeerCount => "net_peerCount"
  | netListening => "net_listening"
  | web3ClientVersion => "web3_clientVersion"
  | web3Sha3 => "web3_sha3"

/-- The method with a name.
Kind: D -/
def ofName (name : String) : Option RpcMethod := all.find? fun m => m.name = name

/-- The list has every method. Kind: L -/
theorem mem_all (m : RpcMethod) : m ∈ all := by
  cases m <;> decide

/-- No two methods have one name. Kind: L -/
theorem name_injective : Function.Injective name := by
  intro m m' h
  have hnames : (all.map name).Nodup := by decide
  exact List.inj_on_of_nodup_map hnames (mem_all m) (mem_all m') h

/-- The method that is found has the name that was asked for. Kind: L -/
theorem name_of_ofName {name : String} {m : RpcMethod} (h : ofName name = some m) :
    m.name = name := by
  simpa using List.find?_some h

/-- Every method is found by its name. Kind: L -/
theorem ofName_name (m : RpcMethod) : ofName m.name = some m := by
  rcases hfind : ofName m.name with _ | m'
  · have hnone := List.find?_eq_none.mp hfind m (mem_all m)
    simp at hnone
  · rw [name_injective (name_of_ofName hfind)]

/-- A name under which nothing is found is that of no method. Kind: L -/
theorem name_ne_of_ofName {name : String} (h : ofName name = none) (m : RpcMethod) :
    m.name ≠ name := by
  rintro rfl
  rw [ofName_name] at h
  cases h

end RpcMethod

section Dispatch

variable {Addr : Type} (keccak256 : List UInt8 → Bytes 32) (errorText : DeError → String)
  (state : RpcState Addr)

/-- The response of a method.
Source: `node/rpc.rs`, the branches of `process_request`
Kind: D -/
def RpcMethod.respond (id : Json) (params : Option Json) :
    RpcMethod → Except CopyPanic RpcResponse
  | .ethChainId => .ok (Ryther.ethChainId id)
  | .ethBlockNumber => .ok (Ryther.ethBlockNumber state.blocks.toBlockStore id)
  | .ethGasPrice => .ok (Ryther.ethGasPrice id)
  | .ethGetBalance => .ok (Ryther.ethGetBalance id)
  | .ethGetTransactionCount => .ok (Ryther.ethGetTransactionCount id)
  | .ethSendRawTransaction => .ok (Ryther.ethSendRawTransaction id)
  | .ethCall => .ok (Ryther.ethCall id)
  | .ethEstimateGas => .ok (Ryther.ethEstimateGas id)
  | .ethGetBlockByNumber => Ryther.ethGetBlockByNumber state.blocks.toBlockStore id params
  | .ethGetBlockByHash => Ryther.ethGetBlockByHash state.blocks.toBlockStore id params
  | .ethGetTransactionByHash => Ryther.ethGetTransactionByHash state.blocks.toBlockStore id params
  | .ethGetTransactionReceipt => Ryther.ethGetTransactionReceipt state.blocks id params
  | .ethGetLogs => .ok (Ryther.ethGetLogs errorText state.blocks id params)
  | .ethGetCode => .ok (Ryther.ethGetCode id)
  | .ethGetStorageAt => .ok (Ryther.ethGetStorageAt id)
  | .rytherNodeInfo => .ok (Ryther.rytherNodeInfo state id)
  | .rytherDagInfo => .ok (Ryther.rytherDagInfo state id)
  | .rytherGetPeers => .ok (Ryther.rytherGetPeers state id)
  | .rytherPoolStatus => .ok (Ryther.rytherPoolStatus id)
  | .netVersion => .ok (Ryther.netVersion id)
  | .netPeerCount => .ok (Ryther.netPeerCount state id)
  | .netListening => .ok (Ryther.netListening id)
  | .web3ClientVersion => .ok (Ryther.web3ClientVersion id)
  | .web3Sha3 => .ok (Ryther.web3Sha3 keccak256 id params)

/-- The version that the request names is not looked at.
Source: `node/rpc.rs`, `process_request`
Kind: D -/
def processRequest (request : RpcRequest) : Except CopyPanic RpcResponse :=
  match RpcMethod.ofName request.method with
  | some m => m.respond keccak256 errorText state request.id request.params
  | none =>
      .ok (.failure request.id methodNotFound ("Method not found: " ++ request.method))

end Dispatch

/-! ### Every request is answered -/

/-- The methods that look at their parameters.
Kind: D -/
def RpcMethod.TakesParams (m : RpcMethod) : Prop :=
  m = .ethGetBlockByNumber ∨ m = .ethGetBlockByHash ∨ m = .ethGetTransactionByHash ∨
    m = .ethGetTransactionReceipt ∨ m = .ethGetLogs ∨ m = .web3Sha3

/-- The entry of a response that answers a request: a result of a method that is implemented, or the
error of a method that does not understand its parameters, of the one that is not implemented, or of
an unknown method.
Kind: D -/
inductive AnswerEntry (request : RpcRequest) : String × Json → Prop
  | result (m : RpcMethod) (hname : m.name = request.method)
      (himplemented : m ≠ .ethSendRawTransaction) (value : Json) :
      AnswerEntry request ("result", value)
  | badParams (m : RpcMethod) (hname : m.name = request.method) (hparams : m.TakesParams)
      (message : String) :
      AnswerEntry request ("error", RpcError.toJson ⟨invalidParams, message⟩)
  | notImplemented (hname : request.method = "eth_sendRawTransaction") :
      AnswerEntry request ("error", RpcError.toJson ⟨internalError, "Not implemented"⟩)
  | unknown (hname : ∀ m : RpcMethod, m.name ≠ request.method) :
      AnswerEntry request
        ("error", RpcError.toJson ⟨methodNotFound, "Method not found: " ++ request.method⟩)

/-- A response to a request: the version, one entry that answers it, and its id.
Kind: D -/
def AnswersRequest (request : RpcRequest) (response : RpcResponse) : Prop :=
  ∃ entry, response.toJson = .obj [("jsonrpc", .str "2.0"), entry, ("id", request.id)] ∧
    AnswerEntry request entry

/-- The parameters on which the parser of block parameters panics.
Kind: D -/
def PanicParams (params : Option Json) : Prop :=
  ∃ (s : String) (others : List Json), params = some (.arr (.str s :: others)) ∧
    RepeatedMark s.toList

section Answers

variable {Addr : Type} {keccak256 : List UInt8 → Bytes 32} {errorText : DeError → String}
  {state : RpcState Addr}

/-- A result, or an error about the parameters. Kind: D -/
def ResultOrBadParams (id : Json) (response : RpcResponse) : Prop :=
  (∃ value, response = .success id value) ∨ ∃ message, response = .failure id invalidParams message

/-- A query for a hash does not panic. Kind: L -/
theorem hashQuery_cases (id : Json) (params : Option Json) (answer : Bytes 32 → Json) :
    ∃ response, hashQuery id params answer = .ok response ∧ ResultOrBadParams id response := by
  unfold hashQuery
  obtain ⟨result, hresult⟩ := parseHashParam_total params
  rw [hresult]
  rcases result with e | hash
  · exact ⟨_, rfl, .inr ⟨e, rfl⟩⟩
  · exact ⟨_, rfl, .inl ⟨_, rfl⟩⟩

/-- A query for logs is answered with a result or an error about its parameters. Kind: L -/
theorem ethGetLogs_cases (store : LogStore) (id : Json) (params : Option Json) :
    ResultOrBadParams id (ethGetLogs errorText store id params) := by
  unfold ethGetLogs
  rcases parseLogFilter errorText params with e | filter
  · exact .inr ⟨e, rfl⟩
  · exact .inl ⟨_, rfl⟩

/-- A query for a digest is answered with a result or an error about its parameters. Kind: L -/
theorem web3Sha3_cases (id : Json) (params : Option Json) :
    ResultOrBadParams id (web3Sha3 keccak256 id params) := by
  unfold web3Sha3
  split
  · split
    · exact .inl ⟨_, rfl⟩
    · exact .inr ⟨_, rfl⟩
  · exact .inr ⟨_, rfl⟩

/-- The block parameters are read, or the parser panics. Kind: L -/
theorem parseBlockParams_cases (params : Option Json) :
    (PanicParams params ∧ ∃ panic, parseBlockParams params = .error panic) ∨
      ¬ PanicParams params ∧ ∃ result, parseBlockParams params = .ok result := by
  by_cases hstring : ∃ s others, params = some (.arr (Json.str s :: others))
  · obtain ⟨s, others, rfl⟩ := hstring
    rw [parseBlockParams_arr, show (Json.str s :: others)[0]? = some (.str s) from rfl]
    rcases parseBlockId_string s with ⟨hrepeated, panic, hparse⟩ | ⟨hnot, result, hparse, -⟩
    · rw [hparse]
      exact .inl ⟨⟨s, others, rfl, hrepeated⟩, panic, rfl⟩
    · right
      refine ⟨?_, ?_⟩
      · rintro ⟨s', others', h, hrepeated⟩
        cases h
        exact hnot hrepeated
      · rw [hparse]
        rcases result with e | blockId
        · exact ⟨_, rfl⟩
        · exact ⟨_, rfl⟩
  · obtain ⟨blockId, fullTx, hparse, -⟩ := parseBlockParams_of_not_string hstring
    refine .inr ⟨?_, _, hparse⟩
    rintro ⟨s, others, h, -⟩
    exact hstring ⟨s, others, h⟩

/-- A query for a block panics exactly on a hash that repeats its mark; otherwise it is answered.
Kind: L -/
theorem ethGetBlockByNumber_cases (blocks : BlockStore) (id : Json) (params : Option Json) :
    (PanicParams params ∧ ∃ panic, ethGetBlockByNumber blocks id params = .error panic) ∨
      ¬ PanicParams params ∧ ∃ response, ethGetBlockByNumber blocks id params = .ok response ∧
        ResultOrBadParams id response := by
  unfold ethGetBlockByNumber
  rcases parseBlockParams_cases params with ⟨hpanic, panic, hparse⟩ | ⟨hnot, result, hparse⟩
  · rw [hparse]
    exact .inl ⟨hpanic, panic, rfl⟩
  · rw [hparse]
    refine .inr ⟨hnot, ?_⟩
    rcases result with e | ⟨blockId, fullTx⟩
    · exact ⟨_, rfl, .inr ⟨e, rfl⟩⟩
    · rcases blockId with n | hash | tag
      · exact ⟨_, rfl, .inl ⟨_, rfl⟩⟩
      · exact ⟨_, rfl, .inr ⟨_, rfl⟩⟩
      · dsimp only
        split_ifs
        · exact ⟨_, rfl, .inl ⟨_, rfl⟩⟩
        · exact ⟨_, rfl, .inl ⟨_, rfl⟩⟩
        · exact ⟨_, rfl, .inl ⟨_, rfl⟩⟩
        · exact ⟨_, rfl, .inr ⟨_, rfl⟩⟩

/-- **What a method responds.** Kind: L -/
theorem RpcMethod.respond_cases (m : RpcMethod) (id : Json) (params : Option Json) :
    ((m = .ethGetBlockByNumber ∧ PanicParams params) ∧
        ∃ panic, m.respond keccak256 errorText state id params = .error panic) ∨
      ¬ (m = .ethGetBlockByNumber ∧ PanicParams params) ∧
        ∃ response, m.respond keccak256 errorText state id params = .ok response ∧
          ((m ≠ .ethSendRawTransaction ∧ ∃ value, response = .success id value) ∨
            (m.TakesParams ∧ ∃ message, response = .failure id invalidParams message) ∨
            m = .ethSendRawTransaction ∧
              response = .failure id internalError "Not implemented") := by
  -- a method that looks at its parameters gives a result or complains about them
  have hparams : ∀ {m : RpcMethod} {response : RpcResponse}, m.TakesParams →
      ResultOrBadParams id response →
        (m ≠ .ethSendRawTransaction ∧ ∃ value, response = .success id value) ∨
        (m.TakesParams ∧ ∃ message, response = .failure id invalidParams message) ∨
        m = .ethSendRawTransaction ∧
          response = .failure id internalError "Not implemented" := by
    rintro m response htakes (hvalue | hmessage)
    · refine .inl ⟨?_, hvalue⟩
      rintro rfl
      simp [TakesParams] at htakes
    · exact .inr (.inl ⟨htakes, hmessage⟩)
  cases m
  case ethGetBlockByNumber =>
    rcases ethGetBlockByNumber_cases state.blocks.toBlockStore id params with
      ⟨hpanic, hrespond⟩ | ⟨hnot, response, hrespond, hresponse⟩
    · exact .inl ⟨⟨rfl, hpanic⟩, hrespond⟩
    · exact .inr ⟨fun h => hnot h.2, response, hrespond, hparams (.inl rfl) hresponse⟩
  case ethGetBlockByHash =>
    obtain ⟨response, hrespond, hresponse⟩ := hashQuery_cases id params _
    exact .inr ⟨by simp, response, hrespond, hparams (by simp [TakesParams]) hresponse⟩
  case ethGetTransactionByHash =>
    obtain ⟨response, hrespond, hresponse⟩ := hashQuery_cases id params _
    exact .inr ⟨by simp, response, hrespond, hparams (by simp [TakesParams]) hresponse⟩
  case ethGetTransactionReceipt =>
    obtain ⟨response, hrespond, hresponse⟩ := hashQuery_cases id params _
    exact .inr ⟨by simp, response, hrespond, hparams (by simp [TakesParams]) hresponse⟩
  case ethGetLogs =>
    exact .inr ⟨by simp, _, rfl,
      hparams (by simp [TakesParams]) (ethGetLogs_cases state.blocks id params)⟩
  case web3Sha3 =>
    exact .inr ⟨by simp, _, rfl,
      hparams (by simp [TakesParams]) (web3Sha3_cases id params)⟩
  case ethSendRawTransaction =>
    exact .inr ⟨by simp, _, rfl, .inr (.inr ⟨rfl, rfl⟩)⟩
  all_goals exact .inr ⟨by simp, _, rfl, .inl ⟨by simp, _, rfl⟩⟩

end Answers

/-- **Every request is answered.** The response has the id of the request and either a result or an
error. A result comes from a method that is implemented; there is an error for a method that is
unknown, for the one that is not implemented, and for parameters that a method with parameters does
not understand. The only requests without a response are those for a block by a string that repeats
the mark of a hash: there the handler panics.
Source: `node/rpc.rs`, `process_request`
Kind: P -/
theorem every_request_answered {Addr : Type} (keccak256 : List UInt8 → Bytes 32)
    (errorText : DeError → String) (state : RpcState Addr) (request : RpcRequest) :
    ((∃ response, processRequest keccak256 errorText state request = .ok response ∧
        AnswersRequest request response) ∧
      ¬ (request.method = "eth_getBlockByNumber" ∧ PanicParams request.params)) ∨
    (∃ panic, processRequest keccak256 errorText state request = .error panic) ∧
      request.method = "eth_getBlockByNumber" ∧ PanicParams request.params := by
  unfold processRequest
  rcases hmethod : RpcMethod.ofName request.method with _ | m
  · have hne := RpcMethod.name_ne_of_ofName hmethod
    refine .inl ⟨⟨_, rfl, _, rfl, .unknown hne⟩, fun h => ?_⟩
    exact hne .ethGetBlockByNumber h.1.symm
  · have hname := RpcMethod.name_of_ofName hmethod
    have hblock : m = .ethGetBlockByNumber ↔ request.method = "eth_getBlockByNumber" := by
      rw [← hname]
      exact ⟨fun h => h ▸ rfl, fun h => RpcMethod.name_injective h⟩
    dsimp only
    rcases m.respond_cases request.id request.params with
      ⟨⟨hm, hpanic⟩, hrespond⟩ | ⟨hnot, response, hrespond, hresponse⟩
    · exact .inr ⟨hrespond, hblock.mp hm, hpanic⟩
    · refine .inl ⟨⟨response, hrespond, ?_⟩, fun h => hnot ⟨hblock.mpr h.1, h.2⟩⟩
      rcases hresponse with ⟨himplemented, value, rfl⟩ | ⟨htakes, message, rfl⟩ | ⟨hm, rfl⟩
      · exact ⟨_, rfl, .result m hname himplemented value⟩
      · exact ⟨_, rfl, .badParams m hname htakes message⟩
      · exact ⟨_, rfl, .notImplemented (by rw [← hname, hm]; rfl)⟩

/-! ### The chain that the program serves -/

/-- The insertions into the block store of the program.
Source: `bin/ryther.rs`, `main`
Kind: D -/
def programOps (chainId : UInt64) : List StoreOp := [.block (.genesis chainId)]

/-- What the server of the program reads: the node, and a store with the genesis block.
Source: `bin/ryther.rs`, `main`; `node/rpc.rs`, `start_rpc_server`
Kind: D -/
def served {Addr : Type} (chainId : UInt64) (peerId : PeerId) (nodeState : NodeState)
    (peers : PeerTable Addr) (node : ReplicaNode) : RpcState Addr :=
  ⟨peerId, nodeState, node.stats, peers, .ofOps (programOps chainId)⟩

/-- The genesis block has no transaction. Kind: L -/
theorem findTransaction_programOps (chainId : UInt64) (hash : Bytes 32) :
    (LogStore.ofOps (programOps chainId)).toBlockStore.findTransaction hash = none := by
  rw [(LogStore.holds_ofOps _).blocks_eq]
  apply BlockStore.findTransaction_eq_none
  intro front b back hsplit hb
  have hmem : b ∈ StoreOp.blocks (programOps chainId) := by
    rw [hsplit]
    simp
  have hgenesis : b = .genesis chainId := List.mem_singleton.mp hmem
  rw [hgenesis] at hb
  cases hb

/-- There are no logs. Kind: L -/
theorem getLogs_programOps (chainId fromBlock toBlock : UInt64)
    (addresses : Option (List Address)) (topics : Option (List (Option (List (Bytes 32))))) :
    (LogStore.ofOps (programOps chainId)).getLogs fromBlock toBlock addresses topics = [] := by
  unfold LogStore.getLogs
  refine List.flatMap_eq_nil_iff.mpr fun number _ => ?_
  rw [(LogStore.holds_ofOps _).logsAt_eq]
  rfl

/-- **The server never shows what the node commits.** A node has run in any way, and its detector
has committed `n` rounds. Whatever the peers and the parameters, the latest block of the server is
block 0. It reports the round of the node next to that. Every transaction and every receipt is
missing, and a query for logs is answered with none or with an error about its filter. No step of
the node reaches the store of the server, which stays as `main` made it, so of the five answers only
the round of `ryther_dagInfo` depends on the run.
Source: `bin/ryther.rs`, `main`; `node/rpc.rs`, `process_request`; `node/node.rs`,
`RytherNode::process_commit`
Kind: P -/
theorem served_chain_stays_genesis {Addr : Type} (keccak256 sha256 : List UInt8 → Bytes 32)
    (errorText : DeError → String) (validators electors : ValidatorSet)
    (executor : ParallelExecutor) (state : MultiVersionState) (seed : Bytes 32)
    (actions : List Action) (node : ReplicaNode)
    (hrun : (ReplicaNode.runReplica keccak256 sha256 actions
      (.start validators electors executor state seed)).2 = some node)
    (chainId : UInt64) (peerId : PeerId) (nodeState : NodeState) (peers : PeerTable Addr)
    (id : Json) (params : Option Json) (hash : Bytes 32) (others : List Json) :
    let n := node.detector.lastCommitted.toNat
    let ask (m : RpcMethod) (params : Option Json) := processRequest keccak256 errorText
      (served chainId peerId nodeState peers node) ⟨"2.0", m.name, params, id⟩
    ask .ethBlockNumber params = .ok (.success id (.str "0x0")) ∧
      ask .rytherDagInfo params = .ok (.success id (.obj
        [("maxRound", .num (if n ≤ 1 then 0 else n)), ("totalEvents", .num 0),
          ("latestBlock", .num 0)])) ∧
      ask .ethGetTransactionByHash (hashParams hash others) = .ok (.success id .null) ∧
      ask .ethGetTransactionReceipt (hashParams hash others) = .ok (.success id .null) ∧
      (ask .ethGetLogs params = .ok (.success id (.arr [])) ∨
        ∃ message, ask .ethGetLogs params = .ok (.failure id invalidParams message)) := by
  intro n ask
  have hask : ∀ m params, ask m params = m.respond keccak256 errorText
      (served chainId peerId nodeState peers node) id params := by
    intro m params
    show processRequest _ _ _ _ = _
    unfold processRequest
    rw [RpcMethod.ofName_name]
  have hstart : Counted 0 (ReplicaNode.start validators electors executor state seed).stats :=
    ⟨rfl, rfl, rfl, rfl, rfl⟩
  have hcounted := (Counted.runReplica (.start validators electors executor state seed) node hstart
    hrun).2
  simp only [hask]
  refine ⟨rfl, ?_, ?_, ?_, ?_⟩
  · show Except.ok (RpcResponse.success id (.obj
      [("maxRound", .num node.stats.currentRound.toNat),
        ("totalEvents", .num (node.stats.eventsReceived + node.stats.eventsCreated).toNat),
        ("latestBlock", .num 0)])) = _
    rw [hcounted.current, hcounted.created, hcounted.received]
    rfl
  · show ethGetTransactionByHash _ _ _ = _
    rw [ethGetTransactionByHash, hashQuery_hashParams]
    show Except.ok (RpcResponse.success id (((LogStore.ofOps (programOps chainId)).toBlockStore
      |>.findTransaction hash).map _ |>.getD .null)) = _
    rw [findTransaction_programOps]
    rfl
  · show ethGetTransactionReceipt _ _ _ = _
    rw [ethGetTransactionReceipt, hashQuery_hashParams]
    rfl
  · show Except.ok (ethGetLogs _ _ _ _) = _ ∨ ∃ message, Except.ok (ethGetLogs _ _ _ _) = _
    unfold ethGetLogs
    rcases parseLogFilter errorText params with e | filter
    · exact .inr ⟨e, rfl⟩
    · left
      dsimp only [served]
      rw [getLogs_programOps]
      rfl

/-- The one-validator network has committed three rounds. Kind: L -/
theorem served_chain_stays_genesis_solo :
    ∃ node, (ReplicaNode.runReplica soloKeccak256 soloSha256 soloActions soloNode).2 = some node ∧
      let ask (m : RpcMethod) := processRequest soloKeccak256 (fun _ => "")
        (served 1 (.fill 32 0) .running (PeerTable.new (.fill 32 0) 50 : PeerTable ℕ) node)
        ⟨"2.0", m.name, none, .num 7⟩
      ask .ethBlockNumber = .ok (.success (.num 7) (.str "0x0")) ∧
        ask .rytherDagInfo = .ok (.success (.num 7) (.obj
          [("maxRound", .num 3), ("totalEvents", .num 0), ("latestBlock", .num 0)])) := by
  obtain ⟨node, hrun⟩ : ∃ node,
      (ReplicaNode.runReplica soloKeccak256 soloSha256 soloActions soloNode).2 = some node :=
    Option.isSome_iff_exists.mp (by decide +kernel)
  have hcommitted : node.detector.lastCommitted.toNat = 3 := by
    have hlast : ((ReplicaNode.runReplica soloKeccak256 soloSha256 soloActions soloNode).2.map
        fun node => node.detector.lastCommitted) = some 3 := by decide +kernel
    rw [hrun] at hlast
    exact congrArg UInt64.toNat (Option.some.inj hlast)
  have hserved := served_chain_stays_genesis soloKeccak256 soloSha256 (fun _ => "") soloValidators
    soloValidators ⟨3, ⟨∅⟩⟩ (fundedState [0xAA]) (.fill 32 0) soloActions node hrun 1 (.fill 32 0)
    .running (PeerTable.new (.fill 32 0) 50 : PeerTable ℕ) (.num 7) none (.fill 32 0) []
  rw [hcommitted] at hserved
  exact ⟨node, hrun, hserved.1, hserved.2.1⟩

end Ryther
