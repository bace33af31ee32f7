import Ryther.Consensus.Agreement
import Ryther.Consensus.Commit
import Ryther.Consensus.Election
import Ryther.Consensus.Leader
import Ryther.Consensus.Progress
import Ryther.Consensus.Rule
import Ryther.Consensus.Stability
import Ryther.Crypto.Dkg
import Ryther.Crypto.KeyAgreement
import Ryther.Crypto.KeySecrecy
import Ryther.Crypto.Sharing
import Ryther.Crypto.Threshold
import Ryther.Dag.Delivery
import Ryther.Dag.Indices
import Ryther.Dag.Store
import Ryther.Evm.Abort
import Ryther.Evm.Accounts
import Ryther.Evm.Conservation
import Ryther.Evm.Effect
import Ryther.Evm.Footprint
import Ryther.Evm.Funds
import Ryther.Evm.Gas
import Ryther.Evm.Helpers
import Ryther.Evm.Recorded
import Ryther.Evm.Vm
import Ryther.Evm.WriteSet
import Ryther.Execution.Batch
import Ryther.Execution.Conflict
import Ryther.Execution.Executor
import Ryther.Execution.Finalize
import Ryther.Execution.Interleaving
import Ryther.Execution.Misled
import Ryther.Execution.Mvcc
import Ryther.Execution.Payments
import Ryther.Execution.Replay
import Ryther.Execution.Serial
import Ryther.Execution.Speculative
import Ryther.Execution.StaleRead
import Ryther.Execution.StateRoot
import Ryther.Lib.BinarySearch
import Ryther.Lib.BitTrie
import Ryther.Lib.BlockFile
import Ryther.Lib.Bytes
import Ryther.Lib.Codec
import Ryther.Lib.First
import Ryther.Lib.Framing
import Ryther.Lib.Growing
import Ryther.Lib.Hex
import Ryther.Lib.Json
import Ryther.Lib.Ledger
import Ryther.Lib.LinkedList
import Ryther.Lib.Outputs
import Ryther.Lib.PairTree
import Ryther.Lib.Quorum
import Ryther.Lib.Residue
import Ryther.Lib.Rlp
import Ryther.Lib.Search
import Ryther.Lib.SharedCell
import Ryther.Lib.Traced
import Ryther.Lib.Versioned
import Ryther.Lib.Weighted
import Ryther.Lib.Xor
import Ryther.Network.Connections
import Ryther.Network.Gossip
import Ryther.Network.Link
import Ryther.Network.Message
import Ryther.Network.Net
import Ryther.Network.Peer
import Ryther.Network.PeerTable
import Ryther.Network.Propagation
import Ryther.Network.Reader
import Ryther.Network.Refinement
import Ryther.Network.Traffic
import Ryther.Network.Transport
import Ryther.Network.Wire
import Ryther.Node.Blocks
import Ryther.Node.Causality
import Ryther.Node.Coinbase
import Ryther.Node.Commit
import Ryther.Node.Equivocation
import Ryther.Node.Lifecycle
import Ryther.Node.Logs
import Ryther.Node.Mempool
import Ryther.Node.Node
import Ryther.Node.PriceOrder
import Ryther.Node.Produced
import Ryther.Node.Queries
import Ryther.Node.Repeat
import Ryther.Node.Replica
import Ryther.Node.Requests
import Ryther.Node.Rpc
import Ryther.Storage.Cache
import Ryther.Storage.CacheUsage
import Ryther.Storage.Jmt
import Ryther.Storage.JmtHistory
import Ryther.Storage.JmtMap
import Ryther.Storage.JmtProof
import Ryther.Storage.JmtTrie
import Ryther.Storage.Page
import Ryther.Storage.PageLookup
import Ryther.Types.Basic
import Ryther.Types.BatchRoot
import Ryther.Types.Block
import Ryther.Types.Builder
import Ryther.Types.Chain
import Ryther.Types.Clock
import Ryther.Types.Commitment
import Ryther.Types.Event
import Ryther.Types.Lamport
import Ryther.Types.Quorum
import Ryther.Types.Receipt
import Ryther.Types.ReceiptFormat
import Ryther.Types.State
import Ryther.Types.Tracker
import Ryther.Types.Transaction
import Ryther.Types.Validator
import Ryther.Types.Word
