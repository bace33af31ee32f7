import Ryther.Network.Peer
import Ryther.Types.Event

/-!
# Network messages

The messages of `src/network/message.rs` with all their payloads. Peers choose every field of what
they send.
-/

namespace Ryther

open Lib

/-- The greeting of a node that connects.
Source: `network/message.rs`, `HelloMessage`
Kind: D -/
structure HelloMessage where
  version : UInt8
  chainId : UInt64
  genesisHash : Bytes 32
  validatorId : Option ValidatorId
  latestRound : UInt64
  deriving DecidableEq

/-- The answer to a greeting.
Source: `network/message.rs`, `HelloAckMessage`
Kind: D -/
structure HelloAckMessage where
  accepted : Bool
  reason : Option String
  latestRound : UInt64
  deriving DecidableEq

/-- A new event, without its contents.
Source: `network/message.rs`, `EventAnnounce`
Kind: D -/
structure EventAnnounce where
  eventId : EventId
  creator : ValidatorId
  round : UInt64
  deriving DecidableEq

/-- The ids of events that are asked for.
Source: `network/message.rs`, `EventRequest`
Kind: D -/
structure EventRequest where
  eventIds : List EventId
  deriving DecidableEq

/-- Events that were asked for, and the ids of those that are not stored.
Source: `network/message.rs`, `EventResponse`
Kind: D -/
structure EventResponse where
  events : List DagEvent
  missing : List EventId
  deriving DecidableEq

/-- An encrypted transaction on its way to the pools.
Source: `network/message.rs`, `TransactionBroadcast`
Kind: D -/
structure TransactionBroadcast where
  transaction : EncryptedTransaction
  deriving DecidableEq

/-- The rounds that a node that is behind asks for.
Source: `network/message.rs`, `SyncRequest`; `usize` has 64 bits
Kind: D -/
structure SyncRequest where
  fromRound : UInt64
  toRound : UInt64
  maxEvents : UInt64
  deriving DecidableEq

/-- Events of some rounds, and where to go on.
Source: `network/message.rs`, `SyncResponse`
Kind: D -/
structure SyncResponse where
  events : List DagEvent
  hasMore : Bool
  nextRound : UInt64
  deriving DecidableEq

/-- Where a peer can be reached.
Source: `network/message.rs`, `PeerAddress`
Kind: D -/
structure PeerAddress where
  id : PeerId
  ip : String
  port : UInt16
  deriving DecidableEq

/-- The peers that a node knows.
Source: `network/message.rs`, `PeersMessage`
Kind: D -/
structure PeersMessage where
  peers : List PeerAddress
  deriving DecidableEq

/-- A share of a key with its index and its holder.
Source: `crypto/threshold.rs`, `SecretShare`
Kind: D -/
structure SecretShare where
  index : UInt32
  value : Bytes 32
  holder : ValidatorId
  deriving DecidableEq

/-- A share for the decryption of an event.
Source: `network/message.rs`, `DecryptionShareMessage`
Kind: D -/
structure DecryptionShareMessage where
  eventId : EventId
  share : SecretShare
  deriving DecidableEq

/-- The kinds of messages with their contents, in the order of the source, which the wire format
counts.
Source: `network/message.rs`, `MessageType`
Kind: D -/
inductive MessageType where
  | hello (message : HelloMessage)
  | helloAck (message : HelloAckMessage)
  | eventAnnounce (announce : EventAnnounce)
  | eventRequest (request : EventRequest)
  | eventResponse (response : EventResponse)
  | transactionBroadcast (broadcast : TransactionBroadcast)
  | syncRequest (request : SyncRequest)
  | syncResponse (response : SyncResponse)
  | getPeers
  | peers (message : PeersMessage)
  | ping (nonce : UInt64)
  | pong (nonce : UInt64)
  | decryptionShare (message : DecryptionShareMessage)
  deriving DecidableEq

/-- A message with its version, its id and its sender.
Source: `network/message.rs`, `NetworkMessage`
Kind: D -/
structure NetworkMessage where
  version : UInt8
  messageId : Bytes 16
  sender : PeerId
  payload : MessageType
  deriving DecidableEq

/-- The id is drawn at random by the source; here it is a parameter.
Source: `network/message.rs`, `NetworkMessage::new`
Kind: D -/
def NetworkMessage.new (messageId : Bytes 16) (sender : PeerId) (payload : MessageType) :
    NetworkMessage := ⟨1, messageId, sender, payload⟩

end Ryther
