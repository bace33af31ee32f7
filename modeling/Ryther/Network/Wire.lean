import Ryther.Lib.Codec
import Ryther.Network.Message

/-!
# The wire format of messages

`to_bytes` and `from_bytes` of `src/network/message.rs`, which use the default encoding of bincode:
the fields of a structure one after the other, integers of fixed width with the least significant
byte first, arrays as their bytes, vectors, strings and byte slices with a 64-bit length, one byte
for options and booleans, and the index of a variant in 32 bits.

* `ValidatorId` and signatures are written as byte slices and read as vectors of bytes whose length
  is checked then; both are the format `Codec.byteList`.
* `MessageType` is a tagged union over `MessageKind`, in the order of the source.
* `NetworkMessage.toBytes`, `NetworkMessage.fromBytes` — reading ignores what follows the message.
-/

namespace Ryther

open Lib

namespace Wire

/-! ### Ids, signatures and events -/

/-- Bytes with their length, which has to be `n`.
Source: `types/mod.rs`, the implementations of `Serialize` and `Deserialize`
Kind: D -/
def sizedBytes (n : ℕ) : Codec (Bytes n) :=
  Codec.byteList.restrict (fun bytes => bytes.toList)
    (fun bytes => if h : bytes.length = n then some ⟨bytes, h⟩ else none)
    (fun bytes => dif_pos bytes.toList_length) fun list bytes h => by
      split_ifs at h
      cases h
      rfl

/-- The 48 bytes of a public key, written with their length.
Source: `types/mod.rs`, `Serialize` and `Deserialize` for `ValidatorId`
Kind: D -/
def validatorId : Codec ValidatorId :=
  (sizedBytes 48).map ⟨ValidatorId.bytes, ValidatorId.mk, fun _ => rfl, fun _ => rfl⟩

/-- The 96 bytes of a signature, written with their length.
Source: `types/mod.rs`, `Serialize` and `Deserialize` for `BlsSignature`
Kind: D -/
def blsSignature : Codec (Bytes 96) := sizedBytes 96

/-- A byte array has an encoding that is not empty. Kind: L -/
theorem array_ne_nil {n : ℕ} (hn : n ≠ 0) (a : Bytes n) : (Codec.array n).encode a ≠ [] := by
  intro h
  have hlen := congrArg List.length h
  rw [Codec.encode_array, a.toList_length] at hlen
  exact hn hlen

/-- A length and the ids. Kind: D -/
def eventIds : Codec (List EventId) := (Codec.array 32).list (array_ne_nil (by decide))

/-- The public key and the shares, both as byte lists.
Source: `types/transaction.rs`, `ThresholdCapsule`
Kind: D -/
def thresholdCapsule : Codec ThresholdCapsule :=
  (Codec.byteList.pair Codec.byteList).map
    { toFun := fun c => (c.ephemeralPubkey, c.encryptedShares)
      invFun := fun (ephemeralPubkey, encryptedShares) => ⟨ephemeralPubkey, encryptedShares⟩
      left_inv := fun _ => rfl
      right_inv := fun _ => rfl }

/-- The ciphertext, the capsule and the commitment.
Source: `types/transaction.rs`, `EncryptedTransaction`
Kind: D -/
def encryptedTransaction : Codec EncryptedTransaction :=
  (Codec.byteList.pair (thresholdCapsule.pair (Codec.array 32))).map
    { toFun := fun tx => (tx.ciphertext, tx.capsule, tx.commitment)
      invFun := fun (ciphertext, capsule, commitment) => ⟨ciphertext, capsule, commitment⟩
      left_inv := fun _ => rfl
      right_inv := fun _ => rfl }

/-- An encrypted transaction has an encoding that is not empty. Kind: L -/
theorem encryptedTransaction_ne_nil (tx : EncryptedTransaction) :
    encryptedTransaction.encode tx ≠ [] := List.cons_ne_nil _ _

/-- The transactions and the root.
Source: `types/transaction.rs`, `EncryptedBatch`
Kind: D -/
def encryptedBatch : Codec EncryptedBatch :=
  ((encryptedTransaction.list encryptedTransaction_ne_nil).pair (Codec.array 32)).map
    { toFun := fun batch => (batch.transactions, batch.batchRoot)
      invFun := fun (transactions, batchRoot) => ⟨transactions, batchRoot⟩
      left_inv := fun _ => rfl
      right_inv := fun _ => rfl }

/-- The id, the creator, the two times, the parents, the batch and the signature.
Source: `types/event.rs`, `DagEvent`
Kind: D -/
def dagEvent : Codec DagEvent :=
  ((Codec.array 32).pair (validatorId.pair (Codec.u64.pair (Codec.u64.pair (eventIds.pair
    (eventIds.pair (encryptedBatch.pair blsSignature))))))).map
    { toFun := fun e => (e.id, e.creator, e.lamportTime, e.round, e.strongParents, e.weakParents,
        e.payload, e.signature)
      invFun := fun (id, creator, lamportTime, round, strongParents, weakParents, payload,
        signature) =>
        ⟨id, creator, lamportTime, round, strongParents, weakParents, payload, signature⟩
      left_inv := fun _ => rfl
      right_inv := fun _ => rfl }

/-- An event has an encoding that is not empty. Kind: L -/
theorem dagEvent_ne_nil (e : DagEvent) : dagEvent.encode e ≠ [] := by
  intro h
  exact array_ne_nil (by decide) e.id (List.append_eq_nil_iff.mp h).1

/-- A length and the events. Kind: D -/
def dagEvents : Codec (List DagEvent) := dagEvent.list dagEvent_ne_nil

/-! ### Payloads -/

/-- The version, the chain, its genesis, the validator if there is one, and the latest round.
Source: `network/message.rs`, `HelloMessage`
Kind: D -/
def helloMessage : Codec HelloMessage :=
  (Codec.u8.pair (Codec.u64.pair ((Codec.array 32).pair (validatorId.option.pair
    Codec.u64)))).map
    { toFun := fun m => (m.version, m.chainId, m.genesisHash, m.validatorId, m.latestRound)
      invFun := fun (version, chainId, genesisHash, validatorId, latestRound) =>
        ⟨version, chainId, genesisHash, validatorId, latestRound⟩
      left_inv := fun _ => rfl
      right_inv := fun _ => rfl }

/-- The verdict, the reason if there is one, and the latest round.
Source: `network/message.rs`, `HelloAckMessage`
Kind: D -/
def helloAckMessage : Codec HelloAckMessage :=
  (Codec.bool.pair (Codec.string.option.pair Codec.u64)).map
    { toFun := fun m => (m.accepted, m.reason, m.latestRound)
      invFun := fun (accepted, reason, latestRound) => ⟨accepted, reason, latestRound⟩
      left_inv := fun _ => rfl
      right_inv := fun _ => rfl }

/-- The id, the creator and the round of the event.
Source: `network/message.rs`, `EventAnnounce`
Kind: D -/
def eventAnnounce : Codec EventAnnounce :=
  ((Codec.array 32).pair (validatorId.pair Codec.u64)).map
    { toFun := fun m => (m.eventId, m.creator, m.round)
      invFun := fun (eventId, creator, round) => ⟨eventId, creator, round⟩
      left_inv := fun _ => rfl
      right_inv := fun _ => rfl }

/-- The ids alone.
Source: `network/message.rs`, `EventRequest`
Kind: D -/
def eventRequest : Codec EventRequest :=
  eventIds.map ⟨EventRequest.eventIds, EventRequest.mk, fun _ => rfl, fun _ => rfl⟩

/-- The events and the missing ids.
Source: `network/message.rs`, `EventResponse`
Kind: D -/
def eventResponse : Codec EventResponse :=
  (dagEvents.pair eventIds).map
    { toFun := fun m => (m.events, m.missing)
      invFun := fun (events, missing) => ⟨events, missing⟩
      left_inv := fun _ => rfl
      right_inv := fun _ => rfl }

/-- The transaction alone.
Source: `network/message.rs`, `TransactionBroadcast`
Kind: D -/
def transactionBroadcast : Codec TransactionBroadcast :=
  encryptedTransaction.map
    ⟨TransactionBroadcast.transaction, TransactionBroadcast.mk, fun _ => rfl, fun _ => rfl⟩

/-- The two ends of the range and the bound on the events.
Source: `network/message.rs`, `SyncRequest`
Kind: D -/
def syncRequest : Codec SyncRequest :=
  (Codec.u64.pair (Codec.u64.pair Codec.u64)).map
    { toFun := fun m => (m.fromRound, m.toRound, m.maxEvents)
      invFun := fun (fromRound, toRound, maxEvents) => ⟨fromRound, toRound, maxEvents⟩
      left_inv := fun _ => rfl
      right_inv := fun _ => rfl }

/-- The events, whether there are more, and the round to go on with.
Source: `network/message.rs`, `SyncResponse`
Kind: D -/
def syncResponse : Codec SyncResponse :=
  (dagEvents.pair (Codec.bool.pair Codec.u64)).map
    { toFun := fun m => (m.events, m.hasMore, m.nextRound)
      invFun := fun (events, hasMore, nextRound) => ⟨events, hasMore, nextRound⟩
      left_inv := fun _ => rfl
      right_inv := fun _ => rfl }

/-- The id, the text of the address and the port.
Source: `network/message.rs`, `PeerAddress`
Kind: D -/
def peerAddress : Codec PeerAddress :=
  ((Codec.array 32).pair (Codec.string.pair Codec.u16)).map
    { toFun := fun m => (m.id, m.ip, m.port)
      invFun := fun (id, ip, port) => ⟨id, ip, port⟩
      left_inv := fun _ => rfl
      right_inv := fun _ => rfl }

/-- The address of a peer has an encoding that is not empty. Kind: L -/
theorem peerAddress_ne_nil (peer : PeerAddress) : peerAddress.encode peer ≠ [] := by
  intro h
  exact array_ne_nil (by decide) peer.id (List.append_eq_nil_iff.mp h).1

/-- The addresses alone.
Source: `network/message.rs`, `PeersMessage`
Kind: D -/
def peersMessage : Codec PeersMessage :=
  (peerAddress.list peerAddress_ne_nil).map
    ⟨PeersMessage.peers, PeersMessage.mk, fun _ => rfl, fun _ => rfl⟩

/-- The index, the value and the holder.
Source: `crypto/threshold.rs`, `SecretShare`
Kind: D -/
def secretShare : Codec SecretShare :=
  (Codec.u32.pair ((Codec.array 32).pair validatorId)).map
    { toFun := fun share => (share.index, share.value, share.holder)
      invFun := fun (index, value, holder) => ⟨index, value, holder⟩
      left_inv := fun _ => rfl
      right_inv := fun _ => rfl }

/-- The event and the share.
Source: `network/message.rs`, `DecryptionShareMessage`
Kind: D -/
def decryptionShareMessage : Codec DecryptionShareMessage :=
  ((Codec.array 32).pair secretShare).map
    { toFun := fun m => (m.eventId, m.share)
      invFun := fun (eventId, share) => ⟨eventId, share⟩
      left_inv := fun _ => rfl
      right_inv := fun _ => rfl }

end Wire

/-! ### Messages -/

/-- The variants of `MessageType`.
Kind: D -/
inductive MessageKind where
  | hello
  | helloAck
  | eventAnnounce
  | eventRequest
  | eventResponse
  | transactionBroadcast
  | syncRequest
  | syncResponse
  | getPeers
  | peers
  | ping
  | pong
  | decryptionShare
  deriving DecidableEq

namespace MessageKind

/-- The variants in the order of the source.
Kind: D -/
def all : List MessageKind :=
  [hello, helloAck, eventAnnounce, eventRequest, eventResponse, transactionBroadcast, syncRequest,
    syncResponse, getPeers, peers, ping, pong, decryptionShare]

/-- The index of a variant.
Kind: D -/
def tag (kind : MessageKind) : UInt32 := UInt32.ofNat (all.idxOf kind)

/-- The variant with an index.
Kind: D -/
def ofTag (tag : UInt32) : Option MessageKind := all[tag.toNat]?

/-- A written tag is read back. Kind: L -/
theorem ofTag_tag (kind : MessageKind) : ofTag kind.tag = some kind := by
  cases kind <;> rfl

/-- A kind is read from its own tag only. Kind: L -/
theorem eq_tag_of_ofTag {tag : UInt32} {kind : MessageKind} (h : ofTag tag = some kind) :
    tag = kind.tag := by
  obtain ⟨hlt, hget⟩ := List.getElem?_eq_some_iff.mp h
  have hnodup : all.Nodup := by decide
  have hidx : all.idxOf kind = tag.toNat := by
    rw [← hget]
    exact hnodup.idxOf_getElem _ hlt
  rw [MessageKind.tag, hidx, UInt32.ofNat_toNat]

/-- What a variant carries.
Kind: D -/
def Payload : MessageKind → Type
  | hello => HelloMessage
  | helloAck => HelloAckMessage
  | eventAnnounce => EventAnnounce
  | eventRequest => EventRequest
  | eventResponse => EventResponse
  | transactionBroadcast => TransactionBroadcast
  | syncRequest => SyncRequest
  | syncResponse => SyncResponse
  | getPeers => Unit
  | peers => PeersMessage
  | ping => UInt64
  | pong => UInt64
  | decryptionShare => DecryptionShareMessage

end MessageKind

namespace Wire

/-- The contents of every kind of message.
Source: `network/message.rs`, the payloads of `MessageType`
Kind: D -/
def payload : (kind : MessageKind) → Codec kind.Payload
  | .hello => helloMessage
  | .helloAck => helloAckMessage
  | .eventAnnounce => eventAnnounce
  | .eventRequest => eventRequest
  | .eventResponse => eventResponse
  | .transactionBroadcast => transactionBroadcast
  | .syncRequest => syncRequest
  | .syncResponse => syncResponse
  | .getPeers => Codec.unit
  | .peers => peersMessage
  | .ping => Codec.u64
  | .pong => Codec.u64
  | .decryptionShare => decryptionShareMessage

/-- A message type as its variant and what it carries.
Kind: D -/
def messageTypeEquiv : MessageType ≃ (kind : MessageKind) × kind.Payload where
  toFun
    | .hello m => ⟨.hello, m⟩
    | .helloAck m => ⟨.helloAck, m⟩
    | .eventAnnounce m => ⟨.eventAnnounce, m⟩
    | .eventRequest m => ⟨.eventRequest, m⟩
    | .eventResponse m => ⟨.eventResponse, m⟩
    | .transactionBroadcast m => ⟨.transactionBroadcast, m⟩
    | .syncRequest m => ⟨.syncRequest, m⟩
    | .syncResponse m => ⟨.syncResponse, m⟩
    | .getPeers => ⟨.getPeers, ()⟩
    | .peers m => ⟨.peers, m⟩
    | .ping nonce => ⟨.ping, nonce⟩
    | .pong nonce => ⟨.pong, nonce⟩
    | .decryptionShare m => ⟨.decryptionShare, m⟩
  invFun
    | ⟨.hello, m⟩ => .hello m
    | ⟨.helloAck, m⟩ => .helloAck m
    | ⟨.eventAnnounce, m⟩ => .eventAnnounce m
    | ⟨.eventRequest, m⟩ => .eventRequest m
    | ⟨.eventResponse, m⟩ => .eventResponse m
    | ⟨.transactionBroadcast, m⟩ => .transactionBroadcast m
    | ⟨.syncRequest, m⟩ => .syncRequest m
    | ⟨.syncResponse, m⟩ => .syncResponse m
    | ⟨.getPeers, _⟩ => .getPeers
    | ⟨.peers, m⟩ => .peers m
    | ⟨.ping, nonce⟩ => .ping nonce
    | ⟨.pong, nonce⟩ => .pong nonce
    | ⟨.decryptionShare, m⟩ => .decryptionShare m
  left_inv m := by cases m <;> rfl
  right_inv := by
    rintro ⟨kind, m⟩
    cases kind <;> rfl

/-- The tag of the kind and the contents.
Source: `network/message.rs`, `MessageType`
Kind: D -/
def messageType : Codec MessageType :=
  ((Codec.u32.restrict MessageKind.tag MessageKind.ofTag MessageKind.ofTag_tag
    fun _ _ => MessageKind.eq_tag_of_ofTag).sigma payload).map messageTypeEquiv

/-- The version, the id and the sender, and then the contents.
Source: `network/message.rs`, `NetworkMessage`
Kind: D -/
def networkMessage : Codec NetworkMessage :=
  (Codec.u8.pair ((Codec.array 16).pair ((Codec.array 32).pair messageType))).map
    { toFun := fun m => (m.version, m.messageId, m.sender, m.payload)
      invFun := fun (version, messageId, sender, payload) => ⟨version, messageId, sender, payload⟩
      left_inv := fun _ => rfl
      right_inv := fun _ => rfl }

end Wire

namespace NetworkMessage

/-- Serialization into memory does not fail.
Source: `network/message.rs`, `NetworkMessage::to_bytes`
Kind: D -/
def toBytes (msg : NetworkMessage) : List UInt8 := Wire.networkMessage.encode msg

/-- The message that some bytes begin with; what follows it is ignored.
Source: `network/message.rs`, `NetworkMessage::from_bytes`
Kind: D -/
def fromBytes (bytes : List UInt8) : Option NetworkMessage :=
  (Wire.networkMessage.decode bytes).map Prod.fst

/-- **What was written is read.** Kind: P -/
theorem fromBytes_toBytes (msg : NetworkMessage) (h : msg.toBytes.length < 2 ^ 64) :
    fromBytes msg.toBytes = some msg := by
  have hdecode := Wire.networkMessage.decode_encode msg [] h
  rw [List.append_nil] at hdecode
  rw [fromBytes, toBytes, hdecode, Option.map_some]

/-- **What is read had been written**, with something behind it. Kind: P -/
theorem toBytes_prefix_of_fromBytes {bytes : List UInt8} {msg : NetworkMessage}
    (h : fromBytes bytes = some msg) : msg.toBytes <+: bytes := by
  obtain ⟨⟨msg', rest⟩, hdecode, rfl⟩ := Option.map_eq_some_iff.mp h
  exact ⟨rest, (Wire.networkMessage.encode_decode _ _ _ hdecode).symm⟩

example : fromBytes (toBytes ⟨1, .fill 16 3, .fill 32 4, .helloAck ⟨false, some "full", 9⟩⟩) =
    some ⟨1, .fill 16 3, .fill 32 4, .helloAck ⟨false, some "full", 9⟩⟩ := by
  decide +kernel

end NetworkMessage

end Ryther
