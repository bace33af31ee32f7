import Mathlib.Data.List.Sort
import Ryther.Types.Basic

/-!
# Peers

The part of `src/network/peer.rs` that the gossip protocol uses: reputations, and the choice of the
peers an event is announced to; and the part that the transport uses: which peers are known, up to a
maximum, and the state of each. Addresses, times and counters of a peer are left out.

* `modifyEntry`, `addEntry` — the two ways in which a map of peers changes, whatever it stores for a
  peer; `addEntry_eq` says that a peer is taken exactly if it is not the node itself and is known
  already or there is room.
* `PeerManager`, `CappedPeerManager` — the peers with their reputations and states.
-/

namespace Ryther

open Lib

/-- A peer is known by 32 bytes.
Source: `network/peer.rs`, `PeerId`
Kind: D -/
abbrev PeerId := Bytes 32

/-- The state of the connection to a peer.
Source: `network/peer.rs`, `PeerState`
Kind: D -/
inductive PeerState where
  | disconnected
  | connecting
  | connected
  | banned
  deriving DecidableEq

/-- What a node knows about a peer: the part that the reputation and the state of the connection
need.
Source: `network/peer.rs`, `PeerInfo`
Kind: D -/
structure PeerInfo where
  id : PeerId
  state : PeerState
  reputation : Int32
  deriving DecidableEq

/-- The nearest `i32`.
Kind: D -/
def saturate (n : ℤ) : Int32 := Int32.ofInt (max Int32.minValue.toInt (min Int32.maxValue.toInt n))

namespace PeerInfo

/-- A peer that is not connected, with a neutral reputation.
Source: `network/peer.rs`, `PeerInfo::new`
Kind: D -/
def new (id : PeerId) : PeerInfo := ⟨id, .disconnected, 0⟩

/-- The reputation goes up and stays in range.
Source: `network/peer.rs`, `PeerInfo::reward`
Kind: D -/
def reward (peer : PeerInfo) (amount : Int32) : PeerInfo :=
  { peer with reputation := saturate (peer.reputation.toInt + amount.toInt) }

/-- The reputation goes down and stays in range; the code bans no one here.
Source: `network/peer.rs`, `PeerInfo::penalize`
Kind: D -/
def penalize (peer : PeerInfo) (amount : Int32) : PeerInfo :=
  { peer with reputation := saturate (peer.reputation.toInt - amount.toInt) }

end PeerInfo

/-! ### Maps of peers -/

section Maps

variable {α : Type}

/-- Change the entry of a peer that is known.
Source: `network/peer.rs`, `if let Some(peer) = self.peers.write().get_mut(id)`
Kind: D -/
def modifyEntry (peers : HashMap PeerId α) (id : PeerId) (f : α → α) : HashMap PeerId α :=
  match peers.lookup id with
  | some peer => peers.insert id (f peer)
  | none => peers

/-- A change of a peer is seen at that peer only. Kind: L -/
theorem lookup_modifyEntry (peers : HashMap PeerId α) (id other : PeerId) (f : α → α) :
    (modifyEntry peers other f).lookup id =
      if id = other then (peers.lookup id).map f else peers.lookup id := by
  unfold modifyEntry
  rcases hlook : peers.lookup other with _ | peer
  · split_ifs with heq
    · rw [heq, hlook]
      rfl
    · rfl
  · split_ifs with heq
    · rw [heq, hlook, AList.lookup_insert]
      rfl
    · exact AList.lookup_insert_ne heq

/-- A change of a peer leaves the known peers as they are. Kind: L -/
theorem mem_modifyEntry (peers : HashMap PeerId α) (id other : PeerId) (f : α → α) :
    id ∈ modifyEntry peers other f ↔ id ∈ peers := by
  rw [← AList.lookup_isSome, ← AList.lookup_isSome, lookup_modifyEntry]
  split_ifs
  · rw [Option.isSome_map]
  · rfl

/-- A change of a peer leaves their number. Kind: L -/
theorem length_modifyEntry (peers : HashMap PeerId α) (id : PeerId) (f : α → α) :
    (modifyEntry peers id f).keys.length = peers.keys.length := by
  unfold modifyEntry
  rcases hlook : peers.lookup id with _ | peer
  · rfl
  · have hmem : id ∈ peers := AList.lookup_isSome.mp (by rw [hlook]; rfl)
    rw [length_keys_insert, if_pos hmem]

/-- The checks of `add_peer`, and the peers after it if they pass. A peer is refused if it is the
node itself, or if it is not known and there is no room for it.
Source: `network/peer.rs`, `PeerManager::add_peer`
Kind: D -/
def addEntry (peers : HashMap PeerId α) (maxPeers : ℕ) (localId id : PeerId)
    (updated : HashMap PeerId α) : HashMap PeerId α × Bool :=
  if id = localId then (peers, false)
  else if peers.keys.length ≥ maxPeers ∧ id ∉ peers then (peers, false)
  else (updated, true)

/-- The peer is another node, and it is known already or there is room for it.
Kind: D -/
def HasRoom (peers : HashMap PeerId α) (maxPeers : ℕ) (localId id : PeerId) : Prop :=
  id ≠ localId ∧ (id ∈ peers ∨ peers.keys.length < maxPeers)

instance (peers : HashMap PeerId α) (maxPeers : ℕ) (localId id : PeerId) :
    Decidable (HasRoom peers maxPeers localId id) :=
  inferInstanceAs (Decidable (_ ∧ _))

/-- **A peer is taken exactly if there is room for it.** Kind: P -/
theorem addEntry_eq (peers : HashMap PeerId α) (maxPeers : ℕ) (localId id : PeerId)
    (updated : HashMap PeerId α) :
    addEntry peers maxPeers localId id updated =
      if HasRoom peers maxPeers localId id then (updated, true) else (peers, false) := by
  unfold addEntry
  by_cases hlocal : id = localId
  · have hnot : ¬ HasRoom peers maxPeers localId id := fun h => h.1 hlocal
    rw [if_pos hlocal, if_neg hnot]
  · rw [if_neg hlocal]
    by_cases hroom : id ∈ peers ∨ peers.keys.length < maxPeers
    · have hroom' : HasRoom peers maxPeers localId id := ⟨hlocal, hroom⟩
      rw [if_pos hroom', if_neg fun h => hroom.elim h.2 (Nat.not_lt.mpr h.1)]
    · have hnot : ¬ HasRoom peers maxPeers localId id := fun h => hroom h.2
      obtain ⟨hnew, hfull⟩ := not_or.mp hroom
      rw [if_neg hnot, if_pos ⟨Nat.not_lt.mp hfull, hnew⟩]

end Maps

/-! ### The peers of the gossip protocol -/

/-- The known peers.
Source: `network/peer.rs`, `PeerManager`
Kind: D -/
structure PeerManager where
  peers : HashMap PeerId PeerInfo

namespace PeerManager

/-- Change the record of a peer that is known.
Kind: D -/
def modifyPeer (manager : PeerManager) (id : PeerId) (f : PeerInfo → PeerInfo) : PeerManager :=
  ⟨modifyEntry manager.peers id f⟩

/-- A known peer is rewarded.
Source: `network/peer.rs`, `PeerManager::reward_peer`
Kind: D -/
def rewardPeer (manager : PeerManager) (id : PeerId) (amount : Int32) : PeerManager :=
  manager.modifyPeer id fun peer => peer.reward amount

/-- A known peer is penalized.
Source: `network/peer.rs`, `PeerManager::penalize_peer`
Kind: D -/
def penalizePeer (manager : PeerManager) (id : PeerId) (amount : Int32) : PeerManager :=
  manager.modifyPeer id fun peer => peer.penalize amount

/-- The sort is stable; equal reputations keep the order of the map.
Source: `network/peer.rs`, `PeerManager::best_peers`
Kind: D -/
def bestPeers (manager : PeerManager) (count : ℕ) : List PeerInfo :=
  let connected := (manager.peers.entries.map fun entry => entry.2).filter fun peer =>
    peer.state = .connected
  (connected.insertionSort fun a b => b.reputation ≤ a.reputation).take count

/-- A known peer changes its state.
Source: `network/peer.rs`, `PeerManager::set_state`
Kind: D -/
def setState (manager : PeerManager) (id : PeerId) (state : PeerState) : PeerManager :=
  manager.modifyPeer id fun peer => { peer with state := state }

end PeerManager

/-! ### The maximum number of peers -/

/-- The peer manager with its bound and the node's own id.
Source: `network/peer.rs`, `PeerManager`
Kind: D -/
structure CappedPeerManager extends PeerManager where
  maxPeers : ℕ
  localId : PeerId

namespace CappedPeerManager

/-- A manager without peers, for a node and a number of peers.
Source: `network/peer.rs`, `PeerManager::new`
Kind: D -/
def new (localId : PeerId) (maxPeers : ℕ) : CappedPeerManager := ⟨⟨∅⟩, maxPeers, localId⟩

/-- The manager and the answer. For a peer that is known only the address and the time change.
Source: `network/peer.rs`, `PeerManager::add_peer`
Kind: D -/
def addPeer (manager : CappedPeerManager) (id : PeerId) : CappedPeerManager × Bool :=
  let (peers, added) := addEntry manager.peers manager.maxPeers manager.localId id
    (if id ∈ manager.peers then manager.peers else manager.peers.insert id (.new id))
  ({ manager with peers := peers }, added)

/-- A known peer changes its state; the bound is not looked at.
Source: `network/peer.rs`, `PeerManager::set_state`
Kind: D -/
def setState (manager : CappedPeerManager) (id : PeerId) (state : PeerState) : CappedPeerManager :=
  { manager with toPeerManager := manager.toPeerManager.setState id state }

/-- The peer is another node, and it is known already or there is room for it.
Kind: D -/
def Admits (manager : CappedPeerManager) (id : PeerId) : Prop :=
  HasRoom manager.peers manager.maxPeers manager.localId id

instance (manager : CappedPeerManager) (id : PeerId) : Decidable (manager.Admits id) :=
  inferInstanceAs (Decidable (HasRoom _ _ _ _))

/-- **What adding a peer does.** Kind: P -/
theorem addPeer_cases (manager : CappedPeerManager) (id : PeerId) :
    (¬ manager.Admits id ∧ manager.addPeer id = (manager, false)) ∨
      (manager.Admits id ∧ id ∈ manager.peers ∧ manager.addPeer id = (manager, true)) ∨
      manager.Admits id ∧ id ∉ manager.peers ∧ manager.addPeer id =
        ({ manager with peers := manager.peers.insert id (.new id) }, true) := by
  unfold addPeer Admits
  rw [addEntry_eq]
  by_cases hroom : HasRoom manager.peers manager.maxPeers manager.localId id
  · rw [if_pos hroom]
    by_cases hmem : id ∈ manager.peers
    · exact .inr (.inl ⟨hroom, hmem, by rw [if_pos hmem]⟩)
    · exact .inr (.inr ⟨hroom, hmem, by rw [if_neg hmem]⟩)
  · rw [if_neg hroom]
    exact .inl ⟨hroom, rfl⟩

end CappedPeerManager

end Ryther
