import Ryther.Network.Peer
import Ryther.Network.Transport

/-!
# Open connections

The connections of `TcpTransport` in `src/network/transport.rs` beside the peers of `PeerManager`.
A connection is opened by `connect`, which waits for the stream while other operations go on, and by
`listen`, which takes every stream and names the peer by the hash of its address. Both ask the peer
manager to add the peer, and neither looks at the answer.

* `TcpTransport.step`, `run` — the operations in any order.
* `TcpTransport.Sound` — what every run keeps: the peers are within the bound, and a peer that is
  waited for and not known will not be known.
* `TcpTransport.connections_bounded_iff` — the connections are within the bound and of known peers
  exactly in the runs that open them only to peers the manager admits. (⇐) is the induction over the
  run (`Sound.known_step`); (⇒) is `Sound.mem_peers_step_iff` at the step that opens one.
-/

namespace Ryther

open Lib

/-- An open connection; the map of the code also has the channel to its writer.
Source: `network/transport.rs`, `Connection`; the channel to the writer is left out
Kind: D -/
structure Connection where
  peerId : PeerId
  deriving DecidableEq

/-- The transport, with the peers that a call of `connect` waits for.
Source: `network/transport.rs`, `TcpTransport`
Kind: D -/
structure TcpTransport where
  peers : CappedPeerManager
  connections : HashMap PeerId Connection
  pending : List PeerId

/-- What happens to the transport.
Kind: D -/
inductive ConnectionOp (Addr : Type) where
  | accept (addr : Addr)
  | connect (peerId : PeerId)
  | opened (peerId : PeerId)
  | failed (peerId : PeerId)
  | disconnect (peerId : PeerId)

namespace TcpTransport

variable {Addr : Type} [ToString Addr] (sha256 : List UInt8 → Bytes 32)

/-- A transport without connections.
Source: `network/transport.rs`, `TcpTransport::new`
Kind: D -/
def new (peers : CappedPeerManager) : TcpTransport := ⟨peers, ∅, []⟩

/-- Whether there is a connection to a peer.
Source: `network/transport.rs`, `TcpTransport::is_connected`
Kind: D -/
def isConnected (transport : TcpTransport) (peerId : PeerId) : Bool :=
  peerId ∈ transport.connections

/-- The number of open connections.
Source: `network/transport.rs`, `TcpTransport::connection_count`
Kind: D -/
def connectionCount (transport : TcpTransport) : ℕ := transport.connections.keys.length

/-- An inbound peer is known by the digest of its address.
Source: `network/transport.rs`, `TcpTransport::addr_to_peer_id`
Kind: D -/
def addrToPeerId (addr : Addr) : PeerId := sha256 (toString addr).toUTF8.data.toList

/-- The connection enters the map, and a known peer becomes connected.
Source: `network/transport.rs`, `TcpTransport::setup_connection`
Kind: D -/
def setupConnection (transport : TcpTransport) (peerId : PeerId) : TcpTransport :=
  { transport with
    connections := transport.connections.insert peerId ⟨peerId⟩
    peers := transport.peers.setState peerId .connected }

/-- One turn of the loop.
Source: `network/transport.rs`, `TcpTransport::listen`
Kind: D -/
def listen (transport : TcpTransport) (addr : Addr) : TcpTransport :=
  let peerId := addrToPeerId sha256 addr
  setupConnection { transport with peers := (transport.peers.addPeer peerId).1 } peerId

/-- Up to the wait for the stream.
Source: `network/transport.rs`, `TcpTransport::connect`
Kind: D -/
def connect (transport : TcpTransport) (peerId : PeerId) : TcpTransport :=
  if transport.isConnected peerId then transport
  else
    { transport with
      peers := (transport.peers.addPeer peerId).1.setState peerId .connecting
      pending := peerId :: transport.pending }

/-- A call that waits has the stream.
Source: `network/transport.rs`, `TcpTransport::connect`
Kind: D -/
def opened (transport : TcpTransport) (peerId : PeerId) : TcpTransport :=
  if peerId ∈ transport.pending then
    setupConnection { transport with pending := transport.pending.erase peerId } peerId
  else transport

/-- A call that waits returns with an error or the timeout.
Source: `network/transport.rs`, `TcpTransport::connect`
Kind: D -/
def failed (transport : TcpTransport) (peerId : PeerId) : TcpTransport :=
  { transport with pending := transport.pending.erase peerId }

/-- The connection leaves the map, and a known peer becomes disconnected.
Source: `network/transport.rs`, `TcpTransport::disconnect`
Kind: D -/
def disconnect (transport : TcpTransport) (peerId : PeerId) : TcpTransport :=
  { transport with
    connections := transport.connections.erase peerId
    peers := transport.peers.setState peerId .disconnected }

/-- The transport after one event of a connection. Kind: D -/
def step (transport : TcpTransport) : ConnectionOp Addr → TcpTransport
  | .accept addr => transport.listen sha256 addr
  | .connect peerId => transport.connect peerId
  | .opened peerId => transport.opened peerId
  | .failed peerId => transport.failed peerId
  | .disconnect peerId => transport.disconnect peerId

/-- The transport after some events, in their order. Kind: D -/
def run (transport : TcpTransport) (ops : List (ConnectionOp Addr)) : TcpTransport :=
  ops.foldl (step sha256) transport

/-- The peer that an operation opens a connection to.
Kind: D -/
def opens (transport : TcpTransport) : ConnectionOp Addr → Option PeerId
  | .accept addr => some (addrToPeerId sha256 addr)
  | .opened peerId => if peerId ∈ transport.pending then some peerId else none
  | .connect _ | .failed _ | .disconnect _ => none

/-- The transport after one more event. Kind: L -/
@[simp] theorem run_concat (transport : TcpTransport) (ops : List (ConnectionOp Addr))
    (op : ConnectionOp Addr) :
    transport.run sha256 (ops ++ [op]) = (transport.run sha256 ops).step sha256 op := by
  simp [run]

end TcpTransport

/-! ### The peers only grow -/

namespace CappedPeerManager

/-- The same node later: no peer is forgotten, and new ones are taken within the bound.
Kind: D -/
structure Grows (before after : CappedPeerManager) : Prop where
  localId_eq : after.localId = before.localId
  maxPeers_eq : after.maxPeers = before.maxPeers
  mem : ∀ id ∈ before.peers, id ∈ after.peers
  length_le : before.peers.keys.length ≤ after.peers.keys.length
  localId_notMem : before.localId ∉ before.peers → after.localId ∉ after.peers
  bounded : before.peers.keys.length ≤ before.maxPeers →
    after.peers.keys.length ≤ after.maxPeers

/-- A manager is a later one of itself. Kind: L -/
theorem Grows.refl (manager : CappedPeerManager) : manager.Grows manager :=
  ⟨rfl, rfl, fun _ h => h, le_rfl, id, id⟩

/-- A later manager of a later one is a later one. Kind: L -/
theorem Grows.trans {first second third : CappedPeerManager} (h : first.Grows second)
    (h' : second.Grows third) : first.Grows third where
  localId_eq := h'.localId_eq.trans h.localId_eq
  maxPeers_eq := h'.maxPeers_eq.trans h.maxPeers_eq
  mem peer hpeer := h'.mem peer (h.mem peer hpeer)
  length_le := h.length_le.trans h'.length_le
  localId_notMem hnot := h'.localId_notMem (h.localId_notMem hnot)
  bounded hle := h'.bounded (h.bounded hle)

/-- Setting a state adds and removes no peer. Kind: L -/
theorem mem_setState (manager : CappedPeerManager) (id other : PeerId) (state : PeerState) :
    other ∈ (manager.setState id state).peers ↔ other ∈ manager.peers :=
  mem_modifyEntry manager.peers other id _

/-- Setting the state of a peer forgets none. Kind: L -/
theorem grows_setState (manager : CappedPeerManager) (id : PeerId) (state : PeerState) :
    manager.Grows (manager.setState id state) := by
  have hlength : (manager.setState id state).peers.keys.length = manager.peers.keys.length :=
    length_modifyEntry manager.peers id _
  refine ⟨rfl, rfl, ?_, hlength.ge, ?_, ?_⟩
  · intro other hother
    exact (manager.mem_setState id other state).mpr hother
  · intro hnot hmem
    exact hnot ((manager.mem_setState id _ state).mp hmem)
  · intro hle
    rw [hlength]
    exact hle

/-- Adding a peer forgets none and stays within the bound. Kind: L -/
theorem grows_addPeer (manager : CappedPeerManager) (id : PeerId) :
    manager.Grows (manager.addPeer id).1 := by
  rcases manager.addPeer_cases id with ⟨-, heq⟩ | ⟨-, -, heq⟩ | ⟨hadmits, hnew, heq⟩
  · rw [heq]
    exact Grows.refl manager
  · rw [heq]
    exact Grows.refl manager
  · obtain ⟨hother, hroom⟩ := hadmits
    have hlength : (manager.peers.insert id (PeerInfo.new id)).keys.length =
        manager.peers.keys.length + 1 := by
      rw [length_keys_insert, if_neg hnew]
    have hlt := hroom.resolve_left hnew
    rw [heq]
    refine ⟨rfl, rfl, ?_, ?_, ?_, ?_⟩
    · intro peer hpeer
      exact (AList.mem_insert _).mpr (.inr hpeer)
    · show _ ≤ (manager.peers.insert id (PeerInfo.new id)).keys.length
      omega
    · intro hnot hmem
      rcases (AList.mem_insert _).mp hmem with hlocal | hmem
      · exact hother hlocal.symm
      · exact hnot hmem
    · intro _
      show (manager.peers.insert id (PeerInfo.new id)).keys.length ≤ manager.maxPeers
      omega

/-- A peer that is not admitted will not be known later. Kind: L -/
theorem Grows.known_or_not_admits {before after : CappedPeerManager} (h : before.Grows after)
    {id : PeerId} (hid : id ∈ before.peers ∨ ¬ before.Admits id) :
    id ∈ after.peers ∨ ¬ after.Admits id := by
  by_cases hknown : id ∈ after.peers
  · exact .inl hknown
  · right
    rintro ⟨hlocal, hmem⟩
    have hlt := hmem.resolve_left hknown
    have hle := h.length_le
    rw [h.maxPeers_eq] at hlt
    rcases hid with hbefore | hnot
    · exact hknown (h.mem id hbefore)
    · exact hnot ⟨h.localId_eq ▸ hlocal, .inr (by omega)⟩

/-- A peer is known after it was added exactly if it is admitted. Kind: L -/
theorem mem_addPeer_iff (manager : CappedPeerManager) (id : PeerId)
    (hlocal : manager.localId ∉ manager.peers) :
    id ∈ (manager.addPeer id).1.peers ↔ manager.Admits id := by
  rcases manager.addPeer_cases id with ⟨hnot, heq⟩ | ⟨hadmits, hmem, heq⟩ | ⟨hadmits, -, heq⟩
  · rw [heq, iff_false_right hnot]
    intro hmem
    refine hnot ⟨?_, .inl hmem⟩
    rintro rfl
    exact hlocal hmem
  · rw [heq]
    exact iff_of_true hmem hadmits
  · rw [heq]
    exact iff_of_true ((AList.mem_insert _).mpr (.inl rfl)) hadmits

end CappedPeerManager

/-! ### Runs -/

namespace TcpTransport

variable {Addr : Type} [ToString Addr] {sha256 : List UInt8 → Bytes 32} {transport : TcpTransport}

/-- What every run keeps.
Kind: D -/
structure Sound (transport : TcpTransport) : Prop where
  localId_notMem : transport.peers.localId ∉ transport.peers.peers
  bounded : transport.peers.peers.keys.length ≤ transport.peers.maxPeers
  waiting : ∀ peerId ∈ transport.pending, peerId ∈ transport.peers.peers ∨
    ¬ transport.peers.Admits peerId

/-- A new transport knows no peer and has no connection. Kind: L -/
theorem sound_new (localId : PeerId) (maxPeers : ℕ) : (new (.new localId maxPeers)).Sound :=
  ⟨AList.notMem_empty _, Nat.zero_le _, by simp [new]⟩

/-- No event of a connection makes the transport forget a peer. Kind: L -/
theorem grows_step (op : ConnectionOp Addr) :
    transport.peers.Grows (transport.step sha256 op).peers := by
  rcases op with addr | peerId | peerId | peerId | peerId
  · exact (CappedPeerManager.grows_addPeer _ _).trans (CappedPeerManager.grows_setState _ _ _)
  · show transport.peers.Grows (transport.connect peerId).peers
    unfold connect
    split_ifs
    · exact .refl _
    · exact (CappedPeerManager.grows_addPeer _ _).trans (CappedPeerManager.grows_setState _ _ _)
  · show transport.peers.Grows (transport.opened peerId).peers
    unfold opened
    split_ifs
    · exact CappedPeerManager.grows_setState _ _ _
    · exact .refl _
  · exact .refl _
  · exact CappedPeerManager.grows_setState _ _ _

/-- Only `connect` waits for a new peer. Kind: L -/
theorem mem_pending_step {op : ConnectionOp Addr} {peerId : PeerId}
    (h : peerId ∈ (transport.step sha256 op).pending) :
    peerId ∈ transport.pending ∨
      op = .connect peerId ∧ ¬ transport.isConnected peerId := by
  rcases op with addr | other | other | other | other
  · exact .inl h
  · change peerId ∈ (transport.connect other).pending at h
    unfold connect at h
    split_ifs at h with hconnected
    · exact .inl h
    · rcases List.mem_cons.mp h with rfl | h
      · exact .inr ⟨rfl, hconnected⟩
      · exact .inl h
  · change peerId ∈ (transport.opened other).pending at h
    unfold opened at h
    split_ifs at h
    · exact .inl (List.mem_of_mem_erase h)
    · exact .inl h
  · exact .inl (List.mem_of_mem_erase h)
  · exact .inl h

/-- Only an operation that opens a connection to a peer connects it. Kind: L -/
theorem mem_connections_step {op : ConnectionOp Addr} {peerId : PeerId}
    (h : peerId ∈ (transport.step sha256 op).connections) :
    peerId ∈ transport.connections ∨ transport.opens sha256 op = some peerId := by
  rcases op with addr | other | other | other | other
  · rcases (AList.mem_insert _).mp h with rfl | h
    · exact .inr rfl
    · exact .inl h
  · change peerId ∈ (transport.connect other).connections at h
    unfold connect at h
    split_ifs at h
    · exact .inl h
    · exact .inl h
  · change peerId ∈ (transport.opened other).connections at h
    unfold opened at h
    split_ifs at h with hpending
    · rcases (AList.mem_insert _).mp h with rfl | h
      · exact .inr (if_pos hpending)
      · exact .inl h
    · exact .inl h
  · exact .inl h
  · exact .inl (AList.mem_erase.mp h).2

/-- What an operation that opens a connection does. Kind: L -/
theorem opens_cases {op : ConnectionOp Addr} {peerId : PeerId}
    (h : transport.opens sha256 op = some peerId) :
    (transport.step sha256 op = setupConnection
        { transport with peers := (transport.peers.addPeer peerId).1 } peerId) ∨
      peerId ∈ transport.pending ∧ transport.step sha256 op = setupConnection
        { transport with pending := transport.pending.erase peerId } peerId := by
  rcases op with addr | other | other | other | other
  · cases h
    exact .inl rfl
  · cases h
  · change (if other ∈ transport.pending then some other else none) = some peerId at h
    split_ifs at h with hpending
    cases h
    exact .inr ⟨hpending, if_pos hpending⟩
  · cases h
  · cases h

/-- An event that opens a connection leaves the connection in the map. Kind: L -/
theorem mem_connections_of_opens {op : ConnectionOp Addr} {peerId : PeerId}
    (h : transport.opens sha256 op = some peerId) :
    peerId ∈ (transport.step sha256 op).connections := by
  rcases opens_cases h with heq | ⟨-, heq⟩
  · rw [heq]
    exact (AList.mem_insert _).mpr (.inl rfl)
  · rw [heq]
    exact (AList.mem_insert _).mpr (.inl rfl)

namespace Sound

/-- One operation. Kind: L -/
theorem step (h : transport.Sound) (op : ConnectionOp Addr) :
    (transport.step sha256 op).Sound := by
  have hgrows : transport.peers.Grows (transport.step sha256 op).peers := grows_step op
  refine ⟨hgrows.localId_notMem h.localId_notMem, hgrows.bounded h.bounded, ?_⟩
  intro peerId hpending
  rcases mem_pending_step hpending with hpending | ⟨rfl, hconnected⟩
  · exact hgrows.known_or_not_admits (h.waiting peerId hpending)
  · by_cases hadmits : transport.peers.Admits peerId
    · left
      show peerId ∈ (transport.connect peerId).peers.peers
      unfold connect
      rw [if_neg hconnected, CappedPeerManager.mem_setState]
      exact (transport.peers.mem_addPeer_iff peerId h.localId_notMem).mpr hadmits
    · exact hgrows.known_or_not_admits (.inr hadmits)

/-- A whole run. Kind: L -/
theorem run (h : transport.Sound) (ops : List (ConnectionOp Addr)) :
    (transport.run sha256 ops).Sound := by
  induction ops using List.reverseRecOn with
  | nil => exact h
  | append_singleton ops op ih =>
      rw [run_concat]
      exact ih.step op

/-- The peer of a new connection is known exactly if it was admitted. Kind: L -/
theorem mem_peers_step_iff (h : transport.Sound) {op : ConnectionOp Addr} {peerId : PeerId}
    (hopens : transport.opens sha256 op = some peerId) :
    peerId ∈ (transport.step sha256 op).peers.peers ↔ transport.peers.Admits peerId := by
  rcases opens_cases hopens with heq | ⟨hpending, heq⟩
  · rw [heq]
    refine (CappedPeerManager.mem_setState _ _ _ _).trans ?_
    exact transport.peers.mem_addPeer_iff peerId h.localId_notMem
  · rw [heq]
    refine (CappedPeerManager.mem_setState _ _ _ _).trans ?_
    constructor
    · intro hmem
      refine ⟨?_, .inl hmem⟩
      rintro rfl
      exact h.localId_notMem hmem
    · intro hadmits
      exact (h.waiting peerId hpending).resolve_right (not_not_intro hadmits)

/-- The connections stay those of known peers. Kind: L -/
theorem known_step (h : transport.Sound) {op : ConnectionOp Addr}
    (hknown : ∀ peerId ∈ transport.connections, peerId ∈ transport.peers.peers)
    (hadmits : ∀ peerId, transport.opens sha256 op = some peerId →
      transport.peers.Admits peerId) :
    ∀ peerId ∈ (transport.step sha256 op).connections,
      peerId ∈ (transport.step sha256 op).peers.peers := by
  intro peerId hmem
  rcases mem_connections_step hmem with hmem | hopens
  · exact (grows_step op).mem peerId (hknown peerId hmem)
  · exact (h.mem_peers_step_iff hopens).mpr (hadmits peerId hopens)

/-- Connections of known peers are within the bound. Kind: L -/
theorem connectionCount_le (h : transport.Sound)
    (hknown : ∀ peerId ∈ transport.connections, peerId ∈ transport.peers.peers) :
    transport.connectionCount ≤ transport.peers.maxPeers := by
  have hsub : transport.connections.keys ⊆ transport.peers.peers.keys := by
    intro peerId hmem
    exact AList.mem_keys.mp (hknown peerId (AList.mem_keys.mpr hmem))
  have hsubperm := (AList.keys_nodup transport.connections).subperm hsub
  exact hsubperm.length_le.trans h.bounded

end Sound

/-- The bound on the peers stays as it was configured. Kind: L -/
theorem maxPeers_run (ops : List (ConnectionOp Addr)) :
    (transport.run sha256 ops).peers.maxPeers = transport.peers.maxPeers := by
  induction ops using List.reverseRecOn with
  | nil => rfl
  | append_singleton ops op ih =>
      rw [run_concat]
      exact (grows_step op).maxPeers_eq.trans ih

/-- **When the connections are bounded.** At every point of a run of a new transport there are at
most `maxPeers` connections, all to known peers, if and only if every operation that opens a
connection opens it to a peer that the peer manager admits at this point: it is not the node itself,
and it is known already or there is room for it.
Source: `network/transport.rs`, `TcpTransport::connect` and `TcpTransport::listen`
Kind: P -/
theorem connections_bounded_iff (sha256 : List UInt8 → Bytes 32) (localId : PeerId) (maxPeers : ℕ)
    (ops : List (ConnectionOp Addr)) :
    (∀ before, before <+: ops →
        let transport := (new (.new localId maxPeers)).run sha256 before
        transport.connectionCount ≤ maxPeers ∧
          ∀ peerId ∈ transport.connections, peerId ∈ transport.peers.peers) ↔
      ∀ before op peerId, before ++ [op] <+: ops →
        let transport := (new (.new localId maxPeers)).run sha256 before
        transport.opens sha256 op = some peerId → transport.peers.Admits peerId := by
  have hsound : ∀ before : List (ConnectionOp Addr),
      ((new (.new localId maxPeers)).run sha256 before).Sound :=
    (sound_new localId maxPeers).run
  constructor
  · intro hbounded before op peerId hstart transport hopens
    obtain ⟨-, hknown⟩ := hbounded _ hstart
    rw [run_concat] at hknown
    refine ((hsound before).mem_peers_step_iff hopens).mp (hknown peerId ?_)
    exact mem_connections_of_opens hopens
  · intro hadmits before hstart transport
    have hknown : ∀ peerId ∈ transport.connections, peerId ∈ transport.peers.peers := by
      -- by induction on the operations so far: each new connection is to an admitted peer
      induction before using List.reverseRecOn with
      | nil =>
          intro peerId hmem
          exact absurd hmem (AList.notMem_empty _)
      | append_singleton before op ih =>
          have hearlier := ih ((List.prefix_append _ _).trans hstart)
          show ∀ peerId ∈ ((new (.new localId maxPeers)).run sha256 (before ++ [op])).connections,
            peerId ∈ ((new (.new localId maxPeers)).run sha256 (before ++ [op])).peers.peers
          rw [run_concat]
          exact (hsound before).known_step hearlier fun peerId => hadmits before op peerId hstart
    refine ⟨?_, hknown⟩
    have hle := (hsound before).connectionCount_le hknown
    rwa [maxPeers_run] at hle

/-- SHA-256 on the texts of the two addresses below.
Kind: D -/
def addressSha256 : List UInt8 → Bytes 32 :=
  tableHash
    [([49, 48, 46, 48, 46, 48, 46, 49, 58, 52, 48, 48, 48, 48],
        115237697264110123491502235964074966811206790088212775027640502821306169052956),
      ([49, 48, 46, 48, 46, 48, 46, 50, 58, 52, 48, 48, 48, 48],
        22329094017237167718338500911766454765090561293635127599049722839519681088631)]

/-- **Two inbound connections with room for one peer.** Both are open, and the second peer is not
known. Kind: P -/
theorem accepts_beyond_maxPeers :
    let transport := (new (.new (.fill 32 0) 1)).run addressSha256
      [ConnectionOp.accept "10.0.0.1:40000", .accept "10.0.0.2:40000"]
    transport.connectionCount = 2 ∧ transport.peers.maxPeers = 1 ∧
      transport.isConnected (addrToPeerId addressSha256 "10.0.0.2:40000") ∧
      addrToPeerId addressSha256 "10.0.0.2:40000" ∉ transport.peers.peers := by
  decide +kernel

end TcpTransport

end Ryther
