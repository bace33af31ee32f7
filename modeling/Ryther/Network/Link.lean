import Ryther.Network.Connections
import Ryther.Network.Message
import Ryther.Network.PeerTable

/-!
# Links that break

The connections of `TcpTransport` in `src/network/transport.rs` with the tasks behind them. Every
connection has a reader and a writer of its own. A stream that ends, a frame above the maximum or a
failed write ends them; the entry in the map of connections and the state of the peer stay.

* `LinkTransport` — the transport with the table of peers, the links, the readers that run, and the
  messages that were handed over in both directions.
* `broken_link_stays` — a broken link is never mended by a new call of `connect`: the peer counts as
  connected, and every message to it fails.
* `message_counters_exact` — the counters of a known peer are the messages handed to its writers and
  taken from its readers.

Sending is one step here; the wait of a sender for room in the channel is left out.
-/

namespace Ryther

open Lib

/-! ### The transport and its steps -/

/-- A connection: its writer takes messages as long as it is open. The number says which call of
`setup_connection` made it.
Source: `network/transport.rs`, `Connection`
Kind: D -/
structure Link where
  peerId : PeerId
  number : ℕ
  isOpen : Bool
  deriving DecidableEq

/-- The transport with its tasks: which readers run and what the writers have taken.
Source: `network/transport.rs`, `TcpTransport`
Kind: D -/
structure LinkTransport (Addr : Type) where
  peers : PeerTable Addr
  connections : HashMap PeerId Link
  /-- The peers that a call of `connect` waits for. -/
  pending : List PeerId
  /-- The readers that run, with the number of their link. -/
  readers : List (PeerId × ℕ)
  /-- The number of the next link. -/
  next : ℕ
  /-- The messages that writers took. -/
  written : List (PeerId × NetworkMessage)
  /-- The messages that readers put into the channel of the node. -/
  incoming : List (PeerId × NetworkMessage)

/-- Why a message is not sent.
Source: `network/transport.rs`, the errors of `TcpTransport::send`
Kind: D -/
inductive SendError where
  | notConnected
  | brokenPipe
  deriving DecidableEq

/-- What happens to the transport.
Kind: D -/
inductive LinkOp (Addr : Type) where
  | accept (addr : Addr)
  | connect (peerId : PeerId) (addr : Addr)
  | opened (peerId : PeerId)
  | failed (peerId : PeerId)
  | disconnect (peerId : PeerId)
  | readerEnds (peerId : PeerId) (number : ℕ)
  | writerFails (peerId : PeerId) (number : ℕ)
  | deliver (peerId : PeerId) (number : ℕ) (msg : NetworkMessage)
  | send (peerId : PeerId) (msg : NetworkMessage)

namespace LinkTransport

variable {Addr : Type}

/-- A transport without links.
Source: `network/transport.rs`, `TcpTransport::new`
Kind: D -/
def new (peers : PeerTable Addr) : LinkTransport Addr := ⟨peers, ∅, [], [], 0, [], []⟩

/-- Whether the map has a link to a peer, open or not.
Source: `network/transport.rs`, `TcpTransport::is_connected`
Kind: D -/
def isConnected (transport : LinkTransport Addr) (peerId : PeerId) : Bool :=
  peerId ∈ transport.connections

/-- A link that is replaced loses its writer and keeps its reader.
Source: `network/transport.rs`, `TcpTransport::setup_connection`
Kind: D -/
def setupConnection (now : ℕ) (transport : LinkTransport Addr) (peerId : PeerId) :
    LinkTransport Addr :=
  { transport with
    connections := transport.connections.insert peerId ⟨peerId, transport.next, true⟩
    peers := transport.peers.setState now peerId .connected
    readers := (peerId, transport.next) :: transport.readers
    next := transport.next + 1 }

/-- One turn of the loop, for a peer that is named by its address.
Source: `network/transport.rs`, `TcpTransport::listen`
Kind: D -/
def listen [ToString Addr] (sha256 : List UInt8 → Bytes 32) (now : ℕ)
    (transport : LinkTransport Addr) (addr : Addr) : LinkTransport Addr :=
  let peerId := TcpTransport.addrToPeerId sha256 addr
  setupConnection now
    { transport with peers := (transport.peers.addPeer now peerId addr).1 } peerId

/-- Up to the wait for the stream.
Source: `network/transport.rs`, `TcpTransport::connect`
Kind: D -/
def connect (now : ℕ) (transport : LinkTransport Addr) (peerId : PeerId) (addr : Addr) :
    LinkTransport Addr :=
  if transport.isConnected peerId then transport
  else
    { transport with
      peers := (transport.peers.addPeer now peerId addr).1.setState now peerId .connecting
      pending := peerId :: transport.pending }

/-- A call that waits has the stream.
Source: `network/transport.rs`, `TcpTransport::connect`
Kind: D -/
def opened (now : ℕ) (transport : LinkTransport Addr) (peerId : PeerId) : LinkTransport Addr :=
  if transport.pending.contains peerId then
    setupConnection now { transport with pending := transport.pending.erase peerId } peerId
  else transport

/-- A call that waits returns with an error or the timeout.
Source: `network/transport.rs`, `TcpTransport::connect`
Kind: D -/
def failed (transport : LinkTransport Addr) (peerId : PeerId) : LinkTransport Addr :=
  { transport with pending := transport.pending.erase peerId }

/-- The link leaves the map, and a known peer becomes disconnected.
Source: `network/transport.rs`, `TcpTransport::disconnect`
Kind: D -/
def disconnect (now : ℕ) (transport : LinkTransport Addr) (peerId : PeerId) : LinkTransport Addr :=
  { transport with
    connections := transport.connections.erase peerId
    peers := transport.peers.setState now peerId .disconnected }

/-- The writer of a link is gone; a newer link of the peer is not affected.
Kind: D -/
def closeLink (connections : HashMap PeerId Link) (peerId : PeerId) (number : ℕ) :
    HashMap PeerId Link :=
  match connections.lookup peerId with
  | some link =>
      if link.number = number then connections.insert peerId { link with isOpen := false }
      else connections
  | none => connections

/-- A reader leaves its loop and ends the writer of its link.
Source: `network/transport.rs`, the reader in `TcpTransport::setup_connection`
Kind: D -/
def readerEnds (transport : LinkTransport Addr) (peerId : PeerId) (number : ℕ) :
    LinkTransport Addr :=
  if (peerId, number) ∈ transport.readers then
    { transport with
      readers := transport.readers.erase (peerId, number)
      connections := closeLink transport.connections peerId number }
  else transport

/-- A writer that cannot write ends and closes the channel of its link.
Source: `network/transport.rs`, the writer in `TcpTransport::setup_connection`
Kind: D -/
def writerFails (transport : LinkTransport Addr) (peerId : PeerId) (number : ℕ) :
    LinkTransport Addr :=
  { transport with connections := closeLink transport.connections peerId number }

/-- A reader has parsed a message.
Source: `network/transport.rs`, the reader in `TcpTransport::setup_connection`
Kind: D -/
def deliver (now : ℕ) (transport : LinkTransport Addr) (peerId : PeerId) (number : ℕ)
    (msg : NetworkMessage) : LinkTransport Addr :=
  if (peerId, number) ∈ transport.readers then
    { transport with
      peers := transport.peers.recordReceived now peerId
      incoming := transport.incoming ++ [(peerId, msg)] }
  else transport

/-- The message goes to the writer of the link; a closed channel is a broken pipe.
Source: `network/transport.rs`, `TcpTransport::send`
Kind: D -/
def send (now : ℕ) (transport : LinkTransport Addr) (peerId : PeerId) (msg : NetworkMessage) :
    LinkTransport Addr × Except SendError Unit :=
  match transport.connections.lookup peerId with
  | none => (transport, .error .notConnected)
  | some link =>
      if link.isOpen then
        ({ transport with
          peers := transport.peers.recordSent now peerId
          written := transport.written ++ [(peerId, msg)] }, .ok ())
      else (transport, .error .brokenPipe)

variable [ToString Addr] (sha256 : List UInt8 → Bytes 32)

/-- The transport after one operation at its time. Kind: D -/
def step (transport : LinkTransport Addr) (op : ℕ × LinkOp Addr) : LinkTransport Addr :=
  match op.2 with
  | .accept addr => transport.listen sha256 op.1 addr
  | .connect peerId addr => transport.connect op.1 peerId addr
  | .opened peerId => transport.opened op.1 peerId
  | .failed peerId => transport.failed peerId
  | .disconnect peerId => transport.disconnect op.1 peerId
  | .readerEnds peerId number => transport.readerEnds peerId number
  | .writerFails peerId number => transport.writerFails peerId number
  | .deliver peerId number msg => transport.deliver op.1 peerId number msg
  | .send peerId msg => (transport.send op.1 peerId msg).1

/-- The transport after some operations, in their order. Kind: D -/
def run (transport : LinkTransport Addr) (ops : List (ℕ × LinkOp Addr)) : LinkTransport Addr :=
  ops.foldl (step sha256) transport

end LinkTransport

/-! ### Broken links -/

namespace PeerTable

variable {Addr : Type} {table : PeerTable Addr} {id other : PeerId} {now : ℕ}

/-- Adding another peer changes nothing for this one. Kind: L -/
theorem lookup_addPeer_of_ne (addr : Addr) (hne : id ≠ other) :
    (table.addPeer now other addr).1.peers.lookup id = table.peers.lookup id := by
  rcases table.addPeer_cases now other addr with ⟨heq, -⟩ | ⟨-, -, -, heq⟩ | ⟨-, -, heq⟩
  · rw [heq]
  · rw [heq]
    exact AList.lookup_insert_ne hne
  · rw [heq, lookup_modifyPeer, if_neg hne]

/-- The state of a peer that the table knows.
Kind: D -/
def stateOf (table : PeerTable Addr) (id : PeerId) : Option PeerState :=
  (table.peers.lookup id).map fun peer => peer.state

/-- Setting the state of a peer leaves that of the others. Kind: L -/
theorem stateOf_setState_of_ne {state : PeerState} (hne : id ≠ other) :
    (table.setState now other state).stateOf id = table.stateOf id := by
  unfold stateOf setState
  rw [lookup_modifyPeer, if_neg hne]

/-- Counting a message leaves the states. Kind: L -/
theorem stateOf_modifyPeer {f : PeerRecord Addr → PeerRecord Addr}
    (hstate : ∀ peer, (f peer).state = peer.state) :
    (table.modifyPeer other f).stateOf id = table.stateOf id := by
  unfold stateOf
  rw [lookup_modifyPeer]
  split_ifs
  · rcases table.peers.lookup id with _ | peer
    · rfl
    · exact congrArg some (hstate peer)
  · rfl

/-- Counting a sent message changes no state. Kind: L -/
theorem stateOf_recordSent : (table.recordSent now other).stateOf id = table.stateOf id :=
  stateOf_modifyPeer fun _ => rfl

/-- Counting a received message changes no state. Kind: L -/
theorem stateOf_recordReceived : (table.recordReceived now other).stateOf id = table.stateOf id :=
  stateOf_modifyPeer fun _ => rfl

end PeerTable

namespace LinkTransport

variable {Addr : Type} {transport : LinkTransport Addr} {id : PeerId} {link : Link}

/-- Closing a link of another peer, or a link that is closed. Kind: L -/
theorem lookup_closeLink {connections : HashMap PeerId Link}
    (hlink : connections.lookup id = some link) (hclosed : link.isOpen = false) (peerId : PeerId)
    (number : ℕ) :
    (closeLink connections peerId number).lookup id = some link := by
  unfold closeLink
  rcases hpeer : connections.lookup peerId with _ | other
  · exact hlink
  · simp only
    split_ifs
    · by_cases heq : id = peerId
      · subst heq
        rw [hlink] at hpeer
        cases hpeer
        rw [AList.lookup_insert, ← hclosed]
      · rw [AList.lookup_insert_ne heq]
        exact hlink
    · exact hlink

/-- The link of the peer is broken, and no call of `connect` waits for it. `state` is the state of
the peer and `sent` the messages that its writers took.
Kind: D -/
structure Broken (id : PeerId) (link : Link) (state : Option PeerState)
    (sent : List (PeerId × NetworkMessage)) (transport : LinkTransport Addr) : Prop where
  lookup_eq : transport.connections.lookup id = some link
  closed : link.isOpen = false
  notMem_pending : id ∉ transport.pending
  state_eq : transport.peers.stateOf id = state
  sent_eq : transport.written.filter (fun entry => entry.1 = id) = sent

variable {state : Option PeerState} {sent : List (PeerId × NetworkMessage)}

/-- A link to another peer is made. Kind: L -/
theorem Broken.setupConnection (h : Broken id link state sent transport) {peerId : PeerId}
    (hne : id ≠ peerId) (now : ℕ) :
    Broken id link state sent (transport.setupConnection now peerId) where
  lookup_eq := (AList.lookup_insert_ne hne).trans h.lookup_eq
  closed := h.closed
  notMem_pending := h.notMem_pending
  state_eq := (PeerTable.stateOf_setState_of_ne hne).trans h.state_eq
  sent_eq := h.sent_eq

/-- Another peer is added. Kind: L -/
theorem Broken.stateOf_addPeer (h : Broken id link state sent transport) {peerId : PeerId}
    (hne : id ≠ peerId) (now : ℕ) (addr : Addr) :
    (transport.peers.addPeer now peerId addr).1.stateOf id = state := by
  unfold PeerTable.stateOf
  rw [PeerTable.lookup_addPeer_of_ne addr hne]
  exact h.state_eq

/-- A call of `connect` for the peer does nothing, as it counts as connected. Kind: L -/
theorem Broken.connect (h : Broken id link state sent transport) (now : ℕ) (peerId : PeerId)
    (addr : Addr) : Broken id link state sent (transport.connect now peerId addr) := by
  unfold LinkTransport.connect isConnected
  split_ifs with hconnected
  · exact h
  · have hne : id ≠ peerId := by
      rintro rfl
      refine hconnected (decide_eq_true (AList.lookup_isSome.mp ?_))
      rw [h.lookup_eq]
      rfl
    refine ⟨h.lookup_eq, h.closed, ?_, ?_, h.sent_eq⟩
    · intro hmem
      rcases List.mem_cons.mp hmem with heq | hold
      · exact hne heq
      · exact h.notMem_pending hold
    · exact (PeerTable.stateOf_setState_of_ne hne).trans (h.stateOf_addPeer hne now addr)

/-- A connection that comes about is one to another peer. Kind: L -/
theorem Broken.opened (h : Broken id link state sent transport) (now : ℕ) (peerId : PeerId) :
    Broken id link state sent (transport.opened now peerId) := by
  unfold LinkTransport.opened
  split_ifs with hpending
  · have hne : id ≠ peerId := by
      rintro rfl
      exact h.notMem_pending (List.contains_iff_mem.mp hpending)
    refine Broken.setupConnection ?_ hne now
    exact ⟨h.lookup_eq, h.closed, fun hmem => h.notMem_pending (List.mem_of_mem_erase hmem),
      h.state_eq, h.sent_eq⟩
  · exact h

/-- A message that is sent goes to another peer. Kind: L -/
theorem Broken.send (h : Broken id link state sent transport) (now : ℕ) (peerId : PeerId)
    (msg : NetworkMessage) : Broken id link state sent (transport.send now peerId msg).1 := by
  unfold LinkTransport.send
  rcases hpeer : transport.connections.lookup peerId with _ | other
  · exact h
  · simp only
    split_ifs with hopen
    · have hne : peerId ≠ id := by
        rintro rfl
        rw [h.lookup_eq] at hpeer
        cases hpeer
        exact absurd (h.closed.symm.trans hopen) Bool.false_ne_true
      refine ⟨h.lookup_eq, h.closed, h.notMem_pending,
        PeerTable.stateOf_recordSent.trans h.state_eq, ?_⟩
      rw [List.filter_append, h.sent_eq]
      simp [hne]
    · exact h

variable [ToString Addr] {sha256 : List UInt8 → Bytes 32}

/-- The operation can open a link to the peer again or remove it.
Kind: D -/
def renews (sha256 : List UInt8 → Bytes 32) (id : PeerId) : LinkOp Addr → Bool
  | .accept addr => TcpTransport.addrToPeerId sha256 addr = id
  | .disconnect peerId => peerId = id
  | _ => false

/-- **A step keeps a broken link broken.** Kind: L -/
theorem Broken.step (h : Broken id link state sent transport) (op : ℕ × LinkOp Addr)
    (hop : renews sha256 id op.2 = false) :
    Broken id link state sent (transport.step sha256 op) := by
  obtain ⟨now, op⟩ := op
  rcases op with addr | ⟨peerId, addr⟩ | peerId | peerId | peerId | ⟨peerId, number⟩ |
    ⟨peerId, number⟩ | ⟨peerId, number, msg⟩ | ⟨peerId, msg⟩
  · have hne : id ≠ TcpTransport.addrToPeerId sha256 addr := Ne.symm (of_decide_eq_false hop)
    refine Broken.setupConnection ?_ hne now
    exact ⟨h.lookup_eq, h.closed, h.notMem_pending, h.stateOf_addPeer hne now addr, h.sent_eq⟩
  · exact h.connect now peerId addr
  · exact h.opened now peerId
  · exact ⟨h.lookup_eq, h.closed, fun hmem => h.notMem_pending (List.mem_of_mem_erase hmem),
      h.state_eq, h.sent_eq⟩
  · have hne : id ≠ peerId := Ne.symm (of_decide_eq_false hop)
    refine ⟨?_, h.closed, h.notMem_pending, ?_, h.sent_eq⟩
    · exact (AList.lookup_erase_ne hne).trans h.lookup_eq
    · exact (PeerTable.stateOf_setState_of_ne hne).trans h.state_eq
  · show Broken id link state sent (transport.readerEnds peerId number)
    unfold readerEnds
    split_ifs
    · exact ⟨lookup_closeLink h.lookup_eq h.closed peerId number, h.closed, h.notMem_pending,
        h.state_eq, h.sent_eq⟩
    · exact h
  · exact ⟨lookup_closeLink h.lookup_eq h.closed peerId number, h.closed, h.notMem_pending,
      h.state_eq, h.sent_eq⟩
  · show Broken id link state sent (transport.deliver now peerId number msg)
    unfold deliver
    split_ifs
    · exact ⟨h.lookup_eq, h.closed, h.notMem_pending,
        PeerTable.stateOf_recordReceived.trans h.state_eq, h.sent_eq⟩
    · exact h
  · exact h.send now peerId msg

/-- A broken link stays so in a run that does not renew it. Kind: L -/
theorem Broken.run {ops : List (ℕ × LinkOp Addr)} (h : Broken id link state sent transport)
    (hops : ∀ op ∈ ops, renews sha256 id op.2 = false) :
    Broken id link state sent (transport.run sha256 ops) := by
  induction ops generalizing transport with
  | nil => exact h
  | cons op ops ih =>
      refine ih (h.step op (hops op List.mem_cons_self)) fun later hlater => ?_
      exact hops later (List.mem_cons_of_mem _ hlater)

end LinkTransport

/-! ### The counters -/

namespace PeerTable

variable {Addr : Type} {table : PeerTable Addr} {id other : PeerId} {now : ℕ}

/-- The peer is known, or it will not be: it is the node itself, or there is no room.
Kind: D -/
def Settled (table : PeerTable Addr) (id : PeerId) : Prop :=
  id ∈ table.peers ∨ id = table.localId ∨ table.maxPeers ≤ table.peers.keys.length

/-- The same table later: no peer is forgotten.
Kind: D -/
structure Later (before after : PeerTable Addr) : Prop where
  localId_eq : after.localId = before.localId
  maxPeers_eq : after.maxPeers = before.maxPeers
  mem : ∀ id ∈ before.peers, id ∈ after.peers
  length_le : before.peers.keys.length ≤ after.peers.keys.length

/-- A peer that is settled stays settled, as no peer is forgotten and the bound is fixed. Kind: L -/
theorem Settled.later {after : PeerTable Addr} (h : table.Settled id) (hlater : table.Later after) :
    after.Settled id := by
  rcases h with hknown | hlocal | hfull
  · exact .inl (hlater.mem id hknown)
  · exact .inr (.inl (hlater.localId_eq ▸ hlocal))
  · refine .inr (.inr ?_)
    rw [hlater.maxPeers_eq]
    exact hfull.trans hlater.length_le

/-- Changing the record of a peer forgets none. Kind: L -/
theorem later_modifyPeer (f : PeerRecord Addr → PeerRecord Addr) :
    table.Later (table.modifyPeer other f) := by
  refine ⟨rfl, rfl, fun id hid => ?_, (length_modifyEntry table.peers other f).ge⟩
  exact (mem_modifyEntry table.peers id other f).mpr hid

/-- **Adding a peer settles it** and forgets none. Kind: L -/
theorem later_addPeer (table : PeerTable Addr) (now : ℕ) (id : PeerId) (addr : Addr) :
    table.Later (table.addPeer now id addr).1 ∧ (table.addPeer now id addr).1.Settled id := by
  rcases table.addPeer_cases now id addr with ⟨heq, hnot⟩ | ⟨-, hnew, -, heq⟩ | ⟨-, hmem, heq⟩
  · rw [heq]
    exact ⟨⟨rfl, rfl, fun _ h => h, Nat.le_refl _⟩, .inr (hnot.imp_right fun h => h.2)⟩
  · rw [heq]
    refine ⟨⟨rfl, rfl, fun peer hpeer => (AList.mem_insert _).mpr (.inr hpeer), ?_⟩,
      .inl ((AList.mem_insert _).mpr (.inl rfl))⟩
    show _ ≤ (table.peers.insert id _).keys.length
    rw [length_keys_insert, if_neg hnew]
    exact Nat.le_succ _
  · rw [heq]
    have hlater := @later_modifyPeer Addr table id
      fun peer => PeerRecord.touch now { peer with addr := addr }
    exact ⟨hlater, .inl (hlater.mem id hmem)⟩

/-- The counters of the known peers are these.
Kind: D -/
def Counts (table : PeerTable Addr) (sent received : PeerId → ℕ) : Prop :=
  ∀ id peer, table.peers.lookup id = some peer →
    peer.messagesSent = UInt64.ofNat (sent id) ∧ peer.messagesReceived = UInt64.ofNat (received id)

variable {sent received : PeerId → ℕ}

/-- A change of one record that follows the counts of its peer keeps the counts right. Kind: L -/
theorem Counts.modifyPeer (h : table.Counts sent received)
    {f : PeerRecord Addr → PeerRecord Addr} {sent' received' : PeerId → ℕ}
    (hsame : ∀ id, id ≠ other → sent' id = sent id ∧ received' id = received id)
    (hf : ∀ peer, peer.messagesSent = UInt64.ofNat (sent other) →
      peer.messagesReceived = UInt64.ofNat (received other) →
      (f peer).messagesSent = UInt64.ofNat (sent' other) ∧
        (f peer).messagesReceived = UInt64.ofNat (received' other)) :
    (table.modifyPeer other f).Counts sent' received' := by
  intro id peer hpeer
  rw [lookup_modifyPeer] at hpeer
  split_ifs at hpeer with heq
  · obtain ⟨before, hbefore, rfl⟩ := Option.map_eq_some_iff.mp hpeer
    obtain ⟨hsent, hreceived⟩ := h id before hbefore
    rw [heq] at hsent hreceived ⊢
    exact hf before hsent hreceived
  · obtain ⟨hsent, hreceived⟩ := hsame id heq
    rw [hsent, hreceived]
    exact h id peer hpeer

/-- A new peer has sent and received nothing. Kind: L -/
theorem Counts.addPeer (h : table.Counts sent received) (now : ℕ) (id : PeerId) (addr : Addr)
    (hzero : ¬ table.Settled id → sent id = 0 ∧ received id = 0) :
    (table.addPeer now id addr).1.Counts sent received := by
  rcases table.addPeer_cases now id addr with ⟨heq, -⟩ | ⟨hlocal, hnew, hroom, heq⟩ | ⟨-, -, heq⟩
  · rw [heq]
    exact h
  · have hunsettled : ¬ table.Settled id := by
      rintro (hmem | heq | hfull)
      · exact hnew hmem
      · exact hlocal heq
      · exact absurd hroom (Nat.not_lt.mpr hfull)
    obtain ⟨hsent, hreceived⟩ := hzero hunsettled
    rw [heq]
    intro other peer hpeer
    by_cases hother : other = id
    · subst hother
      rw [AList.lookup_insert] at hpeer
      cases hpeer
      rw [hsent, hreceived]
      exact ⟨rfl, rfl⟩
    · rw [AList.lookup_insert_ne hother] at hpeer
      exact h other peer hpeer
  · rw [heq]
    exact h.modifyPeer (fun _ _ => ⟨rfl, rfl⟩) fun _ hsent hreceived => ⟨hsent, hreceived⟩

/-- Setting the state of a peer changes no counter. Kind: L -/
theorem Counts.setState (h : table.Counts sent received) (now : ℕ) (id : PeerId)
    (state : PeerState) : (table.setState now id state).Counts sent received :=
  h.modifyPeer (fun _ _ => ⟨rfl, rfl⟩) fun _ hsent hreceived => ⟨hsent, hreceived⟩

end PeerTable

namespace LinkTransport

variable {Addr : Type} {transport : LinkTransport Addr}

/-- How many messages of a list belong to a peer.
Kind: D -/
def countOf (messages : List (PeerId × NetworkMessage)) (id : PeerId) : ℕ :=
  messages.countP fun entry => entry.1 = id

/-- One more message counts for its own peer. Kind: L -/
theorem countOf_concat (messages : List (PeerId × NetworkMessage)) (other : PeerId)
    (msg : NetworkMessage) (id : PeerId) :
    countOf (messages ++ [(other, msg)]) id =
      countOf messages id + if other = id then 1 else 0 := by
  simp [countOf, List.countP_append, List.countP_cons]

/-- A message of another peer does not count. Kind: L -/
theorem countOf_concat_of_ne {messages : List (PeerId × NetworkMessage)} {other id : PeerId}
    {msg : NetworkMessage} (hne : id ≠ other) :
    countOf (messages ++ [(other, msg)]) id = countOf messages id := by
  rw [countOf_concat, if_neg (Ne.symm hne), Nat.add_zero]

/-- One more message of the peer adds one to its counter. Kind: L -/
theorem ofNat_countOf_concat (messages : List (PeerId × NetworkMessage)) (id : PeerId)
    (msg : NetworkMessage) :
    UInt64.ofNat (countOf (messages ++ [(id, msg)]) id) =
      UInt64.ofNat (countOf messages id) + 1 := by
  rw [countOf_concat, if_pos rfl, UInt64.ofNat_add]
  rfl

/-- The peer has a link, a reader or a call that waits, or there were messages to or from it.
Kind: D -/
def Knows (transport : LinkTransport Addr) (id : PeerId) : Prop :=
  id ∈ transport.connections ∨ id ∈ transport.pending ∨
    (∃ number, (id, number) ∈ transport.readers) ∨ countOf transport.written id ≠ 0 ∨
    countOf transport.incoming id ≠ 0

/-- The counters of the known peers are right, and every peer that the transport knows is settled.
Kind: D -/
structure Tracked (transport : LinkTransport Addr) : Prop where
  counts : transport.peers.Counts (countOf transport.written) (countOf transport.incoming)
  settled : ∀ id, transport.Knows id → transport.peers.Settled id

/-- A later table with the same counts. Kind: L -/
theorem Tracked.withPeers (h : Tracked transport) {peers : PeerTable Addr}
    (hlater : transport.peers.Later peers)
    (hcounts : peers.Counts (countOf transport.written) (countOf transport.incoming)) :
    Tracked { transport with peers := peers } :=
  ⟨hcounts, fun id hknows => (h.settled id hknows).later hlater⟩

/-- Adding a peer keeps the counters right: a new one starts at 0, where no message counts. Kind: L
-/
theorem Tracked.addPeer (h : Tracked transport) (now : ℕ) (id : PeerId) (addr : Addr) :
    Tracked { transport with peers := (transport.peers.addPeer now id addr).1 } := by
  refine h.withPeers (transport.peers.later_addPeer now id addr).1 ?_
  refine h.counts.addPeer now id addr fun hunsettled => ?_
  have hunknown : ¬ transport.Knows id := fun hknows => hunsettled (h.settled id hknows)
  refine ⟨not_not.mp fun hsent => hunknown ?_, not_not.mp fun hreceived => hunknown ?_⟩
  · exact .inr (.inr (.inr (.inl hsent)))
  · exact .inr (.inr (.inr (.inr hreceived)))

/-- Setting the state of a peer keeps the counters right. Kind: L -/
theorem Tracked.setState (h : Tracked transport) (now : ℕ) (id : PeerId) (state : PeerState) :
    Tracked { transport with peers := transport.peers.setState now id state } :=
  h.withPeers (PeerTable.later_modifyPeer _) (h.counts.setState now id state)

/-- A link to a settled peer. Kind: L -/
theorem Tracked.setupConnection (h : Tracked transport) {id : PeerId}
    (hid : transport.peers.Settled id) (now : ℕ) : Tracked (transport.setupConnection now id) := by
  have hstate := h.setState now id .connected
  have hid' : (transport.peers.setState now id .connected).Settled id :=
    hid.later (PeerTable.later_modifyPeer _)
  refine ⟨hstate.counts, fun other hknows => ?_⟩
  rcases hknows with hlink | hpending | ⟨number, hreader⟩ | hmessages
  · rcases (AList.mem_insert _).mp hlink with rfl | hlink
    · exact hid'
    · exact hstate.settled other (.inl hlink)
  · exact hstate.settled other (.inr (.inl hpending))
  · rcases List.mem_cons.mp hreader with heq | hreader
    · obtain ⟨rfl, -⟩ := Prod.mk.inj heq
      exact hid'
    · exact hstate.settled other (.inr (.inr (.inl ⟨number, hreader⟩)))
  · exact hstate.settled other (.inr (.inr (.inr hmessages)))

/-- The peers of the links after one of them was closed. Kind: L -/
theorem mem_closeLink {connections : HashMap PeerId Link} {peerId id : PeerId} {number : ℕ}
    (hmem : id ∈ closeLink connections peerId number) : id ∈ connections := by
  unfold closeLink at hmem
  rcases hpeer : connections.lookup peerId with _ | link
  · rwa [hpeer] at hmem
  · simp only [hpeer] at hmem
    split_ifs at hmem
    · rcases (AList.mem_insert _).mp hmem with rfl | hold
      · exact AList.lookup_isSome.mp (by rw [hpeer]; rfl)
      · exact hold
    · exact hmem

/-- Fewer links, readers and calls that wait. Kind: L -/
theorem Tracked.fewer (h : Tracked transport) {connections : HashMap PeerId Link}
    {pending : List PeerId} {readers : List (PeerId × ℕ)}
    (hconnections : ∀ id ∈ connections, id ∈ transport.connections)
    (hpending : ∀ id ∈ pending, id ∈ transport.pending)
    (hreaders : ∀ reader ∈ readers, reader ∈ transport.readers) :
    Tracked { transport with
      connections := connections, pending := pending, readers := readers } := by
  refine ⟨h.counts, fun id hknows => h.settled id ?_⟩
  rcases hknows with hlink | hwait | ⟨number, hreader⟩ | hmessages
  · exact .inl (hconnections id hlink)
  · exact .inr (.inl (hpending id hwait))
  · exact .inr (.inr (.inl ⟨number, hreaders _ hreader⟩))
  · exact .inr (.inr (.inr hmessages))

/-- A reader hands over a message. Kind: L -/
theorem Tracked.deliver (h : Tracked transport) (now : ℕ) (peerId : PeerId) (number : ℕ)
    (msg : NetworkMessage) : Tracked (transport.deliver now peerId number msg) := by
  unfold LinkTransport.deliver
  split_ifs with hreader
  · have hid := h.settled peerId (.inr (.inr (.inl ⟨number, hreader⟩)))
    have hlater : transport.peers.Later (transport.peers.recordReceived now peerId) :=
      PeerTable.later_modifyPeer _
    have hcounts : (transport.peers.recordReceived now peerId).Counts (countOf transport.written)
        (countOf (transport.incoming ++ [(peerId, msg)])) := by
      refine h.counts.modifyPeer (fun id hne => ⟨rfl, countOf_concat_of_ne hne⟩)
        fun peer hsent hreceived => ⟨hsent, ?_⟩
      rw [ofNat_countOf_concat, ← hreceived]
      rfl
    refine ⟨hcounts, fun id hknows => PeerTable.Settled.later ?_ hlater⟩
    rcases hknows with hlink | hwait | hread | hsent | hreceived
    · exact h.settled id (.inl hlink)
    · exact h.settled id (.inr (.inl hwait))
    · exact h.settled id (.inr (.inr (.inl hread)))
    · exact h.settled id (.inr (.inr (.inr (.inl hsent))))
    · by_cases heq : id = peerId
      · exact heq ▸ hid
      · rw [countOf_concat_of_ne heq] at hreceived
        exact h.settled id (.inr (.inr (.inr (.inr hreceived))))
  · exact h

/-- A writer takes a message. Kind: L -/
theorem Tracked.send (h : Tracked transport) (now : ℕ) (peerId : PeerId) (msg : NetworkMessage) :
    Tracked (transport.send now peerId msg).1 := by
  unfold LinkTransport.send
  rcases hpeer : transport.connections.lookup peerId with _ | link
  · exact h
  · simp only
    split_ifs
    · have hid := h.settled peerId (.inl (AList.lookup_isSome.mp (by rw [hpeer]; rfl)))
      have hlater : transport.peers.Later (transport.peers.recordSent now peerId) :=
        PeerTable.later_modifyPeer _
      have hcounts : (transport.peers.recordSent now peerId).Counts
          (countOf (transport.written ++ [(peerId, msg)])) (countOf transport.incoming) := by
        refine h.counts.modifyPeer (fun id hne => ⟨countOf_concat_of_ne hne, rfl⟩)
          fun peer hsent hreceived => ⟨?_, hreceived⟩
        rw [ofNat_countOf_concat, ← hsent]
        rfl
      refine ⟨hcounts, fun id hknows => PeerTable.Settled.later ?_ hlater⟩
      rcases hknows with hlink | hwait | hread | hsent | hreceived
      · exact h.settled id (.inl hlink)
      · exact h.settled id (.inr (.inl hwait))
      · exact h.settled id (.inr (.inr (.inl hread)))
      · by_cases heq : id = peerId
        · exact heq ▸ hid
        · rw [countOf_concat_of_ne heq] at hsent
          exact h.settled id (.inr (.inr (.inr (.inl hsent))))
      · exact h.settled id (.inr (.inr (.inr (.inr hreceived))))
    · exact h

variable [ToString Addr] {sha256 : List UInt8 → Bytes 32}

/-- **One step keeps the counters right.** Kind: L -/
theorem Tracked.step (h : Tracked transport) (op : ℕ × LinkOp Addr) :
    Tracked (transport.step sha256 op) := by
  obtain ⟨now, op⟩ := op
  rcases op with addr | ⟨peerId, addr⟩ | peerId | peerId | peerId | ⟨peerId, number⟩ |
    ⟨peerId, number⟩ | ⟨peerId, number, msg⟩ | ⟨peerId, msg⟩
  · refine (h.addPeer now _ addr).setupConnection ?_ now
    exact (transport.peers.later_addPeer now _ addr).2
  · show Tracked (transport.connect now peerId addr)
    unfold connect
    split_ifs
    · exact h
    · have hstate := (h.addPeer now peerId addr).setState now peerId .connecting
      refine ⟨hstate.counts, fun id hknows => ?_⟩
      rcases hknows with hlink | hwait | hrest
      · exact hstate.settled id (.inl hlink)
      · rcases List.mem_cons.mp hwait with rfl | hwait
        · exact (transport.peers.later_addPeer now id addr).2.later (PeerTable.later_modifyPeer _)
        · exact hstate.settled id (.inr (.inl hwait))
      · exact hstate.settled id (.inr (.inr hrest))
  · show Tracked (transport.opened now peerId)
    unfold opened
    split_ifs with hwait
    · have hfewer : Tracked { transport with pending := transport.pending.erase peerId } :=
        h.fewer (fun _ hid => hid) (fun _ hid => List.mem_of_mem_erase hid) fun _ hid => hid
      have hmem : peerId ∈ transport.pending := List.contains_iff_mem.mp hwait
      exact hfewer.setupConnection (h.settled peerId (.inr (.inl hmem))) now
    · exact h
  · exact h.fewer (fun _ hid => hid) (fun _ hid => List.mem_of_mem_erase hid) fun _ hid => hid
  · refine (h.setState now peerId .disconnected).fewer (fun id hid => ?_) (fun _ hid => hid)
      fun _ hid => hid
    exact (AList.mem_erase.mp hid).2
  · show Tracked (transport.readerEnds peerId number)
    unfold readerEnds
    split_ifs
    · exact h.fewer (fun _ => mem_closeLink) (fun _ hid => hid)
        fun _ hid => List.mem_of_mem_erase hid
    · exact h
  · exact h.fewer (fun _ => mem_closeLink) (fun _ hid => hid) fun _ hid => hid
  · exact h.deliver now peerId number msg
  · exact h.send now peerId msg

/-- The counters stay right along a run. Kind: L -/
theorem Tracked.run (h : Tracked transport) (ops : List (ℕ × LinkOp Addr)) :
    Tracked (transport.run sha256 ops) := by
  induction ops generalizing transport with
  | nil => exact h
  | cons op ops ih => exact ih (h.step op)

end LinkTransport

end Ryther
