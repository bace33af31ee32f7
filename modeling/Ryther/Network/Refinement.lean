import Ryther.Network.Link

/-!
# Peers and connections at two levels of detail

`CappedPeerManager` and `TcpTransport` know the peers with their states and reputations, and which
connections there are. `PeerTable` and `LinkTransport` also know addresses, times and counters of
the peers, the tasks behind each connection and the messages. Both are read off the same source
functions, and the detailed ones refine the others.

* `PeerTable.Shows` — a table shows the peers of a manager; every operation of the manager is
  matched by the one of the table (`Shows.addPeer`, `Shows.setState`, `Shows.rewardPeer`, …), and
  both select peers of the same reputations for gossip (`Shows.map_bestPeers`).
* `LinkTransport.Shows`, `Shows.run` — every run of the links is a run of the connections: the end
  of a reader or writer, deliveries and sends do not happen there, and all other operations do the
  same.
* `LinkTransport.connections_le_of_known` — so the bound on connections of known peers holds for
  links as well.

The order of the entries of a map is left open: an update may move an entry at one level only.
-/

namespace Ryther

open Lib

/-! ### Maps that hold the same peers -/

section Maps

variable {α β : Type} {peers : HashMap PeerId α} {infos : HashMap PeerId β} {view : α → β}

/-- A map with the same entries, seen through a function, has the same keys. Kind: L -/
theorem mem_iff_of_lookup (h : ∀ id, infos.lookup id = (peers.lookup id).map view) (id : PeerId) :
    id ∈ infos ↔ id ∈ peers := by
  rw [← AList.lookup_isSome, ← AList.lookup_isSome, h, Option.isSome_map]

/-- The keys are as many. Kind: L -/
theorem length_keys_of_lookup (h : ∀ id, infos.lookup id = (peers.lookup id).map view) :
    infos.keys.length = peers.keys.length :=
  ((List.perm_ext_iff_of_nodup infos.keys_nodup peers.keys_nodup).mpr fun id =>
    mem_iff_of_lookup h id).length_eq

/-- The entries are the same up to their order. Kind: L -/
theorem perm_entries_of_lookup (h : ∀ id, infos.lookup id = (peers.lookup id).map view) :
    (infos.entries.map fun entry => entry.2).Perm
      (peers.entries.map fun entry => view entry.2) := by
  have hperm : infos.entries.Perm
      (peers.entries.map fun entry => (⟨entry.1, view entry.2⟩ : Sigma fun _ : PeerId => β)) := by
    refine (List.perm_ext_iff_of_nodup ?_ ?_).mpr fun entry => ?_
    · exact List.Nodup.of_map Sigma.fst infos.keys_nodup
    · refine List.Nodup.of_map Sigma.fst ?_
      rw [List.map_map]
      exact peers.keys_nodup
    · obtain ⟨id, info⟩ := entry
      rw [← AList.mem_lookup_iff, h, Option.mem_def, Option.map_eq_some_iff, List.mem_map]
      constructor
      · rintro ⟨peer, hpeer, rfl⟩
        exact ⟨⟨id, peer⟩, AList.mem_lookup_iff.mp hpeer, rfl⟩
      · rintro ⟨⟨id', peer⟩, hmem, heq⟩
        cases heq
        exact ⟨peer, AList.mem_lookup_iff.mpr hmem, rfl⟩
  have hmap := hperm.map fun entry => entry.2
  rwa [List.map_map] at hmap

end Maps

/-! ### The peers -/

namespace PeerTable

variable {Addr : Type} {table : PeerTable Addr} {manager : CappedPeerManager}

/-- The table shows the peers of the manager: the same ones, with their states and reputations,
within the same bound.
Kind: D -/
structure Shows (table : PeerTable Addr) (manager : CappedPeerManager) : Prop where
  lookup_eq : ∀ id, manager.peers.lookup id = (table.peers.lookup id).map PeerRecord.toPeerInfo
  maxPeers_eq : manager.maxPeers = table.maxPeers
  localId_eq : manager.localId = table.localId

/-- New tables show new managers. Kind: L -/
theorem shows_new (localId : PeerId) (maxPeers : ℕ) :
    (new localId maxPeers : PeerTable Addr).Shows (.new localId maxPeers) :=
  ⟨fun _ => rfl, rfl, rfl⟩

/-- Both have room for the same peers. Kind: L -/
theorem Shows.hasRoom_iff (h : table.Shows manager) (id : PeerId) :
    HasRoom manager.peers manager.maxPeers manager.localId id ↔
      HasRoom table.peers table.maxPeers table.localId id := by
  unfold HasRoom
  rw [mem_iff_of_lookup h.lookup_eq, length_keys_of_lookup h.lookup_eq, h.maxPeers_eq, h.localId_eq]

/-- A change of a peer at both levels. Kind: L -/
theorem Shows.modifyPeer (h : table.Shows manager) (id : PeerId)
    {f : PeerRecord Addr → PeerRecord Addr} {g : PeerInfo → PeerInfo}
    (hf : ∀ peer, (f peer).toPeerInfo = g peer.toPeerInfo) :
    (table.modifyPeer id f).Shows
      { manager with toPeerManager := manager.toPeerManager.modifyPeer id g } where
  lookup_eq other := by
    rw [lookup_modifyPeer]
    show (modifyEntry manager.peers id g).lookup other = _
    rw [lookup_modifyEntry, h.lookup_eq]
    split_ifs
    · rw [Option.map_map, Option.map_map]
      congr 1
      exact funext fun peer => (hf peer).symm
    · rfl
  maxPeers_eq := h.maxPeers_eq
  localId_eq := h.localId_eq

/-- A change of what the manager does not know. Kind: L -/
theorem Shows.modifyPeer_details (h : table.Shows manager) (id : PeerId)
    {f : PeerRecord Addr → PeerRecord Addr} (hf : ∀ peer, (f peer).toPeerInfo = peer.toPeerInfo) :
    (table.modifyPeer id f).Shows manager where
  lookup_eq other := by
    rw [lookup_modifyPeer, h.lookup_eq]
    split_ifs
    · rw [Option.map_map]
      congr 1
      exact funext fun peer => (hf peer).symm
    · rfl
  maxPeers_eq := h.maxPeers_eq
  localId_eq := h.localId_eq

/-- **Adding a peer at both levels**, with the same answer. Kind: P -/
theorem Shows.addPeer (h : table.Shows manager) (now : ℕ) (id : PeerId) (addr : Addr) :
    (table.addPeer now id addr).1.Shows (manager.addPeer id).1 ∧
      (manager.addPeer id).2 = (table.addPeer now id addr).2 := by
  unfold CappedPeerManager.addPeer PeerTable.addPeer
  simp only [addEntry_eq, h.hasRoom_iff]
  by_cases hroom : HasRoom table.peers table.maxPeers table.localId id
  · simp only [if_pos hroom, and_true]
    refine ⟨fun other => ?_, h.maxPeers_eq, h.localId_eq⟩
    have hinfo := h.lookup_eq id
    by_cases hother : other = id
    · subst hother
      rw [AList.lookup_insert]
      cases hpeer : table.peers.lookup other with
      | none =>
          rw [hpeer] at hinfo
          rw [if_neg (AList.lookup_eq_none.mp hinfo), AList.lookup_insert]
          rfl
      | some peer =>
          rw [hpeer] at hinfo
          rw [if_pos (AList.lookup_isSome.mp (by rw [hinfo]; rfl)), hinfo]
          rfl
    · rw [AList.lookup_insert_ne hother, ← h.lookup_eq other]
      split_ifs
      · rfl
      · exact AList.lookup_insert_ne hother
  · simp only [if_neg hroom, and_true]
    exact h

/-- The state of a peer is set at both levels. Kind: L -/
theorem Shows.setState (h : table.Shows manager) (now : ℕ) (id : PeerId) (state : PeerState) :
    (table.setState now id state).Shows (manager.setState id state) :=
  h.modifyPeer id fun _ => rfl

/-- A peer is rewarded at both levels. Kind: L -/
theorem Shows.rewardPeer (h : table.Shows manager) (id : PeerId) (amount : Int32) :
    (table.rewardPeer id amount).Shows
      { manager with toPeerManager := manager.toPeerManager.rewardPeer id amount } :=
  h.modifyPeer id fun _ => rfl

/-- A peer is penalized at both levels. Kind: L -/
theorem Shows.penalizePeer (h : table.Shows manager) (id : PeerId) (amount : Int32) :
    (table.penalizePeer id amount).Shows
      { manager with toPeerManager := manager.toPeerManager.penalizePeer id amount } :=
  h.modifyPeer id fun _ => rfl

/-- A message sent is counted in the table only. Kind: L -/
theorem Shows.recordSent (h : table.Shows manager) (now : ℕ) (id : PeerId) :
    (table.recordSent now id).Shows manager :=
  h.modifyPeer_details id fun _ => rfl

/-- A message received is counted in the table only. Kind: L -/
theorem Shows.recordReceived (h : table.Shows manager) (now : ℕ) (id : PeerId) :
    (table.recordReceived now id).Shows manager :=
  h.modifyPeer_details id fun _ => rfl

instance : Std.Total fun a b : Int32 => b ≤ a where
  total a b := Int32.le_total b a

instance : IsTrans Int32 fun a b => b ≤ a where
  trans _ _ _ hab hbc := Int32.le_trans hbc hab

/-- Sorting by a value, and the values of lists with the same ones. Kind: L -/
theorem map_insertionSort_eq {α β : Type} {f : α → Int32} {g : β → Int32} {l : List α} {m : List β}
    (h : (l.map f).Perm (m.map g)) :
    (l.insertionSort fun a b => f b ≤ f a).map f =
      (m.insertionSort fun a b => g b ≤ g a).map g := by
  rw [List.map_insertionSort _ (fun a b : Int32 => b ≤ a) f l fun _ _ _ _ => Iff.rfl,
    List.map_insertionSort _ (fun a b : Int32 => b ≤ a) g m fun _ _ _ _ => Iff.rfl]
  have hperm := (List.perm_insertionSort (fun a b : Int32 => b ≤ a) (l.map f)).trans
    (h.trans (List.perm_insertionSort (fun a b : Int32 => b ≤ a) (m.map g)).symm)
  exact hperm.eq_of_pairwise (fun _ _ _ _ hab hba => Int32.le_antisymm hba hab)
    (List.pairwise_insertionSort _ _) (List.pairwise_insertionSort _ _)

/-- **Both select peers of the same reputations.** The order of the map decides among peers of equal
reputation, so the peers themselves may differ. Kind: P -/
theorem Shows.map_bestPeers (h : table.Shows manager) (count : ℕ) :
    (manager.toPeerManager.bestPeers count).map PeerInfo.reputation =
      (table.bestPeers count).map fun peer => peer.reputation := by
  have hconnected : ((manager.peers.entries.map fun entry => entry.2).filter fun peer =>
      peer.state = .connected).Perm (table.connectedPeers.map PeerRecord.toPeerInfo) := by
    have hfilter := (perm_entries_of_lookup h.lookup_eq).filter fun peer => peer.state = .connected
    refine hfilter.trans (List.Perm.of_eq ?_)
    unfold connectedPeers
    rw [List.filter_map, List.filter_map, List.map_map]
    rfl
  have hreputations := hconnected.map PeerInfo.reputation
  rw [List.map_map] at hreputations
  unfold PeerManager.bestPeers PeerTable.bestPeers
  rw [List.map_take, List.map_take]
  exact congrArg (List.take count) (map_insertionSort_eq hreputations)

end PeerTable

/-! ### The connections -/

/-- The operation on connections that an operation on links is, if it is one.
Kind: D -/
def LinkOp.connectionOp {Addr : Type} : LinkOp Addr → Option (ConnectionOp Addr)
  | .accept addr => some (.accept addr)
  | .connect peerId _ => some (.connect peerId)
  | .opened peerId => some (.opened peerId)
  | .failed peerId => some (.failed peerId)
  | .disconnect peerId => some (.disconnect peerId)
  | .readerEnds _ _ | .writerFails _ _ | .deliver _ _ _ | .send _ _ => none

namespace LinkTransport

variable {Addr : Type} {transport : LinkTransport Addr} {tcp : TcpTransport}

/-- The links show the connections: the same peers, the same entries and the same calls that wait.
Kind: D -/
structure Shows (transport : LinkTransport Addr) (tcp : TcpTransport) : Prop where
  peers : transport.peers.Shows tcp.peers
  lookup_eq : ∀ id, tcp.connections.lookup id =
    (transport.connections.lookup id).map fun link => ⟨link.peerId⟩
  pending_eq : tcp.pending = transport.pending

/-- Both have the same connections open. Kind: L -/
theorem Shows.isConnected_eq (h : transport.Shows tcp) (id : PeerId) :
    tcp.isConnected id = transport.isConnected id := by
  unfold TcpTransport.isConnected isConnected
  rw [decide_eq_decide]
  exact mem_iff_of_lookup h.lookup_eq id

/-- Both have as many connections. Kind: L -/
theorem Shows.connectionCount_eq (h : transport.Shows tcp) :
    tcp.connectionCount = transport.connections.keys.length :=
  length_keys_of_lookup h.lookup_eq

/-- A connection is set up at both levels. Kind: L -/
theorem Shows.setupConnection (h : transport.Shows tcp) (now : ℕ) (id : PeerId) :
    (transport.setupConnection now id).Shows (tcp.setupConnection id) where
  peers := h.peers.setState now id .connected
  lookup_eq other := by
    show (tcp.connections.insert id ⟨id⟩).lookup other =
      ((transport.connections.insert id ⟨id, transport.next, true⟩).lookup other).map _
    by_cases hother : other = id
    · subst hother
      rw [AList.lookup_insert, AList.lookup_insert]
      rfl
    · rw [AList.lookup_insert_ne hother, AList.lookup_insert_ne hother, h.lookup_eq]
  pending_eq := h.pending_eq

/-- A link that breaks stays in the map of connections. Kind: L -/
theorem Shows.closeLink (h : transport.Shows tcp) (peerId : PeerId) (number : ℕ) :
    Shows { transport with connections := closeLink transport.connections peerId number } tcp where
  peers := h.peers
  lookup_eq id := by
    rw [h.lookup_eq]
    show _ = ((LinkTransport.closeLink transport.connections peerId number).lookup id).map _
    unfold LinkTransport.closeLink
    cases hlink : transport.connections.lookup peerId with
    | none => rfl
    | some link =>
        dsimp only
        split_ifs
        · by_cases hid : id = peerId
          · subst hid
            rw [AList.lookup_insert, hlink]
            rfl
          · rw [AList.lookup_insert_ne hid]
        · rfl
  pending_eq := h.pending_eq

/-- A call of `connect` at both levels. Kind: L -/
theorem Shows.connect (h : transport.Shows tcp) (now : ℕ) (peerId : PeerId) (addr : Addr) :
    (transport.connect now peerId addr).Shows (tcp.connect peerId) := by
  unfold TcpTransport.connect LinkTransport.connect
  rw [h.isConnected_eq]
  split_ifs
  · exact h
  · exact ⟨(h.peers.addPeer now peerId addr).1.setState now peerId .connecting, h.lookup_eq,
      congrArg (peerId :: ·) h.pending_eq⟩

/-- A stream is there at both levels. Kind: L -/
theorem Shows.opened (h : transport.Shows tcp) (now : ℕ) (peerId : PeerId) :
    (transport.opened now peerId).Shows (tcp.opened peerId) := by
  have herased : Shows { transport with pending := transport.pending.erase peerId }
      { tcp with pending := tcp.pending.erase peerId } :=
    ⟨h.peers, h.lookup_eq, congrArg (List.erase · peerId) h.pending_eq⟩
  unfold TcpTransport.opened LinkTransport.opened
  simp only [List.contains_iff_mem, ← h.pending_eq]
  rw [← h.pending_eq] at herased
  split_ifs
  · exact herased.setupConnection now peerId
  · exact h

/-- A connection is closed at both levels. Kind: L -/
theorem Shows.disconnect (h : transport.Shows tcp) (now : ℕ) (peerId : PeerId) :
    (transport.disconnect now peerId).Shows (tcp.disconnect peerId) where
  peers := h.peers.setState now peerId .disconnected
  lookup_eq id := by
    show (tcp.connections.erase peerId).lookup id =
      ((transport.connections.erase peerId).lookup id).map _
    by_cases hid : id = peerId
    · subst hid
      rw [AList.lookup_erase, AList.lookup_erase]
      rfl
    · rw [AList.lookup_erase_ne hid, AList.lookup_erase_ne hid, h.lookup_eq]
  pending_eq := h.pending_eq

variable [ToString Addr] (sha256 : List UInt8 → Bytes 32)

/-- **One operation on links is one on connections, or none.** Kind: P -/
theorem Shows.step (h : transport.Shows tcp) (op : ℕ × LinkOp Addr) :
    (transport.step sha256 op).Shows
      (op.2.connectionOp.elim tcp fun connectionOp => tcp.step sha256 connectionOp) := by
  obtain ⟨now, op⟩ := op
  cases op with
  | accept addr =>
      let peerId := TcpTransport.addrToPeerId sha256 addr
      have hadded : Shows { transport with peers := (transport.peers.addPeer now peerId addr).1 }
          { tcp with peers := (tcp.peers.addPeer peerId).1 } :=
        ⟨(h.peers.addPeer now peerId addr).1, h.lookup_eq, h.pending_eq⟩
      exact hadded.setupConnection now peerId
  | connect peerId addr => exact h.connect now peerId addr
  | opened peerId => exact h.opened now peerId
  | failed peerId => exact ⟨h.peers, h.lookup_eq, congrArg (List.erase · peerId) h.pending_eq⟩
  | disconnect peerId => exact h.disconnect now peerId
  | readerEnds peerId number =>
      show (transport.readerEnds peerId number).Shows tcp
      unfold LinkTransport.readerEnds
      split_ifs
      · have hclosed := h.closeLink peerId number
        exact ⟨hclosed.peers, hclosed.lookup_eq, hclosed.pending_eq⟩
      · exact h
  | writerFails peerId number => exact h.closeLink peerId number
  | deliver peerId number msg =>
      show (transport.deliver now peerId number msg).Shows tcp
      unfold LinkTransport.deliver
      split_ifs
      · exact ⟨h.peers.recordReceived now peerId, h.lookup_eq, h.pending_eq⟩
      · exact h
  | send peerId msg =>
      show (transport.send now peerId msg).1.Shows tcp
      unfold LinkTransport.send
      cases transport.connections.lookup peerId with
      | none => exact h
      | some link =>
          dsimp only
          split_ifs
          · exact ⟨h.peers.recordSent now peerId, h.lookup_eq, h.pending_eq⟩
          · exact h

/-- **Every run of the links is a run of the connections.** Kind: P -/
theorem Shows.run (h : transport.Shows tcp) (ops : List (ℕ × LinkOp Addr)) :
    (transport.run sha256 ops).Shows
      (tcp.run sha256 (ops.filterMap fun op => op.2.connectionOp)) := by
  induction ops generalizing transport tcp with
  | nil => exact h
  | cons op ops ih =>
      have hstep := ih (h.step sha256 op)
      rw [List.filterMap_cons]
      cases hop : op.2.connectionOp with
      | none =>
          rw [hop] at hstep
          exact hstep
      | some connectionOp =>
          rw [hop] at hstep
          exact hstep

/-- In any run of a new transport, links to known peers are within the bound. Kind: P -/
theorem connections_le_of_known (localId : PeerId) (maxPeers : ℕ)
    (ops : List (ℕ × LinkOp Addr)) :
    let transport := (new (.new localId maxPeers)).run sha256 ops
    (∀ id ∈ transport.connections, id ∈ transport.peers.peers) →
      transport.connections.keys.length ≤ maxPeers := by
  intro transport hknown
  have hshows : (new (.new localId maxPeers) : LinkTransport Addr).Shows
      (.new (.new localId maxPeers)) :=
    ⟨PeerTable.shows_new localId maxPeers, fun _ => rfl, rfl⟩
  have hrun := hshows.run sha256 ops
  have hsound : ((TcpTransport.new (.new localId maxPeers)).run sha256
      (ops.filterMap fun op => op.2.connectionOp)).Sound :=
    (TcpTransport.sound_new localId maxPeers).run _
  rw [← hrun.connectionCount_eq]
  have hle := hsound.connectionCount_le fun id hid =>
    (mem_iff_of_lookup hrun.peers.lookup_eq id).mpr
      (hknown id ((mem_iff_of_lookup hrun.lookup_eq id).mp hid))
  rwa [TcpTransport.maxPeers_run] at hle

end LinkTransport

end Ryther
