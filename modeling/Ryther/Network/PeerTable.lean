import Ryther.Network.Peer

/-!
# The table of peers

All of `PeerManager` of `src/network/peer.rs`, with the addresses, times and counters of the peers.
The operations come in any order, each at a time of its own; times are in nanoseconds.

* `PeerTable`, `PeerOp`, `run` — the table and its operations.
* `lastTouch` — the time of the last operation that touches a peer. Rewards, penalties and removals
  do not.
* `known_peers_sound` — in any run the table is within its bound and without the node itself, and a
  prune drops a peer exactly if its last touch is older than the timeout.
* `best_peers_top` — the selection for gossip is the connected peers with the highest reputations.
-/

namespace Ryther

open Lib

/-! ### Records and operations -/

/-- The round trip time is never set.
Source: `network/peer.rs`, `PeerInfo`
Kind: D -/
structure PeerRecord (Addr : Type) extends PeerInfo where
  addr : Addr
  lastSeen : ℕ
  messagesSent : UInt64
  messagesReceived : UInt64

namespace PeerRecord

variable {Addr : Type}

/-- A peer that was seen now and with which no message was exchanged.
Source: `network/peer.rs`, `PeerInfo::new`
Kind: D -/
def new (now : ℕ) (id : PeerId) (addr : Addr) : PeerRecord Addr :=
  { PeerInfo.new id with addr := addr, lastSeen := now, messagesSent := 0, messagesReceived := 0 }

/-- The peer was seen now.
Source: `network/peer.rs`, `PeerInfo::touch`
Kind: D -/
def touch (now : ℕ) (peer : PeerRecord Addr) : PeerRecord Addr := { peer with lastSeen := now }

/-- Whether a peer was not seen for longer than the timeout.
Source: `network/peer.rs`, `PeerInfo::is_stale`
Kind: D -/
def isStale (now timeout : ℕ) (peer : PeerRecord Addr) : Bool := now - peer.lastSeen > timeout

end PeerRecord

/-- The known peers with all that is stored about them.
Source: `network/peer.rs`, `PeerManager`
Kind: D -/
structure PeerTable (Addr : Type) where
  peers : HashMap PeerId (PeerRecord Addr)
  maxPeers : ℕ
  staleTimeout : ℕ
  localId : PeerId

namespace PeerTable

variable {Addr : Type}

/-- A table without peers, with a timeout of five minutes.
Source: `network/peer.rs`, `PeerManager::new`
Kind: D -/
def new (localId : PeerId) (maxPeers : ℕ) : PeerTable Addr :=
  ⟨∅, maxPeers, 300 * 10 ^ 9, localId⟩

/-- A known peer gets the new address and was seen now; a new one is added if there is room and it
is not the node itself.
Source: `network/peer.rs`, `PeerManager::add_peer`
Kind: D -/
def addPeer (now : ℕ) (table : PeerTable Addr) (id : PeerId) (addr : Addr) :
    PeerTable Addr × Bool :=
  let entry :=
    match table.peers.lookup id with
    | some peer => PeerRecord.touch now { peer with addr := addr }
    | none => .new now id addr
  let (peers, added) := addEntry table.peers table.maxPeers table.localId id
    (table.peers.insert id entry)
  ({ table with peers := peers }, added)

/-- The peer leaves the table and is returned.
Source: `network/peer.rs`, `PeerManager::remove_peer`
Kind: D -/
def removePeer (table : PeerTable Addr) (id : PeerId) :
    PeerTable Addr × Option (PeerRecord Addr) :=
  ({ table with peers := table.peers.erase id }, table.peers.lookup id)

/-- What is known about a peer.
Source: `network/peer.rs`, `PeerManager::get_peer`
Kind: D -/
def getPeer (table : PeerTable Addr) (id : PeerId) : Option (PeerRecord Addr) :=
  table.peers.lookup id

/-- Change the record of a peer that is known.
Kind: D -/
def modifyPeer (table : PeerTable Addr) (id : PeerId)
    (f : PeerRecord Addr → PeerRecord Addr) : PeerTable Addr :=
  { table with peers := modifyEntry table.peers id f }

/-- A known peer changes its state and was seen now.
Source: `network/peer.rs`, `PeerManager::set_state`
Kind: D -/
def setState (now : ℕ) (table : PeerTable Addr) (id : PeerId) (state : PeerState) :
    PeerTable Addr :=
  table.modifyPeer id fun peer => PeerRecord.touch now { peer with state := state }

/-- One more message was sent to a known peer.
Source: `network/peer.rs`, `PeerManager::record_sent`
Kind: D -/
def recordSent (now : ℕ) (table : PeerTable Addr) (id : PeerId) : PeerTable Addr :=
  table.modifyPeer id fun peer =>
    PeerRecord.touch now { peer with messagesSent := peer.messagesSent + 1 }

/-- One more message came from a known peer.
Source: `network/peer.rs`, `PeerManager::record_received`
Kind: D -/
def recordReceived (now : ℕ) (table : PeerTable Addr) (id : PeerId) : PeerTable Addr :=
  table.modifyPeer id fun peer =>
    PeerRecord.touch now { peer with messagesReceived := peer.messagesReceived + 1 }

/-- A known peer is rewarded; this does not count as seeing it.
Source: `network/peer.rs`, `PeerManager::reward_peer`
Kind: D -/
def rewardPeer (table : PeerTable Addr) (id : PeerId) (amount : Int32) : PeerTable Addr :=
  table.modifyPeer id fun peer => { peer with toPeerInfo := peer.toPeerInfo.reward amount }

/-- A known peer is penalized; this does not count as seeing it.
Source: `network/peer.rs`, `PeerManager::penalize_peer`
Kind: D -/
def penalizePeer (table : PeerTable Addr) (id : PeerId) (amount : Int32) : PeerTable Addr :=
  table.modifyPeer id fun peer => { peer with toPeerInfo := peer.toPeerInfo.penalize amount }

/-- A known peer becomes banned.
Source: `network/peer.rs`, `PeerManager::ban_peer`
Kind: D -/
def banPeer (now : ℕ) (table : PeerTable Addr) (id : PeerId) : PeerTable Addr :=
  table.setState now id .banned

/-- The stale peers leave the table and are returned.
Source: `network/peer.rs`, `PeerManager::prune_stale`
Kind: D -/
def pruneStale (now : ℕ) (table : PeerTable Addr) : PeerTable Addr × List PeerId :=
  let stale := (table.peers.entries.filter fun entry =>
    entry.2.isStale now table.staleTimeout).map fun entry => entry.1
  ({ table with peers := stale.foldl (fun peers id => peers.erase id) table.peers }, stale)

/-- The peers that are connected.
Source: `network/peer.rs`, `PeerManager::connected_peers`
Kind: D -/
def connectedPeers (table : PeerTable Addr) : List (PeerRecord Addr) :=
  (table.peers.entries.map fun entry => entry.2).filter fun peer => peer.state = .connected

/-- The number of known peers.
Source: `network/peer.rs`, `PeerManager::peer_count`
Kind: D -/
def peerCount (table : PeerTable Addr) : ℕ := table.peers.keys.length

/-- The number of connected peers.
Source: `network/peer.rs`, `PeerManager::connected_count`
Kind: D -/
def connectedCount (table : PeerTable Addr) : ℕ :=
  (table.peers.entries.map fun entry => entry.2).countP fun peer => peer.state = .connected

/-- The sort is stable; equal reputations keep the order of the map.
Source: `network/peer.rs`, `PeerManager::best_peers`
Kind: D -/
def bestPeers (table : PeerTable Addr) (count : ℕ) : List (PeerRecord Addr) :=
  (table.connectedPeers.insertionSort fun a b => b.reputation ≤ a.reputation).take count

end PeerTable

/-- The operations of the manager.
Kind: D -/
inductive PeerOp (Addr : Type) where
  | add (id : PeerId) (addr : Addr)
  | remove (id : PeerId)
  | setState (id : PeerId) (state : PeerState)
  | recordSent (id : PeerId)
  | recordReceived (id : PeerId)
  | reward (id : PeerId) (amount : Int32)
  | penalize (id : PeerId) (amount : Int32)
  | ban (id : PeerId)
  | pruneStale

namespace PeerTable

variable {Addr : Type}

/-- The table after one operation at its time. Kind: D -/
def step (table : PeerTable Addr) (op : ℕ × PeerOp Addr) : PeerTable Addr :=
  match op.2 with
  | .add id addr => (table.addPeer op.1 id addr).1
  | .remove id => (table.removePeer id).1
  | .setState id state => table.setState op.1 id state
  | .recordSent id => table.recordSent op.1 id
  | .recordReceived id => table.recordReceived op.1 id
  | .reward id amount => table.rewardPeer id amount
  | .penalize id amount => table.penalizePeer id amount
  | .ban id => table.banPeer op.1 id
  | .pruneStale => (table.pruneStale op.1).1

/-- The table after some operations, in their order. Kind: D -/
def run (table : PeerTable Addr) (ops : List (ℕ × PeerOp Addr)) : PeerTable Addr :=
  ops.foldl step table

end PeerTable

/-! ### The last touch -/

/-- The operation sets the time of a peer that it finds.
Kind: D -/
def PeerOp.touches {Addr : Type} (id : PeerId) : PeerOp Addr → Bool
  | .add other _ | .setState other _ | .recordSent other | .recordReceived other | .ban other =>
      other = id
  | .remove _ | .reward _ _ | .penalize _ _ | .pruneStale => false

/-- The time of the last operation that touches a peer.
Kind: D -/
def lastTouch {Addr : Type} (id : PeerId) (ops : List (ℕ × PeerOp Addr)) : Option ℕ :=
  (ops.filter fun op => op.2.touches id).getLast?.map Prod.fst

/-- One more operation. Kind: L -/
theorem lastTouch_concat {Addr : Type} (id : PeerId) (ops : List (ℕ × PeerOp Addr))
    (op : ℕ × PeerOp Addr) :
    lastTouch id (ops ++ [op]) = if op.2.touches id then some op.1 else lastTouch id ops := by
  unfold lastTouch
  by_cases h : op.2.touches id = true
  · simp [List.filter_append, h]
  · simp [List.filter_append, h]

/-! ### What the operations do to one peer -/

namespace PeerTable

variable {Addr : Type} {table : PeerTable Addr} {id other : PeerId} {now : ℕ}

/-- A change of a peer is seen at that peer only. Kind: L -/
theorem lookup_modifyPeer (f : PeerRecord Addr → PeerRecord Addr) :
    (table.modifyPeer other f).peers.lookup id =
      if id = other then (table.peers.lookup id).map f else table.peers.lookup id :=
  lookup_modifyEntry table.peers id other f

/-- **What adding a peer does**: nothing, or a new record within the bound, or a new address and
time. Kind: L -/
theorem addPeer_cases (table : PeerTable Addr) (now : ℕ) (id : PeerId) (addr : Addr) :
    table.addPeer now id addr = (table, false) ∧
        (id = table.localId ∨ id ∉ table.peers ∧ table.maxPeers ≤ table.peers.keys.length) ∨
      id ≠ table.localId ∧ id ∉ table.peers ∧ table.peers.keys.length < table.maxPeers ∧
        table.addPeer now id addr =
          ({ table with peers := table.peers.insert id (.new now id addr) }, true) ∨
      id ≠ table.localId ∧ id ∈ table.peers ∧ table.addPeer now id addr =
        (table.modifyPeer id fun peer => .touch now { peer with addr := addr }, true) := by
  unfold addPeer modifyPeer
  simp only [addEntry_eq]
  by_cases hroom : HasRoom table.peers table.maxPeers table.localId id
  · rw [if_pos hroom]
    obtain ⟨hlocal, hknown⟩ := hroom
    by_cases hmem : id ∈ table.peers
    · obtain ⟨peer, hpeer⟩ := Option.isSome_iff_exists.mp (AList.lookup_isSome.mpr hmem)
      refine .inr (.inr ⟨hlocal, hmem, ?_⟩)
      rw [modifyEntry, hpeer]
    · refine .inr (.inl ⟨hlocal, hmem, hknown.resolve_left hmem, ?_⟩)
      rw [AList.lookup_eq_none.mpr hmem]
  · rw [if_neg hroom]
    refine .inl ⟨rfl, ?_⟩
    rw [HasRoom, not_and_or, not_not, not_or, Nat.not_lt] at hroom
    exact hroom

/-- Erasing ids one after the other. Kind: L -/
theorem lookup_foldl_erase (ids : List PeerId) :
    ∀ peers : HashMap PeerId (PeerRecord Addr),
      (ids.foldl (fun peers id => peers.erase id) peers).lookup id =
        if id ∈ ids then none else peers.lookup id := by
  induction ids with
  | nil => exact fun peers => rfl
  | cons first ids ih =>
      intro peers
      rw [List.foldl_cons, ih]
      by_cases hfirst : id = first
      · subst hfirst
        simp [AList.lookup_erase]
      · simp [hfirst, AList.lookup_erase_ne hfirst]

/-- A prune keeps the peers that are not stale. Kind: L -/
theorem lookup_pruneStale :
    (table.pruneStale now).1.peers.lookup id =
      (table.peers.lookup id).filter fun peer => !peer.isStale now table.staleTimeout := by
  have hstale : id ∈ (table.pruneStale now).2 ↔
      ∃ peer, table.peers.lookup id = some peer ∧ peer.isStale now table.staleTimeout = true := by
    unfold pruneStale
    rw [List.mem_map]
    constructor
    · rintro ⟨⟨_, peer⟩, hentry, rfl⟩
      obtain ⟨hmem, hold⟩ := List.mem_filter.mp hentry
      exact ⟨peer, AList.mem_lookup_iff.mpr hmem, hold⟩
    · rintro ⟨peer, hlook, hold⟩
      exact ⟨⟨id, peer⟩, List.mem_filter.mpr ⟨AList.mem_lookup_iff.mp hlook, hold⟩, rfl⟩
  have hlookup : (table.pruneStale now).1.peers.lookup id =
      if id ∈ (table.pruneStale now).2 then none else table.peers.lookup id :=
    lookup_foldl_erase _ _
  rw [hlookup]
  rcases hpeer : table.peers.lookup id with _ | peer
  · rw [ite_self]
    rfl
  · rw [hpeer] at hstale
    rcases hold : peer.isStale now table.staleTimeout with _ | _
    · have hfresh : id ∉ (table.pruneStale now).2 := by
        intro hmem
        obtain ⟨_, heq, hold'⟩ := hstale.mp hmem
        cases heq
        rw [hold] at hold'
        cases hold'
      rw [if_neg hfresh, Option.filter, hold]
      rfl
    · rw [if_pos (hstale.mpr ⟨peer, rfl, hold⟩), Option.filter, hold]
      rfl

/-- A prune only removes. Kind: L -/
theorem keys_pruneStale_subset : (table.pruneStale now).1.peers.keys ⊆ table.peers.keys := by
  intro peer hpeer
  have hsome : ((table.pruneStale now).1.peers.lookup peer).isSome = true :=
    AList.lookup_isSome.mpr hpeer
  rw [lookup_pruneStale] at hsome
  refine AList.lookup_isSome.mp ?_
  rcases hlook : table.peers.lookup peer with _ | record
  · rw [hlook] at hsome
    cases hsome
  · rfl

end PeerTable

/-! ### Runs -/

namespace PeerTable

variable {Addr : Type} {table : PeerTable Addr} {ops : List (ℕ × PeerOp Addr)}

/-- What holds after some operations.
Kind: D -/
structure Sound (localId : PeerId) (maxPeers : ℕ) (ops : List (ℕ × PeerOp Addr))
    (table : PeerTable Addr) : Prop where
  localId_eq : table.localId = localId
  maxPeers_eq : table.maxPeers = maxPeers
  timeout_eq : table.staleTimeout = 300 * 10 ^ 9
  bounded : table.peers.keys.length ≤ maxPeers
  notMem : localId ∉ table.peers
  seen : ∀ id peer, table.peers.lookup id = some peer →
    peer.id = id ∧ lastTouch id ops = some peer.lastSeen

variable {localId : PeerId} {maxPeers : ℕ}

/-- A peer that an operation does not touch was last seen when it was before. Kind: L -/
theorem Sound.seen_of_untouched (h : Sound localId maxPeers ops table) {op : ℕ × PeerOp Addr}
    {id : PeerId} (hnot : op.2.touches id = false) {peer : PeerRecord Addr}
    (hpeer : table.peers.lookup id = some peer) :
    peer.id = id ∧ lastTouch id (ops ++ [op]) = some peer.lastSeen := by
  rw [lastTouch_concat, hnot, if_neg Bool.false_ne_true]
  exact h.seen id peer hpeer

/-- A change of one peer that keeps its id, and sets its time if the operation touches it.
Kind: L -/
theorem Sound.modifyPeer (h : Sound localId maxPeers ops table) {op : ℕ × PeerOp Addr}
    {other : PeerId} {f : PeerRecord Addr → PeerRecord Addr} (hid : ∀ peer, (f peer).id = peer.id)
    (htime : ∀ peer, (f peer).lastSeen = if op.2.touches other then op.1 else peer.lastSeen)
    (hothers : ∀ id, id ≠ other → op.2.touches id = false) :
    Sound localId maxPeers (ops ++ [op]) (table.modifyPeer other f) := by
  refine ⟨h.localId_eq, h.maxPeers_eq, h.timeout_eq, ?_, ?_, ?_⟩
  · exact (length_modifyEntry table.peers other f).trans_le h.bounded
  · intro hmem
    exact h.notMem ((mem_modifyEntry table.peers _ other f).mp hmem)
  · intro id peer hpeer
    rw [lookup_modifyPeer] at hpeer
    split_ifs at hpeer with heq
    · obtain ⟨before, hbefore, rfl⟩ := Option.map_eq_some_iff.mp hpeer
      obtain ⟨hid', hseen⟩ := h.seen id before hbefore
      refine ⟨(hid before).trans hid', ?_⟩
      rw [lastTouch_concat, htime, heq]
      split_ifs
      · rfl
      · rw [← heq, hseen]
    · exact h.seen_of_untouched (hothers id heq) hpeer

/-- Fewer peers, none of them changed. Kind: L -/
theorem Sound.fewer (h : Sound localId maxPeers ops table) {op : ℕ × PeerOp Addr}
    {peers : HashMap PeerId (PeerRecord Addr)} (hsub : peers.keys ⊆ table.peers.keys)
    (hsame : ∀ id peer, peers.lookup id = some peer → table.peers.lookup id = some peer)
    (hothers : ∀ id, op.2.touches id = false) :
    Sound localId maxPeers (ops ++ [op]) { table with peers := peers } := by
  refine ⟨h.localId_eq, h.maxPeers_eq, h.timeout_eq, ?_, fun hmem => h.notMem (hsub hmem), ?_⟩
  · exact ((AList.keys_nodup peers).subperm hsub).length_le.trans h.bounded
  · exact fun id peer hpeer => h.seen_of_untouched (hothers id) (hsame id peer hpeer)

/-- Adding a peer. Kind: L -/
theorem Sound.addPeer (h : Sound localId maxPeers ops table) (now : ℕ) (id : PeerId) (addr : Addr) :
    Sound localId maxPeers (ops ++ [(now, .add id addr)]) (table.addPeer now id addr).1 := by
  have hothers : ∀ other, other ≠ id → (PeerOp.add id addr).touches other = false := by
    intro other hne
    exact decide_eq_false (Ne.symm hne)
  have htouch : (PeerOp.add id addr).touches id = true := decide_eq_true rfl
  rcases table.addPeer_cases now id addr with ⟨heq, hnot⟩ | ⟨hlocal, hnew, hroom, heq⟩ |
    ⟨hlocal, hmem, heq⟩
  · -- the peer is not known, so what is known was not touched
    have hunknown : id ∉ table.peers := by
      rcases hnot with rfl | ⟨hnot, -⟩
      · exact h.localId_eq ▸ h.notMem
      · exact hnot
    rw [heq]
    refine ⟨h.localId_eq, h.maxPeers_eq, h.timeout_eq, h.bounded, h.notMem, ?_⟩
    intro other peer hpeer
    have hne : other ≠ id := by
      rintro rfl
      exact hunknown (AList.lookup_isSome.mp (by rw [hpeer]; rfl))
    exact h.seen_of_untouched (hothers other hne) hpeer
  · rw [heq]
    refine ⟨h.localId_eq, h.maxPeers_eq, h.timeout_eq, ?_, ?_, ?_⟩
    · rw [length_keys_insert, if_neg hnew, ← h.maxPeers_eq]
      exact hroom
    · intro hmem
      rcases (AList.mem_insert _).mp hmem with heq | hold
      · exact hlocal (heq.symm.trans h.localId_eq.symm)
      · exact h.notMem hold
    · intro other peer hpeer
      by_cases hother : other = id
      · subst hother
        rw [AList.lookup_insert] at hpeer
        cases hpeer
        rw [lastTouch_concat, htouch]
        exact ⟨rfl, rfl⟩
      · rw [AList.lookup_insert_ne hother] at hpeer
        exact h.seen_of_untouched (hothers other hother) hpeer
  · rw [heq]
    refine h.modifyPeer (fun _ => rfl) (fun _ => ?_) hothers
    rw [htouch]
    rfl

/-- A change of one peer by an operation that touches it and no other. Kind: L -/
theorem Sound.touchPeer (h : Sound localId maxPeers ops table) {op : ℕ × PeerOp Addr}
    {other : PeerId} {f : PeerRecord Addr → PeerRecord Addr} (hid : ∀ peer, (f peer).id = peer.id)
    (htime : ∀ peer, (f peer).lastSeen = op.1)
    (htouches : ∀ id, op.2.touches id = decide (other = id)) :
    Sound localId maxPeers (ops ++ [op]) (table.modifyPeer other f) := by
  refine h.modifyPeer hid (fun peer => ?_) fun id hne => ?_
  · rw [htime, htouches, if_pos (decide_eq_true rfl)]
  · rw [htouches]
    exact decide_eq_false (Ne.symm hne)

/-- **One operation keeps it.** Kind: L -/
theorem Sound.step (h : Sound localId maxPeers ops table) (op : ℕ × PeerOp Addr) :
    Sound localId maxPeers (ops ++ [op]) (table.step op) := by
  obtain ⟨now, op⟩ := op
  rcases op with ⟨id, addr⟩ | id | ⟨id, state⟩ | id | id | ⟨id, amount⟩ | ⟨id, amount⟩ | id | -
  · exact h.addPeer now id addr
  · refine h.fewer ?_ ?_ fun _ => rfl
    · intro other hother
      exact ((AList.mem_erase).mp hother).2
    · intro other peer hpeer
      by_cases hother : other = id
      · rw [hother, AList.lookup_erase] at hpeer
        cases hpeer
      · rwa [AList.lookup_erase_ne hother] at hpeer
  · exact h.touchPeer (fun _ => rfl) (fun _ => rfl) fun _ => rfl
  · exact h.touchPeer (fun _ => rfl) (fun _ => rfl) fun _ => rfl
  · exact h.touchPeer (fun _ => rfl) (fun _ => rfl) fun _ => rfl
  · exact h.modifyPeer (fun _ => rfl) (fun _ => rfl) fun _ _ => rfl
  · exact h.modifyPeer (fun _ => rfl) (fun _ => rfl) fun _ _ => rfl
  · exact h.touchPeer (fun _ => rfl) (fun _ => rfl) fun _ => rfl
  · refine h.fewer keys_pruneStale_subset ?_ fun _ => rfl
    intro other peer hpeer
    have hkept := lookup_pruneStale.symm.trans hpeer
    exact (Option.filter_eq_some_iff.mp hkept).1

/-- **Every run.** By induction on the operations from the end. Kind: L -/
theorem sound_run (localId : PeerId) (maxPeers : ℕ) (ops : List (ℕ × PeerOp Addr)) :
    Sound localId maxPeers ops ((new localId maxPeers).run ops) := by
  induction ops using List.reverseRecOn with
  | nil =>
      refine ⟨rfl, rfl, rfl, Nat.zero_le _, AList.notMem_empty _, fun id peer hpeer => ?_⟩
      simp [run, new] at hpeer
  | append_singleton ops op ih =>
      have hstep := ih.step op
      rwa [run, List.foldl_concat]

/-- **The known peers of any run.** They are at most as many as configured, the node itself is not
among them, and the time of a peer is that of the last operation that touched it. A prune keeps a
known peer exactly if that was at most five minutes ago; rewards and penalties do not count.
Source: `network/peer.rs`, `PeerManager::add_peer`, `PeerManager::prune_stale`
Kind: P -/
theorem known_peers_sound (localId : PeerId) (maxPeers : ℕ) (ops : List (ℕ × PeerOp Addr)) :
    let table := (new localId maxPeers).run ops
    table.peerCount ≤ maxPeers ∧ localId ∉ table.peers ∧
      (∀ id peer, table.getPeer id = some peer →
        peer.id = id ∧ lastTouch id ops = some peer.lastSeen) ∧
      ∀ now id, id ∈ (table.pruneStale now).1.peers ↔
        id ∈ table.peers ∧ ∃ time, lastTouch id ops = some time ∧ now - time ≤ 300 * 10 ^ 9 := by
  intro table
  have h : Sound localId maxPeers ops table := sound_run localId maxPeers ops
  refine ⟨h.bounded, h.notMem, h.seen, fun now id => ?_⟩
  rw [← AList.lookup_isSome, ← AList.lookup_isSome, lookup_pruneStale]
  rcases hpeer : table.peers.lookup id with _ | peer
  · simp
  · obtain ⟨-, hseen⟩ := h.seen id peer hpeer
    simp [Option.filter, PeerRecord.isStale, h.timeout_eq, hseen]

/-! ### The best peers -/

instance : Std.Total fun a b : PeerRecord Addr => b.reputation ≤ a.reputation where
  total a b := Int32.le_total b.reputation a.reputation

instance : IsTrans (PeerRecord Addr) fun a b => b.reputation ≤ a.reputation where
  trans _ _ _ hab hbc := Int32.le_trans hbc hab

/-- The connected peers of a run are those of the map that are connected. Kind: L -/
theorem Sound.mem_connectedPeers (h : Sound localId maxPeers ops table) {peer : PeerRecord Addr} :
    peer ∈ table.connectedPeers ↔
      table.peers.lookup peer.id = some peer ∧ peer.state = .connected := by
  unfold connectedPeers
  rw [List.mem_filter, List.mem_map, decide_eq_true_iff]
  refine and_congr_left fun _ => ⟨?_, fun hpeer => ?_⟩
  · rintro ⟨⟨id, _⟩, hentry, rfl⟩
    have hlook := AList.mem_lookup_iff.mpr hentry
    rw [(h.seen id _ hlook).1]
    exact hlook
  · exact ⟨⟨peer.id, peer⟩, AList.mem_lookup_iff.mp hpeer, rfl⟩

/-- No peer is selected twice. Kind: L -/
theorem Sound.nodup_connectedPeers (h : Sound localId maxPeers ops table) :
    (table.connectedPeers.map fun peer => peer.id).Nodup := by
  have hids : (table.peers.entries.map fun entry => entry.2).map (fun peer => peer.id) =
      table.peers.keys := by
    rw [List.map_map]
    refine List.map_congr_left fun entry hentry => ?_
    exact (h.seen entry.1 entry.2 (AList.mem_lookup_iff.mpr hentry)).1
  refine List.Nodup.sublist (List.filter_sublist.map _) ?_
  rw [hids]
  exact AList.keys_nodup _

/-- **The peers that an event is announced to.** In any run the selection has as many peers as asked
for, or all connected ones if there are fewer. They are known and connected, no peer is selected
twice, the order is that of descending reputations, and no connected peer that was left out has a
higher reputation than a selected one.
Source: `network/peer.rs`, `PeerManager::best_peers`
Kind: P -/
theorem best_peers_top (localId : PeerId) (maxPeers : ℕ) (ops : List (ℕ × PeerOp Addr))
    (count : ℕ) :
    let table := (new localId maxPeers).run ops
    let best := table.bestPeers count
    best.length = min count table.connectedCount ∧ (best.map fun peer => peer.id).Nodup ∧
      best.Pairwise (fun a b => b.reputation ≤ a.reputation) ∧
      (∀ peer ∈ best, table.getPeer peer.id = some peer ∧ peer.state = .connected) ∧
      ∀ peer, table.getPeer peer.id = some peer → peer.state = .connected → peer ∉ best →
        ∀ chosen ∈ best, peer.reputation ≤ chosen.reputation := by
  intro table best
  have h : Sound localId maxPeers ops table := sound_run localId maxPeers ops
  set sorted := table.connectedPeers.insertionSort fun a b => b.reputation ≤ a.reputation
    with hsorted
  have hperm : sorted.Perm table.connectedPeers := List.perm_insertionSort _ _
  have hpairwise : sorted.Pairwise fun a b => b.reputation ≤ a.reputation :=
    List.pairwise_insertionSort _ _
  have hbest : best = sorted.take count := rfl
  rw [hbest]
  refine ⟨?_, ?_, hpairwise.sublist (List.take_sublist _ _), ?_, ?_⟩
  · rw [List.length_take, hperm.length_eq]
    unfold connectedPeers connectedCount
    rw [List.countP_eq_length_filter]
  · refine List.Nodup.sublist ((List.take_sublist _ _).map _) ?_
    exact ((hperm.map _).nodup_iff).mpr h.nodup_connectedPeers
  · intro peer hpeer
    exact h.mem_connectedPeers.mp (hperm.mem_iff.mp (List.mem_of_mem_take hpeer))
  · intro peer hknown hconnected hout chosen hchosen
    have hmem : peer ∈ sorted := hperm.mem_iff.mpr (h.mem_connectedPeers.mpr ⟨hknown, hconnected⟩)
    -- a peer that is not among the first ones comes after all of them
    rw [← List.take_append_drop count sorted] at hmem hpairwise
    have hdrop : peer ∈ sorted.drop count := (List.mem_append.mp hmem).resolve_left hout
    exact (List.pairwise_append.mp hpairwise).2.2 chosen hchosen peer hdrop

end PeerTable

end Ryther
