import Mathlib.Data.Finset.Insert
import Mathlib.Data.List.Infix
import Ryther.Dag.Store
import Ryther.Network.Message

/-!
# The gossip protocol

`src/network/gossip.rs`: announcements, requests and responses, and the events they put into the
store. An event of a response is inserted under the id it carries when its structure is valid; that
the id is computed from the contents is not checked, nor whether an event with this id is stored.

* `GossipProtocol.handleMessage`, `broadcastEvent`, `cleanup` — as in the source. The time of a call
  is a natural number, and message ids come from a stream of drawn ones.
* `GossipOp.inserts` — the events an operation puts into the store, in order; `dag_step` says it
  does nothing else to the store.
* `Immutable` — what `get` returned once it returns forever.
* `immutable_iff` — a run keeps its events exactly when no operation's last event with a stored id
  differs from the stored one.
-/

namespace Ryther

open Lib

/-- Durations are in milliseconds.
Source: `network/gossip.rs`, `GossipConfig`
Kind: D -/
structure GossipConfig where
  fanout : ℕ
  maxRequestBatch : ℕ
  requestTimeout : ℕ
  seenCacheTtl : ℕ

/-- The fan-out, the largest request, and the two timeouts in milliseconds.
Source: `network/gossip.rs`, `GossipConfig::default`
Kind: D -/
def GossipConfig.default : GossipConfig := ⟨8, 100, 5000, 300000⟩

/-- An event that was announced and is not there yet.
Source: `network/gossip.rs`, `PendingEvent`
Kind: D -/
structure PendingEvent where
  announcedAt : ℕ
  sources : List PeerId
  fetching : Bool

/-- The state of the protocol at one node: what it stores, has seen and waits for.
Source: `network/gossip.rs`, `GossipProtocol`
Kind: D -/
structure GossipProtocol where
  config : GossipConfig
  peers : PeerManager
  dag : DagStore
  localId : PeerId
  seenMessages : HashMap (Bytes 16) ℕ
  pendingEvents : HashMap EventId PendingEvent
  processedEvents : Finset EventId

namespace GossipProtocol

/-- A protocol that has seen nothing.
Source: `network/gossip.rs`, `GossipProtocol::new`
Kind: D -/
def new (localId : PeerId) (peers : PeerManager) (dag : DagStore) (config : GossipConfig) :
    GossipProtocol := ⟨config, peers, dag, localId, ∅, ∅, ∅⟩

/-- Whether a message was received before.
Source: `network/gossip.rs`, `GossipProtocol::is_seen`
Kind: D -/
def isSeen (g : GossipProtocol) (messageId : Bytes 16) : Bool :=
  (g.seenMessages.lookup messageId).isSome

/-- A message is remembered with the time it came at.
Source: `network/gossip.rs`, `GossipProtocol::mark_seen`
Kind: D -/
def markSeen (g : GossipProtocol) (now : ℕ) (messageId : Bytes 16) : GossipProtocol :=
  { g with seenMessages := g.seenMessages.insert messageId now }

/-! ### Handlers -/

/-- An announced event waits to be fetched, with one more source.
Source: `network/gossip.rs`, the update of `pending_events` in `handle_event_announce`
Kind: D -/
def addPending (g : GossipProtocol) (now : ℕ) (sender : PeerId) (eventId : EventId) :
    HashMap EventId PendingEvent :=
  match g.pendingEvents.lookup eventId with
  | some p => g.pendingEvents.insert eventId { p with sources := p.sources ++ [sender] }
  | none => g.pendingEvents.insert eventId ⟨now, [sender], false⟩

/-- An event that is neither stored nor processed is asked for.
Source: `network/gossip.rs`, `GossipProtocol::handle_event_announce`
Kind: D -/
def handleEventAnnounce (g : GossipProtocol) (now : ℕ) (drawnId : Bytes 16) (sender : PeerId)
    (announce : EventAnnounce) : Option NetworkMessage × GossipProtocol :=
  if g.dag.contains announce.eventId then (none, g)
  else if announce.eventId ∈ g.processedEvents then (none, g)
  else
    (some (.new drawnId g.localId (.eventRequest ⟨[announce.eventId]⟩)),
      { g with pendingEvents := g.addPending now sender announce.eventId })

/-- The reply has the stored ones of the events and names the missing ones.
Source: `network/gossip.rs`, `GossipProtocol::handle_event_request`
Kind: D -/
def handleEventRequest (g : GossipProtocol) (drawnId : Bytes 16) (request : EventRequest) :
    Option NetworkMessage :=
  some (.new drawnId g.localId (.eventResponse
    ⟨request.eventIds.filterMap g.dag.get,
      request.eventIds.filter fun id => (g.dag.get id).isNone⟩))

/-- One event of a response.
Kind: D -/
def receiveEvent (sender : PeerId) (g : GossipProtocol) (event : DagEvent) : GossipProtocol :=
  if event.isValid then
    { g with
      dag := g.dag.insert event
      pendingEvents := g.pendingEvents.erase event.id
      processedEvents := insert event.id g.processedEvents
      peers := g.peers.rewardPeer sender 1 }
  else { g with peers := g.peers.penalizePeer sender 10 }

/-- The events of a response are received one by one.
Source: `network/gossip.rs`, `GossipProtocol::handle_event_response`
Kind: D -/
def handleEventResponse (g : GossipProtocol) (sender : PeerId) (response : EventResponse) :
    GossipProtocol := response.events.foldl (receiveEvent sender) g

/-- The answer, if any, and the protocol after the message.
Source: `network/gossip.rs`, `GossipProtocol::handle_message`
Kind: D -/
def handleMessage (g : GossipProtocol) (now : ℕ) (drawnId : Bytes 16) (msg : NetworkMessage) :
    Option NetworkMessage × GossipProtocol :=
  if g.isSeen msg.messageId then (none, g)
  else
    let g := g.markSeen now msg.messageId
    match msg.payload with
    | .eventAnnounce announce => g.handleEventAnnounce now drawnId msg.sender announce
    | .eventRequest request => (g.handleEventRequest drawnId request, g)
    | .eventResponse response => (none, g.handleEventResponse msg.sender response)
    | _ => (none, g)

/-- The announcements of an own event, the `i`-th with the `i`-th drawn message id.
Source: `network/gossip.rs`, `GossipProtocol::broadcast_event`
Kind: D -/
def broadcastEvent (g : GossipProtocol) (drawnIds : ℕ → Bytes 16) (event : DagEvent) :
    List (PeerId × NetworkMessage) × GossipProtocol :=
  let announce : EventAnnounce := ⟨event.id, event.creator, event.round⟩
  ((g.peers.bestPeers g.config.fanout).mapIdx fun i peer =>
      (peer.id, .new (drawnIds i) g.localId (.eventAnnounce announce)),
    { g with
      dag := g.dag.insert event
      processedEvents := insert event.id g.processedEvents })

/-- `HashMap::retain`.
Kind: D -/
def retain {K V : Type} [DecidableEq K] (m : HashMap K V) (p : V → Bool) : HashMap K V :=
  ⟨m.entries.filter fun entry => p entry.2, m.nodupKeys.sublist List.filter_sublist⟩

/-- Old messages are forgotten, and so are announcements three timeouts old.
Source: `network/gossip.rs`, `GossipProtocol::cleanup`
Kind: D -/
def cleanup (g : GossipProtocol) (now : ℕ) : GossipProtocol :=
  { g with
    seenMessages := retain g.seenMessages fun time => now - time < g.config.seenCacheTtl
    pendingEvents := retain g.pendingEvents fun pending =>
      now - pending.announcedAt < g.config.requestTimeout * 3 }

end GossipProtocol

/-! ### Runs -/

/-- The operations of a run.
Kind: D -/
inductive GossipOp where
  | message (now : ℕ) (drawnId : Bytes 16) (msg : NetworkMessage)
  | broadcast (drawnIds : ℕ → Bytes 16) (event : DagEvent)
  | cleanup (now : ℕ)

namespace GossipProtocol

/-- The protocol after one operation; the replies are left out. Kind: D -/
def step (g : GossipProtocol) : GossipOp → GossipProtocol
  | .message now drawnId msg => (g.handleMessage now drawnId msg).2
  | .broadcast drawnIds event => (g.broadcastEvent drawnIds event).2
  | .cleanup now => g.cleanup now

/-- The protocol after some operations, in their order. Kind: D -/
def run (g : GossipProtocol) (ops : List GossipOp) : GossipProtocol := ops.foldl step g

/-- The events an operation puts into the store, in order: the own event, or the valid events of a
response that was not seen before.
Kind: D -/
def inserts (g : GossipProtocol) : GossipOp → List DagEvent
  | .message _ _ msg =>
      if g.isSeen msg.messageId then []
      else
        match msg.payload with
        | .eventResponse response => response.events.filter DagEvent.isValid
        | _ => []
  | .broadcast _ event => [event]
  | .cleanup _ => []

/-- A response inserts its valid events, in their order, and no others. Kind: L -/
theorem dag_handleEventResponse (events : List DagEvent) (sender : PeerId) (g : GossipProtocol) :
    (events.foldl (receiveEvent sender) g).dag =
      (events.filter DagEvent.isValid).foldl DagStore.insert g.dag := by
  induction events generalizing g with
  | nil => rfl
  | cons event events ih =>
      rw [List.foldl_cons, ih]
      by_cases hvalid : event.isValid = true
      · rw [List.filter_cons_of_pos hvalid, List.foldl_cons, receiveEvent, if_pos hvalid]
      · rw [List.filter_cons_of_neg hvalid, receiveEvent, if_neg hvalid]

/-- An announcement does not touch the store. Kind: L -/
theorem dag_handleEventAnnounce (g : GossipProtocol) (now : ℕ) (drawnId : Bytes 16)
    (sender : PeerId) (announce : EventAnnounce) :
    (g.handleEventAnnounce now drawnId sender announce).2.dag = g.dag := by
  unfold handleEventAnnounce
  split_ifs <;> rfl

/-- **What an operation does to the store.** Kind: P -/
theorem dag_step (g : GossipProtocol) (op : GossipOp) :
    (g.step op).dag = (g.inserts op).foldl DagStore.insert g.dag := by
  cases op with
  | broadcast drawnIds event => rfl
  | cleanup now => rfl
  | message now drawnId msg =>
      obtain ⟨version, messageId, sender, payload⟩ := msg
      simp only [step, handleMessage, inserts]
      split_ifs with hseen
      · rfl
      · cases payload with
        | eventAnnounce announce => exact dag_handleEventAnnounce _ _ _ _ _
        | eventResponse response => exact dag_handleEventResponse _ _ _
        | _ => rfl

/-- The event stored under an id after some insertions is the last one with this id. Kind: L -/
theorem get_foldl_insert (events : List DagEvent) (store : DagStore) (id : EventId) :
    (events.foldl DagStore.insert store).get id =
      ((events.filter fun e => e.id = id).getLast?).or (store.get id) := by
  have hevents : (events.foldl DagStore.insert store).events =
      events.foldl (fun stored e => stored.insert e.id e) store.events :=
    (List.foldl_hom DagStore.events fun _ _ => rfl).symm
  rw [DagStore.get, hevents, lookup_foldl_insert_key DagEvent.id]
  rfl

/-! ### Stored events -/

/-- What `get` returned at some point of the run it returns at every later point.
Kind: D -/
def Immutable (g : GossipProtocol) (ops : List GossipOp) : Prop :=
  ∀ earlier later, earlier <+: later → later <+: ops → ∀ id e,
    (g.run earlier).dag.get id = some e → (g.run later).dag.get id = some e

/-- The last event with a stored id that the operation inserts is the stored one.
Kind: D -/
def Keeps (g : GossipProtocol) (op : GossipOp) : Prop :=
  ∀ id stored last, g.dag.get id = some stored →
    ((g.inserts op).filter fun e => e.id = id).getLast? = some last → last = stored

/-- The protocol after one more operation. Kind: L -/
@[simp] theorem run_concat (g : GossipProtocol) (ops : List GossipOp) (op : GossipOp) :
    g.run (ops ++ [op]) = (g.run ops).step op := by
  simp [run]

/-- One operation that keeps the stored events. Kind: L -/
theorem Keeps.get_step {g : GossipProtocol} {op : GossipOp} (h : g.Keeps op) {id : EventId}
    {e : DagEvent} (hget : g.dag.get id = some e) : (g.step op).dag.get id = some e := by
  rw [dag_step, get_foldl_insert]
  cases hlast : ((g.inserts op).filter fun e => e.id = id).getLast? with
  | none => exact hget
  | some last => rw [h id e last hget hlast, Option.some_or]

/-- **Stored events never change exactly in the runs whose operations all keep them.**
Source: `network/gossip.rs`, `GossipProtocol::handle_event_response`
Kind: P -/
theorem immutable_iff (g : GossipProtocol) (ops : List GossipOp) :
    g.Immutable ops ↔ ∀ before op, before ++ [op] <+: ops → (g.run before).Keeps op := by
  constructor
  · intro himm before op hpre id stored last hstored hlast
    have hget := himm before (before ++ [op]) (List.prefix_append _ _) hpre id stored hstored
    rw [run_concat, dag_step, get_foldl_insert, hlast, Option.some_or] at hget
    exact Option.some.inj hget
  · rintro hkeeps earlier _ ⟨rest, rfl⟩ hpre id e hget
    -- by induction on the operations between the two points
    induction rest using List.reverseRecOn with
    | nil => rwa [List.append_nil]
    | append_singleton rest op ih =>
        rw [← List.append_assoc] at hpre ⊢
        rw [run_concat]
        exact (hkeeps _ op hpre).get_step (ih ((List.prefix_append _ _).trans hpre))

/-- Two responses with different events of one id: the second one replaces the first. Kind: P -/
theorem stored_event_replaced :
    let e : DagEvent := makeEvent (fun _ => .fill 32 1) 1 1 [.fill 32 9]
    let e' : DagEvent := { e with round := 7 }
    let response : UInt8 → DagEvent → GossipOp := fun i event =>
      .message 0 (.fill 16 0) ⟨1, .fill 16 i, .fill 32 i, .eventResponse ⟨[event], []⟩⟩
    let g := new (.fill 32 0) ⟨∅⟩ .new .default
    (g.run [response 1 e]).dag.get e.id = some e ∧
      (g.run [response 1 e, response 2 e']).dag.get e.id = some e' ∧ e ≠ e' := by
  decide +kernel

end GossipProtocol

end Ryther
