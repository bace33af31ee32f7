import Mathlib.Data.List.Nodup
import Mathlib.Logic.Function.Basic
import Ryther.Lib.Outputs
import Ryther.Network.Gossip

/-!
# A network of nodes

Nodes that run the gossip protocol of `src/network/gossip.rs` over open connections. An own event is
announced to the best peers; a node that does not hold it asks back on the same connection and gets
it.

* `Wiring` — the open connections; each end knows the other by an id of its own.
* `GossipNet.step` — a broadcast, the delivery or the loss of any message on its way, a cleanup. The
  answer goes back through the connection of the message, as in `RytherNode::handle_messages`.
* `announced`, `origins` — to whom an event was announced, and who broadcast it.
* `GossipProtocol.get_step`, `processed_step`, `isSeen_step`, `handleMessage_answer_cases` — what an
  operation does to a node and what it answers.
* `Carries` — the three messages of an exchange about an event.
-/

namespace Ryther

open Lib

/-! ### The network -/

/-- A message on its way, with the node it goes to and the id under which that node knows the
connection.
Kind: D -/
structure Packet (N : Type) where
  target : N
  via : PeerId
  msg : NetworkMessage

/-- The open connections: the other end of each, and its id there.
Source: `network/transport.rs`, `TcpTransport.connections`
Kind: D -/
structure Wiring (N : Type) where
  other : N → PeerId → Option (N × PeerId)
  other_symm : ∀ {n p m q}, other n p = some (m, q) → other m q = some (n, p)

/-- The nodes and the messages on their way.
Kind: D -/
structure GossipNet (N : Type) where
  nodes : N → GossipProtocol
  flight : List (Packet N)

/-- What happens in a network. Messages arrive in any order.
Kind: D -/
inductive NetOp (N : Type) where
  | broadcast (n : N) (drawnIds : ℕ → Bytes 16) (event : DagEvent)
  | deliver (i now : ℕ) (drawnId : Bytes 16)
  | lose (i : ℕ)
  | cleanup (n : N) (now : ℕ)

namespace GossipNet

variable {N : Type} [DecidableEq N] (wiring : Wiring N)

/-- A message to a peer of a node; without a connection nothing is sent.
Source: `network/transport.rs`, `TcpTransport::send`
Kind: D -/
def send (n : N) (peer : PeerId) (msg : NetworkMessage) : List (Packet N) :=
  ((wiring.other n peer).map fun far => (⟨far.1, far.2, msg⟩ : Packet N)).toList

/-- The node that acts, and what its protocol does.
Kind: D -/
def localOp (net : GossipNet N) : NetOp N → Option (N × GossipOp)
  | .broadcast n drawnIds event => some (n, .broadcast drawnIds event)
  | .deliver i now drawnId =>
      (net.flight[i]?).map fun packet => (packet.target, .message now drawnId packet.msg)
  | .lose _ => none
  | .cleanup n now => some (n, .cleanup now)

/-- The answer to a message goes to the peer of its connection.
Source: `node/node.rs`, `RytherNode::handle_messages`
Kind: D -/
def answersTo (net : GossipNet N) (now : ℕ) (drawnId : Bytes 16) (packet : Packet N) :
    List (Packet N) :=
  match ((net.nodes packet.target).handleMessage now drawnId packet.msg).1 with
  | none => []
  | some answer => send wiring packet.target packet.via answer

/-- The messages that an operation sends.
Source: `node/node.rs`, `RytherNode::handle_messages`, `RytherNode::start_block_producer`
Kind: D -/
def sentBy (net : GossipNet N) : NetOp N → List (Packet N)
  | .broadcast n drawnIds event =>
      ((net.nodes n).broadcastEvent drawnIds event).1.flatMap fun announcement =>
        send wiring n announcement.1 announcement.2
  | .deliver i now drawnId =>
      (net.flight[i]?).toList.flatMap fun packet => net.answersTo wiring now drawnId packet
  | .lose _ => []
  | .cleanup _ _ => []

/-- The messages that stay on their way.
Kind: D -/
def remaining (net : GossipNet N) : NetOp N → List (Packet N)
  | .deliver i _ _ => net.flight.eraseIdx i
  | .lose i => net.flight.eraseIdx i
  | .broadcast _ _ _ => net.flight
  | .cleanup _ _ => net.flight

/-- The network after one operation: one node takes its step, and what it sends is on its way. Kind:
D -/
def step (net : GossipNet N) (op : NetOp N) : GossipNet N where
  nodes := match net.localOp op with
    | none => net.nodes
    | some (n, gossip) => Function.update net.nodes n ((net.nodes n).step gossip)
  flight := net.remaining op ++ net.sentBy wiring op

/-- The network after some operations, in their order. Kind: D -/
def run (net : GossipNet N) (ops : List (NetOp N)) : GossipNet N := ops.foldl (step wiring) net

/-- Who an event is announced to.
Kind: D -/
def receivers (net : GossipNet N) : NetOp N → List (N × DagEvent)
  | .broadcast n drawnIds event =>
      (net.sentBy wiring (.broadcast n drawnIds event)).map fun packet => (packet.target, event)
  | .deliver _ _ _ => []
  | .lose _ => []
  | .cleanup _ _ => []

/-- The node and the event of a broadcast. Kind: D -/
def originsOf : NetOp N → List (N × DagEvent)
  | .broadcast n _ event => [(n, event)]
  | .deliver _ _ _ => []
  | .lose _ => []
  | .cleanup _ _ => []

/-- The message that an operation delivers.
Kind: D -/
def deliveredBy (net : GossipNet N) : NetOp N → List (Packet N)
  | .deliver i _ _ => (net.flight[i]?).toList
  | .broadcast _ _ _ => []
  | .lose _ => []
  | .cleanup _ _ => []

/-- All announcements of a run.
Kind: D -/
def announced (net : GossipNet N) (ops : List (NetOp N)) : List (N × DagEvent) :=
  outputs (step wiring) (receivers wiring) net ops

/-- The broadcasts of a run.
Kind: D -/
def origins (ops : List (NetOp N)) : List (N × DagEvent) := ops.flatMap originsOf

/-- All messages that a run sends.
Kind: D -/
def sent (net : GossipNet N) (ops : List (NetOp N)) : List (Packet N) :=
  outputs (step wiring) (sentBy wiring) net ops

/-- All messages that a run delivers.
Kind: D -/
def deliveries (net : GossipNet N) (ops : List (NetOp N)) : List (Packet N) :=
  outputs (step wiring) deliveredBy net ops

/-- Nodes before their first message.
Kind: D -/
def start (localId : N → PeerId) (peers : N → PeerManager) (config : N → GossipConfig) :
    GossipNet N :=
  ⟨fun n => .new (localId n) (peers n) .new (config n), []⟩

end GossipNet

/-! ### What one operation does to a node -/

namespace GossipProtocol

/-- The stored events after an operation. Kind: L -/
theorem get_step (g : GossipProtocol) (op : GossipOp) (id : EventId) :
    (g.step op).dag.get id =
      (((g.inserts op).filter fun e => e.id = id).getLast?).or (g.dag.get id) := by
  rw [dag_step, get_foldl_insert]

/-- An event that is stored afterwards was stored or inserted. Kind: L -/
theorem get_step_cases {g : GossipProtocol} {op : GossipOp} {id : EventId} {e : DagEvent}
    (h : (g.step op).dag.get id = some e) :
    g.dag.get id = some e ∨ e ∈ g.inserts op ∧ e.id = id := by
  rw [get_step, Option.or_eq_some_iff] at h
  rcases h with h | ⟨-, h⟩
  · have hmem := List.mem_filter.mp (List.mem_of_getLast? h)
    exact .inr ⟨hmem.1, of_decide_eq_true hmem.2⟩
  · exact .inl h

/-- An event stays stored if nothing else is inserted under its id. Kind: L -/
theorem get_step_of_get {g : GossipProtocol} {op : GossipOp} {id : EventId} {e : DagEvent}
    (h : g.dag.get id = some e) (honly : ∀ e' ∈ g.inserts op, e'.id = id → e' = e) :
    (g.step op).dag.get id = some e := by
  rw [get_step]
  generalize hlast : List.getLast? _ = last
  rcases last with _ | e'
  · exact h
  · have hmem := List.mem_filter.mp (List.mem_of_getLast? hlast)
    rw [honly e' hmem.1 (of_decide_eq_true hmem.2), Option.some_or]

/-- An inserted event is stored if nothing else is inserted under its id. Kind: L -/
theorem get_step_of_inserts {g : GossipProtocol} {op : GossipOp} {e : DagEvent}
    (h : e ∈ g.inserts op) (honly : ∀ e' ∈ g.inserts op, e'.id = e.id → e' = e) :
    (g.step op).dag.get e.id = some e := by
  rw [get_step]
  generalize hlast : List.getLast? _ = last
  rcases last with _ | e'
  · rw [List.getLast?_eq_none_iff, List.filter_eq_nil_iff] at hlast
    exact absurd (decide_eq_true rfl) (hlast e h)
  · have hmem := List.mem_filter.mp (List.mem_of_getLast? hlast)
    rw [honly e' hmem.1 (of_decide_eq_true hmem.2), Option.some_or]

/-- A response marks the ids of its valid events as processed. Kind: L -/
theorem processed_handleEventResponse (events : List DagEvent) (sender : PeerId)
    (g : GossipProtocol) (id : EventId) :
    id ∈ (events.foldl (receiveEvent sender) g).processedEvents ↔
      id ∈ g.processedEvents ∨ ∃ e ∈ events.filter DagEvent.isValid, e.id = id := by
  induction events generalizing g with
  | nil => simp
  | cons event events ih =>
      rw [List.foldl_cons, ih]
      by_cases hvalid : event.isValid = true
      · rw [List.filter_cons_of_pos hvalid, receiveEvent, if_pos hvalid, Finset.mem_insert,
          List.exists_mem_cons_iff, eq_comm, or_comm (a := event.id = id), or_assoc]
      · rw [List.filter_cons_of_neg hvalid, receiveEvent, if_neg hvalid]

/-- **The processed ids after an operation** are those of the events it inserts and those before.
Kind: L -/
theorem processed_step (g : GossipProtocol) (op : GossipOp) (id : EventId) :
    id ∈ (g.step op).processedEvents ↔
      id ∈ g.processedEvents ∨ ∃ e ∈ g.inserts op, e.id = id := by
  cases op with
  | broadcast drawnIds event => simp [step, broadcastEvent, inserts, eq_comm, or_comm]
  | cleanup now => simp [step, cleanup, inserts]
  | message now drawnId msg =>
      obtain ⟨version, messageId, sender, payload⟩ := msg
      simp only [step, handleMessage, inserts]
      split_ifs with hseen
      · simp
      · cases payload with
        | eventAnnounce announce =>
            simp only [List.not_mem_nil, false_and, exists_false, or_false]
            unfold handleEventAnnounce
            split_ifs <;> rfl
        | eventResponse response => exact processed_handleEventResponse _ _ _ _
        | _ => simp [markSeen]

/-- A response marks no message as seen. Kind: L -/
theorem seenMessages_handleEventResponse (events : List DagEvent) (sender : PeerId)
    (g : GossipProtocol) :
    (events.foldl (receiveEvent sender) g).seenMessages = g.seenMessages := by
  induction events generalizing g with
  | nil => rfl
  | cons event events ih =>
      rw [List.foldl_cons, ih, receiveEvent]
      split_ifs <;> rfl

/-- A message that was not seen before is marked. Kind: L -/
theorem seenMessages_handleMessage {g : GossipProtocol} {msg : NetworkMessage}
    (h : g.isSeen msg.messageId = false) (now : ℕ) (drawnId : Bytes 16) :
    (g.handleMessage now drawnId msg).2.seenMessages =
      g.seenMessages.insert msg.messageId now := by
  obtain ⟨version, messageId, sender, payload⟩ := msg
  simp only at h
  simp only [handleMessage, h, Bool.false_eq_true, if_false]
  cases payload with
  | eventAnnounce announce =>
      simp only [handleEventAnnounce]
      split_ifs <;> rfl
  | eventResponse response => exact seenMessages_handleEventResponse _ _ _
  | _ => rfl

/-- `HashMap::retain` adds no keys. Kind: L -/
theorem lookup_isSome_of_retain {K V : Type} [DecidableEq K] {m : HashMap K V} {p : V → Bool}
    {k : K} (h : ((retain m p).lookup k).isSome) : (m.lookup k).isSome := by
  rw [AList.lookup_isSome] at h ⊢
  obtain ⟨v, hv⟩ := List.exists_of_mem_keys (l := (retain m p).entries) h
  exact List.mem_keys_of_mem (List.mem_of_mem_filter hv)

/-- Only a message that is handled becomes seen. Kind: L -/
theorem isSeen_step {g : GossipProtocol} {op : GossipOp} {id : Bytes 16}
    (h : (g.step op).isSeen id = true) :
    g.isSeen id = true ∨ ∃ now drawnId msg, op = .message now drawnId msg ∧ msg.messageId = id := by
  cases op with
  | broadcast drawnIds event => exact .inl h
  | cleanup now => exact .inl (lookup_isSome_of_retain h)
  | message now drawnId msg =>
      by_cases hid : msg.messageId = id
      · exact .inr ⟨now, drawnId, msg, rfl, hid⟩
      · refine .inl ?_
        by_cases hseen : g.isSeen msg.messageId = true
        · rw [step, handleMessage, if_pos hseen] at h
          exact h
        · rw [isSeen, step, seenMessages_handleMessage (Bool.not_eq_true _ ▸ hseen),
            AList.lookup_insert_ne (Ne.symm hid)] at h
          exact h

/-- The answer to an announcement of an event that is neither stored nor processed. Kind: L -/
theorem handleMessage_announce {g : GossipProtocol} {msg : NetworkMessage}
    {announce : EventAnnounce} (hpayload : msg.payload = .eventAnnounce announce)
    (hseen : g.isSeen msg.messageId = false) (hstored : g.dag.get announce.eventId = none)
    (hprocessed : announce.eventId ∉ g.processedEvents) (now : ℕ) (drawnId : Bytes 16) :
    (g.handleMessage now drawnId msg).1 =
      some (.new drawnId g.localId (.eventRequest ⟨[announce.eventId]⟩)) := by
  have hcontains : (g.markSeen now msg.messageId).dag.contains announce.eventId = false := by
    show (g.dag.get announce.eventId).isSome = false
    rw [hstored]
    rfl
  simp only [handleMessage, hseen, Bool.false_eq_true, if_false, hpayload, handleEventAnnounce,
    hcontains]
  rw [if_neg (show announce.eventId ∉ (g.markSeen now msg.messageId).processedEvents from
    hprocessed)]
  rfl

/-- The answer to a request of a stored event. Kind: L -/
theorem handleMessage_request {g : GossipProtocol} {msg : NetworkMessage} {e : DagEvent}
    (hpayload : msg.payload = .eventRequest ⟨[e.id]⟩) (hseen : g.isSeen msg.messageId = false)
    (hstored : g.dag.get e.id = some e) (now : ℕ) (drawnId : Bytes 16) :
    (g.handleMessage now drawnId msg).1 =
      some (.new drawnId g.localId (.eventResponse ⟨[e], []⟩)) := by
  have hget : (g.markSeen now msg.messageId).dag.get e.id = some e := hstored
  simp only [handleMessage, hseen, Bool.false_eq_true, if_false, hpayload, handleEventRequest,
    List.filterMap_cons, List.filterMap_nil, List.filter_cons, List.filter_nil, hget,
    Option.isNone_some]
  rfl

/-- **What is answered**: an announcement by a request, and a request by a response. Kind: L -/
theorem handleMessage_answer_cases {g : GossipProtocol} {now : ℕ} {drawnId : Bytes 16}
    {msg answer : NetworkMessage} (h : (g.handleMessage now drawnId msg).1 = some answer) :
    (∃ announce, msg.payload = .eventAnnounce announce ∧
        answer.payload = .eventRequest ⟨[announce.eventId]⟩) ∨
      ∃ request, msg.payload = .eventRequest request ∧
        answer.payload = .eventResponse ⟨request.eventIds.filterMap g.dag.get,
          request.eventIds.filter fun id => (g.dag.get id).isNone⟩ := by
  obtain ⟨version, messageId, sender, payload⟩ := msg
  simp only [handleMessage] at h
  split_ifs at h
  cases payload with
  | eventAnnounce announce =>
      simp only [handleEventAnnounce] at h
      split_ifs at h
      cases h
      exact .inl ⟨announce, rfl, rfl⟩
  | eventRequest request =>
      cases h
      exact .inr ⟨request, rfl, rfl⟩
  | _ => cases h

/-- Every processed id is stored; an operation keeps this. Kind: L -/
theorem exists_get_of_processed_step {g : GossipProtocol}
    (h : ∀ id ∈ g.processedEvents, ∃ e, g.dag.get id = some e) (op : GossipOp) :
    ∀ id ∈ (g.step op).processedEvents, ∃ e, (g.step op).dag.get id = some e := by
  intro id hid
  rw [get_step]
  generalize hlast : List.getLast? _ = last
  rcases last with _ | e
  · rcases (processed_step g op id).mp hid with hid | ⟨e, he, rfl⟩
    · exact h id hid
    · rw [List.getLast?_eq_none_iff, List.filter_eq_nil_iff] at hlast
      exact absurd (decide_eq_true rfl) (hlast e he)
  · exact ⟨e, rfl⟩

end GossipProtocol

/-! ### The exchange about an event -/

namespace GossipNet

variable {N : Type} {wiring : Wiring N}

/-- The messages about an event that a node broadcast and announced to another one: the
announcement, the request and the response. The first two lie on the connection of the nodes.
Kind: D -/
inductive Carries (wiring : Wiring N) (e : DagEvent) (n m : N) : Packet N → Prop where
  | announce {via p : PeerId} {msg : NetworkMessage} (hwire : wiring.other m via = some (n, p))
      (hpayload : msg.payload = .eventAnnounce ⟨e.id, e.creator, e.round⟩) :
      Carries wiring e n m ⟨m, via, msg⟩
  | request {via q : PeerId} {msg : NetworkMessage} (hwire : wiring.other n via = some (m, q))
      (hpayload : msg.payload = .eventRequest ⟨[e.id]⟩) : Carries wiring e n m ⟨n, via, msg⟩
  | response {via : PeerId} {msg : NetworkMessage}
      (hpayload : msg.payload = .eventResponse ⟨[e], []⟩) : Carries wiring e n m ⟨m, via, msg⟩

/-- A sent message reaches the node at the other end of the link, if there is one. Kind: L -/
theorem mem_send {n : N} {peer : PeerId} {msg : NetworkMessage} {k : Packet N} :
    k ∈ send wiring n peer msg ↔ ∃ m q, wiring.other n peer = some (m, q) ∧ k = ⟨m, q, msg⟩ := by
  unfold send
  rcases wiring.other n peer with _ | ⟨m, q⟩
  · simp
  · simp

variable {net : GossipNet N}

/-- A broadcast sends announcements. Kind: L -/
theorem carries_of_mem_sentBy_broadcast {n : N} {drawnIds : ℕ → Bytes 16} {event : DagEvent}
    {k : Packet N} (h : k ∈ net.sentBy wiring (.broadcast n drawnIds event)) :
    Carries wiring event n k.target k := by
  obtain ⟨⟨peer, msg⟩, hannounce, hsend⟩ := List.mem_flatMap.mp h
  obtain ⟨m, q, hwire, rfl⟩ := mem_send.mp hsend
  obtain ⟨i, hi, hmsg⟩ := List.mem_mapIdx.mp hannounce
  obtain ⟨-, rfl⟩ := Prod.mk.inj hmsg
  exact .announce (wiring.other_symm hwire) rfl

/-- The receivers of a broadcast are the targets of its announcements. Kind: L -/
theorem mem_receivers {op : NetOp N} {m : N} {e : DagEvent} :
    (m, e) ∈ net.receivers wiring op ↔
      ∃ n drawnIds, op = .broadcast n drawnIds e ∧ ∃ k ∈ net.sentBy wiring op, k.target = m := by
  cases op with
  | broadcast n drawnIds event =>
      simp only [receivers, List.mem_map, Prod.mk.injEq]
      constructor
      · rintro ⟨k, hk, rfl, rfl⟩
        exact ⟨n, drawnIds, rfl, k, hk, rfl⟩
      · rintro ⟨n', drawnIds', hop, k, hk, rfl⟩
        cases hop
        exact ⟨k, hk, rfl, rfl⟩
  | deliver i now drawnId => simp [receivers]
  | lose i => simp [receivers]
  | cleanup n now => simp [receivers]

theorem mem_originsOf {op : NetOp N} {n : N} {e : DagEvent} :
    (n, e) ∈ originsOf op ↔ ∃ drawnIds, op = .broadcast n drawnIds e := by
  cases op with
  | broadcast n' drawnIds event =>
      simp only [originsOf, List.mem_singleton, Prod.mk.injEq]
      constructor
      · rintro ⟨rfl, rfl⟩
        exact ⟨drawnIds, rfl⟩
      · rintro ⟨drawnIds', hop⟩
        cases hop
        exact ⟨rfl, rfl⟩
  | deliver i now drawnId => simp [originsOf]
  | lose i => simp [originsOf]
  | cleanup n now => simp [originsOf]

/-- A message on its way stays there unless it is delivered or lost. Kind: L -/
theorem mem_remaining_of_mem {op : NetOp N} {k : Packet N} (hk : k ∈ net.flight) :
    k ∈ net.remaining op ∨ (∃ i now drawnId, op = .deliver i now drawnId ∧
      net.flight[i]? = some k) ∨ ∃ i, op = .lose i := by
  cases op with
  | broadcast n drawnIds event => exact .inl hk
  | cleanup n now => exact .inl hk
  | lose i => exact .inr (.inr ⟨i, rfl⟩)
  | deliver i now drawnId =>
      rcases hi : net.flight[i]? with _ | k'
      · have hlen := List.getElem?_eq_none_iff.mp hi
        exact .inl (by rwa [remaining, List.eraseIdx_of_length_le hlen])
      · obtain ⟨hlt, rfl⟩ := List.getElem?_eq_some_iff.mp hi
        rcases List.mem_cons.mp ((List.getElem_cons_eraseIdx_perm hlt).mem_iff.mpr hk) with rfl | h
        · exact .inr (.inl ⟨i, now, drawnId, rfl, hi⟩)
        · exact .inl h

/-- What is left of the messages keeps their order. Kind: L -/
theorem remaining_sublist (net : GossipNet N) (op : NetOp N) :
    (net.remaining op).Sublist net.flight := by
  cases op with
  | broadcast n drawnIds event => exact .refl _
  | cleanup n now => exact .refl _
  | lose i => exact List.eraseIdx_sublist _ _
  | deliver i now drawnId => exact List.eraseIdx_sublist _ _

end GossipNet

end Ryther
