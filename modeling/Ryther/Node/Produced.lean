import Ryther.Node.Repeat
import Ryther.Types.Builder

/-!
# Produced events

What `create_event` of `src/node/node.rs` and the builder of `src/types/event.rs` produce, against
what the other side expects of an event: `validate_structure` in an event response, `compute_id` for
its id and `signing_message` for its signature.

* `GossipProtocol.NeverRejected` — every response that carries the event has it stored and its
  sender rewarded.
* `produced_events_accepted_iff` — which created and built events are. The first event of a node on
  an empty store has no parents and is not.
* `FullNode.OneIdentity` — the id is `compute_id`, does not depend on the order of insertions, and
  the signed bytes are `signing_message`.
* `FullNode.oneIdentity_iff` — no created event has all of this; `id_ne_computeId`,
  `signedBytes_ne_signingMessage` and `map_id_eq_of_id_eq` say what each part gives.
-/

namespace Ryther

open Lib

/-! ### Responses -/

namespace GossipProtocol

/-- The protocol after an event of a response is accepted.
Source: `network/gossip.rs`, the first branch of `GossipProtocol::handle_event_response`
Kind: D -/
def acceptEvent (sender : PeerId) (g : GossipProtocol) (event : DagEvent) : GossipProtocol :=
  { g with
    dag := g.dag.insert event
    pendingEvents := g.pendingEvents.erase event.id
    processedEvents := insert event.id g.processedEvents
    peers := g.peers.rewardPeer sender 1 }

/-- Wherever the event stands in a response, it is stored and the sender is rewarded for it.
Kind: D -/
def NeverRejected (event : DagEvent) : Prop :=
  ∀ (g : GossipProtocol) (sender : PeerId) (before after : List DagEvent) (missing : List EventId),
    g.handleEventResponse sender ⟨before ++ event :: after, missing⟩ =
      (acceptEvent sender (g.handleEventResponse sender ⟨before, missing⟩)
        event).handleEventResponse sender ⟨after, missing⟩

/-- An event that passes `validate_structure` is rejected by no node. Kind: L -/
theorem neverRejected_of_validateStructure {event : DagEvent}
    (h : event.validateStructure = .ok ()) : NeverRejected event := by
  intro g sender before after missing
  have haccept : ∀ g' : GossipProtocol,
      receiveEvent sender g' event = acceptEvent sender g' event := fun g' =>
    if_pos ((DagEvent.isValid_iff event).mpr h)
  show (before ++ event :: after).foldl (receiveEvent sender) g =
    after.foldl (receiveEvent sender)
      (acceptEvent sender (before.foldl (receiveEvent sender) g) event)
  rw [List.foldl_append, List.foldl_cons, haccept]

end GossipProtocol

/-! ### The structure of created events -/

namespace FullNode

variable {sha256 : List UInt8 → Bytes 32}

/-- There are parents as soon as there is an event. Kind: L -/
theorem parentsFor_eq_nil_iff {node : FullNode} {events : List DagEvent}
    (hdag : node.dag = DagStore.ofEvents events) (validatorId : ValidatorId) :
    node.parentsFor validatorId = [] ↔ events = [] := by
  constructor
  · intro hnil
    by_contra hne
    obtain ⟨e, he, htop⟩ := DagStore.exists_round_eq_maxRound hne
    have hindexed := DagStore.indexed_ofEvents events
    obtain ⟨stored, hstored⟩ := Option.ne_none_iff_exists'.mp (hindexed.events_complete e he)
    have hid : stored.id = e.id := (hindexed.events_sound _ _ hstored).2
    have hlisted : stored ∈ node.dag.eventsAtRound node.dag.maxRound := by
      rw [hdag]
      refine List.mem_filterMap.mpr ⟨e.id, ?_, hstored⟩
      exact (hindexed.mem_byRound_iff _ _).mpr ⟨e, he, htop, rfl⟩
    have hparent : stored.id ∈ node.parentsFor validatorId :=
      mem_parentsFor.mpr (.inl ⟨stored, hlisted, rfl⟩)
    rw [hnil] at hparent
    cases hparent
  · rintro rfl
    unfold parentsFor
    rw [hdag]
    rfl

/-- **Which created events have a valid structure**: those on a store with an event, unless the
round or the time wraps. Kind: L -/
theorem validateStructure_createEvent_iff {node node' : FullNode} {events : List DagEvent}
    {event : DagEvent} (hdag : node.dag = DagStore.ofEvents events)
    (h : node.createEvent sha256 = (some event, node')) :
    event.validateStructure = .ok () ↔
      events ≠ [] ∧ node.dag.maxRound ≠ u64Max ∧ node.clock.value ≠ u64Max := by
  obtain ⟨id, key, -, -, rfl, -⟩ := createEvent_eq_some h
  rw [DagEvent.validateStructure_eq_ok_iff]
  simp only [ne_eq, succ_eq_zero_iff, parentsFor_eq_nil_iff hdag]
  constructor
  · rintro (⟨rfl, htop, -⟩ | hvalid)
    · -- the empty store is at round 0
      rw [hdag] at htop
      exact absurd htop (by decide)
    · exact hvalid
  · exact .inr

end FullNode

/-- **Which produced events are acceptable to peers.** An event that a node creates on its store,
and one that a builder builds: their structure is valid and no response is penalized for them
exactly under these conditions.
Source: `types/event.rs`, `DagEvent::validate_structure`
Kind: P -/
theorem produced_events_accepted_iff (sha256 : List UInt8 → Bytes 32) (node node' : FullNode)
    (events : List DagEvent) (hdag : node.dag = DagStore.ofEvents events) (event : DagEvent)
    (hcreated : node.createEvent sha256 = (some event, node')) (builder : EventBuilder)
    (parentRounds : List UInt64) :
    let built := (builder.build sha256 parentRounds).1
    (event.validateStructure = .ok () ∧ GossipProtocol.NeverRejected event ∧
        built.validateStructure = .ok () ∧ GossipProtocol.NeverRejected built) ↔
      (events ≠ [] ∧ node.dag.maxRound ≠ u64Max ∧ node.clock.value ≠ u64Max) ∧
        builder.strongParents ≠ [] ∧ u64Max ∉ parentRounds ∧ u64Max ∉ builder.parentTimes := by
  intro built
  rw [← FullNode.validateStructure_createEvent_iff hdag hcreated,
    ← EventBuilder.validateStructure_build_iff sha256 builder parentRounds]
  constructor
  · rintro ⟨hevent, -, hbuilt, -⟩
    exact ⟨hevent, hbuilt⟩
  · rintro ⟨hevent, hbuilt⟩
    exact ⟨hevent, GossipProtocol.neverRejected_of_validateStructure hevent, hbuilt,
      GossipProtocol.neverRejected_of_validateStructure hbuilt⟩

namespace FullNode

/-- The event of the second turn, on the one of the first.
Kind: D -/
def secondEvent : DagEvent where
  id := lateStartSha256 (idInput ⟨(sampleKey false).publicKey⟩ 2 [firstEvent.id])
  creator := ⟨(sampleKey false).publicKey⟩
  lamportTime := 2
  round := 2
  strongParents := [firstEvent.id]
  weakParents := []
  payload := .empty
  signature := .fill 96 0

end FullNode

/-- The second event of a node, and one built on its first event, are accepted. Kind: L -/
theorem second_event_accepted :
    let builder := (EventBuilder.new FullNode.firstEvent.creator).addStrongParent
      FullNode.firstEvent.id 1
    GossipProtocol.NeverRejected FullNode.secondEvent ∧
      GossipProtocol.NeverRejected (builder.build lateStartSha256 [1]).1 := by
  intro builder
  have hdag : (FullNode.firstNode.produce lateStartSha256).2.dag =
      DagStore.ofEvents [FullNode.firstEvent] :=
    (FullNode.produce_eq_some FullNode.produce_firstNode).1
  have hcreated : (FullNode.firstNode.produce lateStartSha256).2.createEvent lateStartSha256 =
      (some FullNode.secondEvent,
        ((FullNode.firstNode.produce lateStartSha256).2.createEvent lateStartSha256).2) :=
    Prod.ext (by decide +kernel) rfl
  have haccepted := (produced_events_accepted_iff lateStartSha256 _ _ _ hdag _ hcreated builder
    [1]).mpr ⟨⟨by simp, by decide +kernel, by decide +kernel⟩, by decide +kernel⟩
  exact ⟨haccepted.2.1, haccepted.2.2.2⟩

/-- **The first event of a node is rejected.** On an empty store it has no parents and is not at
round 0. The peer that passes it on loses ten points. The builder does the same without parents.
Kind: P -/
theorem first_event_rejected :
    let sender : PeerId := .fill 32 2
    let peers : PeerManager := ⟨(∅ : HashMap PeerId PeerInfo).insert sender ⟨sender, .connected, 0⟩⟩
    let receiver := GossipProtocol.new (.fill 32 1) peers .new .default
    let after := receiver.handleEventResponse sender ⟨[FullNode.firstEvent], []⟩
    (FullNode.firstNode.createEvent lateStartSha256).1 = some FullNode.firstEvent ∧
      FullNode.firstEvent.validateStructure = .error .noParents ∧
      after.dag.get FullNode.firstEvent.id = none ∧
      (after.peers.peers.lookup sender).map (·.reputation) = some (-10) ∧
      ((EventBuilder.new FullNode.firstEvent.creator).build lateStartSha256
        []).1.validateStructure = .error .noParents := by
  decide +kernel

/-! ### The identity of created events -/

namespace FullNode

variable {sha256 : List UInt8 → Bytes 32}

/-- The bytes that `create_event` signs.
Source: `node/node.rs`, `signature` in `RytherNode::create_event`
Kind: D -/
def signedBytes (event : DagEvent) : List UInt8 := event.id.toList

/-- The signature of a new event is that of its id under the node's key. Kind: L -/
theorem signature_createEvent {node node' : FullNode} {event : DagEvent} {key : SecretKey}
    (hkey : node.validatorKey = some key) (h : node.createEvent sha256 = (some event, node')) :
    event.signature = key.sign (signedBytes event) := by
  obtain ⟨id, key', -, hkey', rfl, -⟩ := createEvent_eq_some h
  rw [hkey, Option.some.injEq] at hkey'
  rw [hkey']
  rfl

/-- The node with another store.
Kind: D -/
def withDag (node : FullNode) (dag : DagStore) : FullNode :=
  { node with gossip := { node.gossip with dag := dag } }

/-- The id of a created event is the canonical one, it is the same when the events of the last round
were inserted in another order, and the event signs its `signing_message`.
Kind: D -/
structure OneIdentity (sha256 : List UInt8 → Bytes 32) (node : FullNode) (event : DagEvent) :
    Prop where
  id_eq : event.id = DagEvent.computeId sha256 event.creator event.round event.payload.batchRoot
    event.strongParents
  id_eq_of_reordered : ∀ older last last' : List DagEvent,
    node.dag = DagStore.ofEvents (older ++ last) → (∀ e ∈ last, e.round = node.dag.maxRound) →
    last'.Perm last → ∀ event' node',
      (node.withDag (DagStore.ofEvents (older ++ last'))).createEvent sha256 =
        (some event', node') → event'.id = event.id
  signed_eq : signedBytes event = event.signingMessage

/-- **The id is not the canonical one.** The string that is hashed lacks the 32 bytes of the payload
root. Kind: P -/
theorem id_ne_computeId {node node' : FullNode} {event : DagEvent}
    (h : node.createEvent sha256 = (some event, node'))
    (hinj : InjectiveOn sha256 [idInput event.creator event.round event.strongParents,
      DagEvent.canonicalIdInput event.creator event.round event.payload.batchRoot
        event.strongParents]) :
    event.id ≠ DagEvent.computeId sha256 event.creator event.round event.payload.batchRoot
      event.strongParents := by
  have hid : event.id = sha256 (idInput event.creator event.round event.strongParents) := by
    obtain ⟨id, key, -, -, rfl, -⟩ := createEvent_eq_some h
    rfl
  intro heq
  rw [hid] at heq
  have hinput := hinj _ List.mem_cons_self _ (List.mem_cons_of_mem _ List.mem_cons_self) heq
  have hlen := congrArg List.length hinput
  have hsorted := (List.perm_insertionSort bytesLe event.strongParents).flatMap_right
    List.Vector.toList
  simp only [idInput, DagEvent.canonicalIdInput, List.length_append, List.Vector.toList_length,
    hsorted.length_eq] at hlen
  change _ + (event.strongParents.flatMap List.Vector.toList).length = _ at hlen
  omega

/-- **The signed bytes are not the signing message**, which is longer than the id. Kind: P -/
theorem signedBytes_ne_signingMessage (event : DagEvent) :
    signedBytes event ≠ event.signingMessage := by
  intro heq
  have hlen := congrArg List.length heq
  simp only [signedBytes, DagEvent.signingMessage, List.length_append, List.Vector.toList_length]
    at hlen
  omega

/-- The hashed bytes of an id determine the parents and their order. Kind: L -/
theorem idInput_eq_iff {creator : ValidatorId} {round : UInt64} {parents parents' : List EventId} :
    idInput creator round parents = idInput creator round parents' ↔ parents = parents' := by
  constructor
  · intro heq
    exact concat_injective (by decide) (List.append_cancel_left heq)
  · rintro rfl
    rfl

/-- The parents begin with the events of the highest round, in the order of their insertion.
Kind: L -/
theorem exists_parentsFor_eq_append {node : FullNode} {events : List DagEvent}
    (hdag : node.dag = DagStore.ofEvents events) (validatorId : ValidatorId) :
    ∃ selfParent, node.parentsFor validatorId =
      (events.filter fun e => e.round = node.dag.maxRound).map DagEvent.id ++ selfParent := by
  have hids : (node.dag.eventsAtRound node.dag.maxRound).map DagEvent.id =
      (events.filter fun e => e.round = node.dag.maxRound).map DagEvent.id := by
    rw [hdag]
    exact DagStore.map_id_eventsAtRound events _
  unfold parentsFor
  rw [← hids]
  cases node.dag.latestFrom validatorId with
  | none => exact ⟨[], (List.append_nil _).symm⟩
  | some id =>
      simp only
      split_ifs
      · exact ⟨[], (List.append_nil _).symm⟩
      · exact ⟨[id], rfl⟩

/-- **The id depends on the order of insertions.** Two orders of the events of the last round give
one id only if they list the ids in one order. Kind: P -/
theorem map_id_eq_of_id_eq {node node₁ node₂ : FullNode} {event event' : DagEvent}
    {older last last' : List DagEvent} (hdag : node.dag = DagStore.ofEvents (older ++ last))
    (hlast : ∀ e ∈ last, e.round = node.dag.maxRound) (hperm : last'.Perm last)
    (h : node.createEvent sha256 = (some event, node₁))
    (h' : (node.withDag (DagStore.ofEvents (older ++ last'))).createEvent sha256 =
      (some event', node₂))
    (hinj : InjectiveOn sha256 [idInput event.creator event.round event.strongParents,
      idInput event'.creator event'.round event'.strongParents]) (hid : event'.id = event.id) :
    last'.map DagEvent.id = last.map DagEvent.id := by
  have hround : (node.withDag (DagStore.ofEvents (older ++ last'))).dag.maxRound =
      node.dag.maxRound := by
    rw [hdag]
    exact DagStore.maxRound_eq_of_perm (hperm.append_left older)
  have hfilter : ∀ l : List DagEvent, (∀ e ∈ l, e.round = node.dag.maxRound) →
      l.filter (fun e => e.round = node.dag.maxRound) = l := fun l hl =>
    List.filter_eq_self.mpr fun e he => decide_eq_true (hl e he)
  have hlast' : ∀ e ∈ last', e.round = node.dag.maxRound := fun e he =>
    hlast e (hperm.mem_iff.mp he)
  obtain ⟨id, key, hvalidator, -, rfl, -⟩ := createEvent_eq_some h
  obtain ⟨id', key', hvalidator', -, rfl, -⟩ := createEvent_eq_some h'
  have hsame : id' = id := Option.some.inj (hvalidator'.symm.trans hvalidator)
  subst hsame
  simp only [hround] at hid hinj
  -- one id, one string, one list of parents
  have hinput := hinj _ (List.mem_cons_of_mem _ List.mem_cons_self) _ List.mem_cons_self hid
  have hparents := idInput_eq_iff.mp hinput
  obtain ⟨self, hself⟩ := exists_parentsFor_eq_append hdag id'
  have hdag' : (node.withDag (DagStore.ofEvents (older ++ last'))).dag =
      DagStore.ofEvents (older ++ last') := rfl
  obtain ⟨self', hself'⟩ := exists_parentsFor_eq_append hdag' id'
  rw [hself, hself', hround, List.filter_append, List.filter_append, hfilter last hlast,
    hfilter last' hlast', List.map_append, List.map_append] at hparents
  have hlen : ((older.filter fun e => e.round = node.dag.maxRound).map DagEvent.id ++
      last'.map DagEvent.id).length =
      ((older.filter fun e => e.round = node.dag.maxRound).map DagEvent.id ++
        last.map DagEvent.id).length := by
    rw [List.length_append, List.length_append, List.length_map, List.length_map, hperm.length_eq,
      List.length_map]
  exact List.append_cancel_left (List.append_inj hparents hlen).1

/-- A node with an id and a key creates an event. Kind: L -/
theorem exists_createEvent (sha256 : List UInt8 → Bytes 32) {node : FullNode}
    (hid : node.validatorId ≠ none) (hkey : node.validatorKey ≠ none) :
    ∃ event node', node.createEvent sha256 = (some event, node') := by
  obtain ⟨id, hid⟩ := Option.ne_none_iff_exists'.mp hid
  obtain ⟨key, hkey⟩ := Option.ne_none_iff_exists'.mp hkey
  unfold createEvent
  rw [hid, hkey]
  exact ⟨_, _, rfl⟩

/-- **No created event has one identity**, so the property is left to nodes that create no events.
All three parts fail: the signature is over the id alone; the id lacks the payload root; and the
events of the last round enter it in the order of their insertion. The last two take a hash function
without a collision on the two strings compared.
Source: `types/event.rs`, `DagEvent::compute_id` and `DagEvent::signing_message`
Kind: P -/
theorem oneIdentity_iff (sha256 : List UInt8 → Bytes 32) (node : FullNode) :
    ((∀ event node', node.createEvent sha256 = (some event, node') →
        OneIdentity sha256 node event) ↔
      node.validatorId = none ∨ node.validatorKey = none) ∧
    ∀ event node₁, node.createEvent sha256 = (some event, node₁) →
      (∀ key, node.validatorKey = some key → event.signature = key.sign (signedBytes event)) ∧
      signedBytes event ≠ event.signingMessage ∧
      (InjectiveOn sha256 [idInput event.creator event.round event.strongParents,
          DagEvent.canonicalIdInput event.creator event.round event.payload.batchRoot
            event.strongParents] →
        event.id ≠ DagEvent.computeId sha256 event.creator event.round event.payload.batchRoot
          event.strongParents) ∧
      ∀ older last last' : List DagEvent, node.dag = DagStore.ofEvents (older ++ last) →
        (∀ e ∈ last, e.round = node.dag.maxRound) → last'.Perm last → ∀ event' node₂,
        (node.withDag (DagStore.ofEvents (older ++ last'))).createEvent sha256 =
          (some event', node₂) →
        InjectiveOn sha256 [idInput event.creator event.round event.strongParents,
          idInput event'.creator event'.round event'.strongParents] →
        event'.id = event.id → last'.map DagEvent.id = last.map DagEvent.id := by
  refine ⟨⟨?_, ?_⟩, ?_⟩
  · intro hone
    by_contra hvalidator
    obtain ⟨hid, hkey⟩ := not_or.mp hvalidator
    obtain ⟨event, node', hcreated⟩ := exists_createEvent sha256 hid hkey
    exact signedBytes_ne_signingMessage event (hone event node' hcreated).signed_eq
  · intro hnone event node' hcreated
    obtain ⟨id, key, hid, hkey, -, -⟩ := createEvent_eq_some hcreated
    rcases hnone with hnone | hnone
    · rw [hnone] at hid
      cases hid
    · rw [hnone] at hkey
      cases hkey
  · intro event node₁ hcreated
    refine ⟨fun key hkey => signature_createEvent hkey hcreated,
      signedBytes_ne_signingMessage event, id_ne_computeId hcreated, ?_⟩
    intro older last last' hdag hlast hperm event' node₂ hcreated' hinj hid
    exact map_id_eq_of_id_eq hdag hlast hperm hcreated hcreated' hinj hid

/-- SHA-256 on the strings for an event on two events of round 1, in both orders and in the
canonical form.
Kind: D -/
def reorderedSha256 : List UInt8 → Bytes 32 :=
  let start := (sampleKey false).publicKey.toList ++ leBytes 8 2
  let one := (Bytes.fill 32 1).toList
  let two := (Bytes.fill 32 2).toList
  tableHash
    [(start ++ one ++ two,
        108902002868920468093812080394951515588786801560826605789209791206470614547767),
      (start ++ two ++ one,
        40023912126956238987986905341363929457726910635979719421659562269353563401769),
      (start ++ (Bytes.fill 32 0).toList ++ one ++ two,
        12570542230025681224196980761522754695565498002447296123845733451872978887473)]

/-- **Three ids for one event.** A node with the same two events of round 1, inserted in the two
orders, creates events with different ids, both different from `compute_id` of their contents. Each
signs its id, which is not its signing message. Kind: P -/
theorem three_ids_for_one_event :
    let one := makeEvent (fun _ => .fill 32 1) 1 1 [.fill 32 9]
    let two := makeEvent (fun _ => .fill 32 2) 2 1 [.fill 32 9]
    let created := fun events =>
      ((firstNode.withDag (DagStore.ofEvents events)).createEvent reorderedSha256).1
    let canonicalId := fun e : DagEvent =>
      DagEvent.computeId reorderedSha256 e.creator e.round e.payload.batchRoot e.strongParents
    let first := digest
      108902002868920468093812080394951515588786801560826605789209791206470614547767
    let second := digest
      40023912126956238987986905341363929457726910635979719421659562269353563401769
    let canonical := digest
      12570542230025681224196980761522754695565498002447296123845733451872978887473
    (created [one, two]).map (fun e => (e.id, canonicalId e)) = some (first, canonical) ∧
      (created [two, one]).map (fun e => (e.id, canonicalId e)) = some (second, canonical) ∧
      first ≠ second ∧ first ≠ canonical ∧ second ≠ canonical ∧
      (created [one, two]).map (fun e => decide (signedBytes e = e.signingMessage)) =
        some false := by
  decide +kernel

end FullNode

end Ryther
