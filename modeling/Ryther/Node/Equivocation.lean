import Ryther.Dag.Delivery
import Ryther.Node.Causality

/-!
# Own events of a node

A node creates events and inserts them while messages of any peers arrive. The round of a new event
is one above the highest in the store, and its self parent is the latest event of the node in the
store; both come from indices that every received event goes into, unchecked.

* `DagStore.Sound` — what any insertions leave true: no event is above the highest round, and the
  latest event of a creator is stored.
* `OwnChain` — the own events are stored as created, the last one is the latest of its creator, and
  each links to the one before. Kept by every insertion of an event that is not forged, and extended
  by a new event.
* `Producer.own_events_linked` — the rounds of own events increase and each reaches all earlier
  ones, in every run without forged events and without a store at the largest round.
* `Producer.forged_events_break_the_chain` — three runs where it fails.
-/

namespace Ryther

open Lib

/-! ### Stores under any insertions -/

namespace DagStore

variable {store : DagStore} {event : DagEvent}

/-- What holds of a store whatever is inserted.
Kind: D -/
structure Sound (store : DagStore) : Prop where
  round_le : ∀ {id e}, store.get id = some e → e.round ≤ store.maxRound
  latest_stored : ∀ {c id}, store.latestFrom c = some id → ∃ e, store.get id = some e

/-- Stored ids stay stored. Kind: L -/
theorem exists_get_insert {id : EventId} (h : ∃ e, store.get id = some e) :
    ∃ e, (store.insert event).get id = some e := by
  by_cases hid : id = event.id
  · exact ⟨event, by rw [hid, get_insert_self]⟩
  · rwa [get_insert_of_ne store hid]

/-- The latest event of a creator is the inserted one or the one before. Kind: L -/
theorem latestFrom_insert_cases (store : DagStore) (event : DagEvent) (c : ValidatorId) :
    (store.insert event).latestFrom c = store.latestFrom c ∨
      (store.insert event).latestFrom c = some event.id := by
  show (store.updateLatest event).lookup c = store.latestByCreator.lookup c ∨
    (store.updateLatest event).lookup c = some event.id
  by_cases hc : c = event.creator
  · subst hc
    unfold updateLatest
    split
    · split
      · split_ifs
        · exact .inr (AList.lookup_insert _)
        · exact .inl rfl
      · exact .inl rfl
    · exact .inr (AList.lookup_insert _)
  · exact .inl (lookup_updateLatest_ne store event hc)

/-- After an insertion the maximum is at least the old one and the round of the event. Kind: L -/
theorem le_maxRound_insert (store : DagStore) (event : DagEvent) :
    store.maxRound ≤ (store.insert event).maxRound ∧
      event.round ≤ (store.insert event).maxRound := by
  show store.maxRound ≤ max store.maxRound event.round ∧
    event.round ≤ max store.maxRound event.round
  rw [UInt64.le_iff_toNat_le, UInt64.le_iff_toNat_le, toNat_max]
  omega

/-- The empty store. Kind: L -/
theorem Sound.new : Sound DagStore.new where
  round_le h := by simp [DagStore.new, DagStore.get] at h
  latest_stored h := by simp [DagStore.new, DagStore.latestFrom] at h

/-- **Any insertion keeps a store sound.** Kind: L -/
theorem Sound.insert (h : store.Sound) (event : DagEvent) : (store.insert event).Sound where
  round_le {id e} hget := by
    obtain ⟨hold, hnew⟩ := le_maxRound_insert store event
    by_cases hid : id = event.id
    · rw [hid, get_insert_self] at hget
      cases hget
      exact hnew
    · rw [get_insert_of_ne store hid] at hget
      exact UInt64.le_trans (h.round_le hget) hold
  latest_stored {c id} hlatest := by
    rcases latestFrom_insert_cases store event c with hsame | hself
    · rw [hsame] at hlatest
      exact exists_get_insert (h.latest_stored hlatest)
    · rw [hself] at hlatest
      cases hlatest
      exact ⟨event, get_insert_self store event⟩

/-- An event above the highest round becomes the latest of its creator. Kind: L -/
theorem Sound.latestFrom_insert (h : store.Sound) (hround : store.maxRound < event.round) :
    (store.insert event).latestFrom event.creator = some event.id := by
  show (store.updateLatest event).lookup event.creator = some event.id
  unfold updateLatest
  cases hlatest : store.latestByCreator.lookup event.creator with
  | none => exact AList.lookup_insert _
  | some id =>
      obtain ⟨e, hget⟩ := h.latest_stored hlatest
      have hlt : event.round > e.round := UInt64.lt_of_le_of_lt (h.round_le hget) hround
      unfold get at hget
      simp only [hget, if_pos hlt]
      exact AList.lookup_insert _

/-- A stored latest event stays the latest if no later one of its creator comes. Kind: L -/
theorem latestFrom_insert_of_le {latest : DagEvent}
    (hlatest : store.latestFrom latest.creator = some latest.id)
    (hget : store.get latest.id = some latest)
    (hle : event.creator = latest.creator → event.round ≤ latest.round) :
    (store.insert event).latestFrom latest.creator = some latest.id := by
  by_cases hc : latest.creator = event.creator
  · show (store.updateLatest event).lookup latest.creator = some latest.id
    unfold latestFrom at hlatest
    unfold get at hget
    unfold updateLatest
    rw [← hc, hlatest]
    simp only [hget, if_neg (UInt64.not_lt.mpr (hle hc.symm))]
    exact hlatest
  · exact (lookup_updateLatest_ne store event hc).trans hlatest

end DagStore

/-! ### The chain of own events -/

/-- The bytes whose digest an own event has as its id.
Kind: D -/
def DagEvent.idInput (event : DagEvent) : List UInt8 :=
  FullNode.idInput event.creator event.round event.strongParents

/-- The bytes tell the rounds of one creator's events apart. Kind: L -/
theorem DagEvent.round_eq_of_idInput_eq {e e' : DagEvent} (h : e.idInput = e'.idInput) :
    e.round = e'.round := by
  unfold idInput FullNode.idInput at h
  rw [List.append_assoc, List.append_assoc] at h
  obtain ⟨-, hrest⟩ := selfDelimiting_validatorId h
  exact (selfDelimiting_u64 hrest).1

/-- An event that is not forged, for a node with the given own events: it is no other event under
the id of an own one, and none of the node's that is later than its last.
Kind: D -/
def Unforged (own : List DagEvent) (event : DagEvent) : Prop :=
  (∀ e ∈ own, event.id = e.id → event = e) ∧
    ∀ last ∈ own.getLast?, event.creator = last.creator → event.round ≤ last.round

/-- The own events in the store.
Kind: D -/
structure OwnChain (sha256 : List UInt8 → Bytes 32) (validatorId : Option ValidatorId)
    (store : DagStore) (own : List DagEvent) : Prop where
  sound : store.Sound
  creator_eq : ∀ e ∈ own, validatorId = some e.creator
  id_eq : ∀ e ∈ own, e.id = sha256 e.idInput
  stored : ∀ e ∈ own, store.get e.id = some e
  latest : ∀ last ∈ own.getLast?, store.latestFrom last.creator = some last.id
  linked : own.IsChain fun e e' => e.round < e'.round ∧ e.id ∈ e'.strongParents

namespace OwnChain

variable {sha256 : List UInt8 → Bytes 32} {validatorId : Option ValidatorId} {store : DagStore}
  {own : List DagEvent} {event : DagEvent}

/-- Before the first own event. Kind: L -/
theorem new : OwnChain sha256 validatorId .new [] where
  sound := .new
  creator_eq _ h := by cases h
  id_eq _ h := by cases h
  stored _ h := by cases h
  latest _ h := by cases h
  linked := .nil

/-- **A received event that is not forged leaves the chain.** Kind: L -/
theorem insert (h : OwnChain sha256 validatorId store own) (hunforged : Unforged own event) :
    OwnChain sha256 validatorId (store.insert event) own where
  sound := h.sound.insert event
  creator_eq := h.creator_eq
  id_eq := h.id_eq
  stored e he := by
    by_cases hid : e.id = event.id
    · rw [hid, DagStore.get_insert_self, hunforged.1 e he hid.symm]
    · rw [DagStore.get_insert_of_ne store hid, h.stored e he]
  latest last hlast :=
    DagStore.latestFrom_insert_of_le (h.latest last hlast)
      (h.stored last (List.mem_of_getLast? hlast)) (hunforged.2 last hlast)
  linked := h.linked

/-- Inserting events that no one forged keeps the chain of own events. Kind: L -/
theorem foldl_insert {events : List DagEvent} (hunforged : ∀ event ∈ events, Unforged own event) :
    ∀ {store}, OwnChain sha256 validatorId store own →
      OwnChain sha256 validatorId (events.foldl DagStore.insert store) own := by
  induction events with
  | nil => exact fun h => h
  | cons event events ih =>
      intro store h
      rw [List.forall_mem_cons] at hunforged
      exact ih hunforged.2 (h.insert hunforged.1)

/-- An earlier own event with the id of a new one would have its round. Kind: L -/
theorem id_ne (h : OwnChain sha256 validatorId store own) (hid : event.id = sha256 event.idInput)
    (hround : store.maxRound < event.round)
    (hinj : InjectiveOn sha256 ((own ++ [event]).map DagEvent.idInput)) :
    ∀ e ∈ own, e.id ≠ event.id := by
  intro e he heq
  rw [h.id_eq e he, hid] at heq
  have hinput : e.idInput = event.idInput := by
    apply hinj _ _ _ _ heq
    · exact List.mem_map_of_mem (List.mem_append_left _ he)
    · exact List.mem_map_of_mem (List.mem_append_right _ List.mem_cons_self)
  have hle := h.sound.round_le (h.stored e he)
  rw [DagEvent.round_eq_of_idInput_eq hinput] at hle
  exact UInt64.not_le.mpr hround hle

/-- **A new event extends the chain** if it is above the highest round, has the latest own event as
a parent, and its id does not collide with that of an earlier own event. Kind: L -/
theorem concat (h : OwnChain sha256 validatorId store own)
    (hcreator : validatorId = some event.creator) (hid : event.id = sha256 event.idInput)
    (hround : store.maxRound < event.round)
    (hparent : ∀ id, store.latestFrom event.creator = some id → id ∈ event.strongParents)
    (hinj : InjectiveOn sha256 ((own ++ [event]).map DagEvent.idInput)) :
    OwnChain sha256 validatorId (store.insert event) (own ++ [event]) where
  sound := h.sound.insert event
  creator_eq := List.forall_mem_append.mpr ⟨h.creator_eq, List.forall_mem_singleton.mpr hcreator⟩
  id_eq := List.forall_mem_append.mpr ⟨h.id_eq, List.forall_mem_singleton.mpr hid⟩
  stored := by
    refine List.forall_mem_append.mpr ⟨fun e he => ?_, List.forall_mem_singleton.mpr ?_⟩
    · rw [DagStore.get_insert_of_ne store (h.id_ne hid hround hinj e he), h.stored e he]
    · exact DagStore.get_insert_self store event
  latest last hlast := by
    rw [List.getLast?_concat] at hlast
    cases hlast
    exact h.sound.latestFrom_insert hround
  linked := by
    refine List.isChain_append.mpr ⟨h.linked, .singleton event, ?_⟩
    rintro last hlast _ ⟨⟩
    have hmem := List.mem_of_getLast? hlast
    have hsame : last.creator = event.creator :=
      Option.some.inj ((h.creator_eq last hmem).symm.trans hcreator)
    refine ⟨UInt64.lt_of_le_of_lt (h.sound.round_le (h.stored last hmem)) hround, ?_⟩
    apply hparent
    rw [← hsame]
    exact h.latest last hlast

/-- **Rounds and reachability along the chain.** Kind: L -/
theorem pairwise (h : OwnChain sha256 validatorId store own) :
    own.Pairwise fun e e' => e.round < e'.round ∧ store.canReach e'.id e.id = true := by
  have : Trans (fun e e' : DagEvent => e.round < e'.round ∧ store.canReach e'.id e.id = true)
      (fun e e' : DagEvent => e.round < e'.round ∧ store.canReach e'.id e.id = true)
      (fun e e' : DagEvent => e.round < e'.round ∧ store.canReach e'.id e.id = true) := by
    refine ⟨fun {a b c} hab hbc => ⟨UInt64.lt_trans hab.1 hbc.1, ?_⟩⟩
    simp only [DagStore.canReach_iff] at hab hbc ⊢
    exact Relation.ReflTransGen.trans hbc.2 hab.2
  refine List.isChain_iff_pairwise.mp (h.linked.imp_of_mem_imp fun e e' _ he' hlink => ?_)
  refine ⟨hlink.1, (DagStore.canReach_iff _ _ _).mpr (.single ?_)⟩
  have hget := h.stored e' he'
  unfold DagStore.get at hget
  unfold DagStore.strongParentsOf
  rw [hget]
  exact hlink.2

end OwnChain

/-! ### Runs of a node -/

/-- A node with the events it has created, the last one at the end.
Kind: D -/
structure Producer where
  node : FullNode
  own : List DagEvent

/-- A step of a node: it creates an event and inserts it, or its gossip protocol acts, for example
on a message.
Kind: D -/
inductive NodeStep where
  | produce
  | gossip (op : GossipOp)

namespace Producer

/-- A new node.
Kind: D -/
def new (config : NodeConfig) (peerId : PeerId) (key : Option SecretKey) : Producer :=
  ⟨.new config peerId key, []⟩

variable (sha256 : List UInt8 → Bytes 32)

/-- The producer after one step, with the events it has made. Kind: D -/
def step (p : Producer) : NodeStep → Producer
  | .produce => ⟨(p.node.produce sha256).2, p.own ++ (p.node.produce sha256).1.toList⟩
  | .gossip op => { p with node := { p.node with gossip := p.node.gossip.step op } }

/-- The producer after some steps, in their order. Kind: D -/
def run (p : Producer) (steps : List NodeStep) : Producer := steps.foldl (step sha256) p

/-- The store is not at the largest round when an event is created, and received events are not
forged.
Kind: D -/
def Guarded (p : Producer) : NodeStep → Prop
  | .produce => p.node.dag.maxRound ≠ u64Max
  | .gossip op => ∀ event ∈ p.node.gossip.inserts op, Unforged p.own event

/-- All steps of a run.
Kind: D -/
def GuardedRun (p : Producer) : List NodeStep → Prop
  | [] => True
  | step :: steps => p.Guarded step ∧ (p.step sha256 step).GuardedRun steps

instance (own : List DagEvent) (event : DagEvent) : Decidable (Unforged own event) :=
  inferInstanceAs (Decidable (_ ∧ _))

instance (p : Producer) (step : NodeStep) : Decidable (p.Guarded step) :=
  match step with
  | .produce => inferInstanceAs (Decidable (p.node.dag.maxRound ≠ u64Max))
  | .gossip op => inferInstanceAs (Decidable (∀ event ∈ p.node.gossip.inserts op, _))

instance decidableGuardedRun :
    ∀ (p : Producer) (steps : List NodeStep), Decidable (p.GuardedRun sha256 steps)
  | _, [] => inferInstanceAs (Decidable True)
  | p, step :: steps =>
      have := decidableGuardedRun (p.step sha256 step) steps
      inferInstanceAs (Decidable (_ ∧ _))

/-- The chain of the own events in the node's store.
Kind: D -/
abbrev Chained (p : Producer) : Prop := OwnChain sha256 p.node.validatorId p.node.dag p.own

variable {sha256}

/-- Own events stay own events. Kind: L -/
theorem own_subset_run (p : Producer) (steps : List NodeStep) :
    ∀ e ∈ p.own, e ∈ (p.run sha256 steps).own := by
  induction steps generalizing p with
  | nil => exact fun _ he => he
  | cons step steps ih =>
      intro e he
      apply ih (p.step sha256 step)
      cases step with
      | produce => exact List.mem_append_left _ he
      | gossip op => exact he

/-- **A guarded step keeps the chain**, if ids do not collide. Kind: L -/
theorem Chained.step {p : Producer} (h : p.Chained sha256) {step : NodeStep}
    (hguard : p.Guarded step)
    (hinj : InjectiveOn sha256 ((p.step sha256 step).own.map DagEvent.idInput)) :
    (p.step sha256 step).Chained sha256 := by
  cases step with
  | gossip op =>
      show OwnChain sha256 p.node.validatorId (p.node.gossip.step op).dag p.own
      rw [GossipProtocol.dag_step]
      exact OwnChain.foldl_insert hguard h
  | produce =>
      rcases p.node.produce_cases sha256 with hnone | ⟨event, node', hcreate, hproduce⟩
      · have hstep : p.step sha256 .produce = p := by
          show Producer.mk (p.node.produce sha256).2 _ = p
          rw [hnone, Option.toList_none, List.append_nil]
        rw [hstep]
        exact h
      · obtain ⟨id, key, hid, -, hevent, rfl⟩ := FullNode.createEvent_eq_some hcreate
        have hown : (p.step sha256 .produce).own = p.own ++ [event] := by
          show p.own ++ (p.node.produce sha256).1.toList = _
          rw [hproduce, Option.toList_some]
        have hnode : (p.step sha256 .produce).node = _ := congrArg Prod.snd hproduce
        rw [hown] at hinj
        unfold Chained
        rw [hown, hnode]
        have hround : p.node.dag.maxRound < event.round := by
          rw [hevent, UInt64.lt_iff_toNat_lt, toNat_succ hguard]
          exact Nat.lt_succ_self _
        have heventId : event.id = sha256 event.idInput := by
          rw [hevent]
          rfl
        have hcreator : p.node.validatorId = some event.creator := by rw [hid, hevent]
        apply OwnChain.concat h hcreator heventId hround _ hinj
        intro latest hlatest
        rw [hevent] at hlatest ⊢
        exact FullNode.mem_parentsFor.mpr (.inr hlatest)

/-- A guarded run keeps the chain. By induction on the steps. Kind: L -/
theorem Chained.run {steps : List NodeStep} :
    ∀ {p : Producer}, p.Chained sha256 → p.GuardedRun sha256 steps →
      InjectiveOn sha256 ((p.run sha256 steps).own.map DagEvent.idInput) →
      (p.run sha256 steps).Chained sha256 := by
  induction steps with
  | nil => exact fun h _ _ => h
  | cons step steps ih =>
      rintro p h ⟨hguard, hrest⟩ hinj
      refine ih (h.step hguard (hinj.mono ?_)) hrest hinj
      intro input hinput
      obtain ⟨e, he, rfl⟩ := List.mem_map.mp hinput
      exact List.mem_map_of_mem (own_subset_run _ steps e he)

/-- **An undisturbed node never equivocates.** The node starts new and takes any steps; when it
creates an event its store is not at the largest round, and what it receives is not forged. `sha256`
does not collide on the own events of the run.
Source: `node/node.rs`, `RytherNode::create_event`; `dag/store.rs`, `DagStore::insert`
Kind: P -/
theorem own_events_linked (sha256 : List UInt8 → Bytes 32) (config : NodeConfig) (peerId : PeerId)
    (key : Option SecretKey) (steps : List NodeStep)
    (hguard : (new config peerId key).GuardedRun sha256 steps)
    (hinj : InjectiveOn sha256
      (((new config peerId key).run sha256 steps).own.map DagEvent.idInput)) :
    let p := (new config peerId key).run sha256 steps
    p.own.Pairwise fun e e' =>
      e.round < e'.round ∧ p.node.dag.canReach e'.id e.id = true := by
  intro p
  have hstart : (new config peerId key).Chained sha256 := OwnChain.new
  exact (hstart.run hguard hinj).pairwise

end Producer

/-! ### Forged events -/

/-- The SHA-256 digest of the word forged.
Kind: D -/
def forgedId : EventId :=
  digest 92662660712584904673762634557517030733618478466483786652988848909538758666800

/-- The first event of the first sample node.
Kind: D -/
def firstId : EventId :=
  digest 70824339771253112706814987694565947985886971693749282963225282061611819420712

/-- The second event of the first sample node, when nothing else arrives.
Kind: D -/
def secondId : EventId :=
  digest 21994128948409645680810025386259058952679692160078189216248636072940288405201

/-- The digests of SHA-256 for these events and for one after each response below.
Kind: D -/
def forgedSha256 (data : List UInt8) : Bytes 32 :=
  let key : List UInt8 := (sampleKey false).publicKey.toList
  if data = key ++ leBytes 8 1 then firstId
  else if data = key ++ leBytes 8 2 ++ firstId.toList then secondId
  else tableHash
    [(key ++ leBytes 8 2 ++ firstId.toList ++ forgedId.toList,
        9308280323576875485631662732316136522900506268043757760968786670350958680355),
      (key ++ leBytes 8 0 ++ forgedId.toList ++ firstId.toList,
        24821802207800829192926604092048929015088406178884816981830223112460622195719),
      (key ++ leBytes 8 6 ++ forgedId.toList,
        2775302257407173251620619405788297928269245766811140620543054673009438726439),
      (key ++ leBytes 8 3 ++ secondId.toList ++ secondId.toList,
        46159244776456953763292247370114708799506751795561659041863265684127666400486)] data

/-- A peer's response with one event, structurally valid for a positive round.
Kind: D -/
def respondWith (id : EventId) (creator : Bool) (round : UInt64) : NodeStep :=
  .gossip (.message 0 (.fill 16 0) ⟨1, .fill 16 1, .fill 32 1, .eventResponse
    ⟨[⟨id, ⟨(sampleKey creator).publicKey⟩, 1, round, [.fill 32 9], [], .empty, .fill 96 0⟩], []⟩⟩)

namespace Producer

/-- The rounds of the own events, each with the rounds of the own events it reaches.
Kind: D -/
def reachedRounds (p : Producer) : List (UInt64 × List UInt64) :=
  p.own.map fun e =>
    (e.round, (p.own.filter fun e' => p.node.dag.canReach e.id e'.id).map (·.round))

/-- An event of another creator at round 1 between two own events. Kind: P -/
theorem own_events_linked_around_peer :
    let steps := [.produce, respondWith forgedId true 1, .produce]
    let p := (new ⟨⟨[]⟩⟩ (.fill 32 0) (some (sampleKey false))).run forgedSha256 steps
    p.own.map (·.round) = [1, 2] ∧
      p.own.Pairwise fun e e' =>
        e.round < e'.round ∧ p.node.dag.canReach e'.id e.id = true := by
  refine ⟨by decide +kernel, own_events_linked forgedSha256 ⟨⟨[]⟩⟩ (.fill 32 0)
    (some (sampleKey false)) [.produce, respondWith forgedId true 1, .produce] ?_ ?_⟩
  · decide +kernel
  · decide +kernel

/-- **Forged events break the chain.** After an event of another creator at the largest round, the
next own event has round 0. After an event in the node's name at round 5, it does not reach the one
before. After an event under the id of the second own event, the second and the third do not reach
the first. Kind: P -/
theorem forged_events_break_the_chain :
    let p := new ⟨⟨[]⟩⟩ (.fill 32 0) (some (sampleKey false))
    (p.run forgedSha256 [.produce, respondWith forgedId true u64Max, .produce]).reachedRounds =
        [(1, [1]), (0, [1, 0])] ∧
      (p.run forgedSha256 [.produce, respondWith forgedId false 5, .produce]).reachedRounds =
        [(1, [1]), (6, [6])] ∧
      (p.run forgedSha256
          [.produce, .produce, respondWith secondId true 2, .produce]).reachedRounds =
        [(1, [1]), (2, [2]), (3, [2, 3])] := by
  decide +kernel

end Producer

end Ryther
