import Ryther.Dag.Indices
import Ryther.Node.Equivocation

/-!
# Repeated insertions

An event reaches the store of a node several times: the block producer inserts an own event, and
`broadcast_event` of `src/network/gossip.rs` inserts it again. Of the five maps of the store only
the list of a round takes notice.

* `DagStore.SameAnswers` — the lookups of two stores, for one creator and one round.
* `DagStore.eventsAtRound_insert_stored` — a stored event is listed once more.
* `FullNode.broadcast` — what `broadcast_event` does to the node.
* `FullNode.insert_again_iff` — which lookups a repeated insertion leaves alone; an own event is
  listed twice after the turn that creates it, and twice among the parents of the next one.
-/

namespace Ryther

open Lib

namespace DagStore

variable {store : DagStore} {event : DagEvent}

/-- Two stores answer alike: the lookups by id and the search for all arguments, those by creator
and round for one creator and one round, the events of a round as a list.
Kind: D -/
structure SameAnswers (store store' : DagStore) (creator : ValidatorId) (round : UInt64) :
    Prop where
  get_eq : ∀ id, store'.get id = store.get id
  eventAt_eq : store'.eventAt creator round = store.eventAt creator round
  latestFrom_eq : store'.latestFrom creator = store.latestFrom creator
  maxRound_eq : store'.maxRound = store.maxRound
  len_eq : store'.len = store.len
  canReach_eq : ∀ source target, store'.canReach source target = store.canReach source target
  eventsAtRound_eq : store'.eventsAtRound round = store.eventsAtRound round

/-! ### A stored event once more -/

section Stored

variable (hstored : store.get event.id = some event)
include hstored

/-- Inserting a stored event again changes what is found under no id. Kind: L -/
theorem get_insert_stored (id : EventId) : (store.insert event).get id = store.get id := by
  by_cases hid : id = event.id
  · rw [hid, get_insert_self, hstored]
  · exact get_insert_of_ne store hid

/-- Inserting a stored event again leaves the map of the events. Kind: L -/
theorem lookup_insert_stored : (store.insert event).events.lookup = store.events.lookup :=
  funext (get_insert_stored hstored)

/-- Inserting a stored event again does not count it twice. Kind: L -/
theorem len_insert_stored : (store.insert event).len = store.len := by
  have hmem : event.id ∈ store.events := by
    by_contra hmem
    have hnone : store.events.lookup event.id = none := AList.lookup_eq_none.mpr hmem
    rw [get, hnone] at hstored
    cases hstored
  unfold len insert
  rw [length_keys_insert, if_pos hmem]

/-- Inserting a stored event again changes no path. Kind: L -/
theorem canReach_insert_stored (source target : EventId) :
    (store.insert event).canReach source target = store.canReach source target := by
  have hlink : (store.insert event).Link = store.Link := by
    funext id parent
    unfold Link
    rw [get_insert_stored hstored]
  rw [Bool.eq_iff_iff, canReach_iff_link, canReach_iff_link, hlink]

/-- **The list of its round grows.** Kind: P -/
theorem eventsAtRound_insert_stored :
    (store.insert event).eventsAtRound event.round =
      store.eventsAtRound event.round ++ [event] := by
  have hsingle : store.events.lookup event.id = some event := hstored
  unfold eventsAtRound
  rw [lookup_insert_stored hstored]
  simp [insert, hsingle]

/-- Inserting a stored event again leaves the lists of the other rounds. Kind: L -/
theorem eventsAtRound_insert_stored_ne {round : UInt64} (h : round ≠ event.round) :
    (store.insert event).eventsAtRound round = store.eventsAtRound round := by
  unfold eventsAtRound
  rw [lookup_insert_stored hstored]
  simp [insert, AList.lookup_insert_ne h]

/-- Inserting a stored event again leaves the events of the other rounds. Kind: L -/
theorem eventAt_insert_stored_ne {round : UInt64} (h : round ≠ event.round)
    (creator : ValidatorId) :
    (store.insert event).eventAt creator round = store.eventAt creator round := by
  have hkey : (creator, round) ≠ (event.creator, event.round) := fun heq =>
    h (congrArg Prod.snd heq)
  unfold eventAt
  rw [lookup_insert_stored hstored]
  simp [insert, AList.lookup_insert_ne hkey]

/-- The latest event of the creator stays unless an event of a lower round is stored under its id.
Kind: L -/
theorem latestFrom_insert_stored_iff {latest : EventId} {existing : DagEvent}
    (hlatest : store.latestFrom event.creator = some latest)
    (hexisting : store.get latest = some existing) :
    (store.insert event).latestFrom event.creator = store.latestFrom event.creator ↔
      event.round ≤ existing.round := by
  have hlatest' : store.latestByCreator.lookup event.creator = some latest := hlatest
  have hexisting' : store.events.lookup latest = some existing := hexisting
  show (store.updateLatest event).lookup event.creator = store.latestByCreator.lookup _ ↔ _
  unfold updateLatest
  simp only [hlatest', hexisting']
  split_ifs with hgt
  · rw [AList.lookup_insert, Option.some.injEq]
    apply iff_of_false
    · -- an event that is its own latest is not of a higher round than itself
      rintro rfl
      rw [hstored, Option.some.injEq] at hexisting
      subst hexisting
      exact UInt64.lt_irrefl _ hgt
    · exact UInt64.not_le.mpr hgt
  · exact iff_of_true hlatest' (UInt64.not_lt.mp hgt)

end Stored

/-- A creator with an event has a latest one. Kind: L -/
theorem exists_latestFrom {events : List DagEvent} {e : DagEvent} (he : e ∈ events) :
    ∃ latest, (ofEvents events).latestFrom e.creator = some latest := by
  induction events using List.reverseRecOn with
  | nil => cases he
  | append_singleton events event ih =>
      rw [ofEvents_concat]
      rcases latestFrom_insert_cases (ofEvents events) event e.creator with hsame | hself
      · rcases List.mem_append.mp he with he | he
        · rw [hsame]
          exact ih he
        · -- the first event of a creator is added
          rw [List.mem_singleton.mp he] at hsame ⊢
          cases hold : (ofEvents events).latestFrom event.creator with
          | some latest => exact ⟨latest, by rw [hsame, hold]⟩
          | none =>
              have hadded : ((ofEvents events).updateLatest event).lookup event.creator =
                  some event.id := by
                have hold' : (ofEvents events).latestByCreator.lookup event.creator = none := hold
                unfold updateLatest
                rw [hold']
                exact AList.lookup_insert _
              exact ⟨event.id, hadded⟩
      · exact ⟨event.id, hself⟩

/-- Any sequence of insertions leaves a sound store. Kind: L -/
theorem sound_ofEvents (events : List DagEvent) : (ofEvents events).Sound := by
  induction events using List.reverseRecOn with
  | nil => exact .new
  | append_singleton events event ih =>
      rw [ofEvents_concat]
      exact ih.insert event

/-- **Which lookups a repeated insertion leaves alone**: those of another round, and the latest
event of the creator unless an event of a lower round is stored under its id. Kind: L -/
theorem sameAnswers_insert_stored_iff {events : List DagEvent}
    (hstored : (ofEvents events).get event.id = some event) (creator : ValidatorId)
    (round : UInt64) :
    SameAnswers (ofEvents events) ((ofEvents events).insert event) creator round ↔
      round ≠ event.round ∧
        (creator = event.creator → ∀ latest existing,
          (ofEvents events).latestFrom creator = some latest →
          (ofEvents events).get latest = some existing → event.round ≤ existing.round) := by
  have hsound := sound_ofEvents events
  have hmem : event ∈ events := ((indexed_ofEvents events).events_sound _ _ hstored).1
  constructor
  · intro hsame
    refine ⟨?_, ?_⟩
    · rintro rfl
      have hlist := hsame.eventsAtRound_eq
      rw [eventsAtRound_insert_stored hstored] at hlist
      have hlen := congrArg List.length hlist
      simp at hlen
    · rintro rfl latest existing hlatest hexisting
      exact (latestFrom_insert_stored_iff hstored hlatest hexisting).mp hsame.latestFrom_eq
  · rintro ⟨hround, hlatest⟩
    refine ⟨get_insert_stored hstored, eventAt_insert_stored_ne hstored hround creator, ?_, ?_,
      len_insert_stored hstored, canReach_insert_stored hstored,
      eventsAtRound_insert_stored_ne hstored hround⟩
    · by_cases hcreator : creator = event.creator
      · subst hcreator
        obtain ⟨latest, hlook⟩ := exists_latestFrom hmem
        obtain ⟨existing, hexisting⟩ := hsound.latest_stored hlook
        exact (latestFrom_insert_stored_iff hstored hlook hexisting).mpr
          (hlatest rfl latest existing hlook hexisting)
      · exact lookup_updateLatest_ne _ event hcreator
    · show max (ofEvents events).maxRound event.round = (ofEvents events).maxRound
      apply UInt64.toNat_inj.mp
      rw [toNat_max]
      exact max_eq_left (UInt64.le_iff_toNat_le.mp (hsound.round_le hstored))

end DagStore

/-! ### The turn of the block producer -/

namespace FullNode

variable {sha256 : List UInt8 → Bytes 32}

/-- The second part of a turn of the block producer: the event is broadcast.
Source: `node/node.rs`, `RytherNode::start_block_producer`
Kind: D -/
def broadcast (node : FullNode) (drawnIds : ℕ → Bytes 16) (event : DagEvent) : FullNode :=
  { node with gossip := (node.gossip.broadcastEvent drawnIds event).2 }

/-- A broadcast inserts the event into the node's own DAG. Kind: L -/
@[simp] theorem dag_broadcast (node : FullNode) (drawnIds : ℕ → Bytes 16) (event : DagEvent) :
    (node.broadcast drawnIds event).dag = node.dag.insert event := rfl

/-- What a turn does to the store before the broadcast. Kind: L -/
theorem produce_eq_some {node node' : FullNode} {own : DagEvent}
    (h : node.produce sha256 = (some own, node')) :
    node'.dag = node.dag.insert own ∧ node'.validatorId = some own.creator ∧
      own.round = node.dag.maxRound + 1 := by
  rcases produce_cases sha256 node with hnone | ⟨event, created, hcreate, hproduce⟩
  · rw [hnone] at h
    cases h
  · rw [hproduce] at h
    cases h
    obtain ⟨id, key, hid, -, rfl, rfl⟩ := createEvent_eq_some hcreate
    exact ⟨rfl, hid, rfl⟩

/-- An event inserted twice is listed at least twice. Kind: L -/
theorem two_le_count_eventsAtRound (store : DagStore) (own : DagEvent) :
    2 ≤ (((store.insert own).insert own).eventsAtRound own.round).count own := by
  have hstored := DagStore.get_insert_self store own
  have hlisted : own ∈ (store.insert own).eventsAtRound own.round := by
    unfold DagStore.eventsAtRound
    refine List.mem_filterMap.mpr ⟨own.id, ?_, hstored⟩
    simp [DagStore.insert]
  have hpos := List.count_pos_iff.mpr hlisted
  rw [DagStore.eventsAtRound_insert_stored hstored, List.count_append, List.count_singleton_self]
  omega

/-- The parents of a node at the highest round list every event of it as often as the round does.
Kind: L -/
theorem count_le_count_parentsFor (node : FullNode) (validatorId : ValidatorId) (e : DagEvent) :
    (node.dag.eventsAtRound node.dag.maxRound).count e ≤
      (node.parentsFor validatorId).count e.id := by
  have hmap := List.count_le_count_map (l := node.dag.eventsAtRound node.dag.maxRound)
    (f := DagEvent.id) (x := e)
  refine hmap.trans ?_
  unfold parentsFor
  cases node.dag.latestFrom validatorId with
  | none => exact le_refl _
  | some selfParent =>
      simp only
      split_ifs
      · exact le_refl _
      · rw [List.count_append]
        exact Nat.le_add_right _ _

/-- **What a repeated insertion changes.** For a stored event, the lookups of one creator and one
round are unchanged exactly if the round is another one and the latest event of the creator is not
stored with a lower round. An own event is inserted by the producer and by the broadcast, so it is
never listed once, and not among the parents of the next own event once.
Source: `node/node.rs`, `RytherNode::start_block_producer`
Kind: P -/
theorem insert_again_iff (events : List DagEvent) (event : DagEvent)
    (hstored : (DagStore.ofEvents events).get event.id = some event) (creator : ValidatorId)
    (round : UInt64) (node node' : FullNode) (own : DagEvent)
    (hown : node.produce sha256 = (some own, node')) (drawnIds : ℕ → Bytes 16) :
    (DagStore.SameAnswers (DagStore.ofEvents events) ((DagStore.ofEvents events).insert event)
        creator round ↔
      round ≠ event.round ∧
        (creator = event.creator → ∀ latest existing,
          (DagStore.ofEvents events).latestFrom creator = some latest →
          (DagStore.ofEvents events).get latest = some existing →
          event.round ≤ existing.round)) ∧
      ((node'.broadcast drawnIds own).dag.eventsAtRound own.round).count own ≠ 1 ∧
      (node.dag.maxRound ≠ u64Max → ∀ next after,
        (node'.broadcast drawnIds own).createEvent sha256 = (some next, after) →
        next.strongParents.count own.id ≠ 1) := by
  obtain ⟨hdag, hid, hround⟩ := produce_eq_some hown
  have hlisted : 2 ≤ ((node'.broadcast drawnIds own).dag.eventsAtRound own.round).count own := by
    rw [dag_broadcast, hdag]
    exact two_le_count_eventsAtRound node.dag own
  refine ⟨DagStore.sameAnswers_insert_stored_iff hstored creator round, ?_, ?_⟩
  · intro hone
    omega
  · intro hmax next after hnext hone
    -- the new event is at the highest round, so the next event has its round as parents
    have htop : (node'.broadcast drawnIds own).dag.maxRound = own.round := by
      rw [dag_broadcast, hdag]
      show max (max node.dag.maxRound own.round) own.round = own.round
      apply UInt64.toNat_inj.mp
      rw [toNat_max, toNat_max, hround, toNat_succ hmax]
      omega
    obtain ⟨id, key, hid', -, rfl, -⟩ := createEvent_eq_some hnext
    have hparents := count_le_count_parentsFor (node'.broadcast drawnIds own) id own
    rw [htop] at hparents
    simp only at hone
    omega

/-- The node with the first sample key before its first turn.
Kind: D -/
def firstNode : FullNode := .new ⟨⟨[]⟩⟩ (.fill 32 0) (some (sampleKey false))

/-- Its first event.
Kind: D -/
def firstEvent : DagEvent where
  id := lateStartSha256 (idInput ⟨(sampleKey false).publicKey⟩ 1 [])
  creator := ⟨(sampleKey false).publicKey⟩
  lamportTime := 1
  round := 1
  strongParents := []
  weakParents := []
  payload := .empty
  signature := .fill 96 0

/-- The first node produces its first event. Kind: L -/
theorem produce_firstNode :
    firstNode.produce lateStartSha256 =
      (some firstEvent, (firstNode.produce lateStartSha256).2) :=
  Prod.ext (by decide +kernel) rfl

/-- The other rounds do not notice a repeated insertion of the first event. Kind: L -/
theorem insert_again_other_round :
    DagStore.SameAnswers (DagStore.ofEvents [firstEvent])
      ((DagStore.ofEvents [firstEvent]).insert firstEvent) firstEvent.creator 2 := by
  have hstored : (DagStore.ofEvents [firstEvent]).get firstEvent.id = some firstEvent :=
    DagStore.get_insert_self _ _
  refine (insert_again_iff [firstEvent] firstEvent hstored firstEvent.creator 2 firstNode _
    firstEvent produce_firstNode fun _ => .fill 16 0).1.mpr ⟨by decide, ?_⟩
  intro _ latest existing _ hexisting
  have hmem := ((DagStore.indexed_ofEvents [firstEvent]).events_sound _ _ hexisting).1
  rw [List.mem_singleton.mp hmem]
  exact UInt64.le_refl _

/-- **An own event is listed twice.** The first turn of a node on an empty store: its event is twice
in round 1, and the event of the next turn names it twice as a parent. Kind: P -/
theorem own_event_listed_twice :
    let node := (firstNode.produce lateStartSha256).2.broadcast (fun _ => .fill 16 0) firstEvent
    (firstNode.produce lateStartSha256).1 = some firstEvent ∧
      (firstNode.produce lateStartSha256).2.dag.eventsAtRound 1 = [firstEvent] ∧
      node.dag.eventsAtRound 1 = [firstEvent, firstEvent] ∧
      (node.createEvent lateStartSha256).1.map (·.strongParents) =
        some [firstEvent.id, firstEvent.id] := by
  decide +kernel

end FullNode

end Ryther
