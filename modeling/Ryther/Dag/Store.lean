import Ryther.Lib.Search
import Ryther.Types.Event

/-!
# The DAG store

The event store of `src/dag/store.rs`, with its indices by creator and round, by round and by
latest event of a creator.

* `insert`, `get`, `eventAt`, `eventsAtRound`, `latestFrom`, `maxRound` — as in the source; a
  repeated insertion lists an id twice in its round.
* `canReach` — the breadth-first search through strong parents; `canReach_iff_exists_chain` says
  that it ends and decides whether a chain of links leads to the target.
* `Indexed` — what the indices hold of the inserted events; kept by `insert`.
* `ofEvents` — the store after some deliveries.
* `eventAt_iff`, `mem_eventsAtRound_iff` — lookups return the inserted events of a pool.
-/

namespace Ryther

open Lib

/-- The events by id, with an index by creator and round, one by round, the latest event of every
creator, and the largest round.
Source: `dag/store.rs`, `DagStore`
Kind: D -/
structure DagStore where
  events : HashMap EventId DagEvent
  byCreatorRound : HashMap (ValidatorId × UInt64) EventId
  byRound : HashMap UInt64 (List EventId)
  latestByCreator : HashMap ValidatorId EventId
  maxRound : UInt64

namespace DagStore

/-- A store without events.
Source: `dag/store.rs`, `DagStore::new`
Kind: D -/
def new : DagStore := ⟨∅, ∅, ∅, ∅, 0⟩

/-- The latest event of the creator after an insertion: replaced if its stored event is of an
earlier round, added if there is none.
Source: `dag/store.rs`, the update of `latest_by_creator` in `DagStore::insert`
Kind: D -/
def updateLatest (store : DagStore) (event : DagEvent) : HashMap ValidatorId EventId :=
  match store.latestByCreator.lookup event.creator with
  | some latest =>
      match store.events.lookup latest with
      | some existing =>
          if event.round > existing.round then store.latestByCreator.insert event.creator event.id
          else store.latestByCreator
      | none => store.latestByCreator
  | none => store.latestByCreator.insert event.creator event.id

/-- The event enters all indices; the store does not check whether it is there already.
Source: `dag/store.rs`, `DagStore::insert`
Kind: D -/
def insert (store : DagStore) (event : DagEvent) : DagStore where
  maxRound := max store.maxRound event.round
  byCreatorRound := store.byCreatorRound.insert (event.creator, event.round) event.id
  byRound :=
    store.byRound.insert event.round
      ((store.byRound.lookup event.round).getD [] ++ [event.id])
  latestByCreator := store.updateLatest event
  events := store.events.insert event.id event

/-- The event of an id.
Source: `dag/store.rs`, `DagStore::get`
Kind: D -/
def get (store : DagStore) (id : EventId) : Option DagEvent := store.events.lookup id

/-- Whether an id is stored.
Source: `dag/store.rs`, `DagStore::contains`
Kind: D -/
def contains (store : DagStore) (id : EventId) : Bool := (store.events.lookup id).isSome

/-- The id of the latest event of a creator.
Source: `dag/store.rs`, `DagStore::latest_from`
Kind: D -/
def latestFrom (store : DagStore) (creator : ValidatorId) : Option EventId :=
  store.latestByCreator.lookup creator

/-- The events of a round, in the order of their insertion.
Source: `dag/store.rs`, `DagStore::events_at_round`
Kind: D -/
def eventsAtRound (store : DagStore) (round : UInt64) : List DagEvent :=
  ((store.byRound.lookup round).getD []).filterMap store.events.lookup

/-- The event of a creator at a round.
Source: `dag/store.rs`, `DagStore::event_at`
Kind: D -/
def eventAt (store : DagStore) (creator : ValidatorId) (round : UInt64) : Option DagEvent :=
  (store.byCreatorRound.lookup (creator, round)).bind store.events.lookup

/-- The parents the search follows: those of stored events.
Kind: D -/
def strongParentsOf (store : DagStore) (id : EventId) : List EventId :=
  ((store.events.lookup id).map DagEvent.strongParents).getD []

/-- Enough fuel for the search: one unit for its start and each parent link.
Kind: D -/
def searchFuel (store : DagStore) : ℕ :=
  1 + openEdges store.strongParentsOf store.events.keys []

/-- Whether a search along strong parents finds the target; an id reaches itself, stored or not.
Source: `dag/store.rs`, `DagStore::can_reach`
Kind: D -/
def canReach (store : DagStore) (source target : EventId) : Bool :=
  if source = target then true
  else (search store.strongParentsOf target store.searchFuel [source] []).getD false

/-- The number of stored events.
Source: `dag/store.rs`, `DagStore::len`
Kind: D -/
def len (store : DagStore) : ℕ := store.events.keys.length

/-! ### The search through strong parents -/

/-- Only stored events have parents to follow. Kind: L -/
theorem mem_keys_of_strongParentsOf (store : DagStore) (id : EventId)
    (h : store.strongParentsOf id ≠ []) : id ∈ store.events.keys := by
  by_contra hmem
  refine h ?_
  have hnone : store.events.lookup id = none := AList.lookup_eq_none.mpr hmem
  simp [strongParentsOf, hnone]

/-- **`can_reach` decides reachability through strong parents.** Kind: P -/
theorem canReach_iff (store : DagStore) (source target : EventId) :
    store.canReach source target = true ↔ Reaches store.strongParentsOf source target := by
  have hnodes := store.mem_keys_of_strongParentsOf
  unfold canReach
  split_ifs with heq
  · subst heq
    exact iff_of_true rfl Relation.ReflTransGen.refl
  · rw [← search_single_iff hnodes (le_refl store.searchFuel)]
    cases hsearch : search store.strongParentsOf target store.searchFuel [source] [] with
    | none => exact absurd hsearch (search_ne_none hnodes _ _ _ (le_refl _))
    | some found => simp

/-- A stored event and one of its strong parents.
Kind: D -/
def Link (store : DagStore) (id parent : EventId) : Prop :=
  ∃ event, store.get id = some event ∧ parent ∈ event.strongParents

/-- The strong parents of an id are those that its stored event links to. Kind: L -/
theorem mem_strongParentsOf {store : DagStore} {id parent : EventId} :
    parent ∈ store.strongParentsOf id ↔ store.Link id parent := by
  unfold strongParentsOf Link get
  rcases store.events.lookup id with _ | event <;> simp

/-- Reachability is a chain of links. Kind: L -/
theorem canReach_iff_link {store : DagStore} {source target : EventId} :
    store.canReach source target = true ↔ Relation.ReflTransGen store.Link source target := by
  have hlink : (fun id parent => parent ∈ store.strongParentsOf id) = store.Link := by
    funext id parent
    exact propext mem_strongParentsOf
  rw [canReach_iff, Reaches, hlink]

/-- **The search ends and finds exactly the chains of links.** With `searchFuel` or any more fuel it
has an answer, which is that of `can_reach`. The events are arbitrary: links may be cyclic, repeated
or lead to ids that are not stored.
Source: `dag/store.rs`, `DagStore::can_reach`
Kind: P -/
theorem canReach_iff_exists_chain (store : DagStore) (source target : EventId) :
    (∀ fuel, store.searchFuel ≤ fuel →
        search store.strongParentsOf target fuel [source] [] =
          some (store.canReach source target)) ∧
      (store.canReach source target = true ↔
        source = target ∨
          ∃ chain : List EventId, List.IsChain store.Link (source :: chain) ∧
            (source :: chain).getLast (List.cons_ne_nil source chain) = target) := by
  constructor
  · intro fuel hfuel
    have hnodes := store.mem_keys_of_strongParentsOf
    cases hsearch : search store.strongParentsOf target fuel [source] [] with
    | none => exact absurd hsearch (search_ne_none hnodes fuel _ _ hfuel)
    | some found =>
        have hfound : search store.strongParentsOf target fuel [source] [] = some true ↔
            Reaches store.strongParentsOf source target := search_single_iff hnodes hfuel
        rw [hsearch, Option.some.injEq, ← canReach_iff, ← Bool.eq_iff_iff] at hfound
        rw [hfound]
  · rw [canReach_iff_link]
    constructor
    · intro hreach
      exact .inr (List.exists_isChain_cons_of_relationReflTransGen hreach)
    · rintro (rfl | ⟨chain, hchain, hlast⟩)
      · exact Relation.ReflTransGen.refl
      · exact List.relationReflTransGen_of_exists_isChain_cons chain hchain hlast

/-- An inserted event is found under its id. Kind: L -/
theorem get_insert_self (store : DagStore) (event : DagEvent) :
    (store.insert event).get event.id = some event :=
  AList.lookup_insert _

/-- Inserting an event leaves what is found under every other id. Kind: L -/
theorem get_insert_of_ne (store : DagStore) {event : DagEvent} {id : EventId}
    (h : id ≠ event.id) : (store.insert event).get id = store.get id :=
  AList.lookup_insert_ne h

/-! ### What the indices hold -/

/-- The indices describe the events inserted so far. Entries of an index come from inserted events,
and every inserted event has an entry.
Kind: D -/
structure Indexed (store : DagStore) (held : List DagEvent) : Prop where
  events_sound : ∀ id e, store.events.lookup id = some e → e ∈ held ∧ e.id = id
  events_complete : ∀ e ∈ held, store.events.lookup e.id ≠ none
  byCreatorRound_sound : ∀ c r id, store.byCreatorRound.lookup (c, r) = some id →
    ∃ e ∈ held, e.creator = c ∧ e.round = r ∧ e.id = id
  byCreatorRound_complete : ∀ e ∈ held, store.byCreatorRound.lookup (e.creator, e.round) ≠ none
  mem_byRound_iff : ∀ r id, id ∈ (store.byRound.lookup r).getD [] ↔
    ∃ e ∈ held, e.round = r ∧ e.id = id

/-- The empty store. Kind: L -/
theorem Indexed.new : Indexed DagStore.new [] where
  events_sound _ _ h := by simp [DagStore.new] at h
  events_complete _ h := by cases h
  byCreatorRound_sound _ _ _ h := by simp [DagStore.new] at h
  byCreatorRound_complete _ h := by cases h
  mem_byRound_iff _ _ := by simp [DagStore.new]

/-- Only which events were inserted matters. Kind: L -/
theorem Indexed.of_mem_iff {store : DagStore} {held held' : List DagEvent} (h : Indexed store held)
    (hmem : ∀ e, e ∈ held ↔ e ∈ held') : Indexed store held' where
  events_sound id e hlook := by simpa only [hmem] using h.events_sound id e hlook
  events_complete e he := h.events_complete e ((hmem e).mpr he)
  byCreatorRound_sound c r id hlook := by
    simpa only [hmem] using h.byCreatorRound_sound c r id hlook
  byCreatorRound_complete e he := h.byCreatorRound_complete e ((hmem e).mpr he)
  mem_byRound_iff r id := by simpa only [hmem] using h.mem_byRound_iff r id

/-- **An insertion keeps the indices.** Kind: P -/
theorem Indexed.insert {store : DagStore} {held : List DagEvent} (h : Indexed store held)
    (event : DagEvent) : Indexed (store.insert event) (event :: held) where
  events_sound id e hlook := by
    rcases lookup_insert_cases hlook with ⟨rfl, rfl⟩ | ⟨-, hlook⟩
    · exact ⟨List.mem_cons_self, rfl⟩
    · obtain ⟨hmem, hidE⟩ := h.events_sound id e hlook
      exact ⟨List.mem_cons_of_mem _ hmem, hidE⟩
  events_complete e he := by
    by_cases hid : e.id = event.id
    · rw [DagStore.insert, hid, AList.lookup_insert]
      simp
    · rw [DagStore.insert, AList.lookup_insert_ne hid]
      rcases List.mem_cons.mp he with rfl | he
      · exact absurd rfl hid
      · exact h.events_complete e he
  byCreatorRound_sound c r id hlook := by
    rcases lookup_insert_cases hlook with ⟨hcr, rfl⟩ | ⟨-, hlook⟩
    · obtain ⟨rfl, rfl⟩ := Prod.mk.inj hcr
      exact ⟨event, List.mem_cons_self, rfl, rfl, rfl⟩
    · obtain ⟨e, he, hspec⟩ := h.byCreatorRound_sound c r id hlook
      exact ⟨e, List.mem_cons_of_mem _ he, hspec⟩
  byCreatorRound_complete e he := by
    by_cases hcr : (e.creator, e.round) = (event.creator, event.round)
    · rw [DagStore.insert, hcr, AList.lookup_insert]
      simp
    · rw [DagStore.insert, AList.lookup_insert_ne hcr]
      rcases List.mem_cons.mp he with rfl | he
      · exact absurd rfl hcr
      · exact h.byCreatorRound_complete e he
  mem_byRound_iff r id := by
    by_cases hr : r = event.round
    · subst hr
      simp only [DagStore.insert, AList.lookup_insert, Option.getD_some, List.mem_append,
        h.mem_byRound_iff, List.mem_cons, List.not_mem_nil, or_false]
      constructor
      · rintro (⟨e, he, hspec⟩ | rfl)
        · exact ⟨e, Or.inr he, hspec⟩
        · exact ⟨event, Or.inl rfl, rfl, rfl⟩
      · rintro ⟨e, rfl | he, hspec⟩
        · exact Or.inr hspec.2.symm
        · exact Or.inl ⟨e, he, hspec⟩
    · simp only [DagStore.insert, AList.lookup_insert_ne hr, h.mem_byRound_iff, List.mem_cons]
      constructor
      · rintro ⟨e, he, hspec⟩
        exact ⟨e, Or.inr he, hspec⟩
      · rintro ⟨e, rfl | he, hspec⟩
        · exact absurd hspec.1.symm hr
        · exact ⟨e, he, hspec⟩

/-- The store after receiving some events in order.
Kind: D -/
def ofEvents (events : List DagEvent) : DagStore :=
  events.foldl DagStore.insert .new

/-- One more insertion. Kind: L -/
theorem ofEvents_concat (events : List DagEvent) (event : DagEvent) :
    ofEvents (events ++ [event]) = (ofEvents events).insert event := by
  rw [ofEvents, List.foldl_append]
  rfl

/-- The event inserted last may stand in front. Kind: L -/
theorem mem_cons_iff_mem_concat {events : List DagEvent} {event : DagEvent} (e : DagEvent) :
    e ∈ event :: events ↔ e ∈ events ++ [event] := by
  rw [List.mem_append, List.mem_singleton, List.mem_cons, or_comm]

/-- Its indices hold these events. By induction on the deliveries from the end. Kind: L -/
theorem indexed_ofEvents (events : List DagEvent) : (ofEvents events).Indexed events := by
  induction events using List.reverseRecOn with
  | nil => exact .new
  | append_singleton events event ih =>
      rw [ofEvents_concat]
      exact (ih.insert event).of_mem_iff mem_cons_iff_mem_concat

/-! ### Stores of events with distinct ids -/

section Injective

variable {store : DagStore} {held : List DagEvent}

/-- A stored event is the one with its id. Kind: L -/
theorem Indexed.lookup_iff_of_injective (h : Indexed store held)
    (hinj : ∀ e ∈ held, ∀ e' ∈ held, e.id = e'.id → e = e') (id : EventId) (e : DagEvent) :
    store.events.lookup id = some e ↔ e ∈ held ∧ e.id = id := by
  constructor
  · exact h.events_sound id e
  · rintro ⟨he, rfl⟩
    cases hlook : store.events.lookup e.id with
    | none => exact absurd hlook (h.events_complete e he)
    | some e' =>
        obtain ⟨he', hid⟩ := h.events_sound _ _ hlook
        rw [hinj e' he' e he hid]

/-- The events of a round are the inserted ones. Kind: L -/
theorem Indexed.mem_eventsAtRound_iff_of_injective (h : Indexed store held)
    (hinj : ∀ e ∈ held, ∀ e' ∈ held, e.id = e'.id → e = e') (round : UInt64) (e : DagEvent) :
    e ∈ store.eventsAtRound round ↔ e ∈ held ∧ e.round = round := by
  unfold eventsAtRound
  rw [List.mem_filterMap]
  constructor
  · rintro ⟨id, hid, hlook⟩
    obtain ⟨e', he', hr, rfl⟩ := (h.mem_byRound_iff round id).mp hid
    obtain ⟨he, heq⟩ := h.events_sound _ _ hlook
    rw [hinj e he e' he' heq]
    exact ⟨he', hr⟩
  · rintro ⟨he, hr⟩
    exact ⟨e.id, (h.mem_byRound_iff round e.id).mpr ⟨e, he, hr, rfl⟩,
      (h.lookup_iff_of_injective hinj _ _).mpr ⟨he, rfl⟩⟩

end Injective

/-! ### Stores of pool events -/

section Pool

variable {pool : Pool} {store : DagStore} {held : List DagEvent}

/-- A stored event is the one with its id. Kind: L -/
theorem Indexed.lookup_iff (h : Indexed store held) (hpool : ∀ e ∈ held, e ∈ pool.events)
    (id : EventId) (e : DagEvent) : store.events.lookup id = some e ↔ e ∈ held ∧ e.id = id :=
  h.lookup_iff_of_injective (fun a ha b hb => pool.id_injective a (hpool a ha) b (hpool b hb)) id e

/-- **The event of a creator at a round.** Kind: P -/
theorem Indexed.eventAt_iff (h : Indexed store held) (hpool : ∀ e ∈ held, e ∈ pool.events)
    (creator : ValidatorId) (round : UInt64) (e : DagEvent) :
    store.eventAt creator round = some e ↔ e ∈ held ∧ e.creator = creator ∧ e.round = round := by
  unfold eventAt
  rw [Option.bind_eq_some_iff]
  constructor
  · rintro ⟨id, hid, hlook⟩
    obtain ⟨e', he', hc, hr, rfl⟩ := h.byCreatorRound_sound _ _ _ hid
    obtain ⟨he, heq⟩ := (h.lookup_iff hpool _ _).mp hlook
    rw [pool.id_injective e (hpool e he) e' (hpool e' he') heq]
    exact ⟨he', hc, hr⟩
  · rintro ⟨he, rfl, rfl⟩
    cases hid : store.byCreatorRound.lookup (e.creator, e.round) with
    | none => exact absurd hid (h.byCreatorRound_complete e he)
    | some id =>
        obtain ⟨e', he', hc, hr, rfl⟩ := h.byCreatorRound_sound _ _ _ hid
        rw [pool.one_per_round e' (hpool e' he') e (hpool e he) hc hr]
        exact ⟨e.id, rfl, (h.lookup_iff hpool _ _).mpr ⟨he, rfl⟩⟩

/-- **The events of a round.** Kind: P -/
theorem Indexed.mem_eventsAtRound_iff (h : Indexed store held)
    (hpool : ∀ e ∈ held, e ∈ pool.events) (round : UInt64) (e : DagEvent) :
    e ∈ store.eventsAtRound round ↔ e ∈ held ∧ e.round = round :=
  h.mem_eventsAtRound_iff_of_injective
    (fun a ha b hb => pool.id_injective a (hpool a ha) b (hpool b hb)) round e

variable {events : List DagEvent}

/-- With events of a pool an id finds the inserted event that has it. Kind: L -/
theorem get_ofEvents_iff (hpool : ∀ e ∈ events, e ∈ pool.events) {id : EventId} {e : DagEvent} :
    (ofEvents events).get id = some e ↔ e ∈ events ∧ e.id = id :=
  (indexed_ofEvents events).lookup_iff hpool id e

/-- With events of a pool the index by creator and round finds the inserted event of that creator
and round. Kind: L -/
theorem eventAt_ofEvents_iff (hpool : ∀ e ∈ events, e ∈ pool.events) {creator : ValidatorId}
    {round : UInt64} {e : DagEvent} :
    (ofEvents events).eventAt creator round = some e ↔
      e ∈ events ∧ e.creator = creator ∧ e.round = round :=
  (indexed_ofEvents events).eventAt_iff hpool creator round e

/-- With events of a pool the index by round lists the inserted events of that round. Kind: L -/
theorem mem_eventsAtRound_ofEvents_iff (hpool : ∀ e ∈ events, e ∈ pool.events) {round : UInt64}
    {e : DagEvent} :
    e ∈ (ofEvents events).eventsAtRound round ↔ e ∈ events ∧ e.round = round :=
  (indexed_ofEvents events).mem_eventsAtRound_iff hpool round e

end Pool

end DagStore

end Ryther
