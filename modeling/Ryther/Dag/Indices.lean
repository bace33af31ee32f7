import Ryther.Dag.Delivery

/-!
# What the indices answer

`DagStore::insert` of `src/dag/store.rs` updates five maps. After any sequence of insertions in
which an id stands for one event, each lookup has an answer in terms of the sequence alone: repeated
events, events out of order and several events of a creator at one round included.

* `lookup_byRound_ofEvents`, `lookup_byCreatorRound_ofEvents` — the indices as functions of the
  sequence, whatever the ids.
* `Agrees` — the answers of the five lookups.
* `agrees_ofEvents` — a store gives these answers.
-/

namespace Ryther

open Lib

namespace DagStore

/-! ### The indices after a sequence of insertions -/

/-- A round lists the id of an event once for each insertion. By induction from the end. Kind: L -/
theorem lookup_byRound_ofEvents (events : List DagEvent) (round : UInt64) :
    ((ofEvents events).byRound.lookup round).getD [] =
      (events.filter fun e => e.round = round).map DagEvent.id := by
  induction events using List.reverseRecOn with
  | nil => rfl
  | append_singleton events event ih =>
      rw [ofEvents_concat, List.filter_append, List.map_append, ← ih]
      by_cases hround : round = event.round
      · subst hround
        simp only [insert, AList.lookup_insert, Option.getD_some, List.filter_cons, decide_true,
          if_true, List.filter_nil, List.map_cons, List.map_nil]
      · have hround' : event.round ≠ round := Ne.symm hround
        simp [insert, AList.lookup_insert_ne hround, hround']

/-- The events of a round have the listed ids, whatever is stored under them. Kind: L -/
theorem map_id_eventsAtRound (events : List DagEvent) (round : UInt64) :
    ((ofEvents events).eventsAtRound round).map DagEvent.id =
      (events.filter fun e => e.round = round).map DagEvent.id := by
  have hindexed := indexed_ofEvents events
  have hstored : ∀ id ∈ (events.filter fun e => e.round = round).map DagEvent.id,
      ((ofEvents events).events.lookup id).map DagEvent.id = some id := by
    intro id hid
    obtain ⟨e, he, rfl⟩ := List.mem_map.mp hid
    have hheld : e ∈ events := List.mem_of_mem_filter he
    obtain ⟨stored, hlook⟩ := Option.ne_none_iff_exists'.mp (hindexed.events_complete e hheld)
    rw [hlook, Option.map_some, (hindexed.events_sound _ _ hlook).2]
  rw [eventsAtRound, lookup_byRound_ofEvents, List.map_filterMap, List.filterMap_congr hstored,
    List.filterMap_some]

/-- The event of a creator at a round is indexed by its last insertion. Kind: L -/
theorem lookup_byCreatorRound_ofEvents (events : List DagEvent) (creator : ValidatorId)
    (round : UInt64) :
    (ofEvents events).byCreatorRound.lookup (creator, round) =
      ((events.filter fun e => e.creator = creator ∧ e.round = round).getLast?).map
        DagEvent.id := by
  induction events using List.reverseRecOn with
  | nil => rfl
  | append_singleton events event ih =>
      rw [ofEvents_concat, List.filter_append]
      by_cases hkey : event.creator = creator ∧ event.round = round
      · obtain ⟨rfl, rfl⟩ := hkey
        simp [insert]
      · have hne : (creator, round) ≠ (event.creator, event.round) := fun heq =>
          hkey ⟨congrArg Prod.fst heq.symm, congrArg Prod.snd heq.symm⟩
        simp [insert, AList.lookup_insert_ne hne, ih, hkey]

/-- No inserted event has a round above the maximum of the store. Kind: L -/
theorem round_le_maxRound {events : List DagEvent} {e : DagEvent} (he : e ∈ events) :
    e.round ≤ (ofEvents events).maxRound := by
  rw [maxRound_ofEvents]
  induction events using List.reverseRecOn with
  | nil => cases he
  | append_singleton events event ih =>
      rw [List.foldl_append, List.foldl_cons, List.foldl_nil, UInt64.le_iff_toNat_le, toNat_max]
      rcases List.mem_append.mp he with he | he
      · exact le_max_of_le_left (UInt64.le_iff_toNat_le.mp (ih he))
      · rw [List.mem_singleton.mp he]
        exact le_max_right _ _

/-- The maximum of the store is the round of an inserted event. Kind: L -/
theorem exists_round_eq_maxRound {events : List DagEvent} (h : events ≠ []) :
    ∃ e ∈ events, e.round = (ofEvents events).maxRound := by
  induction events using List.reverseRecOn with
  | nil => exact absurd rfl h
  | append_singleton events event ih =>
      have hmax : (ofEvents (events ++ [event])).maxRound =
          max (ofEvents events).maxRound event.round := by
        rw [ofEvents_concat]
        rfl
      have hlast : event ∈ events ++ [event] := List.mem_append_right _ List.mem_cons_self
      rw [hmax]
      by_cases hle : (ofEvents events).maxRound ≤ event.round
      · refine ⟨event, hlast, UInt64.toNat_inj.mp ?_⟩
        rw [toNat_max, max_eq_right (UInt64.le_iff_toNat_le.mp hle)]
      · have hgt := UInt64.not_le.mp hle
        have hne : events ≠ [] := by
          rintro rfl
          exact absurd (UInt64.lt_iff_toNat_lt.mp hgt) (Nat.not_lt_zero _)
        obtain ⟨e, he, hround⟩ := ih hne
        refine ⟨e, List.mem_append_left _ he, UInt64.toNat_inj.mp ?_⟩
        rw [hround, toNat_max, max_eq_left (UInt64.lt_iff_toNat_lt.mp hgt).le]

/-! ### The answers -/

/-- What a store answers of a sequence of insertions. The event of a creator at a round is the one
inserted last, the latest event of a creator one of its highest round.
Kind: D -/
structure Agrees (store : DagStore) (events : List DagEvent) : Prop where
  get_iff : ∀ id e, store.get id = some e ↔ e ∈ events ∧ e.id = id
  mem_eventsAtRound_iff : ∀ round e, e ∈ store.eventsAtRound round ↔ e ∈ events ∧ e.round = round
  round_le : ∀ e ∈ events, e.round ≤ store.maxRound
  maxRound_mem : events ≠ [] → ∃ e ∈ events, e.round = store.maxRound
  maxRound_nil : events = [] → store.maxRound = 0
  latestFrom_none_iff : ∀ creator,
    store.latestFrom creator = none ↔ ∀ e ∈ events, e.creator ≠ creator
  latestFrom_some : ∀ creator id, store.latestFrom creator = some id →
    ∃ e ∈ events, e.id = id ∧ e.creator = creator ∧
      ∀ e' ∈ events, e'.creator = creator → e'.round ≤ e.round
  eventAt_eq : ∀ creator round, store.eventAt creator round =
    (events.filter fun e => e.creator = creator ∧ e.round = round).getLast?

/-- **The indices agree with the events.** Events with equal ids are equal; nothing else is assumed
of the insertions.
Source: `dag/store.rs`, `DagStore::insert`
Kind: P -/
theorem agrees_ofEvents (events : List DagEvent)
    (hinj : ∀ e ∈ events, ∀ e' ∈ events, e.id = e'.id → e = e') :
    Agrees (ofEvents events) events := by
  have hindexed := indexed_ofEvents events
  have hlatest := latestIndexed_ofEvents events hinj
  have hget : ∀ id e, (ofEvents events).get id = some e ↔ e ∈ events ∧ e.id = id :=
    hindexed.lookup_iff_of_injective hinj
  refine ⟨hget, hindexed.mem_eventsAtRound_iff_of_injective hinj, fun e he => round_le_maxRound he,
    exists_round_eq_maxRound, ?_, ?_, ?_, ?_⟩
  · rintro rfl
    rfl
  · intro creator
    constructor
    · rintro hnone e he rfl
      exact hlatest.complete e he hnone
    · intro hfree
      by_contra hsome
      obtain ⟨id, hid⟩ := Option.ne_none_iff_exists'.mp hsome
      obtain ⟨e, he, hcreator, -⟩ := hlatest.sound creator id hid
      exact hfree e he hcreator
  · intro creator id hid
    obtain ⟨e, he, hcreator, hidE, hmax⟩ := hlatest.sound creator id hid
    exact ⟨e, he, hidE, hcreator, hmax⟩
  · intro creator round
    rw [eventAt, lookup_byCreatorRound_ofEvents]
    cases hlast : (events.filter fun e => e.creator = creator ∧ e.round = round).getLast? with
    | none => rfl
    | some e =>
        have he : e ∈ events := List.mem_of_mem_filter (List.mem_of_getLast? hlast)
        exact (hget e.id e).mpr ⟨he, rfl⟩

/-- Insertions out of order, with a repeated event and two events of a creator at round 2.
Kind: L -/
theorem agrees_ofEvents_out_of_order :
    let first : DagEvent := makeEvent (fun _ => .fill 32 1) 1 1 []
    let second : DagEvent := makeEvent (fun _ => .fill 32 2) 1 2 [first.id]
    let other : DagEvent := { second with id := .fill 32 3, payload := ⟨[], .fill 32 7⟩ }
    Agrees (ofEvents [second, first, other, second]) [second, first, other, second] := by
  intro first second other
  have hinj : ∀ e ∈ [second, first, other, second], ∀ e' ∈ [second, first, other, second],
      e.id = e'.id → e = e' := by decide +kernel
  exact agrees_ofEvents _ hinj

end DagStore

end Ryther
