import Ryther.Dag.Store

/-!
# Delivery order

Two nodes receive the same events in different orders. `insert` overwrites the index by creator and
round, and keeps the older one of two latest events of the same round, so with two events of one
creator at one round the answers depend on which of them came last, or first.

* `SameView` — two stores answer every query alike.
* `LatestIndexed` — the latest event of a creator is one of its highest round; kept by `insert`.
* `sameView_of_perm` — without two events of one creator at one round the order does not matter.
* `sameView_iff` — and only then.
-/

namespace Ryther

open Lib

namespace DagStore

/-- Two stores give the same answers; the events of a round are compared as sets.
Kind: D -/
structure SameView (store store' : DagStore) : Prop where
  eventAt_eq : ∀ creator round, store.eventAt creator round = store'.eventAt creator round
  latestFrom_eq : ∀ creator, store.latestFrom creator = store'.latestFrom creator
  maxRound_eq : store.maxRound = store'.maxRound
  canReach_eq : ∀ source target, store.canReach source target = store'.canReach source target
  eventsAtRound_iff : ∀ round e, e ∈ store.eventsAtRound round ↔ e ∈ store'.eventsAtRound round

/-! ### The latest event of a creator -/

/-- The latest event of a creator is an inserted one of its highest round.
Kind: D -/
structure LatestIndexed (store : DagStore) (held : List DagEvent) : Prop where
  sound : ∀ c id, store.latestByCreator.lookup c = some id →
    ∃ e ∈ held, e.creator = c ∧ e.id = id ∧ ∀ e' ∈ held, e'.creator = c → e'.round ≤ e.round
  complete : ∀ e ∈ held, store.latestByCreator.lookup e.creator ≠ none

/-- An insertion leaves the other creators' latest events. Kind: L -/
theorem lookup_updateLatest_ne (store : DagStore) (event : DagEvent) {c : ValidatorId}
    (hc : c ≠ event.creator) :
    (store.updateLatest event).lookup c = store.latestByCreator.lookup c := by
  unfold updateLatest
  split
  · split
    · split_ifs
      · exact AList.lookup_insert_ne hc
      · rfl
    · rfl
  · exact AList.lookup_insert_ne hc

/-- What an insertion does to the latest event of its creator: the first event is added, a later one
replaces it, another one does not. Kind: L -/
theorem lookup_updateLatest_self {store : DagStore} {held : List DagEvent}
    (hindexed : Indexed store held) (hlatest : LatestIndexed store held)
    (hinj : ∀ e ∈ held, ∀ e' ∈ held, e.id = e'.id → e = e') (event : DagEvent) :
    ((∀ e ∈ held, e.creator ≠ event.creator) ∧
        (store.updateLatest event).lookup event.creator = some event.id) ∨
      ∃ latest ∈ held, latest.creator = event.creator ∧
        (∀ e ∈ held, e.creator = event.creator → e.round ≤ latest.round) ∧
        (store.updateLatest event).lookup event.creator =
          some (if event.round > latest.round then event.id else latest.id) := by
  unfold updateLatest
  cases hlook : store.latestByCreator.lookup event.creator with
  | none =>
      refine .inl ⟨fun e he hc => hlatest.complete e he (by rw [hc, hlook]), ?_⟩
      exact AList.lookup_insert _
  | some id =>
      obtain ⟨latest, hmem, hc, rfl, hmax⟩ := hlatest.sound _ id hlook
      have hstored : store.events.lookup latest.id = some latest := by
        cases hev : store.events.lookup latest.id with
        | none => exact absurd hev (hindexed.events_complete latest hmem)
        | some e =>
            obtain ⟨he, hid⟩ := hindexed.events_sound _ _ hev
            rw [hinj e he latest hmem hid]
      refine .inr ⟨latest, hmem, hc, hmax, ?_⟩
      simp only [hstored]
      split_ifs
      · exact AList.lookup_insert _
      · exact hlook

/-- The empty store. Kind: L -/
theorem LatestIndexed.new : LatestIndexed DagStore.new [] where
  sound _ _ h := by simp [DagStore.new] at h
  complete _ h := by cases h

/-- Only which events were inserted matters. Kind: L -/
theorem LatestIndexed.of_mem_iff {store : DagStore} {held held' : List DagEvent}
    (h : LatestIndexed store held) (hmem : ∀ e, e ∈ held ↔ e ∈ held') :
    LatestIndexed store held' where
  sound c id hlook := by simpa only [hmem] using h.sound c id hlook
  complete e he := h.complete e ((hmem e).mpr he)

/-- **An insertion keeps the latest events.** Kind: P -/
theorem LatestIndexed.insert {store : DagStore} {held : List DagEvent}
    (hindexed : Indexed store held) (hlatest : LatestIndexed store held)
    (hinj : ∀ e ∈ held, ∀ e' ∈ held, e.id = e'.id → e = e') (event : DagEvent) :
    LatestIndexed (store.insert event) (event :: held) where
  sound c id hlook := by
    by_cases hc : c = event.creator
    · subst hc
      rcases lookup_updateLatest_self hindexed hlatest hinj event with
        ⟨hnone, hself⟩ | ⟨latest, hmem, hcreator, hmax, hself⟩
      · rw [DagStore.insert, hself] at hlook
        refine ⟨event, List.mem_cons_self, rfl, Option.some.inj hlook, fun e' he' hc' => ?_⟩
        rcases List.mem_cons.mp he' with rfl | he'
        · exact UInt64.le_refl _
        · exact absurd hc' (hnone e' he')
      · rw [DagStore.insert, hself] at hlook
        split_ifs at hlook with hgt
        · refine ⟨event, List.mem_cons_self, rfl, Option.some.inj hlook, fun e' he' hc' => ?_⟩
          rcases List.mem_cons.mp he' with rfl | he'
          · exact UInt64.le_refl _
          · exact UInt64.le_trans (hmax e' he' hc') (UInt64.le_of_lt hgt)
        · refine ⟨latest, List.mem_cons_of_mem _ hmem, hcreator, Option.some.inj hlook,
            fun e' he' hc' => ?_⟩
          rcases List.mem_cons.mp he' with rfl | he'
          · exact UInt64.not_lt.mp hgt
          · exact hmax e' he' hc'
    · rw [DagStore.insert, lookup_updateLatest_ne store event hc] at hlook
      obtain ⟨e, he, hcreator, hid, hmax⟩ := hlatest.sound c id hlook
      refine ⟨e, List.mem_cons_of_mem _ he, hcreator, hid, fun e' he' hc' => ?_⟩
      rcases List.mem_cons.mp he' with rfl | he'
      · exact absurd hc'.symm hc
      · exact hmax e' he' hc'
  complete e he := by
    by_cases hc : e.creator = event.creator
    · rw [hc]
      rcases lookup_updateLatest_self hindexed hlatest hinj event with
        ⟨-, hself⟩ | ⟨latest, -, -, -, hself⟩
      · rw [DagStore.insert, hself]
        exact Option.some_ne_none _
      · rw [DagStore.insert, hself]
        exact Option.some_ne_none _
    · rw [DagStore.insert, lookup_updateLatest_ne store event hc]
      rcases List.mem_cons.mp he with rfl | he
      · exact absurd rfl hc
      · exact hlatest.complete e he

/-- The latest events after some deliveries of events with distinct ids. Kind: L -/
theorem latestIndexed_ofEvents (events : List DagEvent)
    (hinj : ∀ e ∈ events, ∀ e' ∈ events, e.id = e'.id → e = e') :
    LatestIndexed (ofEvents events) events := by
  induction events using List.reverseRecOn with
  | nil => exact .new
  | append_singleton events event ih =>
      have hinj' : ∀ e ∈ events, ∀ e' ∈ events, e.id = e'.id → e = e' := fun e he e' he' =>
        hinj e (List.mem_append_left _ he) e' (List.mem_append_left _ he')
      rw [ofEvents_concat]
      have hinsert := (ih hinj').insert (indexed_ofEvents events) hinj' event
      exact hinsert.of_mem_iff mem_cons_iff_mem_concat

/-! ### One event per creator and round -/

section

variable {events events' : List DagEvent}

/-- The highest round of the deliveries. Kind: L -/
theorem maxRound_ofEvents (events : List DagEvent) :
    (ofEvents events).maxRound = events.foldl (fun r e => max r e.round) 0 := by
  induction events using List.reverseRecOn with
  | nil => rfl
  | append_singleton events event ih =>
      rw [ofEvents, List.foldl_append, List.foldl_append, ← ih]
      rfl

/-- The highest round does not depend on the order. Kind: L -/
theorem maxRound_eq_of_perm (hperm : events.Perm events') :
    (ofEvents events).maxRound = (ofEvents events').maxRound := by
  have : RightCommutative fun (r : UInt64) (e : DagEvent) => max r e.round :=
    ⟨fun r e e' => UInt64.toNat_inj.mp (by simp only [toNat_max, max_right_comm])⟩
  rw [maxRound_ofEvents, maxRound_ofEvents]
  exact hperm.foldl_eq 0

/-- A latest event in one order is the latest event in the other. Kind: L -/
theorem latestFrom_eq_some_of_perm (hperm : events.Perm events')
    (hinj : ∀ e ∈ events, ∀ e' ∈ events, e.id = e'.id → e = e')
    (hone : ∀ e ∈ events, ∀ e' ∈ events, e.creator = e'.creator → e.round = e'.round → e = e')
    {c : ValidatorId} {id : EventId} (h : (ofEvents events).latestFrom c = some id) :
    (ofEvents events').latestFrom c = some id := by
  have hinj' : ∀ e ∈ events', ∀ e' ∈ events', e.id = e'.id → e = e' := fun e he e' he' =>
    hinj e (hperm.mem_iff.mpr he) e' (hperm.mem_iff.mpr he')
  have hlatest' := latestIndexed_ofEvents events' hinj'
  obtain ⟨e, he, hc, rfl, hmax⟩ := (latestIndexed_ofEvents events hinj).sound c id h
  cases hlook : (ofEvents events').latestFrom c with
  | none => exact absurd (hc ▸ hlook) (hlatest'.complete e (hperm.mem_iff.mp he))
  | some id' =>
      obtain ⟨e', he', hc', rfl, hmax'⟩ := hlatest'.sound c id' hlook
      have hmem' : e' ∈ events := hperm.mem_iff.mpr he'
      -- both have the highest round of the creator
      have hround : e'.round = e.round := UInt64.le_antisymm (hmax e' hmem' hc')
        (hmax' e (hperm.mem_iff.mp he) hc)
      rw [hone e' hmem' e he (hc'.trans hc.symm) hround]

/-- **Without two events of one creator at one round the order does not matter.** Kind: P -/
theorem sameView_of_perm (hperm : events.Perm events')
    (hinj : ∀ e ∈ events, ∀ e' ∈ events, e.id = e'.id → e = e')
    (hone : ∀ e ∈ events, ∀ e' ∈ events, e.creator = e'.creator → e.round = e'.round → e = e') :
    SameView (ofEvents events) (ofEvents events') := by
  let pool : Pool := ⟨{e | e ∈ events}, hinj, hone⟩
  have hpool : ∀ e ∈ events, e ∈ pool.events := fun e he => he
  have hpool' : ∀ e ∈ events', e ∈ pool.events := fun e he => hperm.mem_iff.mpr he
  have hidx := indexed_ofEvents events
  have hidx' := indexed_ofEvents events'
  have hlookup : ∀ id, (ofEvents events).events.lookup id = (ofEvents events').events.lookup id :=
    fun id => Option.ext fun e => by
      rw [hidx.lookup_iff hpool, hidx'.lookup_iff hpool', hperm.mem_iff]
  refine ⟨fun c r => Option.ext fun e => ?_, fun c => Option.ext fun id => ?_,
    maxRound_eq_of_perm hperm, fun source target => ?_, fun r e => ?_⟩
  · rw [hidx.eventAt_iff hpool, hidx'.eventAt_iff hpool', hperm.mem_iff]
  · refine ⟨latestFrom_eq_some_of_perm hperm hinj hone, ?_⟩
    refine latestFrom_eq_some_of_perm hperm.symm (fun e he e' he' => ?_) fun e he e' he' => ?_
    · exact hinj e (hperm.mem_iff.mpr he) e' (hperm.mem_iff.mpr he')
    · exact hone e (hperm.mem_iff.mpr he) e' (hperm.mem_iff.mpr he')
  · have hparents : (ofEvents events).strongParentsOf = (ofEvents events').strongParentsOf :=
      funext fun id => by rw [strongParentsOf, strongParentsOf, hlookup id]
    rw [Bool.eq_iff_iff, canReach_iff, canReach_iff, hparents]
  · rw [hidx.mem_eventsAtRound_iff hpool, hidx'.mem_eventsAtRound_iff hpool', hperm.mem_iff]

/-! ### Two events of one creator at one round -/

/-- The event inserted last answers for its creator and round. Kind: L -/
theorem eventAt_insert_self (store : DagStore) (event : DagEvent) :
    (store.insert event).eventAt event.creator event.round = some event := by
  unfold eventAt DagStore.insert
  simp only [AList.lookup_insert, Option.bind_some]

/-- **The view is independent of the delivery order exactly without two events of one creator at one
round.**
Source: `dag/store.rs`, `DagStore::insert`
Kind: P -/
theorem sameView_iff (events : List DagEvent)
    (hinj : ∀ e ∈ events, ∀ e' ∈ events, e.id = e'.id → e = e') :
    (∀ order order' : List DagEvent, order.Perm events → order'.Perm events →
        SameView (ofEvents order) (ofEvents order')) ↔
      ∀ e ∈ events, ∀ e' ∈ events, e.creator = e'.creator → e.round = e'.round → e = e' := by
  constructor
  · intro hsame e he e' he' hc hr
    by_contra hne
    -- the two events last, in both orders
    obtain ⟨rest, hrest⟩ : ∃ rest, (rest ++ [e, e']).Perm events := by
      have hmem' : e' ∈ events.erase e := (List.mem_erase_of_ne (Ne.symm hne)).mpr he'
      refine ⟨(events.erase e).erase e', List.perm_append_comm.trans ?_⟩
      exact ((List.perm_cons_erase hmem').symm.cons e).trans (List.perm_cons_erase he).symm
    have hswap : (rest ++ [e', e]).Perm events :=
      (List.Perm.append_left rest (List.Perm.swap e e' [])).trans hrest
    have hview := (hsame _ _ hrest hswap).eventAt_eq e.creator e.round
    have hlast : ∀ a b : DagEvent,
        (ofEvents (rest ++ [a, b])).eventAt b.creator b.round = some b := fun a b => by
      rw [ofEvents, List.foldl_append]
      exact eventAt_insert_self _ b
    rw [hlast e' e, hc, hr, hlast e e'] at hview
    exact hne (Option.some.inj hview).symm
  · intro hone order order' hperm hperm'
    refine sameView_of_perm (hperm.trans hperm'.symm) (fun e he e' he' => ?_)
      fun e he e' he' => ?_
    · exact hinj e (hperm.mem_iff.mp he) e' (hperm.mem_iff.mp he')
    · exact hone e (hperm.mem_iff.mp he) e' (hperm.mem_iff.mp he')

/-- The general theorem on events of two creators. Kind: L -/
theorem sameView_two_creators :
    let e : DagEvent := makeEvent (fun _ => .fill 32 1) 1 1 []
    let e' : DagEvent := makeEvent (fun _ => .fill 32 2) 2 1 []
    SameView (ofEvents [e, e']) (ofEvents [e', e]) := by
  intro e e'
  have hinj : ∀ a ∈ [e, e'], ∀ b ∈ [e, e'], a.id = b.id → a = b := by decide +kernel
  have hone : ∀ a ∈ [e, e'], ∀ b ∈ [e, e'], a.creator = b.creator → a.round = b.round → a = b := by
    decide +kernel
  exact (sameView_iff [e, e'] hinj).mpr hone _ _ (.refl _) (.swap e e' [])

/-- Two events of one creator at one round, with the same parents and different payload roots: which
of them the store returns depends on the order, and the two indices disagree about it. Kind: P -/
theorem view_depends_on_order :
    let e : DagEvent := makeEvent (fun _ => .fill 32 1) 1 1 []
    let e' : DagEvent := { e with id := .fill 32 2, payload := ⟨[], .fill 32 7⟩ }
    e.id ≠ e'.id ∧
      (ofEvents [e, e']).eventAt e.creator e.round = some e' ∧
      (ofEvents [e', e]).eventAt e.creator e.round = some e ∧
      (ofEvents [e, e']).latestFrom e.creator = some e.id ∧
      (ofEvents [e', e]).latestFrom e.creator = some e'.id := by
  decide +kernel

end

end DagStore

end Ryther
