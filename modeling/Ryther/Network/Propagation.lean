import Ryther.Network.Net

/-!
# Who holds an event

What a network of nodes makes of the events that its nodes broadcast. A node announces its own
events only; what it received it does not pass on.

* `Sound` — stored events come from the broadcasts and announcements so far; kept by every operation
  (`Sound.step`).
* `Complete` — what was announced is stored or on its way; kept as long as no message is lost and no
  message id is drawn twice (`Complete.step`).
* `held_iff_announced` — a node holds at most its own events and valid ones that were announced to
  it, and exactly these once no message is on its way and none was lost.
-/

namespace Ryther

open Lib

namespace GossipNet

variable {N : Type} {wiring : Wiring N} {net : GossipNet N}

/-! ### What nodes can hold -/

/-- No two of the events have one id.
Kind: D -/
def DistinctIds (events : List (N × DagEvent)) : Prop :=
  ∀ x ∈ events, ∀ y ∈ events, x.2.id = y.2.id → x.2 = y.2

/-- The network against its broadcasts and announcements so far: stored events come from them, own
events are stored, and the messages on their way belong to announcements.
Kind: D -/
structure Sound (wiring : Wiring N) (origins announced : List (N × DagEvent)) (net : GossipNet N) :
    Prop where
  stored : ∀ m id e, (net.nodes m).dag.get id = some e →
    e.id = id ∧ ((m, e) ∈ origins ∨ e.isValid = true ∧ (m, e) ∈ announced)
  own : ∀ n e, (n, e) ∈ origins → (net.nodes n).dag.get e.id = some e
  processed : ∀ m, ∀ id ∈ (net.nodes m).processedEvents, ∃ e, (net.nodes m).dag.get id = some e
  source : ∀ m e, (m, e) ∈ announced → ∃ n, (n, e) ∈ origins
  packets : ∀ k ∈ net.flight, ∃ e n m, (n, e) ∈ origins ∧ (m, e) ∈ announced ∧
    Carries wiring e n m k

section Step

variable {origins announced : List (N × DagEvent)} {op : NetOp N}

/-- An operation inserts the event it broadcasts, or a valid one that was announced. Kind: L -/
theorem Sound.inserts (h : Sound wiring origins announced net) {m : N} {gossip : GossipOp}
    (hlocal : net.localOp op = some (m, gossip)) {e : DagEvent}
    (he : e ∈ (net.nodes m).inserts gossip) :
    (m, e) ∈ originsOf op ∨ e.isValid = true ∧ (m, e) ∈ announced := by
  cases op with
  | broadcast n drawnIds event =>
      cases hlocal
      rw [GossipProtocol.inserts, List.mem_singleton] at he
      subst he
      exact .inl List.mem_cons_self
  | lose i => cases hlocal
  | cleanup n now =>
      cases hlocal
      cases he
  | deliver i now drawnId =>
      obtain ⟨k, hk, hpair⟩ := Option.map_eq_some_iff.mp hlocal
      obtain ⟨rfl, rfl⟩ := Prod.mk.inj hpair
      obtain ⟨e', n, m, -, hannounced, hcarries⟩ := h.packets k (List.mem_of_getElem? hk)
      rw [GossipProtocol.inserts] at he
      split_ifs at he with hseen
      · cases he
      -- of the three messages only a response brings an event
      · rcases hcarries with ⟨-, hpayload⟩ | ⟨-, hpayload⟩ | hpayload
        · simp [hpayload] at he
        · simp [hpayload] at he
        · simp only [hpayload, List.mem_filter, List.mem_singleton] at he
          obtain ⟨rfl, hvalid⟩ := he
          exact .inr ⟨hvalid, hannounced⟩

/-- Every stored event was broadcast. Kind: L -/
theorem Sound.exists_origin_of_stored (h : Sound wiring origins announced net) {m : N}
    {id : EventId} {e : DagEvent} (hget : (net.nodes m).dag.get id = some e) :
    e.id = id ∧ ∃ n, (n, e) ∈ origins := by
  obtain ⟨hid, hown | ⟨-, hannounced⟩⟩ := h.stored m id e hget
  · exact ⟨hid, m, hown⟩
  · exact ⟨hid, h.source m e hannounced⟩

/-- Every event that an operation inserts was broadcast. Kind: L -/
theorem Sound.exists_origin_of_inserts (h : Sound wiring origins announced net) {m : N}
    {gossip : GossipOp} (hlocal : net.localOp op = some (m, gossip)) {e : DagEvent}
    (he : e ∈ (net.nodes m).inserts gossip) : ∃ n, (n, e) ∈ origins ++ originsOf op := by
  rcases h.inserts hlocal he with hmem | ⟨-, hmem⟩
  · exact ⟨m, List.mem_append_right _ hmem⟩
  · obtain ⟨n, hn⟩ := h.source m e hmem
    exact ⟨n, List.mem_append_left _ hn⟩

/-- The answer to a message of an exchange is the next message of it. Kind: L -/
theorem Sound.carries_answer (h : Sound wiring origins announced net) {e : DagEvent} {n m : N}
    (horigin : (n, e) ∈ origins) {k k' : Packet N} (hcarries : Carries wiring e n m k) {now : ℕ}
    {drawnId : Bytes 16} (hanswer : k' ∈ net.answersTo wiring now drawnId k) :
    Carries wiring e n m k' := by
  unfold answersTo at hanswer
  rcases hmsg : ((net.nodes k.target).handleMessage now drawnId k.msg).1 with _ | answer
  · simp [hmsg] at hanswer
  · simp only [hmsg] at hanswer
    obtain ⟨far, q, hwire, rfl⟩ := mem_send.mp hanswer
    rcases GossipProtocol.handleMessage_answer_cases hmsg with
      ⟨announce, hasked, hgiven⟩ | ⟨request, hasked, hgiven⟩
    · rcases hcarries with ⟨hwire', hpayload⟩ | ⟨-, hpayload⟩ | hpayload
      · rw [hpayload] at hasked
        cases hasked
        rw [hwire'] at hwire
        cases hwire
        exact .request (wiring.other_symm hwire') hgiven
      · simp [hpayload] at hasked
      · simp [hpayload] at hasked
    · rcases hcarries with ⟨-, hpayload⟩ | ⟨hwire', hpayload⟩ | hpayload
      · simp [hpayload] at hasked
      · rw [hpayload] at hasked
        cases hasked
        rw [hwire'] at hwire
        cases hwire
        refine .response (hgiven.trans ?_)
        simp [h.own n e horigin]
      · simp [hpayload] at hasked

variable [DecidableEq N]

/-- **A node after an operation**: it acted, or it is as before. Kind: L -/
theorem nodes_step_cases (wiring : Wiring N) (net : GossipNet N) (op : NetOp N) (m : N) :
    (∃ gossip, net.localOp op = some (m, gossip) ∧
        (net.step wiring op).nodes m = (net.nodes m).step gossip) ∨
      (∀ gossip, net.localOp op ≠ some (m, gossip)) ∧
        (net.step wiring op).nodes m = net.nodes m := by
  unfold step
  rcases net.localOp op with _ | ⟨n, gossip⟩
  · exact .inr ⟨fun _ => Option.some_ne_none _ ∘ Eq.symm, rfl⟩
  · by_cases hn : m = n
    · subst hn
      exact .inl ⟨gossip, rfl, Function.update_self _ _ _⟩
    · refine .inr ⟨fun _ heq => hn ?_, Function.update_of_ne hn _ _⟩
      exact (Prod.mk.inj (Option.some.inj heq)).1.symm

/-- What is stored under the id of a broadcast event stays. Kind: L -/
theorem Sound.get_step (h : Sound wiring origins announced net)
    (hids : DistinctIds (origins ++ originsOf op)) {n m : N} {e : DagEvent}
    (horigin : (n, e) ∈ origins ++ originsOf op) (hget : (net.nodes m).dag.get e.id = some e) :
    ((net.step wiring op).nodes m).dag.get e.id = some e := by
  rcases net.nodes_step_cases wiring op m with ⟨gossip, hlocal, hnode⟩ | ⟨-, hnode⟩
  · rw [hnode]
    refine GossipProtocol.get_step_of_get hget fun e' he' hid => ?_
    obtain ⟨n', horigin'⟩ := h.exists_origin_of_inserts hlocal he'
    exact hids _ horigin' _ horigin hid
  · rw [hnode]
    exact hget

/-- An inserted event is stored. Kind: L -/
theorem Sound.get_step_of_inserts (h : Sound wiring origins announced net)
    (hids : DistinctIds (origins ++ originsOf op)) {m : N} {gossip : GossipOp}
    (hlocal : net.localOp op = some (m, gossip)) {e : DagEvent}
    (he : e ∈ (net.nodes m).inserts gossip) :
    ((net.step wiring op).nodes m).dag.get e.id = some e := by
  rcases net.nodes_step_cases wiring op m with ⟨gossip', hlocal', hnode⟩ | ⟨hnot, -⟩
  · rw [hlocal] at hlocal'
    cases hlocal'
    rw [hnode]
    refine GossipProtocol.get_step_of_inserts he fun e' he' hid => ?_
    obtain ⟨n, hn⟩ := h.exists_origin_of_inserts hlocal he
    obtain ⟨n', hn'⟩ := h.exists_origin_of_inserts hlocal he'
    exact hids _ hn' _ hn hid
  · exact absurd hlocal (hnot gossip)

/-- **An operation keeps the invariant.** Kind: P -/
theorem Sound.step (h : Sound wiring origins announced net)
    (hids : DistinctIds (origins ++ originsOf op)) :
    Sound wiring (origins ++ originsOf op) (announced ++ net.receivers wiring op)
      (net.step wiring op) where
  stored := by
    intro m id e hget
    have hbefore : ∀ {e}, (net.nodes m).dag.get id = some e → e.id = id ∧
        ((m, e) ∈ origins ++ originsOf op ∨
          e.isValid = true ∧ (m, e) ∈ announced ++ net.receivers wiring op) := by
      intro e hget
      obtain ⟨hid, hmem⟩ := h.stored m id e hget
      exact ⟨hid, hmem.imp (List.mem_append_left _) fun hm => ⟨hm.1, List.mem_append_left _ hm.2⟩⟩
    rcases net.nodes_step_cases wiring op m with ⟨gossip, hlocal, hnode⟩ | ⟨-, hnode⟩
    · rw [hnode] at hget
      rcases GossipProtocol.get_step_cases hget with hget | ⟨he, hid⟩
      · exact hbefore hget
      · exact ⟨hid, (h.inserts hlocal he).imp (List.mem_append_right _) fun hm =>
          ⟨hm.1, List.mem_append_left _ hm.2⟩⟩
    · rw [hnode] at hget
      exact hbefore hget
  own := by
    intro n e hmem
    rcases List.mem_append.mp hmem with hold | hnew
    · exact h.get_step hids hmem (h.own n e hold)
    · obtain ⟨drawnIds, rfl⟩ := mem_originsOf.mp hnew
      exact h.get_step_of_inserts hids rfl List.mem_cons_self
  processed := by
    intro m
    rcases net.nodes_step_cases wiring op m with ⟨gossip, -, hnode⟩ | ⟨-, hnode⟩
    · rw [hnode]
      exact GossipProtocol.exists_get_of_processed_step (h.processed m) gossip
    · rw [hnode]
      exact h.processed m
  source := by
    intro m e hmem
    rcases List.mem_append.mp hmem with hold | hnew
    · obtain ⟨n, hn⟩ := h.source m e hold
      exact ⟨n, List.mem_append_left _ hn⟩
    · obtain ⟨n, drawnIds, rfl, -⟩ := mem_receivers.mp hnew
      exact ⟨n, List.mem_append_right _ List.mem_cons_self⟩
  packets := by
    intro k hk
    rcases List.mem_append.mp hk with hold | hnew
    · obtain ⟨e, n, m, hn, hm, hcarries⟩ := h.packets k ((net.remaining_sublist op).subset hold)
      exact ⟨e, n, m, List.mem_append_left _ hn, List.mem_append_left _ hm, hcarries⟩
    · cases op with
      | broadcast n drawnIds event =>
          refine ⟨event, n, k.target, List.mem_append_right _ List.mem_cons_self,
            List.mem_append_right _ (mem_receivers.mpr ⟨n, drawnIds, rfl, k, hnew, rfl⟩), ?_⟩
          exact carries_of_mem_sentBy_broadcast hnew
      | lose i => cases hnew
      | cleanup n now => cases hnew
      | deliver i now drawnId =>
          obtain ⟨k₀, hk₀, hanswer⟩ := List.mem_flatMap.mp hnew
          obtain ⟨e, n, m, hn, hm, hcarries⟩ :=
            h.packets k₀ (List.mem_of_getElem? (Option.mem_toList.mp hk₀))
          exact ⟨e, n, m, List.mem_append_left _ hn, List.mem_append_left _ hm,
            h.carries_answer hn hcarries hanswer⟩

end Step

/-! ### What nodes come to hold -/

/-- Nothing is lost and no message is taken for another: what was announced is stored or on its way,
and the ids of the messages on their way were drawn once.
Kind: D -/
structure Complete (wiring : Wiring N) (origins announced : List (N × DagEvent))
    (used : List (Bytes 16)) (net : GossipNet N) : Prop where
  pending : ∀ m e, (m, e) ∈ announced → e.isValid = true →
    (net.nodes m).dag.get e.id = some e ∨
      ∃ n, (n, e) ∈ origins ∧ ∃ k ∈ net.flight, Carries wiring e n m k
  distinct : (net.flight.map fun k => k.msg.messageId).Nodup
  unseen : ∀ k ∈ net.flight, ∀ m, (net.nodes m).isSeen k.msg.messageId = false
  flight_used : ∀ k ∈ net.flight, k.msg.messageId ∈ used
  seen_used : ∀ m id, (net.nodes m).isSeen id = true → id ∈ used

/-- A message that stays on its way has another id than the delivered one. Kind: L -/
theorem messageId_ne_of_mem_eraseIdx
    (hdistinct : (net.flight.map fun k => k.msg.messageId).Nodup) {i : ℕ} {k k' : Packet N}
    (hk : net.flight[i]? = some k) (hk' : k' ∈ net.flight.eraseIdx i) :
    k.msg.messageId ≠ k'.msg.messageId := by
  obtain ⟨hlt, rfl⟩ := List.getElem?_eq_some_iff.mp hk
  have hperm := (List.getElem_cons_eraseIdx_perm hlt).map fun k => k.msg.messageId
  have hnodup := hperm.nodup_iff.mpr hdistinct
  rw [List.map_cons, List.nodup_cons] at hnodup
  intro heq
  rw [heq] at hnodup
  exact hnodup.1 (List.mem_map_of_mem hk')

section Step

variable [DecidableEq N] {origins announced : List (N × DagEvent)} {used : List (Bytes 16)}
  {op : NetOp N}

/-- A message becomes seen when it is delivered. Kind: L -/
theorem isSeen_step {m : N} {id : Bytes 16}
    (h : ((net.step wiring op).nodes m).isSeen id = true) :
    (net.nodes m).isSeen id = true ∨ ∃ i now drawnId k, op = .deliver i now drawnId ∧
      net.flight[i]? = some k ∧ k.msg.messageId = id := by
  rcases net.nodes_step_cases wiring op m with ⟨gossip, hlocal, hnode⟩ | ⟨-, hnode⟩
  · rw [hnode] at h
    rcases GossipProtocol.isSeen_step h with h | ⟨now, drawnId, msg, rfl, rfl⟩
    · exact .inl h
    · cases op with
      | broadcast n drawnIds event => cases hlocal
      | lose i => cases hlocal
      | cleanup n now => cases hlocal
      | deliver i now' drawnId' =>
          obtain ⟨k, hk, hpair⟩ := Option.map_eq_some_iff.mp hlocal
          cases hpair
          exact .inr ⟨i, now, drawnId, k, rfl, hk, rfl⟩
  · rw [hnode] at h
    exact .inl h

/-- **The delivery of a message of an exchange** leads to the next message, or the event is stored.
Kind: L -/
theorem Sound.delivered (h : Sound wiring origins announced net)
    (hids : DistinctIds (origins ++ originsOf op)) {e : DagEvent} {n m : N}
    (horigin : (n, e) ∈ origins) (hvalid : e.isValid = true) {i now : ℕ} {drawnId : Bytes 16}
    {k : Packet N} (hop : op = .deliver i now drawnId) (hk : net.flight[i]? = some k)
    (hunseen : (net.nodes k.target).isSeen k.msg.messageId = false)
    (hcarries : Carries wiring e n m k) :
    ((net.step wiring op).nodes m).dag.get e.id = some e ∨
      ∃ k' ∈ net.sentBy wiring op, Carries wiring e n m k' := by
  -- an answer that the node gives goes out on the connection of the message
  have hsent : ∀ {answer far q},
      ((net.nodes k.target).handleMessage now drawnId k.msg).1 = some answer →
      wiring.other k.target k.via = some (far, q) →
      (⟨far, q, answer⟩ : Packet N) ∈ net.sentBy wiring op := by
    intro answer far q hanswer hwire
    subst hop
    refine List.mem_flatMap.mpr ⟨k, Option.mem_toList.mpr hk, ?_⟩
    unfold answersTo
    rw [hanswer]
    exact mem_send.mpr ⟨far, q, hwire, rfl⟩
  have hmem : (n, e) ∈ origins ++ originsOf op := List.mem_append_left _ horigin
  rcases hcarries with @⟨via, p, msg, hwire, hpayload⟩ | @⟨via, q, msg, hwire, hpayload⟩ |
    @⟨via, msg, hpayload⟩
  · rcases hstored : (net.nodes m).dag.get e.id with _ | e'
    · have hprocessed : e.id ∉ (net.nodes m).processedEvents := by
        intro hid
        obtain ⟨e', he'⟩ := h.processed m e.id hid
        rw [hstored] at he'
        cases he'
      have hanswer := GossipProtocol.handleMessage_announce hpayload hunseen hstored hprocessed now
        drawnId
      exact .inr ⟨_, hsent hanswer hwire, .request (wiring.other_symm hwire) rfl⟩
    · obtain ⟨hid, n', hn'⟩ := h.exists_origin_of_stored hstored
      have heq : e' = e := hids _ (List.mem_append_left _ hn') _ hmem hid
      exact .inl (h.get_step hids hmem (heq ▸ hstored))
  · have hanswer := GossipProtocol.handleMessage_request hpayload hunseen (h.own n e horigin) now
      drawnId
    exact .inr ⟨_, hsent hanswer hwire, .response rfl⟩
  · have hlocal : net.localOp op = some (m, .message now drawnId msg) := by
      subst hop
      exact Option.map_eq_some_iff.mpr ⟨_, hk, rfl⟩
    refine .inl (h.get_step_of_inserts hids hlocal ?_)
    simp only at hunseen
    simp [GossipProtocol.inserts, hunseen, hpayload, hvalid]

/-- **An operation other than a loss keeps the invariant** if it draws ids that were not used.
Kind: P -/
theorem Complete.step (hc : Complete wiring origins announced used net)
    (hs : Sound wiring origins announced net) (hids : DistinctIds (origins ++ originsOf op))
    (hreliable : ∀ i, op ≠ .lose i)
    (hfresh : (used ++ (net.sentBy wiring op).map fun k => k.msg.messageId).Nodup) :
    Complete wiring (origins ++ originsOf op) (announced ++ net.receivers wiring op)
      (used ++ (net.sentBy wiring op).map fun k => k.msg.messageId) (net.step wiring op) where
  pending := by
    intro m e hmem hvalid
    rcases List.mem_append.mp hmem with hold | hnew
    · rcases hc.pending m e hold hvalid with hget | ⟨n, hn, k, hk, hcarries⟩
      · obtain ⟨n, hn⟩ := hs.source m e hold
        exact .inl (hs.get_step hids (List.mem_append_left _ hn) hget)
      · rcases mem_remaining_of_mem hk with hstay | ⟨i, now, drawnId, hop, hi⟩ | ⟨i, hop⟩
        · exact .inr ⟨n, List.mem_append_left _ hn, k, List.mem_append_left _ hstay, hcarries⟩
        · refine (hs.delivered hids hn hvalid hop hi (hc.unseen k hk _) hcarries).imp_right ?_
          rintro ⟨k', hk', hcarries'⟩
          exact ⟨n, List.mem_append_left _ hn, k', List.mem_append_right _ hk', hcarries'⟩
        · exact absurd hop (hreliable i)
    · obtain ⟨n, drawnIds, rfl, k, hk, rfl⟩ := mem_receivers.mp hnew
      exact .inr ⟨n, List.mem_append_right _ List.mem_cons_self, k, List.mem_append_right _ hk,
        carries_of_mem_sentBy_broadcast hk⟩
  distinct := by
    obtain ⟨-, hnew, hdisjoint⟩ := List.nodup_append'.mp hfresh
    show ((net.remaining op ++ net.sentBy wiring op).map fun k => k.msg.messageId).Nodup
    rw [List.map_append, List.nodup_append']
    refine ⟨hc.distinct.sublist ((net.remaining_sublist op).map _), hnew, fun id hold hid => ?_⟩
    obtain ⟨k, hk, rfl⟩ := List.mem_map.mp hold
    exact hdisjoint (hc.flight_used k ((net.remaining_sublist op).subset hk)) hid
  unseen := by
    intro k hk m
    rw [Bool.eq_false_iff]
    intro hseen
    rcases List.mem_append.mp hk with hstay | hnew
    · rcases isSeen_step hseen with hseen | ⟨i, now, drawnId, k', rfl, hk', heq⟩
      · rw [hc.unseen k ((net.remaining_sublist op).subset hstay) m] at hseen
        cases hseen
      · exact messageId_ne_of_mem_eraseIdx hc.distinct hk' hstay heq
    · have hfreshId : k.msg.messageId ∉ used := fun hused =>
        (List.nodup_append'.mp hfresh).2.2 hused (List.mem_map_of_mem hnew)
      rcases isSeen_step hseen with hseen | ⟨i, now, drawnId, k', rfl, hk', heq⟩
      · exact hfreshId (hc.seen_used m _ hseen)
      · exact hfreshId (heq ▸ hc.flight_used k' (List.mem_of_getElem? hk'))
  flight_used := by
    intro k hk
    rcases List.mem_append.mp hk with hstay | hnew
    · exact List.mem_append_left _ (hc.flight_used k ((net.remaining_sublist op).subset hstay))
    · exact List.mem_append_right _ (List.mem_map_of_mem hnew)
  seen_used := by
    intro m id hseen
    rcases isSeen_step hseen with hseen | ⟨i, now, drawnId, k, rfl, hk, rfl⟩
    · exact List.mem_append_left _ (hc.seen_used m id hseen)
    · exact List.mem_append_left _ (hc.flight_used k (List.mem_of_getElem? hk))

end Step

/-! ### Whole runs -/

section Run

variable (wiring) (localId : N → PeerId) (peers : N → PeerManager) (config : N → GossipConfig)

/-- In the beginning nothing is stored and nothing on its way. Kind: L -/
theorem sound_start : Sound wiring [] [] (start localId peers config) where
  stored _ _ _ hget := by
    simp [start, GossipProtocol.new, DagStore.new, DagStore.get] at hget
  own _ _ hmem := by cases hmem
  processed _ _ hmem := by simp [start, GossipProtocol.new] at hmem
  source _ _ hmem := by cases hmem
  packets _ hmem := by cases hmem

/-- In the beginning nothing was announced, and no id was drawn. Kind: L -/
theorem complete_start : Complete wiring [] [] [] (start localId peers config) where
  pending _ _ hmem := by cases hmem
  distinct := List.nodup_nil
  unseen _ hmem := by cases hmem
  flight_used _ hmem := by cases hmem
  seen_used _ _ hseen := by simp [start, GossipProtocol.new, GossipProtocol.isSeen] at hseen

/-- One more operation adds its own broadcast, if it is one. Kind: L -/
theorem origins_concat (ops : List (NetOp N)) (op : NetOp N) :
    origins (ops ++ [op]) = origins ops ++ originsOf op := by
  simp [origins]

/-- Broadcasts with distinct ids had distinct ids before the last one. Kind: L -/
theorem DistinctIds.of_concat {ops : List (NetOp N)} {op : NetOp N}
    (h : DistinctIds (origins ops ++ originsOf op)) : DistinctIds (origins ops) :=
  fun x hx y hy => h x (List.mem_append_left _ hx) y (List.mem_append_left _ hy)

variable [DecidableEq N] {ops : List (NetOp N)}

/-- **Every run keeps what is sound.** By induction on the run from its end. Kind: P -/
theorem sound_run (hids : DistinctIds (origins ops)) :
    Sound wiring (origins ops) ((start localId peers config).announced wiring ops)
      ((start localId peers config).run wiring ops) := by
  induction ops using List.reverseRecOn with
  | nil => exact sound_start wiring localId peers config
  | append_singleton ops op ih =>
      rw [origins_concat] at hids ⊢
      rw [announced, outputs_concat, run, List.foldl_concat]
      exact (ih hids.of_concat).step hids

/-- **Every run without losses keeps what is complete.** Kind: P -/
theorem complete_run (hids : DistinctIds (origins ops)) (hreliable : ∀ i, NetOp.lose i ∉ ops)
    (hfresh : (((start localId peers config).sent wiring ops).map
      fun k => k.msg.messageId).Nodup) :
    Complete wiring (origins ops) ((start localId peers config).announced wiring ops)
      (((start localId peers config).sent wiring ops).map fun k => k.msg.messageId)
      ((start localId peers config).run wiring ops) := by
  induction ops using List.reverseRecOn with
  | nil => exact complete_start wiring localId peers config
  | append_singleton ops op ih =>
      rw [sent, outputs_concat, List.map_append] at hfresh ⊢
      rw [origins_concat] at hids ⊢
      rw [announced, outputs_concat, run, List.foldl_concat]
      refine (ih hids.of_concat (fun i hmem => hreliable i (List.mem_append_left _ hmem))
        (List.nodup_append'.mp hfresh).1).step (sound_run wiring localId peers config
          hids.of_concat) hids (fun i hop => ?_) hfresh
      exact hreliable i (hop ▸ List.mem_append_right _ List.mem_cons_self)

/-- **Who holds an event.** Nodes that have held nothing broadcast events with distinct ids, and
messages are delivered in any order or lost. Whatever a node holds it broadcast itself, or it is
valid and was announced to that node by one that broadcast it: events are not passed on. Once no
message is on its way, a node holds all of these, if none was lost and no message id was drawn
twice.
Source: `network/gossip.rs`, `GossipProtocol::handle_message`, `GossipProtocol::broadcast_event`
Kind: P -/
theorem held_iff_announced (ops : List (NetOp N)) (hids : DistinctIds (origins ops)) :
    let net := start localId peers config
    (∀ m id e, ((net.run wiring ops).nodes m).dag.get id = some e →
        e.id = id ∧ ((m, e) ∈ origins ops ∨
          e.isValid = true ∧ (m, e) ∈ net.announced wiring ops)) ∧
      ((∀ i, NetOp.lose i ∉ ops) →
        ((net.sent wiring ops).map fun k => k.msg.messageId).Nodup →
        (net.run wiring ops).flight = [] →
        ∀ m e, ((m, e) ∈ origins ops ∨ e.isValid = true ∧ (m, e) ∈ net.announced wiring ops) →
          ((net.run wiring ops).nodes m).dag.get e.id = some e) := by
  intro net
  have hsound := sound_run wiring localId peers config hids
  refine ⟨hsound.stored, fun hreliable hfresh hquiet m e hmem => ?_⟩
  rcases hmem with hown | ⟨hvalid, hannounced⟩
  · exact hsound.own m e hown
  · have hcomplete := complete_run wiring localId peers config hids hreliable hfresh
    rcases hcomplete.pending m e hannounced hvalid with hget | ⟨n, -, k, hk, -⟩
    · exact hget
    · rw [show ((start localId peers config).run wiring ops).flight = [] from hquiet] at hk
      cases hk

end Run

/-- An event of the sample exchange. Kind: D -/
def sampleEvent : DagEvent := makeEvent (fun _ => .fill 32 1) 1 1 [.fill 32 9]

/-- Two nodes with one connection. Kind: D -/
def sampleWiring : Wiring Bool where
  other n p := if p = .fill 32 7 then some (!n, .fill 32 7) else none
  other_symm := by
    intro n p m q h
    split_ifs at h with hp
    cases h
    simp [hp]

/-- Each of them has the other one as a connected peer. Kind: D -/
def samplePeers : PeerManager :=
  ⟨(∅ : HashMap PeerId PeerInfo).insert (.fill 32 7) ⟨.fill 32 7, .connected, 0⟩⟩

/-- The first node broadcasts an event, and the announcement, the request and the response are
delivered: the second one holds it. Kind: L -/
theorem held_iff_announced_sample :
    let ops : List (NetOp Bool) := [.broadcast false (fun _ => .fill 16 1) sampleEvent,
      .deliver 0 0 (.fill 16 2), .deliver 0 0 (.fill 16 3), .deliver 0 0 (.fill 16 4)]
    let net := start (fun n => .fill 32 (if n then 1 else 2)) (fun _ => samplePeers)
      (fun _ => .default)
    ((net.run sampleWiring ops).nodes true).dag.get sampleEvent.id = some sampleEvent := by
  intro ops net
  have hids : DistinctIds (origins ops) := by
    have horigins : origins ops = [(false, sampleEvent)] := rfl
    rw [horigins]
    intro x hx y hy _
    rw [List.mem_singleton.mp hx, List.mem_singleton.mp hy]
  refine (held_iff_announced sampleWiring _ _ _ ops hids).2 ?_ (by decide +kernel)
    (List.isEmpty_iff.mp (by decide +kernel)) true sampleEvent
    (.inr ⟨by decide +kernel, by decide +kernel⟩)
  intro i hmem
  simp [ops] at hmem

end GossipNet

end Ryther
