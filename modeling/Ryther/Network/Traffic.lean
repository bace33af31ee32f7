import Ryther.Network.Net

/-!
# Traffic of a network

How many messages an announcement causes. Every answer is lower in the order announcement, request,
response than what it answers, so exchanges end.

* `load`, `traffic` — the deliveries that the messages on their way can still cause;
  `traffic_step`.
* `deliveries_le` — an announcement causes at most three deliveries.
-/

namespace Ryther

open Lib

namespace GossipNet

variable {N : Type}

/-! ### Traffic -/

/-- How many deliveries a message can still cause, with its own.
Kind: D -/
def load (k : Packet N) : ℕ :=
  match k.msg.payload with
  | .eventAnnounce _ => 3
  | .eventRequest _ => 2
  | _ => 1

/-- How many deliveries the messages on their way can still cause. Kind: D -/
def traffic (net : GossipNet N) : ℕ := (net.flight.map load).sum

/-- A message on its way causes at least its own delivery. Kind: L -/
theorem load_pos (k : Packet N) : 0 < load k := by
  unfold load
  split <;> decide

/-- An answer causes less than the message it answers. Kind: L -/
theorem sum_load_answersTo_lt (wiring : Wiring N) (net : GossipNet N) (now : ℕ)
    (drawnId : Bytes 16) (k : Packet N) :
    ((net.answersTo wiring now drawnId k).map load).sum < load k := by
  unfold answersTo
  rcases hmsg : ((net.nodes k.target).handleMessage now drawnId k.msg).1 with _ | answer
  · exact load_pos k
  · simp only [send]
    rcases wiring.other k.target k.via with _ | far
    · exact load_pos k
    · rcases GossipProtocol.handleMessage_answer_cases hmsg with
        ⟨announce, hpayload, hanswer⟩ | ⟨request, hpayload, hanswer⟩ <;>
      simp [load, hpayload, hanswer]

/-- What a removal takes away. Kind: L -/
theorem sum_load_eraseIdx {flight : List (Packet N)} {i : ℕ} {k : Packet N}
    (h : flight[i]? = some k) :
    (flight.map load).sum = load k + ((flight.eraseIdx i).map load).sum := by
  obtain ⟨hlt, rfl⟩ := List.getElem?_eq_some_iff.mp h
  rw [← ((List.getElem_cons_eraseIdx_perm hlt).map load).sum_eq, List.map_cons, List.sum_cons]

section Traffic

variable [DecidableEq N]

/-- **What an operation adds to the traffic**: three for each announcement, and a delivery takes at
least one away. Kind: P -/
theorem traffic_step (wiring : Wiring N) (net : GossipNet N) (op : NetOp N) :
    (net.step wiring op).traffic + (net.deliveredBy op).length ≤
      net.traffic + 3 * (net.receivers wiring op).length := by
  have htraffic : (net.step wiring op).traffic =
      ((net.remaining op).map load).sum + ((net.sentBy wiring op).map load).sum := by
    rw [traffic, step, List.map_append, List.sum_append]
  rw [htraffic]
  cases op with
  | cleanup n now => simp [remaining, sentBy, deliveredBy, receivers, traffic]
  | lose i =>
      simp only [remaining, sentBy, deliveredBy, receivers, traffic, List.map_nil, List.sum_nil,
        List.length_nil, Nat.mul_zero, Nat.add_zero]
      rcases hi : net.flight[i]? with _ | k
      · rw [List.eraseIdx_of_length_le (List.getElem?_eq_none_iff.mp hi)]
      · have hrest := sum_load_eraseIdx hi
        omega
  | broadcast n drawnIds event =>
      have hload : ∀ k ∈ net.sentBy wiring (.broadcast n drawnIds event), load k = 3 := by
        intro k hk
        obtain ⟨⟨peer, msg⟩, hannounce, hsend⟩ := List.mem_flatMap.mp hk
        obtain ⟨m, q, -, rfl⟩ := mem_send.mp hsend
        obtain ⟨i, hi, hmsg⟩ := List.mem_mapIdx.mp hannounce
        obtain ⟨-, rfl⟩ := Prod.mk.inj hmsg
        rfl
      rw [List.map_congr_left hload, List.map_const', List.sum_replicate_nat]
      simp [remaining, deliveredBy, receivers, traffic, Nat.mul_comm]
  | deliver i now drawnId =>
      rcases hi : net.flight[i]? with _ | k
      · have hlen := List.getElem?_eq_none_iff.mp hi
        simp [remaining, sentBy, deliveredBy, receivers, traffic, hi,
          List.eraseIdx_of_length_le hlen]
      · have hanswer := sum_load_answersTo_lt wiring net now drawnId k
        have hrest := sum_load_eraseIdx hi
        simp only [remaining, sentBy, deliveredBy, receivers, traffic, hi, Option.toList_some,
          List.flatMap_singleton, List.length_singleton, List.length_nil]
        omega

/-- Nothing on its way: delivering changes nothing. Kind: L -/
theorem flight_step_deliver_of_nil {wiring : Wiring N} {net : GossipNet N} (h : net.flight = [])
    (i now : ℕ) (drawnId : Bytes 16) : (net.step wiring (.deliver i now drawnId)).flight = [] := by
  simp [step, remaining, sentBy, h]

/-- Delivering the oldest message as often as the traffic says leaves none. Kind: L -/
theorem flight_run_replicate (wiring : Wiring N) (now : ℕ) (drawnId : Bytes 16) (n : ℕ) :
    ∀ {net : GossipNet N}, net.traffic ≤ n →
      (net.run wiring (List.replicate n (.deliver 0 now drawnId))).flight = [] := by
  induction n with
  | zero =>
      intro net h
      rcases hflight : net.flight with _ | ⟨k, flight⟩
      · exact hflight
      · have hpos := load_pos k
        simp only [traffic, hflight, List.map_cons, List.sum_cons] at h
        omega
  | succ n ih =>
      intro net h
      rw [List.replicate_succ, run, List.foldl_cons]
      refine ih ?_
      have hstep := net.traffic_step wiring (.deliver 0 now drawnId)
      rcases hflight : net.flight with _ | ⟨k, flight⟩
      · rw [traffic, flight_step_deliver_of_nil hflight]
        exact Nat.zero_le n
      · simp only [deliveredBy, receivers, hflight, List.getElem?_cons_zero, Option.toList_some,
          List.length_singleton, List.length_nil] at hstep
        omega

/-- **An announcement causes at most three deliveries**, with its own: the request and the response.
So in every run the deliveries are at most three times the announcements, whoever answers whom, and
after a run as many more leave no message on its way.
Source: `network/gossip.rs`, `GossipProtocol::handle_message`
Kind: P -/
theorem deliveries_le (wiring : Wiring N) (localId : N → PeerId) (peers : N → PeerManager)
    (config : N → GossipConfig) (ops : List (NetOp N)) :
    let net := start localId peers config
    (net.deliveries wiring ops).length ≤ 3 * (net.announced wiring ops).length ∧
      ∀ now drawnId, ((net.run wiring ops).run wiring (List.replicate
        (3 * (net.announced wiring ops).length - (net.deliveries wiring ops).length)
        (.deliver 0 now drawnId))).flight = [] := by
  intro net
  have hle := measure_add_length_outputs_le (step wiring) deliveredBy traffic (receivers wiring) 3
    (traffic_step wiring) net ops
  have hzero : net.traffic = 0 := rfl
  have hbound : (net.run wiring ops).traffic + (net.deliveries wiring ops).length ≤
      3 * (net.announced wiring ops).length := by
    rw [hzero, Nat.zero_add] at hle
    exact hle
  refine ⟨by omega, fun now drawnId => flight_run_replicate wiring now drawnId _ ?_⟩
  omega

end Traffic

end GossipNet

end Ryther
