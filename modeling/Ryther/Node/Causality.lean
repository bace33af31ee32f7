import Ryther.Node.Node

/-!
# Lamport times across nodes

Any number of nodes create events and exchange gossip messages in any order. `create_event` ticks
the clock of its node; nothing else moves a clock, in particular not an event that arrives. So a
clock counts the own events of its node, while the parents it takes may carry the larger count of
another.

* `Network`, `NetStep`, `creations` — a run of the network and the events created in it, each with
  the state of its node before.
* `clock_of_creation` — a clock counts the own events.
* `lamport_times_increase_iff` — events are later than their parents exactly in the runs where
  every node has created at least as many events as any parent it takes has for its time.
* `slow_node_breaks_causality` — a node that starts late.
-/

namespace Ryther

open Lib

variable {N : Type}

/-! ### Networks -/

/-- The nodes of a network.
Kind: D -/
abbrev Network (N : Type) := N → FullNode

/-- A step of one node: it creates an event and inserts it, or its gossip protocol acts, for example
on an event response.
Kind: D -/
inductive NetStep (N : Type) where
  | create (n : N)
  | gossip (n : N) (op : GossipOp)

/-- A created event, with its node and the state of the node before.
Kind: D -/
structure Creation (N : Type) where
  creator : N
  node : FullNode
  event : DagEvent

/-! ### Times of events and their parents -/

/-- The event is later than those of its strong parents that its creator has.
Kind: D -/
def Creation.LaterThanParents (c : Creation N) : Prop :=
  ∀ id ∈ c.event.strongParents, ∀ parent, c.node.dag.get id = some parent →
    parent.lamportTime < c.event.lamportTime

/-- The events of the highest round and the latest own event in the store have times up to the
number of events the node has created before, and that number is not one below a multiple of
`2 ^ 64`.
Kind: D -/
def Creation.ParentsWithin (c : Creation N) (own : ℕ) : Prop :=
  ∀ validatorId, c.node.validatorId = some validatorId → ∀ id,
    (∃ e ∈ c.node.dag.eventsAtRound c.node.dag.maxRound, e.id = id) ∨
        c.node.dag.latestFrom validatorId = some id →
      ∀ parent, c.node.dag.get id = some parent →
        parent.lamportTime.toNat ≤ own % 2 ^ 64 ∧ own % 2 ^ 64 ≠ 2 ^ 64 - 1

/-- The time of a new event is above those of its parents exactly if none of them is above the
creator's own count. Kind: L -/
theorem Creation.laterThanParents_iff {sha256 : List UInt8 → Bytes 32} {c : Creation N}
    {node' : FullNode} {own : ℕ} (hcreate : c.node.createEvent sha256 = (some c.event, node'))
    (hclock : c.node.clock.value.toNat = own % 2 ^ 64) :
    c.LaterThanParents ↔ c.ParentsWithin own := by
  obtain ⟨validatorId, key, hid, -, hevent, -⟩ := FullNode.createEvent_eq_some hcreate
  have hparents : c.event.strongParents = c.node.parentsFor validatorId := by rw [hevent]
  have htime : c.event.lamportTime = c.node.clock.tick.1 := by
    rw [hevent]
    rfl
  have hmax : c.node.clock.value ≠ u64Max ↔ own % 2 ^ 64 ≠ 2 ^ 64 - 1 := by
    rw [← hclock, ne_eq, ne_eq, ← UInt64.toNat_inj]
    rfl
  unfold LaterThanParents ParentsWithin
  simp only [hid, Option.some.injEq, forall_eq', hparents, FullNode.mem_parentsFor, htime,
    LamportClock.lt_tick_iff, hmax, UInt64.le_iff_toNat_le, hclock]

/-! ### Runs and clocks -/

namespace Network

variable [DecidableEq N] (sha256 : List UInt8 → Bytes 32)

/-- The network after one step of one node. Kind: D -/
def step (net : Network N) : NetStep N → Network N
  | .create n => Function.update net n ((net n).produce sha256).2
  | .gossip n op => Function.update net n { net n with gossip := (net n).gossip.step op }

/-- The event that a step creates.
Kind: D -/
def created (net : Network N) : NetStep N → Option (Creation N)
  | .create n => ((net n).produce sha256).1.map fun event => ⟨n, net n, event⟩
  | .gossip _ _ => none

/-- The events created in a run, in order.
Kind: D -/
def creations (net : Network N) : List (NetStep N) → List (Creation N)
  | [] => []
  | step :: steps => (net.created sha256 step).toList ++ (net.step sha256 step).creations steps

variable {sha256}

/-- A creation comes from a step of its creator, whose node inserts the event. Kind: L -/
theorem created_eq_some {net : Network N} {step : NetStep N} {c : Creation N}
    (h : net.created sha256 step = some c) :
    step = .create c.creator ∧ c.node = net c.creator ∧
      ∃ node', c.node.createEvent sha256 = (some c.event, node') ∧
        net.step sha256 step = Function.update net c.creator (node'.insertEvent c.event) := by
  cases step with
  | gossip n op => cases h
  | create n =>
      obtain ⟨event, hevent, rfl⟩ := Option.map_eq_some_iff.mp h
      rcases (net n).produce_cases sha256 with hnone | ⟨event', node', hcreate, hproduce⟩
      · rw [hnone] at hevent
        cases hevent
      · rw [hproduce] at hevent
        cases hevent
        refine ⟨rfl, rfl, node', hcreate, ?_⟩
        show Function.update net n ((net n).produce sha256).2 = _
        rw [hproduce]

/-- A step that creates nothing leaves all clocks. Kind: L -/
theorem clock_step_of_none {net : Network N} {step : NetStep N}
    (h : net.created sha256 step = none) (n : N) :
    (net.step sha256 step n).clock = (net n).clock := by
  cases step with
  | gossip m op =>
      show (Function.update net m _ n).clock = _
      by_cases hn : n = m
      · subst hn
        rw [Function.update_self]
      · rw [Function.update_of_ne hn]
  | create m =>
      have hnone : ((net m).produce sha256).1 = none := Option.map_eq_none_iff.mp h
      show (Function.update net m ((net m).produce sha256).2 n).clock = _
      rcases (net m).produce_cases sha256 with heq | ⟨event, node', -, hproduce⟩
      · rw [heq, Function.update_eq_self]
      · rw [hproduce] at hnone
        cases hnone

/-- A created event moves the clock of its creator by one. Kind: L -/
theorem clock_step_of_some {net : Network N} {step : NetStep N} {c : Creation N}
    (h : net.created sha256 step = some c) {count : N → ℕ}
    (hcount : ∀ n, (net n).clock.value.toNat = count n % 2 ^ 64) (n : N) :
    (net.step sha256 step n).clock.value.toNat =
      (count n + if c.creator = n then 1 else 0) % 2 ^ 64 := by
  obtain ⟨-, hnode, node', hcreate, hstep⟩ := created_eq_some h
  obtain ⟨-, -, -, -, -, rfl⟩ := FullNode.createEvent_eq_some hcreate
  rw [hstep]
  by_cases hn : n = c.creator
  · subst hn
    rw [Function.update_self, if_pos rfl]
    show (c.node.clock.value + 1).toNat = _
    rw [UInt64.toNat_add, hnode, hcount]
    exact Nat.mod_add_mod _ _ _
  · rw [Function.update_of_ne hn, if_neg (Ne.symm hn), hcount n, Nat.add_zero]

/-- **A clock counts the own events**, from what it showed before the run on. By induction on the
steps. Kind: L -/
theorem clock_of_creation {steps : List (NetStep N)} :
    ∀ {net : Network N} {count : N → ℕ},
      (∀ n, (net n).clock.value.toNat = count n % 2 ^ 64) →
      ∀ {earlier later : List (Creation N)} {c : Creation N},
        net.creations sha256 steps = earlier ++ c :: later →
        c.node.clock.value.toNat =
          (count c.creator + earlier.countP (·.creator = c.creator)) % 2 ^ 64 := by
  induction steps with
  | nil =>
      intro net count _ earlier later c h
      simp [creations] at h
  | cons step steps ih =>
      intro net count hcount earlier later c h
      rw [creations] at h
      cases hcreated : net.created sha256 step with
      | none =>
          rw [hcreated, Option.toList_none, List.nil_append] at h
          exact ih (fun n => by rw [clock_step_of_none hcreated, hcount n]) h
      | some first =>
          rw [hcreated, Option.toList_some, List.singleton_append] at h
          cases earlier with
          | nil =>
              cases h
              rw [(created_eq_some hcreated).2.1, hcount, List.countP_nil, Nat.add_zero]
          | cons first' earlier =>
              obtain ⟨rfl, hrest⟩ := List.cons.inj h
              rw [ih (clock_step_of_some hcreated hcount) hrest, List.countP_cons, Nat.add_assoc]
              congr 2
              rw [Nat.add_comm]
              simp

/-- Every creation of a run is a call of `create_event` that returned the event. Kind: L -/
theorem exists_createEvent_of_mem {steps : List (NetStep N)} :
    ∀ {net : Network N} {c : Creation N}, c ∈ net.creations sha256 steps →
      ∃ node', c.node.createEvent sha256 = (some c.event, node') := by
  induction steps with
  | nil =>
      intro net c h
      cases h
  | cons step steps ih =>
      intro net c h
      rcases List.mem_append.mp h with h | h
      · obtain ⟨-, -, node', hcreate, -⟩ := created_eq_some (Option.mem_toList.mp h)
        exact ⟨node', hcreate⟩
      · exact ih h

/-- **When every event is later than its parents.** The nodes start new, with any configurations and
keys; the steps are any interleaving of creations and gossip.
Source: `node/node.rs`, `RytherNode::create_event`; `types/lamport.rs`
Kind: P -/
theorem lamport_times_increase_iff (sha256 : List UInt8 → Bytes 32) (config : N → NodeConfig)
    (peerId : N → PeerId) (key : N → Option SecretKey) (steps : List (NetStep N)) :
    let net : Network N := fun n => .new (config n) (peerId n) (key n)
    (∀ c ∈ net.creations sha256 steps, c.LaterThanParents) ↔
      ∀ earlier c later, net.creations sha256 steps = earlier ++ c :: later →
        c.ParentsWithin (earlier.countP (·.creator = c.creator)) := by
  intro net
  have hiff : ∀ earlier c later, net.creations sha256 steps = earlier ++ c :: later →
      (c.LaterThanParents ↔ c.ParentsWithin (earlier.countP (·.creator = c.creator))) := by
    intro earlier c later h
    have hmem : c ∈ net.creations sha256 steps := by
      rw [h]
      exact List.mem_append_right _ List.mem_cons_self
    obtain ⟨node', hcreate⟩ := exists_createEvent_of_mem hmem
    have hstart : ∀ n, (net n).clock.value.toNat = (fun _ => 0) n % 2 ^ 64 := fun n => rfl
    have hclock := clock_of_creation hstart h
    rw [Nat.zero_add] at hclock
    exact Creation.laterThanParents_iff hcreate hclock
  constructor
  · intro h earlier c later heq
    refine (hiff earlier c later heq).mp (h c ?_)
    rw [heq]
    exact List.mem_append_right _ List.mem_cons_self
  · intro h c hc
    obtain ⟨earlier, later, heq⟩ := List.append_of_mem hc
    exact (hiff earlier c later heq).mpr (h earlier c later heq)

end Network

/-! ### A node that starts late -/

/-- The secret keys 1 and 2, with their public keys. Signatures are not looked at.
Kind: D -/
def sampleKey : Bool → SecretKey
  | false =>
      ⟨⟨beBytes 24 0x97f1d3a73197d7942695638c4fa9ac0fc3688c4f9774b905 ++
        beBytes 24 0xa14e3a3f171bac586c55e83ff97a1aeffb3af00adb22c6bb, by simp⟩,
        fun _ => .fill 96 0⟩
  | true =>
      ⟨⟨beBytes 24 0xa572cbea904d67468808c8eb50a9450c9721db3091280125 ++
        beBytes 24 0x43902d0ac358a62ae28f75bb8f1c7c42c39a8c5529bf0f4e, by simp⟩,
        fun _ => .fill 96 0⟩

/-- The digests of SHA-256 for three events of the first node, one on the other, and one of the
second node on the last of them.
Kind: D -/
def lateStartSha256 : List UInt8 → Bytes 32 :=
  let key : Bool → List UInt8 := fun n => (sampleKey n).publicKey.toList
  let id₁ := 70824339771253112706814987694565947985886971693749282963225282061611819420712
  let id₂ := 21994128948409645680810025386259058952679692160078189216248636072940288405201
  let id₃ := 17743927323182909685590556714314441202502656656443459754908784643134718237446
  tableHash
    [(key false ++ leBytes 8 1, id₁),
      (key false ++ leBytes 8 2 ++ beBytes 32 id₁, id₂),
      (key false ++ leBytes 8 3 ++ beBytes 32 id₂, id₃),
      (key true ++ leBytes 8 4 ++ beBytes 32 id₃,
        63118623752210343702696540808439640549473284896962296994439168776732849127382)]

/-- **A slow node breaks causality.** The first node creates three events, the second receives them
in one event response and creates its first event: its time is 1, that of its parent 3. Each pair
below is the time of a created event with those of its parents. Kind: P -/
theorem Network.slow_node_breaks_causality :
    let net : Network Bool := fun n => .new ⟨⟨[]⟩⟩ (.fill 32 n.toUInt8) (some (sampleKey n))
    let first : List (NetStep Bool) := [.create false, .create false, .create false]
    let events := (net.creations lateStartSha256 first).map (·.event)
    let response : NetworkMessage :=
      ⟨1, .fill 16 1, .fill 32 0, .eventResponse ⟨events, []⟩⟩
    let steps := first ++ [.gossip true (.message 0 (.fill 16 0) response), .create true]
    (net.creations lateStartSha256 steps).map (fun c =>
        (c.event.lamportTime, c.event.strongParents.filterMap fun id =>
          (c.node.dag.get id).map (·.lamportTime))) =
      [(1, []), (2, [1]), (3, [2]), (1, [3])] := by
  decide +kernel

end Ryther
