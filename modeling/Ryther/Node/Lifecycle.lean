import Mathlib.Data.List.Count
import Mathlib.Tactic.SplitIfs

/-!
# Starting and stopping a node

`start` and `stop` of `src/node/node.rs` as calls that run at the same time, one step between two
points where a call can be suspended, and `main` of `src/bin/ryther.rs`, which makes these calls. A
call of `start` returns when a signal arrives, and only `stop` sends one.

* `Lifecycle.next` — the next step of a call, unless it has to wait.
* `Lifecycle.Orderly`, `orderly_run` — where the signal and its receiver are, whoever calls `start`
  and `stop`, how often, and in whichever order the steps are taken.
* `Lifecycle.start_returns_after_stop` — a call of `start` returns after a `stop` has sent its
  signal, and at most one waits for it.
* `Program.program_waits_forever` — `main` calls `stop` once `start` has returned, so it never goes
  on: the RPC server is not started, and an interrupt kills the process.
-/

namespace Ryther

/-- The states a node goes through.
Source: `node/node.rs`, `NodeState`
Kind: D -/
inductive NodeState where
  | starting
  | syncing
  | running
  | stopping
  | stopped
  deriving DecidableEq

/-! ### The calls -/

/-- Where a call of `start` or `stop` is.
Kind: D -/
inductive CallPoint where
  | startEntered
  | startConnecting
  | startTaking
  | startWaiting
  | startReturned
  | stopEntered
  | stopSending
  | stopFinishing
  | stopReturned
  deriving DecidableEq

/-- Whether a call is one of `start`.
Kind: D -/
def CallPoint.ofStart : CallPoint → Bool
  | .startEntered | .startConnecting | .startTaking | .startWaiting | .startReturned => true
  | .stopEntered | .stopSending | .stopFinishing | .stopReturned => false

/-- The receiver of the shutdown signal: in the node, with a call of `start`, or gone.
Kind: D -/
inductive Receiver where
  | stored
  | held
  | dropped
  deriving DecidableEq

/-- The part of a node that the calls share, and the calls.
Source: `node/node.rs`, `state`, `shutdown_tx` and `shutdown_rx` of `RytherNode`
Kind: D -/
structure Lifecycle where
  state : NodeState
  receiver : Receiver
  /-- Signals in the channel. -/
  pending : ℕ
  calls : List CallPoint

namespace Lifecycle

/-- A new node: it is starting, the receiver of the signal is stored, and nothing was called.
Source: `node/node.rs`, `RytherNode::new`
Kind: D -/
def new : Lifecycle := ⟨.starting, .stored, 0, []⟩

/-- The next point of a call and the node there. A call of `start` that waits for the signal keeps
the lock of the receiver, so that others wait for it; the channel has room for one signal, and
sending fails once the receiver is gone.
Source: `node/node.rs`, `RytherNode::start` and `RytherNode::stop`
Kind: D -/
def next (node : Lifecycle) : CallPoint → Option (CallPoint × Lifecycle)
  | .startEntered => some (.startConnecting, { node with state := .syncing })
  | .startConnecting => some (.startTaking, { node with state := .running })
  | .startTaking =>
      match node.receiver with
      | .stored => some (.startWaiting, { node with receiver := .held })
      | .held => none
      | .dropped => some (.startReturned, node)
  | .startWaiting =>
      if 0 < node.pending then
        some (.startReturned, { node with receiver := .dropped, pending := node.pending - 1 })
      else none
  | .startReturned => none
  | .stopEntered => some (.stopSending, { node with state := .stopping })
  | .stopSending =>
      if node.receiver = .dropped then some (.stopFinishing, node)
      else if node.pending = 0 then some (.stopFinishing, { node with pending := 1 })
      else none
  | .stopFinishing => some (.stopReturned, { node with state := .stopped })
  | .stopReturned => none

/-- One step of a call.
Kind: D -/
def runCall (node : Lifecycle) (i : ℕ) : Lifecycle :=
  match node.calls[i]? with
  | none => node
  | some point =>
      match node.next point with
      | none => node
      | some (point', node') => { node' with calls := node.calls.set i point' }

/-- A new call.
Kind: D -/
def call (node : Lifecycle) (point : CallPoint) : Lifecycle :=
  { node with calls := node.calls ++ [point] }

/-! ### What holds whoever calls -/

/-- The number of calls of `stop` that are done with their signal.
Kind: D -/
def signals (node : Lifecycle) : ℕ :=
  node.calls.count .stopFinishing + node.calls.count .stopReturned

/-- The invariant: a signal, a receiver that is gone and a call of `start` that returned all come
from a call of `stop`, and the receiver is with the one call that waits.
Kind: D -/
structure Orderly (node : Lifecycle) : Prop where
  of_pending : 0 < node.pending → 0 < node.signals
  of_dropped : node.receiver = .dropped → 0 < node.signals
  of_returned : 0 < node.calls.count .startReturned → node.receiver = .dropped
  count_waiting : node.calls.count .startWaiting = if node.receiver = .held then 1 else 0

/-- A new node has no calls and no signals. Kind: L -/
theorem orderly_new : Orderly new where
  of_pending h := absurd h (Nat.lt_irrefl 0)
  of_dropped h := by cases h
  of_returned h := absurd h (Nat.lt_irrefl 0)
  count_waiting := rfl

/-- What a step does to the calls: one of them moves on. Kind: L -/
theorem count_set_point {calls : List CallPoint} {i : ℕ} {point : CallPoint}
    (h : calls[i]? = some point) (point' p : CallPoint) :
    0 < calls.count point ∧
      (calls.set i point').count p =
        calls.count p - (if point = p then 1 else 0) + if point' = p then 1 else 0 := by
  obtain ⟨hlt, hat⟩ := List.getElem?_eq_some_iff.mp h
  refine ⟨List.count_pos_iff.mpr (hat ▸ List.getElem_mem hlt), ?_⟩
  rw [List.count_set hlt, hat]
  simp only [beq_iff_eq]

/-- A step of a call, or nothing. Kind: L -/
theorem runCall_cases (node : Lifecycle) (i : ℕ) :
    node.runCall i = node ∨ ∃ point point' node', node.calls[i]? = some point ∧
      node.next point = some (point', node') ∧
      node.runCall i = { node' with calls := node.calls.set i point' } := by
  unfold runCall
  rcases hpoint : node.calls[i]? with _ | point
  · exact .inl rfl
  · dsimp only
    rcases hnext : node.next point with _ | ⟨point', node'⟩
    · exact .inl rfl
    · exact .inr ⟨point, point', node', rfl, hnext, rfl⟩

/-- A step that leaves the signal and its receiver alone keeps the invariant. Kind: L -/
theorem Orderly.frame {node node' : Lifecycle} (h : node.Orderly)
    (hreceiver : node'.receiver = node.receiver) (hpending : node'.pending = node.pending)
    (hsignals : node.signals ≤ node'.signals)
    (hwaiting : node'.calls.count .startWaiting = node.calls.count .startWaiting)
    (hreturned : node'.calls.count .startReturned = node.calls.count .startReturned) :
    node'.Orderly where
  of_pending hpos := Nat.lt_of_lt_of_le (h.of_pending (hpending ▸ hpos)) hsignals
  of_dropped hdropped := Nat.lt_of_lt_of_le (h.of_dropped (hreceiver ▸ hdropped)) hsignals
  of_returned hpos := hreceiver ▸ h.of_returned (hreturned ▸ hpos)
  count_waiting := by rw [hwaiting, hreceiver, h.count_waiting]

/-- A call that begins keeps the invariant. Kind: L -/
theorem Orderly.call {node : Lifecycle} (h : node.Orderly) {point : CallPoint}
    (hpoint : point = .startEntered ∨ point = .stopEntered) : (node.call point).Orderly := by
  have hcount : ∀ p, p ≠ .startEntered → p ≠ .stopEntered →
      (node.calls ++ [point]).count p = node.calls.count p := by
    intro p hstart hstop
    rcases hpoint with rfl | rfl
    · simp [List.count_append, Ne.symm hstart]
    · simp [List.count_append, Ne.symm hstop]
  refine h.frame rfl rfl (Nat.le_of_eq ?_) (hcount .startWaiting (by simp) (by simp))
    (hcount .startReturned (by simp) (by simp))
  exact (congrArg₂ (· + ·) (hcount .stopFinishing (by simp) (by simp))
    (hcount .stopReturned (by simp) (by simp))).symm

/-- `start` takes the receiver, or returns as it is gone. Kind: L -/
theorem Orderly.startTaking {node node' : Lifecycle} {i : ℕ} {point' : CallPoint} (h : node.Orderly)
    (hpoint : node.calls[i]? = some .startTaking)
    (hnext : node.next .startTaking = some (point', node')) :
    { node' with calls := node.calls.set i point' }.Orderly := by
  have hcount := fun p => (count_set_point hpoint point' p).2
  have hwaiting := h.count_waiting
  simp only [next] at hnext
  rcases hreceiver : node.receiver
  · -- this is the one call that waits
    simp only [hreceiver, Option.some.injEq, Prod.mk.injEq] at hnext
    obtain ⟨rfl, rfl⟩ := hnext
    refine ⟨fun hpending => ?_, by simp, fun hreturned => ?_, ?_⟩
    · simpa [signals, hcount] using h.of_pending hpending
    · have hdropped := h.of_returned (by simpa [hcount] using hreturned)
      rw [hreceiver] at hdropped
      cases hdropped
    · simp [hcount, hwaiting, hreceiver]
  · simp [hreceiver] at hnext
  · simp only [hreceiver, Option.some.injEq, Prod.mk.injEq] at hnext
    obtain ⟨rfl, rfl⟩ := hnext
    refine ⟨fun hpending => ?_, fun hdropped => ?_, fun _ => hreceiver, ?_⟩
    · simpa [signals, hcount] using h.of_pending hpending
    · simpa [signals, hcount] using h.of_dropped hdropped
    · simp [hcount, hwaiting]

/-- `start` gets the signal and drops the receiver. Kind: L -/
theorem Orderly.startWaiting {node node' : Lifecycle} {i : ℕ} {point' : CallPoint}
    (h : node.Orderly) (hpoint : node.calls[i]? = some .startWaiting)
    (hnext : node.next .startWaiting = some (point', node')) :
    { node' with calls := node.calls.set i point' }.Orderly := by
  have hcount := fun p => (count_set_point hpoint point' p).2
  simp only [next] at hnext
  split_ifs at hnext with hpending
  obtain ⟨rfl, rfl⟩ := Prod.mk.inj (Option.some.inj hnext)
  have hsignals := h.of_pending hpending
  refine ⟨fun _ => ?_, fun _ => ?_, fun _ => rfl, ?_⟩
  · simpa [signals, hcount] using hsignals
  · simpa [signals, hcount] using hsignals
  · -- no other call waits
    have hone : node.calls.count .startWaiting ≤ 1 := by
      rw [h.count_waiting]
      split_ifs <;> omega
    simpa [hcount] using Nat.sub_eq_zero_of_le hone

/-- `stop` sends the signal, or fails to as the receiver is gone. Kind: L -/
theorem Orderly.stopSending {node node' : Lifecycle} {i : ℕ} {point' : CallPoint}
    (h : node.Orderly) (hpoint : node.calls[i]? = some .stopSending)
    (hnext : node.next .stopSending = some (point', node')) :
    { node' with calls := node.calls.set i point' }.Orderly := by
  have hcount := fun p => (count_set_point hpoint point' p).2
  simp only [next] at hnext
  split_ifs at hnext
  · obtain ⟨rfl, rfl⟩ := Prod.mk.inj (Option.some.inj hnext)
    exact h.frame rfl rfl (by simp [signals, hcount]) (by simp [hcount]) (by simp [hcount])
  · obtain ⟨rfl, rfl⟩ := Prod.mk.inj (Option.some.inj hnext)
    have hsignals : 0 < (node.calls.set i .stopFinishing).count .stopFinishing +
        (node.calls.set i .stopFinishing).count .stopReturned := by
      simp only [hcount, ↓reduceIte]
      omega
    refine ⟨fun _ => hsignals, fun _ => hsignals, fun hreturned => ?_, ?_⟩
    · exact h.of_returned (by simpa [hcount] using hreturned)
    · simp [hcount, h.count_waiting]

/-- **Every step keeps the invariant.** Kind: L -/
theorem Orderly.runCall {node : Lifecycle} (h : node.Orderly) (i : ℕ) :
    (node.runCall i).Orderly := by
  rcases node.runCall_cases i with hsame | ⟨point, point', node', hpoint, hnext, hrun⟩
  · rw [hsame]
    exact h
  rw [hrun]
  have hpos := (count_set_point hpoint point' point).1
  have hcount := fun p => (count_set_point hpoint point' p).2
  rcases point
  case startEntered | startConnecting | stopEntered =>
    obtain ⟨rfl, rfl⟩ := Prod.mk.inj (Option.some.inj hnext)
    exact h.frame rfl rfl (by simp [signals, hcount]) (by simp [hcount]) (by simp [hcount])
  case startTaking => exact h.startTaking hpoint hnext
  case startWaiting => exact h.startWaiting hpoint hnext
  case stopSending => exact h.stopSending hpoint hnext
  case stopFinishing =>
    obtain ⟨rfl, rfl⟩ := Prod.mk.inj (Option.some.inj hnext)
    refine h.frame rfl rfl ?_ (by simp [hcount]) (by simp [hcount])
    simp only [signals, hcount, reduceCtorEq, ↓reduceIte]
    omega
  case startReturned | stopReturned => cases hnext

/-- What happens to a node: `start` or `stop` is called, or the call of a number takes a step.
Kind: D -/
inductive Op where
  | start
  | stop
  | step (i : ℕ)
  deriving DecidableEq

/-- The node after a call is made or takes its next step. Kind: D -/
def apply (node : Lifecycle) : Op → Lifecycle
  | .start => node.call .startEntered
  | .stop => node.call .stopEntered
  | .step i => node.runCall i

/-- A new node and what happens to it.
Kind: D -/
def run (ops : List Op) : Lifecycle := ops.foldl apply new

/-- Every call and every step of one keeps the signals, the receiver and the waiting calls in order.
Kind: L -/
theorem Orderly.apply {node : Lifecycle} (h : node.Orderly) (op : Op) :
    (node.apply op).Orderly := by
  rcases op with _ | _ | i
  · exact h.call (.inl rfl)
  · exact h.call (.inr rfl)
  · exact h.runCall i

/-- **The invariant holds in every run.** Kind: L -/
theorem orderly_run (ops : List Op) : (run ops).Orderly :=
  List.foldlRecOn ops apply orderly_new fun _ h op _ => h.apply op

/-! ### Until `stop` is called -/

/-- A node that nobody has called `stop` on.
Kind: D -/
structure Unstopped (node : Lifecycle) : Prop where
  ofStart : ∀ point ∈ node.calls, point.ofStart
  state : node.state ∈ [.starting, .syncing, .running]

/-- A new node has not been told to stop. Kind: L -/
theorem unstopped_new : Unstopped new := ⟨by simp [new], by simp [new]⟩

/-- A call of `start` remains one, and the states it sets are those of a node that runs.
Kind: L -/
theorem next_ofStart {node node' : Lifecycle} {point point' : CallPoint} (hstart : point.ofStart)
    (hstate : node.state ∈ [.starting, .syncing, .running])
    (h : node.next point = some (point', node')) :
    point'.ofStart ∧ node'.state ∈ [.starting, .syncing, .running] := by
  rcases point
  case startEntered | startConnecting =>
    obtain ⟨rfl, rfl⟩ := Prod.mk.inj (Option.some.inj h)
    exact ⟨rfl, by simp⟩
  case startTaking =>
    simp only [next] at h
    rcases hreceiver : node.receiver
    · simp only [hreceiver, Option.some.injEq, Prod.mk.injEq] at h
      obtain ⟨rfl, rfl⟩ := h
      exact ⟨rfl, hstate⟩
    · simp [hreceiver] at h
    · simp only [hreceiver, Option.some.injEq, Prod.mk.injEq] at h
      obtain ⟨rfl, rfl⟩ := h
      exact ⟨rfl, hstate⟩
  case startWaiting =>
    simp only [next] at h
    split_ifs at h
    obtain ⟨rfl, rfl⟩ := Prod.mk.inj (Option.some.inj h)
    exact ⟨rfl, hstate⟩
  case startReturned => cases h
  all_goals exact absurd hstart (by simp [CallPoint.ofStart])

/-- Only a call of `stop` tells the node to stop. Kind: L -/
theorem Unstopped.apply {node : Lifecycle} (h : node.Unstopped) (op : Op) (hop : op ≠ .stop) :
    (node.apply op).Unstopped := by
  rcases op with _ | _ | i
  · refine ⟨fun point hpoint => ?_, h.state⟩
    rcases List.mem_append.mp hpoint with hold | hnew
    · exact h.ofStart point hold
    · rw [List.mem_singleton.mp hnew]
      rfl
  · exact absurd rfl hop
  · simp only [Lifecycle.apply]
    rcases node.runCall_cases i with hsame | ⟨point, point', node', hpoint, hnext, hrun⟩
    · rw [hsame]
      exact h
    · rw [hrun]
      have hstart := h.ofStart point (List.mem_of_getElem? hpoint)
      obtain ⟨hstart', hstate'⟩ := next_ofStart hstart h.state hnext
      refine ⟨fun p hp => ?_, hstate'⟩
      rcases List.mem_or_eq_of_mem_set hp with hold | rfl
      · exact h.ofStart p hold
      · exact hstart'

/-- Without a call of `stop` no call of `start` returns. Kind: L -/
theorem Unstopped.not_returned {node : Lifecycle} (h : node.Unstopped) (horder : node.Orderly) :
    CallPoint.startReturned ∉ node.calls := by
  have hcount : ∀ point : CallPoint, point.ofStart = false → node.calls.count point = 0 := by
    intro point hpoint
    refine List.count_eq_zero.mpr fun hmem => ?_
    rw [h.ofStart point hmem] at hpoint
    cases hpoint
  have hsignals : node.signals = 0 := by
    rw [signals, hcount _ rfl, hcount _ rfl]
  intro hreturned
  have := horder.of_dropped (horder.of_returned (List.count_pos_iff.mpr hreturned))
  omega

/-- **A call of `start` returns only after a call of `stop`.** However often `start` and `stop` are
called, and in whichever order the calls take their steps: at most one call of `start` waits for the
signal; one has returned only if some call of `stop` is past sending it; and as long as `stop` is
not called the node is starting, syncing or running and every call of `start` is still going on.
Kind: P -/
theorem start_returns_after_stop (ops : List Op) :
    (run ops).calls.count .startWaiting ≤ 1 ∧
      (.startReturned ∈ (run ops).calls →
        .stopFinishing ∈ (run ops).calls ∨ .stopReturned ∈ (run ops).calls) ∧
      (.stop ∉ ops → (run ops).state ∈ [.starting, .syncing, .running] ∧
        .startReturned ∉ (run ops).calls) := by
  have horder := orderly_run ops
  refine ⟨?_, fun hreturned => ?_, fun hstop => ?_⟩
  · rw [horder.count_waiting]
    split_ifs
    · exact Nat.le_refl 1
    · exact Nat.zero_le 1
  · have hsignals := horder.of_dropped (horder.of_returned (List.count_pos_iff.mpr hreturned))
    rcases Nat.add_pos_iff_pos_or_pos.mp hsignals with hfinishing | hdone
    · exact .inl (List.count_pos_iff.mp hfinishing)
    · exact .inr (List.count_pos_iff.mp hdone)
  · have hun : (run ops).Unstopped :=
      List.foldlRecOn ops apply unstopped_new fun _ h op hop =>
        h.apply op fun heq => hstop (heq ▸ hop)
    exact ⟨hun.state, hun.not_returned horder⟩

end Lifecycle

/-! ### The program -/

/-- Where `main` is.
Kind: D -/
inductive MainPoint where
  | created
  | awaitingStart
  | started
  | awaitingInterrupt
  | awaitingStop
  | exited
  | killed
  deriving DecidableEq

/-- The program: `main`, its node, and whether the RPC server has been started.
Source: `bin/ryther.rs`, `main`
Kind: D -/
structure Program where
  main : MainPoint
  node : Lifecycle
  rpcStarted : Bool

namespace Program

/-- What happens to the program: `main` goes on, a call on the node takes a step, or the user sends
an interrupt.
Kind: D -/
inductive Op where
  | main
  | call (i : ℕ)
  | interrupt

/-- `main` once the node is created.
Kind: D -/
def new : Program := ⟨.created, .new, false⟩

/-- `main` up to the next point where it waits. Its call of `start` is the first on the node, that
of `stop` the second.
Source: `bin/ryther.rs`, `main`
Kind: D -/
def runMain (rpcEnabled : Bool) (program : Program) : Program :=
  match program.main with
  | .created => { program with main := .awaitingStart, node := program.node.apply .start }
  | .awaitingStart =>
      if program.node.calls[0]? = some .startReturned then { program with main := .started }
      else program
  | .started => { program with main := .awaitingInterrupt, rpcStarted := rpcEnabled }
  | .awaitingStop =>
      if program.node.calls[1]? = some .stopReturned then { program with main := .exited }
      else program
  | .awaitingInterrupt | .exited | .killed => program

/-- An interrupt ends the process unless `main` has come to wait for it, and is ignored after that.
Source: `bin/ryther.rs`, `main`
Kind: D -/
def interrupt (program : Program) : Program :=
  match program.main with
  | .created | .awaitingStart | .started => { program with main := .killed }
  | .awaitingInterrupt =>
      { program with main := .awaitingStop, node := program.node.apply .stop }
  | .awaitingStop | .exited | .killed => program

/-- The program after `main`, a call on the node or an interrupt takes a turn; a process that is
gone takes none. Kind: D -/
def apply (rpcEnabled : Bool) (program : Program) : Op → Program
  | .main => program.runMain rpcEnabled
  | .call i =>
      match program.main with
      | .exited | .killed => program
      | _ => { program with node := program.node.apply (.step i) }
  | .interrupt => program.interrupt

/-- The program after some turns, in their order. Kind: D -/
def run (rpcEnabled : Bool) (ops : List Op) : Program := ops.foldl (apply rpcEnabled) new

/-- The invariant of the program: `main` has not come past its call of `start`.
Kind: D -/
structure Waiting (program : Program) : Prop where
  main : program.main ∈ [.created, .awaitingStart, .killed]
  rpcStarted : program.rpcStarted = false
  orderly : program.node.Orderly
  unstopped : program.node.Unstopped

/-- A new program has not called `start` yet. Kind: L -/
theorem waiting_new : Waiting new :=
  ⟨by simp [new], rfl, Lifecycle.orderly_new, Lifecycle.unstopped_new⟩

/-- **Every step keeps the invariant.** Kind: L -/
theorem Waiting.apply {program : Program} (h : program.Waiting) (rpcEnabled : Bool) (op : Op) :
    (program.apply rpcEnabled op).Waiting := by
  obtain ⟨main, node, rpcStarted⟩ := program
  obtain ⟨hmain, hrpc, horder, hun⟩ := h
  simp only [List.mem_cons, List.not_mem_nil, or_false] at hmain
  rcases hmain with rfl | rfl | rfl
  · rcases op with _ | i | _
    · exact ⟨by simp [Program.apply, runMain], hrpc, horder.apply .start,
        hun.apply .start (by simp)⟩
    · exact ⟨by simp [Program.apply], hrpc, horder.apply (.step i), hun.apply (.step i) (by simp)⟩
    · exact ⟨by simp [Program.apply, interrupt], hrpc, horder, hun⟩
  · rcases op with _ | i | _
    · -- the call of `start` has not returned, so `main` waits on
      have hnot : node.calls[0]? ≠ some .startReturned := fun hreturned =>
        hun.not_returned horder (List.mem_of_getElem? hreturned)
      simp only [Program.apply, runMain, hnot, if_false]
      exact ⟨by simp, hrpc, horder, hun⟩
    · exact ⟨by simp [Program.apply], hrpc, horder.apply (.step i), hun.apply (.step i) (by simp)⟩
    · exact ⟨by simp [Program.apply, interrupt], hrpc, horder, hun⟩
  · rcases op with _ | i | _
    all_goals exact ⟨by simp [Program.apply, runMain, interrupt], hrpc, horder, hun⟩

/-- **The program never comes past `start`.** Whatever the order in which `main`, the calls on the
node and interrupts take their turns, and whether or not the RPC server is enabled: `main` waits for
`start`, or the process has been killed by an interrupt; the RPC server has not been started, and
the node has never been told to stop: all calls on it are calls of `start`. Kind: P -/
theorem program_waits_forever (rpcEnabled : Bool) (ops : List Op) :
    (run rpcEnabled ops).main ∈ [.created, .awaitingStart, .killed] ∧
      (run rpcEnabled ops).rpcStarted = false ∧
      (run rpcEnabled ops).node.state ∈ [.starting, .syncing, .running] ∧
      ∀ point ∈ (run rpcEnabled ops).node.calls, point.ofStart := by
  have hwaiting : (run rpcEnabled ops).Waiting :=
    List.foldlRecOn ops (apply rpcEnabled) waiting_new fun _ h op _ => h.apply rpcEnabled op
  exact ⟨hwaiting.main, hwaiting.rpcStarted, hwaiting.unstopped.state, hwaiting.unstopped.ofStart⟩

end Program

end Ryther
