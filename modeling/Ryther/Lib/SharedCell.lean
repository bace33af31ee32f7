import Mathlib.Logic.Function.Basic
import Mathlib.Order.Defs.Unbundled

/-!
# A shared cell with atomic updates

Callers update one cell and get its new value back. Some updates are a single atomic step; the
others load the value, compute the new one, and exchange it if the cell still has the loaded value,
or else try again. The steps of different callers interleave in any order.

* `CellState.step`, `CellState.run` — the steps and their runs. The state records the finished calls
  with the value of the cell when they were made.
* `CellState.step_cases` — a step leaves the cell alone, or one request takes effect on the value
  the cell has at that moment.
* `CellState.run_linearizes` — the finished calls returned what they return one after the other.
* `CellState.Ascending` — if every effect is later than the value it replaces, the values only grow,
  every answer is later than all before it, and than the value when the call was made.
-/

namespace Ryther.Lib

/-- Requests to a cell: what they make of its value, which they return, and whether they do it in
one step.
Kind: D -/
structure CellOps (Request Value : Type) where
  update : Request → Value → Value
  atomic : Request → Bool

/-- Where a caller stands. `start` is the value of the cell when the call was made.
Kind: D -/
inductive Phase (Request Value : Type) where
  | idle
  | calling (request : Request) (start : Value)
  | loaded (request : Request) (start current : Value)

/-- The value of the cell when the call was made.
Kind: D -/
def Phase.start? {Request Value : Type} : Phase Request Value → Option Value
  | .idle => none
  | .calling _ start => some start
  | .loaded _ start _ => some start

/-- A finished call.
Kind: D -/
structure Outcome (Request Value : Type) where
  request : Request
  start : Value
  returned : Value

/-- An atomic step of a caller.
Kind: D -/
inductive CellAction (Caller Request : Type) where
  | call (caller : Caller) (request : Request)
  | load (caller : Caller)
  | exchange (caller : Caller)

/-- The value of the cell, where every caller is, and the calls that have returned. Kind: D -/
structure CellState (Caller Request Value : Type) where
  value : Value
  phase : Caller → Phase Request Value
  finished : List (Outcome Request Value)

namespace CellState

variable {Caller Request Value : Type}

/-- No calls yet.
Kind: D -/
def init (value : Value) : CellState Caller Request Value := ⟨value, fun _ => .idle, []⟩

variable [DecidableEq Caller]

/-- One caller moves on to another phase. Kind: D -/
def setPhase (s : CellState Caller Request Value) (caller : Caller)
    (phase : Phase Request Value) : CellState Caller Request Value :=
  { s with phase := Function.update s.phase caller phase }

/-- The call returns the new value of the cell.
Kind: D -/
def finish (s : CellState Caller Request Value) (caller : Caller) (request : Request)
    (start new : Value) : CellState Caller Request Value where
  value := new
  phase := Function.update s.phase caller .idle
  finished := s.finished ++ [⟨request, start, new⟩]

/-- What is known of the calls under way: each was made at one of these values.
Kind: D -/
def StartsIn (P : Value → Prop) (s : CellState Caller Request Value) : Prop :=
  ∀ caller start, (s.phase caller).start? = some start → P start

/-- If one caller moves to a phase whose start is good, all starts stay good. Kind: L -/
theorem startsIn_update {P : Value → Prop} {s s' : CellState Caller Request Value}
    {caller : Caller} {phase : Phase Request Value} (h : s.StartsIn P)
    (hphase : s'.phase = Function.update s.phase caller phase)
    (hstart : ∀ start, phase.start? = some start → P start) : s'.StartsIn P := by
  intro caller' start hcall
  rw [hphase] at hcall
  rcases eq_or_ne caller' caller with rfl | hne
  · rw [Function.update_self] at hcall
    exact hstart start hcall
  · rw [Function.update_of_ne hne] at hcall
    exact h caller' start hcall

variable [DecidableEq Value] (ops : CellOps Request Value)

/-- One step. A caller that does not stand where the step begins does nothing.
Kind: D -/
def step (s : CellState Caller Request Value) :
    CellAction Caller Request → CellState Caller Request Value
  | .call caller request =>
      match s.phase caller with
      | .idle =>
          if ops.atomic request then s.finish caller request s.value (ops.update request s.value)
          else s.setPhase caller (.calling request s.value)
      | _ => s
  | .load caller =>
      match s.phase caller with
      | .calling request start => s.setPhase caller (.loaded request start s.value)
      | _ => s
  | .exchange caller =>
      match s.phase caller with
      | .loaded request start current =>
          let new := ops.update request current
          if s.value = current then s.finish caller request start new
          -- another call came in between; the loop starts again
          else s.setPhase caller (.calling request start)
      | _ => s

/-- The cell after some actions, in their order. Kind: D -/
def run (s : CellState Caller Request Value) (actions : List (CellAction Caller Request)) :
    CellState Caller Request Value :=
  actions.foldl (step ops) s

/-- The values of the cell in a run, before each step and at the end.
Kind: D -/
def values (s : CellState Caller Request Value) : List (CellAction Caller Request) → List Value
  | [] => [s.value]
  | action :: actions => s.value :: (s.step ops action).values actions

/-- The request that takes effect in a step, with the value of the cell when the call was made.
Kind: D -/
def effect (s : CellState Caller Request Value) :
    CellAction Caller Request → Option (Request × Value)
  | .call caller request =>
      match s.phase caller with
      | .idle => if ops.atomic request then some (request, s.value) else none
      | _ => none
  | .load _ => none
  | .exchange caller =>
      match s.phase caller with
      | .loaded request start current => if s.value = current then some (request, start) else none
      | _ => none

/-- Every request that takes effect in a run satisfies a condition together with the value that the
cell has before it.
Kind: D -/
def Effects (P : Request → Value → Prop) (s : CellState Caller Request Value) :
    List (CellAction Caller Request) → Prop
  | [] => True
  | action :: actions =>
      (∀ request start, s.effect ops action = some (request, start) → P request s.value) ∧
        Effects P (s.step ops action) actions

variable {ops} {s : CellState Caller Request Value}

/-! ### What a step does -/

variable (ops) in
/-- **What a step can do.** It leaves the cell and the finished calls alone, or one request takes
effect on the value of the cell and its call is finished. In both cases a call under way was under
way before, or was made just now.
Kind: P -/
theorem step_cases (s : CellState Caller Request Value) (action : CellAction Caller Request) :
    (s.effect ops action = none ∧ (s.step ops action).value = s.value ∧
        (s.step ops action).finished = s.finished ∧
        ∀ P : Value → Prop, P s.value → s.StartsIn P → (s.step ops action).StartsIn P) ∨
      ∃ request start, s.effect ops action = some (request, start) ∧
        (s.step ops action).value = ops.update request s.value ∧
        (s.step ops action).finished =
          s.finished ++ [⟨request, start, ops.update request s.value⟩] ∧
        ∀ P : Value → Prop, P s.value → s.StartsIn P →
          P start ∧ (s.step ops action).StartsIn P := by
  rcases action with ⟨caller, request⟩ | caller | caller
  · rcases hphase : s.phase caller with _ | ⟨request', start⟩ | ⟨request', start, current⟩
    · by_cases hatomic : ops.atomic request
      · right
        refine ⟨request, s.value, ?_⟩
        simp only [effect, step, hphase, hatomic, if_true]
        refine ⟨trivial, rfl, rfl, fun P hvalue hstarts => ⟨hvalue, ?_⟩⟩
        exact startsIn_update hstarts rfl fun start h => by cases h
      · left
        simp only [effect, step, hphase, hatomic]
        refine ⟨rfl, rfl, rfl, fun P hvalue hstarts => ?_⟩
        refine startsIn_update hstarts rfl fun start h => ?_
        cases h
        exact hvalue
    all_goals
      left
      simp only [effect, step, hphase]
      exact ⟨trivial, trivial, trivial, fun P _ hstarts => hstarts⟩
  · left
    rcases hphase : s.phase caller with _ | ⟨request, start⟩ | ⟨request, start, current⟩
    · simp only [effect, step, hphase]
      exact ⟨trivial, trivial, trivial, fun P _ hstarts => hstarts⟩
    · simp only [effect, step, hphase]
      refine ⟨trivial, rfl, rfl, fun P _ hstarts => ?_⟩
      refine startsIn_update hstarts rfl fun start' h => hstarts caller start' ?_
      rw [hphase]
      exact h
    · simp only [effect, step, hphase]
      exact ⟨trivial, trivial, trivial, fun P _ hstarts => hstarts⟩
  · rcases hphase : s.phase caller with _ | ⟨request, start⟩ | ⟨request, start, current⟩
    · left
      simp only [effect, step, hphase]
      exact ⟨trivial, trivial, trivial, fun P _ hstarts => hstarts⟩
    · left
      simp only [effect, step, hphase]
      exact ⟨trivial, trivial, trivial, fun P _ hstarts => hstarts⟩
    · have hcall : (s.phase caller).start? = some start := by rw [hphase]; rfl
      by_cases hvalue : s.value = current
      · right
        refine ⟨request, start, ?_⟩
        simp only [effect, step, hphase, hvalue, if_true]
        refine ⟨trivial, rfl, rfl, fun P _ hstarts => ⟨hstarts caller start hcall, ?_⟩⟩
        exact startsIn_update hstarts rfl fun start' h => by cases h
      · left
        simp only [effect, step, hphase, hvalue, if_false]
        refine ⟨trivial, rfl, rfl, fun P _ hstarts => ?_⟩
        refine startsIn_update hstarts rfl fun start' h => hstarts caller start' ?_
        rw [hphase]
        exact h

/-! ### One call after the other -/

/-- What some requests return one after the other.
Kind: D -/
def sequential (ops : CellOps Request Value) : Value → List Request → List Value
  | _, [] => []
  | value, request :: requests =>
      ops.update request value :: sequential ops (ops.update request value) requests

/-- A call that has returned stays so. Kind: L -/
theorem finished_extends (s : CellState Caller Request Value)
    (actions : List (CellAction Caller Request)) :
    s.finished <+: (s.run ops actions).finished := by
  induction actions generalizing s with
  | nil => exact List.prefix_rfl
  | cons action actions ih =>
      refine List.IsPrefix.trans ?_ (ih (s.step ops action))
      rcases step_cases ops s action with ⟨-, -, h, -⟩ | ⟨request, start, -, -, h, -⟩
      · exact ⟨[], by rw [h, List.append_nil]⟩
      · exact ⟨_, h.symm⟩

variable (ops) in
/-- **Calls take effect one after the other.** The calls finished in a run returned what the same
requests return when each is a single step, in the order in which they finished. Kind: P -/
theorem run_linearizes (s : CellState Caller Request Value)
    (actions : List (CellAction Caller Request)) :
    ∃ new, (s.run ops actions).finished = s.finished ++ new ∧
      new.map Outcome.returned = sequential ops s.value (new.map Outcome.request) ∧
      (s.run ops actions).value = (new.map Outcome.returned).getLastD s.value := by
  induction actions generalizing s with
  | nil => exact ⟨[], (List.append_nil _).symm, rfl, rfl⟩
  | cons action actions ih =>
      obtain ⟨new, hfinished, hreturned, hvalue⟩ := ih (s.step ops action)
      rcases step_cases ops s action with
        ⟨-, hsame, hnone, -⟩ | ⟨request, start, -, hnew, hone, -⟩
      · rw [hsame] at hreturned hvalue
        rw [hnone] at hfinished
        exact ⟨new, hfinished, hreturned, hvalue⟩
      · rw [hnew] at hreturned hvalue
        rw [hone, List.append_assoc] at hfinished
        refine ⟨_, hfinished, ?_, ?_⟩
        · exact congrArg (List.cons _) hreturned
        · exact hvalue.trans List.getLastD_cons.symm

/-- What every effect ensures holds of every finished call. Kind: L -/
theorem finished_of_effects {P Q : Request → Value → Prop}
    (hPQ : ∀ request value, P request value → Q request (ops.update request value))
    {actions : List (CellAction Caller Request)} (heffects : s.Effects ops P actions)
    (h : ∀ o ∈ s.finished, Q o.request o.returned) :
    ∀ o ∈ (s.run ops actions).finished, Q o.request o.returned := by
  induction actions generalizing s with
  | nil => exact h
  | cons action actions ih =>
      refine ih heffects.2 ?_
      rcases step_cases ops s action with
        ⟨-, -, hsame, -⟩ | ⟨request, start, heq, -, hone, -⟩
      · rw [hsame]
        exact h
      · rw [hone]
        intro o ho
        rcases List.mem_append.mp ho with ho | ho
        · exact h o ho
        · rw [List.mem_singleton.mp ho]
          exact hPQ request s.value (heffects.1 request start heq)

/-- A weaker property holds of the effects of a run as well. Kind: L -/
theorem Effects.mono {P Q : Request → Value → Prop}
    (hPQ : ∀ request value, P request value → Q request value)
    {actions : List (CellAction Caller Request)} (h : s.Effects ops P actions) :
    s.Effects ops Q actions := by
  induction actions generalizing s with
  | nil => trivial
  | cons action actions ih =>
      exact ⟨fun request start heq => hPQ _ _ (h.1 request start heq), ih h.2⟩

/-! ### Effects that ascend -/

section Ascending

variable (r : Value → Value → Prop) [IsTrans Value r]

/-- What holds in a run whose effects ascend: calls under way were made at values that are not later
than the present one, and the answers ascend up to it.
Kind: D -/
structure Ascending (s : CellState Caller Request Value) : Prop where
  starts : s.StartsIn fun start => start = s.value ∨ r start s.value
  returned_le : ∀ o ∈ s.finished, o.returned = s.value ∨ r o.returned s.value
  pairwise : s.finished.Pairwise fun o o' => r o.returned o'.returned
  start_lt : ∀ o ∈ s.finished, r o.start o.returned

omit [DecidableEq Caller] [DecidableEq Value] [IsTrans Value r] in
/-- In the beginning no call is under way and none has returned. Kind: L -/
theorem ascending_init (value : Value) :
    (init value : CellState Caller Request Value).Ascending r where
  starts _ _ h := by cases h
  returned_le _ h := by cases h
  pairwise := List.Pairwise.nil
  start_lt _ h := by cases h

variable {r}

/-- A step whose effect, if there is one, ascends. Kind: L -/
theorem ascending_step (h : s.Ascending r) {action : CellAction Caller Request}
    (heffect : ∀ request start, s.effect ops action = some (request, start) →
      r s.value (ops.update request s.value)) :
    (s.step ops action).Ascending r ∧
      ((s.step ops action).value = s.value ∨ r s.value (s.step ops action).value) := by
  rcases step_cases ops s action with
    ⟨-, hvalue, hfinished, hstarts⟩ | ⟨request, start, heq, hvalue, hfinished, hstarts⟩
  · refine ⟨⟨?_, ?_, ?_, ?_⟩, .inl hvalue⟩
    · rw [hvalue]
      exact hstarts _ (.inl rfl) h.starts
    · rw [hvalue, hfinished]
      exact h.returned_le
    · rw [hfinished]
      exact h.pairwise
    · rw [hfinished]
      exact h.start_lt
  · have hlt := heffect request start heq
    -- whatever was not later than the old value is before the new one
    have hbefore : ∀ v, v = s.value ∨ r v s.value → r v (ops.update request s.value) := by
      rintro v (rfl | hv)
      · exact hlt
      · exact trans_of r hv hlt
    obtain ⟨hstart, hstarts⟩ := hstarts _ (.inl rfl) h.starts
    refine ⟨⟨?_, ?_, ?_, ?_⟩, .inr (hvalue ▸ hlt)⟩
    · intro caller start' hcall
      rw [hvalue]
      exact .inr (hbefore _ (hstarts caller start' hcall))
    · rw [hvalue, hfinished]
      intro o ho
      rcases List.mem_append.mp ho with ho | ho
      · exact .inr (hbefore _ (h.returned_le o ho))
      · rw [List.mem_singleton.mp ho]
        exact .inl rfl
    · rw [hfinished]
      refine List.pairwise_append.mpr ⟨h.pairwise, List.pairwise_singleton _ _, ?_⟩
      intro o ho o' ho'
      rw [List.mem_singleton.mp ho']
      exact hbefore _ (h.returned_le o ho)
    · rw [hfinished]
      intro o ho
      rcases List.mem_append.mp ho with ho | ho
      · exact h.start_lt o ho
      · rw [List.mem_singleton.mp ho]
        exact hbefore _ hstart

/-- **A run whose effects ascend.** By induction on the steps; the values that follow are not before
the present one. Kind: P -/
theorem ascending_run (h : s.Ascending r) {actions : List (CellAction Caller Request)}
    (heffects : s.Effects ops (fun request value => r value (ops.update request value)) actions) :
    (s.run ops actions).Ascending r ∧
      (s.values ops actions).Pairwise (fun v w => w = v ∨ r v w) ∧
      ∀ w ∈ s.values ops actions, w = s.value ∨ r s.value w := by
  induction actions generalizing s with
  | nil =>
      refine ⟨h, List.pairwise_singleton _ _, fun w hw => ?_⟩
      exact .inl (List.mem_singleton.mp hw)
  | cons action actions ih =>
      obtain ⟨hstep, hle⟩ := ascending_step h heffects.1
      obtain ⟨hrun, hpairwise, hlater⟩ := ih hstep heffects.2
      have hfirst : ∀ w ∈ (s.step ops action).values ops actions, w = s.value ∨ r s.value w := by
        intro w hw
        rcases hlater w hw with hw | hw
        · rw [hw]
          exact hle
        · rcases hle with hsame | hlt
          · rw [← hsame]
            exact .inr hw
          · exact .inr (trans_of r hlt hw)
      refine ⟨hrun, List.pairwise_cons.mpr ⟨hfirst, hpairwise⟩, fun w hw => ?_⟩
      rcases List.mem_cons.mp hw with rfl | hw
      · exact .inl rfl
      · exact hfirst w hw

end Ascending

end CellState

end Ryther.Lib
