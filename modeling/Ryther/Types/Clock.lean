import Ryther.Lib.SharedCell
import Ryther.Types.Lamport

/-!
# Lamport clocks with many callers

The clock of `src/types/lamport.rs` is an `AtomicU64`. `tick` is one `fetch_add`; `witness` loads
the value and exchanges it for a later one, and starts again if another call came in between;
`witness_many` is `witness` of the largest timestamp. Here the steps of any callers interleave.

* `clock_linearizes` — the calls return what the methods of `LamportClock` return one after the
  other, so that model stands for the concurrent clock too.
* `clock_sound_iff` — the clock never goes back, returns no value twice and stays ahead of what it
  witnessed exactly if no call takes effect at the top of the range: there the addition wraps.
-/

namespace Ryther

open Lib

/-- A call of a method that moves the clock.
Source: `types/lamport.rs`, `LamportClock::tick`, `LamportClock::witness`,
`LamportClock::witness_many`
Kind: D -/
inductive ClockRequest where
  | tick
  | witness (received : UInt64)
  | witnessMany (timestamps : List UInt64)
  deriving DecidableEq

namespace ClockRequest

/-- The call as a single step.
Kind: D -/
def apply : ClockRequest → LamportClock → UInt64 × LamportClock
  | .tick, clock => clock.tick
  | .witness received, clock => clock.witness received
  | .witnessMany timestamps, clock => clock.witnessMany timestamps

/-- The timestamps a call is given.
Kind: D -/
def received : ClockRequest → List UInt64
  | .tick => []
  | .witness received => [received]
  | .witnessMany timestamps => timestamps

/-- The addition does not wrap: neither the clock nor a timestamp is at the top of the range.
Kind: D -/
def NoWrap (request : ClockRequest) (value : UInt64) : Prop :=
  value ≠ u64Max ∧ u64Max ∉ request.received

instance (request : ClockRequest) (value : UInt64) : Decidable (request.NoWrap value) :=
  inferInstanceAs (Decidable (_ ∧ _))

/-- Every call returns the new value of the clock. Kind: L -/
theorem apply_snd (request : ClockRequest) (clock : LamportClock) :
    (request.apply clock).2.value = (request.apply clock).1 := by
  rcases request with _ | received | timestamps
  · rfl
  · rfl
  · rfl

end ClockRequest

/-- The clock as a shared cell; only `tick` is a single step.
Source: `types/lamport.rs`, `LamportClock`
Kind: D -/
def clockOps : CellOps ClockRequest UInt64 where
  update request value := (request.apply ⟨value⟩).1
  atomic request := request = .tick

/-! ### What a call makes of the clock -/

/-- Every call witnesses the largest of its timestamps; a tick has none. Kind: L -/
theorem update_eq_witness (request : ClockRequest) (value : UInt64) :
    clockOps.update request value =
      (LamportClock.witness ⟨value⟩ (request.received.foldl max 0)).1 := by
  rcases request with _ | received | timestamps
  · have hzero : max value 0 = value := by
      apply UInt64.toNat_inj.mp
      rw [toNat_max, UInt64.toNat_zero, Nat.max_zero]
    show value + 1 = max value 0 + 1
    rw [hzero]
  · rfl
  · rfl

/-- A call does not wrap exactly if the maximum that it adds one to is not `u64::MAX`. Kind: L -/
theorem noWrap_iff (request : ClockRequest) (value : UInt64) :
    request.NoWrap value ↔ max value (request.received.foldl max 0) ≠ u64Max := by
  have hzero : (0 : UInt64) ≠ u64Max := by decide
  rw [ClockRequest.NoWrap, ne_eq, ne_eq, max_eq_u64Max_iff, foldl_max_eq_u64Max_iff, not_or, not_or]
  exact and_congr_right fun _ => (and_iff_right hzero).symm

/-- A call that does not wrap moves the clock past its value and past the timestamps. Kind: L -/
theorem lt_update {request : ClockRequest} {value : UInt64} (h : request.NoWrap value) :
    value < clockOps.update request value ∧
      ∀ t ∈ request.received, t < clockOps.update request value := by
  rw [update_eq_witness]
  obtain ⟨hvalue, hreceived⟩ :=
    @LamportClock.lt_witness ⟨value⟩ _ ((noWrap_iff request value).mp h)
  refine ⟨hvalue, fun t ht => ?_⟩
  exact UInt64.lt_of_le_of_lt ((le_foldl_max request.received 0).2 t ht) hreceived

/-- A call that wraps sets the clock to zero. Kind: L -/
theorem update_eq_zero {request : ClockRequest} {value : UInt64} (h : ¬ request.NoWrap value) :
    clockOps.update request value = 0 := by
  rw [noWrap_iff, not_not] at h
  rw [update_eq_witness]
  exact succ_eq_zero_iff.mpr h

/-! ### Runs -/

section Runs

variable {Caller : Type} [DecidableEq Caller]

/-- What some calls return one after the other.
Kind: D -/
def LamportClock.callAll (clock : LamportClock) : List ClockRequest → List UInt64
  | [] => []
  | request :: requests =>
      let (returned, clock) := request.apply clock
      returned :: clock.callAll requests

/-- **The concurrent clock is the clock of `LamportClock`.** In the order in which they take effect,
the calls return what the methods return one after the other.
Source: `types/lamport.rs`, "Thread-safe via atomic operations"
Kind: P -/
theorem clock_linearizes (initial : UInt64) (actions : List (CellAction Caller ClockRequest)) :
    let finished := ((CellState.init initial).run clockOps actions).finished
    finished.map Outcome.returned =
      (LamportClock.withInitial initial).callAll (finished.map Outcome.request) := by
  intro finished
  have hsequential : ∀ (requests : List ClockRequest) (clock : LamportClock),
      CellState.sequential clockOps clock.value requests = clock.callAll requests := by
    intro requests
    induction requests with
    | nil => intro clock; rfl
    | cons request requests ih =>
        intro clock
        have hnext := ih (request.apply clock).2
        rw [request.apply_snd clock] at hnext
        exact congrArg (List.cons _) hnext
  obtain ⟨new, hnew, hreturned, -⟩ :=
    CellState.run_linearizes clockOps (CellState.init initial) actions
  rw [show finished = new from hnew, hreturned]
  exact hsequential _ (LamportClock.withInitial initial)

/-- A clock that never goes back and stays ahead does not wrap. By induction on the steps: a call
that wraps sets the clock to zero. Kind: L -/
theorem effects_noWrap_of_sound {s : CellState Caller ClockRequest UInt64}
    {actions : List (CellAction Caller ClockRequest)}
    (hvalues : (s.values clockOps actions).Pairwise (· ≤ ·))
    (hahead : ∀ o ∈ (s.run clockOps actions).finished, o.request ≠ .tick → o.start < o.returned) :
    s.Effects clockOps ClockRequest.NoWrap actions := by
  induction actions generalizing s with
  | nil => trivial
  | cons action actions ih =>
      obtain ⟨hfirst, hrest⟩ := List.pairwise_cons.mp hvalues
      refine ⟨fun request start heffect => ?_, ih hrest hahead⟩
      by_contra hwrap
      have hzero := update_eq_zero hwrap
      rcases CellState.step_cases clockOps s action with
        ⟨hnone, -⟩ | ⟨request', start', heffect', hvalue, hfinished, -⟩
      · rw [hnone] at heffect
        cases heffect
      obtain ⟨rfl, rfl⟩ := Prod.mk.inj (Option.some.inj (heffect'.symm.trans heffect))
      rw [hzero] at hvalue hfinished
      by_cases htick : request' = .tick
      · -- the clock was at the top and is at zero after the step
        have hhead : (s.step clockOps action).value ∈
            (s.step clockOps action).values clockOps actions := by
          rcases actions with _ | _ <;> exact List.mem_cons_self
        have hle := hfirst _ hhead
        rw [hvalue, UInt64.le_iff_toNat_le, UInt64.toNat_zero, Nat.le_zero] at hle
        have hnot : ¬ (s.value ≠ u64Max ∧ u64Max ∉ request'.received) := hwrap
        rw [htick] at hnot
        have htop : s.value = u64Max := by
          by_contra hne
          exact hnot ⟨hne, List.not_mem_nil⟩
        rw [htop] at hle
        cases hle
      · have hmem : (⟨request', start', 0⟩ : Outcome ClockRequest UInt64) ∈
            ((s.step clockOps action).run clockOps actions).finished := by
          apply (CellState.finished_extends (s.step clockOps action) actions).subset
          rw [hfinished]
          exact List.mem_append_right _ (List.mem_singleton_self _)
        have hlt := hahead _ hmem htick
        exact absurd (UInt64.lt_iff_toNat_lt.mp hlt) (Nat.not_lt_zero _)

/-- **The clock is a clock exactly if no call takes effect at the top of the range.** For any
interleaving of the steps of any callers: the value never decreases, no two calls return the same
value, and a witness returns more than all its timestamps and than the clock showed when it was
called, if and only if every call that takes effect finds the clock below `u64::MAX` and was given
no timestamp `u64::MAX`.
Source: `types/lamport.rs`, "Clock value is monotonically non-decreasing"
Kind: P -/
theorem clock_sound_iff (initial : UInt64) (actions : List (CellAction Caller ClockRequest)) :
    let s : CellState Caller ClockRequest UInt64 := .init initial
    ((s.values clockOps actions).Pairwise (· ≤ ·) ∧
        ((s.run clockOps actions).finished.map Outcome.returned).Nodup ∧
        ∀ o ∈ (s.run clockOps actions).finished, o.request ≠ .tick →
          (∀ t ∈ o.request.received, t < o.returned) ∧ o.start < o.returned) ↔
      s.Effects clockOps ClockRequest.NoWrap actions := by
  intro s
  constructor
  · rintro ⟨hvalues, -, hahead⟩
    exact effects_noWrap_of_sound hvalues fun o ho htick => (hahead o ho htick).2
  · intro heffects
    have htrans : IsTrans UInt64 (· < ·) := ⟨fun _ _ _ => UInt64.lt_trans⟩
    obtain ⟨hrun, hvalues, -⟩ := CellState.ascending_run
      (CellState.ascending_init (fun a b : UInt64 => a < b) initial)
      (heffects.mono fun request value h => (lt_update h).1)
    have hahead := CellState.finished_of_effects (s := s)
      (Q := fun request returned => ∀ t ∈ request.received, t < returned)
      (fun request value h => (lt_update h).2) heffects fun o ho => absurd ho List.not_mem_nil
    refine ⟨hvalues.imp ?_, List.pairwise_map.mpr (hrun.pairwise.imp ?_), ?_⟩
    · rintro v w (rfl | hlt)
      · exact UInt64.le_refl _
      · exact UInt64.le_of_lt hlt
    · exact fun hlt => UInt64.ne_of_lt hlt
    · exact fun o ho _ => ⟨hahead o ho, hrun.start_lt o ho⟩

end Runs

/-- A clock that shows 1 witnesses the largest timestamp and goes back to 0. Kind: P -/
theorem clock_goes_back :
    let s : CellState ℕ ClockRequest UInt64 := .init 0
    let actions : List (CellAction ℕ ClockRequest) :=
      [.call 0 .tick, .call 1 (.witness u64Max), .load 1, .exchange 1]
    s.values clockOps actions = [0, 1, 1, 1, 0] ∧
      (s.run clockOps actions).finished.map Outcome.returned = [1, 0] := by
  decide

end Ryther
