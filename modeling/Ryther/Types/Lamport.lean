import Ryther.Types.Basic

/-!
# Lamport clocks

The logical clock of `src/types/lamport.rs`. Each method is one atomic update, so a clock is its
value; the retry loop of `witness` ends with the update that succeeds.

* `LamportClock.tick`, `LamportClock.witness`, `LamportClock.witnessMany` — as in the source, with
  additions that wrap.
* `LamportClock.lt_tick_iff`, `LamportClock.lt_witness` — below the largest value, a tick and a
  witnessed time are later than what the clock showed and what it was told.
-/

namespace Ryther

/-- A counter.
Source: `types/lamport.rs`, `LamportClock`
Kind: D -/
structure LamportClock where
  value : UInt64
  deriving DecidableEq

namespace LamportClock

/-- A clock at 0.
Source: `types/lamport.rs`, `LamportClock::new`
Kind: D -/
def new : LamportClock := ⟨0⟩

/-- A clock at a given time.
Source: `types/lamport.rs`, `LamportClock::with_initial`
Kind: D -/
def withInitial (initial : UInt64) : LamportClock := ⟨initial⟩

/-- The time without a tick.
Source: `types/lamport.rs`, `LamportClock::current`
Kind: D -/
def current (clock : LamportClock) : UInt64 := clock.value

/-- The new time and the clock after it.
Source: `types/lamport.rs`, `LamportClock::tick`
Kind: D -/
def tick (clock : LamportClock) : UInt64 × LamportClock := (clock.value + 1, ⟨clock.value + 1⟩)

/-- The clock goes one past the larger of its time and the received one.
Source: `types/lamport.rs`, `LamportClock::witness`
Kind: D -/
def witness (clock : LamportClock) (received : UInt64) : UInt64 × LamportClock :=
  let newTime := max clock.value received + 1
  (newTime, ⟨newTime⟩)

/-- The clock goes one past the largest of its time and the received ones.
Source: `types/lamport.rs`, `LamportClock::witness_many`
Kind: D -/
def witnessMany (clock : LamportClock) (timestamps : List UInt64) : UInt64 × LamportClock :=
  clock.witness (timestamps.foldl max 0)

/-- A tick is later than a time exactly if the clock had reached it and does not wrap. Kind: L -/
theorem lt_tick_iff (clock : LamportClock) (time : UInt64) :
    time < clock.tick.1 ↔ time ≤ clock.value ∧ clock.value ≠ u64Max := by
  show time < clock.value + 1 ↔ _
  by_cases hmax : clock.value = u64Max
  · rw [hmax]
    refine iff_of_false ?_ fun h => h.2 rfl
    exact UInt64.not_lt.mpr (UInt64.le_iff_toNat_le.mpr (Nat.zero_le _))
  · rw [UInt64.lt_iff_toNat_lt, UInt64.le_iff_toNat_le, toNat_succ hmax, Nat.lt_succ_iff]
    exact (and_iff_left hmax).symm

/-- A clock that witnesses a time is later than the time and than before, unless it wraps.
Kind: L -/
theorem lt_witness {clock : LamportClock} {received : UInt64}
    (hmax : max clock.value received ≠ u64Max) :
    clock.value < (clock.witness received).1 ∧ received < (clock.witness received).1 := by
  have hsucc : (max clock.value received + 1).toNat =
      max clock.value.toNat received.toNat + 1 := by rw [toNat_succ hmax, toNat_max]
  show clock.value < max clock.value received + 1 ∧ received < max clock.value received + 1
  rw [UInt64.lt_iff_toNat_lt, UInt64.lt_iff_toNat_lt, hsucc]
  omega

end LamportClock

end Ryther
