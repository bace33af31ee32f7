import Ryther.Execution.Mvcc

/-!
# What `finalize` applies

`finalize` is documented to "apply all committed writes to base state". It asks each chain for what
a reader at `u64::MAX` sees, and such a reader sees pending versions and none with that number.

* `newestLive` — the version a reader at `u64::MAX` finds: the first one below it that is not
  aborted; `lookup_finalize_eq` says that its value goes into the base state.
* `DueValue` — the value the documentation asks for: that of a latest committed version, or the
  base value if nothing is committed.
* `Exposed` — the newest live version is pending, or a committed one has the number `u64::MAX`.
* `finalize_applies_committed_iff` — `finalize` applies the committed writes exactly if the key is
  not exposed or the value applied happens to be the due one.
-/

namespace Ryther

open Lib

/-! ### Versions -/

/-- The version a reader at `u64::MAX` finds.
Kind: D -/
def newestLive (versions : List StateVersion) : Option StateVersion :=
  versions.find? fun v => v.txSequence < u64Max ∧ v.status ≠ .aborted

/-- A committed version than which no committed one is newer.
Kind: D -/
def LatestCommitted (versions : List StateVersion) (v : StateVersion) : Prop :=
  v ∈ versions ∧ v.status = .committed ∧
    ∀ w ∈ versions, w.status = .committed → w.txSequence ≤ v.txSequence

/-- The loop of `read_for` stops at the first live version. Kind: L -/
theorem readForLoop_eq_find? (r : UInt64) (versions : List StateVersion) :
    VersionChain.readForLoop r versions =
      (versions.find? fun v => v.txSequence < r ∧ v.status ≠ .aborted).map
        fun v => (v.value, v.txSequence) := by
  induction versions with
  | nil => rfl
  | cons v versions ih =>
      unfold VersionChain.readForLoop
      rw [ih, List.find?_cons]
      by_cases hlt : v.txSequence < r
      · rcases hstatus : v.status <;> simp [hlt]
      · simp [hlt]

/-- A read for the largest number sees the newest live version. Kind: L -/
theorem readFor_u64Max (chain : VersionChain) :
    chain.readFor u64Max =
      (newestLive chain.versions).map fun v => (v.value, v.txSequence) :=
  readForLoop_eq_find? u64Max chain.versions

/-- Numbers other than `u64::MAX` are below it. Kind: L -/
theorem lt_u64Max {s : UInt64} (h : s ≠ u64Max) : s < u64Max := by
  rw [UInt64.lt_iff_toNat_lt]
  have hne : s.toNat ≠ u64Max.toNat := fun heq => h (UInt64.toNat_inj.mp heq)
  have hlt := s.toNat_lt
  have hmax : u64Max.toNat = 2 ^ 64 - 1 := rfl
  omega

section

variable {versions : List StateVersion} {v : StateVersion}

/-- The newest live version is one of the versions. Kind: L -/
theorem mem_of_newestLive (h : newestLive versions = some v) : v ∈ versions :=
  List.mem_of_find?_eq_some h

/-- The chain is sorted, so no live version below `u64::MAX` is newer. Kind: L -/
theorem le_of_newestLive (hsorted : Descending versions) (h : newestLive versions = some v)
    {w : StateVersion} (hw : w ∈ versions) (hlt : w.txSequence < u64Max)
    (hlive : w.status ≠ .aborted) : w.txSequence ≤ v.txSequence := by
  obtain ⟨-, before, after, rfl, hbefore⟩ := List.find?_eq_some_iff_append.mp h
  rcases List.mem_append.mp hw with hw | hw
  · have hnot := hbefore w hw
    simp [hlt, hlive] at hnot
  · rcases List.mem_cons.mp hw with rfl | hw
    · exact UInt64.le_refl _
    · exact (List.pairwise_cons.mp (List.pairwise_append.mp hsorted).2.1).1 w hw

/-- With nothing committed at `u64::MAX`, a committed newest live version is a latest committed
one. Kind: L -/
theorem latestCommitted_of_newestLive (hsorted : Descending versions)
    (h : newestLive versions = some v) (hv : v.status = .committed)
    (hmax : ∀ w ∈ versions, w.status = .committed → w.txSequence ≠ u64Max) :
    LatestCommitted versions v := by
  refine ⟨mem_of_newestLive h, hv, fun w hw hcommitted => ?_⟩
  refine le_of_newestLive hsorted h hw (lt_u64Max (hmax w hw hcommitted)) ?_
  simp [hcommitted]

/-- With nothing committed at `u64::MAX` and nothing live below it, nothing is committed. Kind: L -/
theorem not_committed_of_newestLive (h : newestLive versions = none)
    (hmax : ∀ w ∈ versions, w.status = .committed → w.txSequence ≠ u64Max) :
    ∀ w ∈ versions, w.status ≠ .committed := by
  intro w hw hcommitted
  have hnot := List.find?_eq_none.mp h w hw
  simp [lt_u64Max (hmax w hw hcommitted), hcommitted] at hnot

end

namespace MultiVersionState

/-! ### The value applied and the value due -/

/-- The value that the documentation promises after `finalize`.
Source: `execution/mvcc.rs`, "Apply all committed writes to base state"
Kind: D -/
def DueValue (state : MultiVersionState) (k : StateKey) (value : Option U256) : Prop :=
  (∃ v, LatestCommitted (state.versionsOf k) v ∧ v.value = value) ∨
    (∀ v ∈ state.versionsOf k, v.status ≠ .committed) ∧ state.getBase k = value

/-- A version that is not committed is in front, or a committed one is out of reach.
Kind: D -/
def Exposed (state : MultiVersionState) (k : StateKey) : Prop :=
  (∃ p, newestLive (state.versionsOf k) = some p ∧ p.status = .pending) ∨
    ∃ w ∈ state.versionsOf k, w.status = .committed ∧ w.txSequence = u64Max

/-- **The value applied is that of the newest live version.** Kind: P -/
theorem lookup_finalize_eq (sha256 : List UInt8 → Bytes 32) (state : MultiVersionState)
    (k : StateKey) :
    (state.finalize sha256).getBase k =
      match newestLive (state.versionsOf k) with
      | some v => v.value
      | none => state.getBase k := by
  unfold getBase
  rw [lookup_finalize, read, versionsOf]
  cases state.data.lookup k with
  | none => rfl
  | some chain =>
      simp only [Option.bind_some, readFor_u64Max]
      cases newestLive chain.versions <;> rfl

/-- A key that is not exposed gets the due value. Kind: P -/
theorem dueValue_of_not_exposed {sha256 : List UInt8 → Bytes 32} {state : MultiVersionState}
    {k : StateKey} (h : ¬ state.Exposed k) :
    state.DueValue k ((state.finalize sha256).getBase k) := by
  obtain ⟨hpending, hmax⟩ := not_or.mp h
  push Not at hpending hmax
  rw [lookup_finalize_eq]
  cases hnew : newestLive (state.versionsOf k) with
  | none => exact .inr ⟨not_committed_of_newestLive hnew hmax, rfl⟩
  | some v =>
      have hlive : v.txSequence < u64Max ∧ v.status ≠ .aborted := by
        simpa using List.find?_some hnew
      have hcommitted : v.status = .committed := by
        rcases hstatus : v.status
        · exact absurd hstatus (hpending v hnew)
        · rfl
        · exact absurd hstatus hlive.2
      refine .inl ⟨v, ?_, rfl⟩
      exact latestCommitted_of_newestLive (state.descending_versionsOf k) hnew hcommitted hmax

/-- **When `finalize` applies exactly the committed writes**: the key is not exposed, or the value
that is applied in place of the committed one does not differ from it.
Source: `execution/mvcc.rs`, "Find the latest committed version"
Kind: P -/
theorem finalize_applies_committed_iff (sha256 : List UInt8 → Bytes 32)
    (state : MultiVersionState) (k : StateKey) :
    ((state.finalize sha256).data = ∅ ∧
        state.DueValue k ((state.finalize sha256).getBase k)) ↔
      (state.Exposed k →
        match newestLive (state.versionsOf k) with
        | some p => (∃ w, LatestCommitted (state.versionsOf k) w ∧ w.value = p.value) ∨
            (∀ w ∈ state.versionsOf k, w.status ≠ .committed) ∧ state.getBase k = p.value
        | none => ∃ w, LatestCommitted (state.versionsOf k) w ∧ w.value = state.getBase k) := by
  constructor
  · rintro ⟨-, hdue⟩ hexposed
    rw [lookup_finalize_eq] at hdue
    cases hnew : newestLive (state.versionsOf k) with
    | some p => simpa [hnew, DueValue] using hdue
    | none =>
        rw [hnew] at hdue
        rcases hdue with hdue | ⟨hnone, -⟩
        · exact hdue
        · -- exposed without a live version: something is committed at `u64::MAX`
          rcases hexposed with ⟨p, hp, -⟩ | ⟨w, hw, hcommitted, -⟩
          · simp [hnew] at hp
          · exact absurd hcommitted (hnone w hw)
  · intro hvalue
    refine ⟨rfl, ?_⟩
    by_cases hexposed : state.Exposed k
    · have hvalue := hvalue hexposed
      rw [lookup_finalize_eq]
      cases hnew : newestLive (state.versionsOf k) with
      | some p => simpa [hnew, DueValue] using hvalue
      | none =>
          rw [hnew] at hvalue
          exact .inl hvalue
    · exact dueValue_of_not_exposed hexposed

/-- A pending write reaches the base state although nothing was committed, and a committed write
numbered `u64::MAX` does not reach it. Kind: P -/
theorem finalize_applies_pending_write :
    let k : StateKey := ⟨.fill 20 1, .fromU64 100⟩
    let pending := new.write k 1 (some (.fromU64 42))
    let hidden := (new.write k u64Max (some (.fromU64 7))).markCommitted k u64Max
    (pending.finalize fun _ => .fill 32 0).getBase k = some (.fromU64 42) ∧
      ¬ pending.DueValue k ((pending.finalize fun _ => .fill 32 0).getBase k) ∧
      (hidden.finalize fun _ => .fill 32 0).getBase k = none ∧
      ¬ hidden.DueValue k ((hidden.finalize fun _ => .fill 32 0).getBase k) := by
  intro k pending hidden
  have hpending : pending.versionsOf k = [⟨1, some (.fromU64 42), .pending⟩] := by decide +kernel
  have hhidden : hidden.versionsOf k = [⟨u64Max, some (.fromU64 7), .committed⟩] := by
    decide +kernel
  have happlied : (pending.finalize fun _ => .fill 32 0).getBase k = some (.fromU64 42) := by
    decide +kernel
  have hmissed : (hidden.finalize fun _ => .fill 32 0).getBase k = none := by decide +kernel
  refine ⟨happlied, ?_, hmissed, ?_⟩
  · rw [DueValue, hpending, happlied]
    rintro (⟨v, ⟨hv, hcommitted, -⟩, -⟩ | ⟨-, hbase⟩)
    · rw [List.mem_singleton.mp hv] at hcommitted
      cases hcommitted
    · cases hbase
  · rw [DueValue, hhidden, hmissed]
    rintro (⟨v, ⟨hv, -, -⟩, hvalue⟩ | ⟨hnone, -⟩)
    · rw [List.mem_singleton.mp hv] at hvalue
      cases hvalue
    · exact hnone _ List.mem_cons_self rfl

end MultiVersionState

end Ryther
