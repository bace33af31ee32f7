import Ryther.Lib.Versioned
import Ryther.Storage.Jmt
import Ryther.Types.State

/-!
# The multi-version state store

`src/execution/mvcc.rs`: version chains over a base state.

* `MultiVersionState` with `read`, `write`, the status marks and `finalize`, in the source's words.
* `runOf state k q` — the versions of `k` with sequence number `q`; `runOf_write` and `runOf_mark`
  say all that writes and marks do.
* `toMemory` — the store as a `Lib.Memory`; `read_eq` reads a value and its version off it, and
  `lookup_finalize` says that `finalize` makes the base what a reader at `u64::MAX` sees.
-/

namespace Ryther

open Lib

/-- The versions of every key, the base state below them, and the tree of the base state.
Source: `execution/mvcc.rs`, `MultiVersionState`
Kind: D -/
structure MultiVersionState where
  data : HashMap StateKey VersionChain
  baseState : HashMap StateKey U256
  jmt : JellyfishMerkleTree

namespace MultiVersionState

/-- A state with nothing in it.
Source: `execution/mvcc.rs`, `MultiVersionState::new`
Kind: D -/
def new : MultiVersionState := ⟨∅, ∅, .new⟩

/-- A state with a given base; the tree is not filled.
Source: `execution/mvcc.rs`, `MultiVersionState::with_base_state`
Kind: D -/
def withBaseState (base : List (StateKey × U256)) : MultiVersionState where
  data := ∅
  baseState := base.foldl (fun m kv => m.insert kv.1 kv.2) ∅
  jmt := .new

/-! ### Reads and writes -/

/-- The value and the version a reader sees; version 0 is the base state.
Source: `execution/mvcc.rs`, `MultiVersionState::read`
Kind: D -/
def read (state : MultiVersionState) (key : StateKey) (readerSeq : UInt64) :
    Option U256 × UInt64 :=
  match (state.data.lookup key).bind fun chain => chain.readFor readerSeq with
  | some (value, version) => (value, version)
  | none => (state.baseState.lookup key, 0)

/-- A read that is recorded with the version it found.
Source: `execution/mvcc.rs`, `MultiVersionState::read_tracked`
Kind: D -/
def readTracked (state : MultiVersionState) (key : StateKey) (readerSeq : UInt64)
    (readSet : ReadSet) : Option U256 × ReadSet :=
  let (value, version) := state.read key readerSeq
  (value, readSet.record key value version)

/-- A pending version is added to the chain of its key.
Source: `execution/mvcc.rs`, `MultiVersionState::write`
Kind: D -/
def write (state : MultiVersionState) (key : StateKey) (writerSeq : UInt64)
    (value : Option U256) : MultiVersionState :=
  let version : StateVersion := ⟨writerSeq, value, .pending⟩
  let chain := (state.data.lookup key).getD .new
  { state with data := state.data.insert key (chain.addVersion version) }

/-- A write that is recorded.
Source: `execution/mvcc.rs`, `MultiVersionState::write_tracked`
Kind: D -/
def writeTracked (state : MultiVersionState) (key : StateKey) (writerSeq : UInt64)
    (value : Option U256) (writeSet : WriteSet) : MultiVersionState × WriteSet :=
  (state.write key writerSeq value, writeSet.record key value)

/-! ### Status marks -/

/-- `mark_committed` and `mark_aborted` differ in the status only.
Kind: D -/
def mark (state : MultiVersionState) (key : StateKey) (txSeq : UInt64) (status : TxStatus) :
    MultiVersionState :=
  match state.data.lookup key with
  | some chain => { state with data := state.data.insert key (chain.mark txSeq status) }
  | none => state

/-- The version of a transaction becomes committed.
Source: `execution/mvcc.rs`, `MultiVersionState::mark_committed`
Kind: D -/
def markCommitted (state : MultiVersionState) (key : StateKey) (txSeq : UInt64) :
    MultiVersionState := state.mark key txSeq .committed

/-- The version of a transaction becomes aborted.
Source: `execution/mvcc.rs`, `MultiVersionState::mark_aborted`
Kind: D -/
def markAborted (state : MultiVersionState) (key : StateKey) (txSeq : UInt64) :
    MultiVersionState := state.mark key txSeq .aborted

/-- All versions of a transaction become committed.
Source: `execution/mvcc.rs`, `MultiVersionState::commit_write_set`
Kind: D -/
def commitWriteSet (state : MultiVersionState) (txSeq : UInt64) (writeSet : WriteSet) :
    MultiVersionState := writeSet.keys.foldl (fun s key => s.markCommitted key txSeq) state

/-- All versions of a transaction become aborted.
Source: `execution/mvcc.rs`, `MultiVersionState::abort_write_set`
Kind: D -/
def abortWriteSet (state : MultiVersionState) (txSeq : UInt64) (writeSet : WriteSet) :
    MultiVersionState := writeSet.keys.foldl (fun s key => s.markAborted key txSeq) state

/-! ### Finalization -/

/-- One turn of the loop of `finalize`: the base state and the Merkle tree after an entry.
Kind: D -/
def finalizeEntry (sha256 : List UInt8 → Bytes 32)
    (acc : HashMap StateKey U256 × JellyfishMerkleTree)
    (entry : Sigma fun _ : StateKey => VersionChain) :
    HashMap StateKey U256 × JellyfishMerkleTree :=
  match entry.2.readFor u64Max with
  | some (some v, _) => (acc.1.insert entry.1 v, acc.2.put sha256 entry.1 v)
  | some (none, _) => (acc.1.erase entry.1, acc.2)
  | none => acc

/-- The newest version of every key that is not aborted moves to the base state and, if it is not a
deletion, to the tree. All versions are dropped.
Source: `execution/mvcc.rs`, `MultiVersionState::finalize`
Kind: D -/
def finalize (sha256 : List UInt8 → Bytes 32) (state : MultiVersionState) : MultiVersionState :=
  let (baseState, jmt) :=
    state.data.entries.foldl (finalizeEntry sha256) (state.baseState, state.jmt)
  { data := ∅, baseState := baseState, jmt := jmt }

/-- The value of a key in the base state.
Source: `execution/mvcc.rs`, `MultiVersionState::get_base`
Kind: D -/
def getBase (state : MultiVersionState) (key : StateKey) : Option U256 := state.baseState.lookup key

/-! ### Runs of versions -/

/-- The versions of a key, newest first.
Kind: D -/
def versionsOf (state : MultiVersionState) (k : StateKey) : List StateVersion :=
  match state.data.lookup k with
  | some chain => chain.versions
  | none => []

/-- The versions of a key descend by their numbers. Kind: L -/
theorem descending_versionsOf (state : MultiVersionState) (k : StateKey) :
    Descending (state.versionsOf k) := by
  unfold versionsOf
  cases state.data.lookup k with
  | some chain => exact chain.sorted
  | none => exact List.Pairwise.nil

/-- The versions of `k` with sequence number `q`, in chain order.
Kind: D -/
def runOf (state : MultiVersionState) (k : StateKey) (q : ℕ) : List StateVersion :=
  match state.data.lookup k with
  | some chain => runAt chain.versions q
  | none => []

/-- A write tucks its version into the run at its own sequence number. Kind: P -/
theorem runOf_write (state : MultiVersionState) (key : StateKey) (s : UInt64) (v : Option U256)
    (k : StateKey) (q : ℕ) :
    (state.write key s v).runOf k q =
      if k = key ∧ q = s.toNat then tuck (state.runOf k q) ⟨s, v, .pending⟩
      else state.runOf k q := by
  unfold runOf write
  by_cases hk : k = key
  · subst hk
    simp only [AList.lookup_insert, runAt_addVersion, true_and]
    cases state.data.lookup k <;> rfl
  · simp only [AList.lookup_insert_ne hk, hk, false_and, if_false]

/-- A mark reaches the first version of the run at its sequence number. Kind: P -/
theorem runOf_mark (state : MultiVersionState) (key : StateKey) (s : UInt64) (st : TxStatus)
    (k : StateKey) (q : ℕ) :
    (state.mark key s st).runOf k q =
      if k = key ∧ q = s.toNat then markHead st (state.runOf k q) else state.runOf k q := by
  unfold mark
  cases hlook : state.data.lookup key with
  | some chain =>
      unfold runOf
      by_cases hk : k = key
      · subst hk
        simp only [AList.lookup_insert, runAt_mark, true_and, hlook]
      · simp only [AList.lookup_insert_ne hk, hk, false_and, if_false]
  | none =>
      by_cases hk : k = key
      · subst hk
        simp [runOf, hlook, markHead]
      · simp [hk]

/-- A write does not reach the base state. Kind: L -/
@[simp] theorem baseState_write (state : MultiVersionState) (key : StateKey) (s : UInt64)
    (v : Option U256) : (state.write key s v).baseState = state.baseState := rfl

/-- Marking a version does not reach the base state. Kind: L -/
@[simp] theorem baseState_mark (state : MultiVersionState) (key : StateKey) (s : UInt64)
    (st : TxStatus) : (state.mark key s st).baseState = state.baseState := by
  unfold mark
  cases state.data.lookup key <;> rfl

/-- Marks of many keys, each at most once. Kind: P -/
theorem runOf_foldl_mark (keys : List StateKey) (hnodup : keys.Nodup) (s : UInt64) (st : TxStatus)
    (state : MultiVersionState) (k : StateKey) (q : ℕ) :
    (keys.foldl (fun σ key => σ.mark key s st) state).runOf k q =
      if k ∈ keys ∧ q = s.toNat then markHead st (state.runOf k q) else state.runOf k q := by
  induction keys generalizing state with
  | nil => simp
  | cons key keys ih =>
      obtain ⟨hnot, hnodup⟩ := List.nodup_cons.mp hnodup
      rw [List.foldl_cons, ih hnodup, runOf_mark]
      by_cases hk : k = key
      · subst hk
        simp [hnot]
      · simp [hk]

/-- Marking the versions of several keys does not reach the base state. Kind: L -/
theorem baseState_foldl_mark (keys : List StateKey) (s : UInt64) (st : TxStatus)
    (state : MultiVersionState) :
    (keys.foldl (fun σ key => σ.mark key s st) state).baseState = state.baseState := by
  induction keys generalizing state with
  | nil => rfl
  | cons key keys ih => rw [List.foldl_cons, ih, baseState_mark]

/-! ### The store as a multi-version memory -/

/-- The base state under one visible value per key and sequence number.
Kind: D -/
def toMemory (state : MultiVersionState) : Memory StateKey (Option U256) where
  base k := state.baseState.lookup k
  column k q := live (state.runOf k q)

/-- A read of the chain of a key is a read of its column in the versioned memory. Kind: L -/
theorem readFor_lookup (state : MultiVersionState) (k : StateKey) (r : UInt64) :
    ((state.data.lookup k).bind fun chain => chain.readFor r) =
      (newestBelow (state.toMemory.column k) r.toNat).map fun p => (p.1, UInt64.ofNat p.2) := by
  cases hlook : state.data.lookup k with
  | some chain =>
      have hcol : state.toMemory.column k = column chain.versions :=
        funext fun q => by simp [toMemory, runOf, hlook, column]
      rw [Option.bind_some, readFor_eq_newestBelow, hcol]
  | none =>
      have hcol : ∀ q, q < r.toNat → state.toMemory.column k q = none := fun q _ => by
        simp [toMemory, runOf, hlook, live]
      rw [newestBelow_eq_none_iff.mpr hcol]
      rfl

/-- **What `read` returns**: the newest live entry below the reader with its sequence number, or
the base value with version 0. Kind: P -/
theorem read_eq (state : MultiVersionState) (k : StateKey) (r : UInt64) :
    state.read k r =
      match newestBelow (state.toMemory.column k) r.toNat with
      | some (v, q) => (v, UInt64.ofNat q)
      | none => (state.baseState.lookup k, 0) := by
  unfold read
  rw [readFor_lookup]
  cases newestBelow (state.toMemory.column k) r.toNat <;> rfl

/-- The value of a read. Kind: L -/
theorem read_fst (state : MultiVersionState) (k : StateKey) (r : UInt64) :
    (state.read k r).1 = state.toMemory.read k r.toNat := by
  rw [read_eq]
  unfold Memory.read
  cases newestBelow (state.toMemory.column k) r.toNat <;> rfl

/-- Stores with the same memory answer reads alike. Kind: L -/
theorem read_congr {state state' : MultiVersionState} {k : StateKey} {r : UInt64}
    (hbase : state.baseState.lookup k = state'.baseState.lookup k)
    (hcol : ∀ q, q < r.toNat → state.toMemory.column k q = state'.toMemory.column k q) :
    state.read k r = state'.read k r := by
  rw [read_eq, read_eq, newestBelow_congr hcol, hbase]

/-- A reader at or below `s` does not see writes at `s`. Kind: L -/
theorem read_write_of_le (state : MultiVersionState) (key : StateKey) {s r : UInt64} (h : r ≤ s)
    (v : Option U256) (k : StateKey) : (state.write key s v).read k r = state.read k r := by
  refine read_congr rfl fun q hq => ?_
  have hr := UInt64.le_iff_toNat_le.mp h
  simp only [toMemory, runOf_write]
  rw [if_neg fun hc => by omega]

/-- The loop of `finalize`, for one key. Kind: L -/
theorem lookup_foldl_finalizeEntry (sha256 : List UInt8 → Bytes 32) (k : StateKey)
    (entries : List (Sigma fun _ : StateKey => VersionChain)) (hnodup : entries.NodupKeys)
    (acc : HashMap StateKey U256 × JellyfishMerkleTree) :
    (entries.foldl (finalizeEntry sha256) acc).1.lookup k =
      match (entries.dlookup k).bind fun chain => chain.readFor u64Max with
      | some (v, _) => v
      | none => acc.1.lookup k := by
  induction entries generalizing acc with
  | nil => rfl
  | cons entry entries ih =>
      obtain ⟨key, chain⟩ := entry
      obtain ⟨hnot, hnodup⟩ := List.nodupKeys_cons.mp hnodup
      rw [List.foldl_cons, ih hnodup]
      by_cases hk : k = key
      · subst hk
        rw [List.dlookup_eq_none.mpr hnot, List.dlookup_cons_eq, Option.bind_none, Option.bind_some]
        unfold finalizeEntry
        rcases chain.readFor u64Max with _ | ⟨_ | v, _⟩ <;> simp
      · rw [List.dlookup_cons_ne _ _ hk]
        have hkeep : (finalizeEntry sha256 acc ⟨key, chain⟩).1.lookup k = acc.1.lookup k := by
          unfold finalizeEntry
          rcases chain.readFor u64Max with _ | ⟨_ | v, _⟩
          · rfl
          · exact AList.lookup_erase_ne hk
          · exact AList.lookup_insert_ne hk
        rw [hkeep]

/-- **`finalize` makes the base state what a reader at `u64::MAX` sees.** Kind: P -/
theorem lookup_finalize (sha256 : List UInt8 → Bytes 32) (state : MultiVersionState)
    (k : StateKey) :
    (state.finalize sha256).baseState.lookup k = (state.read k u64Max).1 := by
  unfold finalize read
  simp only [lookup_foldl_finalizeEntry sha256 k state.data.entries state.data.nodupKeys]
  change (match (state.data.lookup k).bind fun chain => chain.readFor u64Max with
    | some (v, _) => v
    | none => state.baseState.lookup k) = _
  rcases (state.data.lookup k).bind fun chain => chain.readFor u64Max with _ | ⟨v, q⟩ <;> rfl

end MultiVersionState

end Ryther
