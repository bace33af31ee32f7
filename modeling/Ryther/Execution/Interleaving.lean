import Mathlib.Data.List.MinMax
import Ryther.Execution.Mvcc

/-!
# Interleaved writers

Several transactions write to one `MultiVersionState`, each its own sequence of `write` calls; the
calls of different transactions come in any order.

* `Interleaving txs` — an order of all calls that keeps each transaction's own one.
* `column_runCalls` — what a reader finds at a sequence number depends on the calls of its own
  transaction only: the second value it wrote to the key, or the only one.
* `LastWriter` — the transaction a reader should see.
* `read_interleaving_iff` — all interleavings read alike, and they read the last value of the last
  writer exactly when every transaction's second value is its last one.
-/

namespace Ryther

open Lib

/-- A call of `MultiVersionState::write`.
Kind: D -/
structure WriteCall where
  key : StateKey
  writerSeq : UInt64
  value : Option U256

/-- A transaction's calls in program order.
Kind: D -/
structure WriteProgram where
  seq : UInt64
  writes : List (StateKey × Option U256)

/-- The calls with one sequence number, in order.
Kind: D -/
def issued (calls : List WriteCall) (seq : UInt64) : List (StateKey × Option U256) :=
  (calls.filter fun c => c.writerSeq = seq).map fun c => (c.key, c.value)

/-- The values written to `k`, in order.
Kind: D -/
def valuesTo (writes : List (StateKey × Option U256)) (k : StateKey) : List (Option U256) :=
  (writes.filter fun w => w.1 = k).map Prod.snd

/-- An order of the calls of `txs`. Transactions with one sequence number would have to issue the
same calls, so the numbers are distinct in all cases of interest.
Kind: D -/
structure Interleaving (txs : List WriteProgram) where
  calls : List WriteCall
  program_order : ∀ tx ∈ txs, issued calls tx.seq = tx.writes
  issued_by : ∀ c ∈ calls, ∃ tx ∈ txs, tx.seq = c.writerSeq

/-- The state after some calls of `write`, in the order in which they take the locks. Kind: D -/
def runCalls (state : MultiVersionState) (calls : List WriteCall) : MultiVersionState :=
  calls.foldl (fun s c => s.write c.key c.writerSeq c.value) state

/-! ### What the calls leave at a sequence number -/

/-- Calls of `write` do not reach the base state. Kind: L -/
@[simp] theorem baseState_runCalls (calls : List WriteCall) (state : MultiVersionState) :
    (runCalls state calls).baseState = state.baseState := by
  unfold runCalls
  induction calls generalizing state with
  | nil => rfl
  | cons c calls ih => rw [List.foldl_cons, ih, MultiVersionState.baseState_write]

/-- The run of a key at a sequence number. Kind: L -/
theorem runOf_runCalls (calls : List WriteCall) (state : MultiVersionState) (k : StateKey)
    (s : UInt64) :
    (runCalls state calls).runOf k s.toNat =
      ((valuesTo (issued calls s) k).map fun v => (⟨s, v, .pending⟩ : StateVersion)).foldl tuck
        (state.runOf k s.toNat) := by
  unfold runCalls
  induction calls generalizing state with
  | nil => rfl
  | cons c calls ih =>
      rw [List.foldl_cons, ih, MultiVersionState.runOf_write]
      by_cases hs : c.writerSeq = s
      · by_cases hk : k = c.key
        · simp [issued, valuesTo, hs, hk]
        · simp [issued, valuesTo, hs, hk, Ne.symm hk]
      · have hne : s.toNat ≠ c.writerSeq.toNat := fun h => hs (UInt64.toNat_inj.mp h).symm
        simp [issued, valuesTo, hs, hne]

/-- **A reader finds the second value a transaction wrote, or the only one.** Kind: P -/
theorem column_runCalls (base : List (StateKey × U256)) (calls : List WriteCall) (k : StateKey)
    (s : UInt64) :
    (runCalls (.withBaseState base) calls).toMemory.column k s.toNat =
      secondOrOnly (valuesTo (issued calls s) k) := by
  have hempty : (MultiVersionState.withBaseState base).runOf k s.toNat = [] := by
    simp [MultiVersionState.runOf, MultiVersionState.withBaseState]
  unfold MultiVersionState.toMemory
  simp only [runOf_runCalls, hempty]
  rcases valuesTo (issued calls s) k with _ | ⟨v, _ | ⟨w, rest⟩⟩
  · rfl
  · rfl
  · rw [List.map_cons, foldl_tuck_nil]
    rfl

/-! ### Readers -/

/-- The transaction with the highest sequence number below the reader among those that wrote `k`.
Kind: D -/
structure LastWriter (txs : List WriteProgram) (k : StateKey) (r : UInt64) (tx : WriteProgram) :
    Prop where
  mem : tx ∈ txs
  below : tx.seq < r
  wrote : valuesTo tx.writes k ≠ []
  highest : ∀ tx' ∈ txs, tx'.seq < r → valuesTo tx'.writes k ≠ [] → tx'.seq ≤ tx.seq

/-- A key with a writer below the reader has a last one. Kind: L -/
theorem exists_lastWriter {txs : List WriteProgram} {k : StateKey} {r : UInt64}
    {tx : WriteProgram} (hmem : tx ∈ txs) (hbelow : tx.seq < r)
    (hwrote : valuesTo tx.writes k ≠ []) : ∃ last, LastWriter txs k r last := by
  let writers := txs.filter fun tx => tx.seq < r ∧ valuesTo tx.writes k ≠ []
  have hwriters : ∀ tx', tx' ∈ writers ↔
      tx' ∈ txs ∧ tx'.seq < r ∧ valuesTo tx'.writes k ≠ [] := fun tx' => by
    simp only [writers, List.mem_filter, decide_eq_true_eq]
  cases hlast : writers.argmax fun tx => tx.seq.toNat with
  | none =>
      have hin := (hwriters tx).mpr ⟨hmem, hbelow, hwrote⟩
      rw [List.argmax_eq_none.mp hlast] at hin
      cases hin
  | some last =>
      obtain ⟨hin, hlt, hne⟩ := (hwriters last).mp (List.argmax_mem hlast)
      refine ⟨last, hin, hlt, hne, fun tx' hmem' hlt' hne' => ?_⟩
      rw [UInt64.le_iff_toNat_le]
      exact List.le_of_mem_argmax (f := fun tx : WriteProgram => tx.seq.toNat)
        ((hwriters tx').mpr ⟨hmem', hlt', hne'⟩) hlast

section

variable {txs : List WriteProgram} (il : Interleaving txs) (base : List (StateKey × U256))

/-- A value at a sequence number was written by the transaction of that number. Kind: L -/
theorem Interleaving.exists_writer {k : StateKey} {s : UInt64}
    (h : valuesTo (issued il.calls s) k ≠ []) :
    ∃ tx ∈ txs, tx.seq = s ∧ valuesTo tx.writes k ≠ [] := by
  obtain ⟨v, hv⟩ := List.exists_mem_of_ne_nil _ h
  simp only [valuesTo, issued, List.mem_map, List.mem_filter, decide_eq_true_eq] at hv
  obtain ⟨-, ⟨⟨c, ⟨hc, hseq⟩, -⟩, -⟩, -⟩ := hv
  obtain ⟨tx, htx, htxseq⟩ := il.issued_by c hc
  have hs : tx.seq = s := htxseq.trans hseq
  refine ⟨tx, htx, hs, ?_⟩
  rw [← il.program_order tx htx, hs]
  exact h

/-- An entry below a reader is that of a writer below it. Kind: L -/
theorem Interleaving.exists_writer_of_column {k : StateKey} {r : UInt64} {q : ℕ}
    (hq : q < r.toNat)
    (h : (runCalls (.withBaseState base) il.calls).toMemory.column k q ≠ none) :
    ∃ tx ∈ txs, tx.seq.toNat = q ∧ tx.seq < r ∧ valuesTo tx.writes k ≠ [] := by
  have hqs : (UInt64.ofNat q).toNat = q := toNat_ofNat_of_lt_toNat hq
  rw [← hqs, column_runCalls, ne_eq, secondOrOnly_eq_none_iff] at h
  obtain ⟨tx, htx, hseq, hwrote⟩ := il.exists_writer h
  have hnat : tx.seq.toNat = q := by rw [hseq, hqs]
  refine ⟨tx, htx, hnat, ?_, hwrote⟩
  rw [UInt64.lt_iff_toNat_lt, hnat]
  exact hq

/-- The last writer's entry is the one a reader finds. Kind: L -/
theorem read_of_lastWriter {k : StateKey} {r : UInt64} {tx : WriteProgram}
    (h : LastWriter txs k r tx) :
    secondOrOnly (valuesTo tx.writes k) =
      some ((runCalls (.withBaseState base) il.calls).read k r).1 := by
  obtain ⟨v, hv⟩ : ∃ v, secondOrOnly (valuesTo tx.writes k) = some v :=
    Option.ne_none_iff_exists'.mp fun hnone => h.wrote (secondOrOnly_eq_none_iff.mp hnone)
  have hcol : (runCalls (.withBaseState base) il.calls).toMemory.column k tx.seq.toNat =
      some v := by
    rw [column_runCalls, il.program_order tx h.mem, hv]
  have hnewest : newestBelow
      ((runCalls (.withBaseState base) il.calls).toMemory.column k) r.toNat =
        some (v, tx.seq.toNat) := by
    refine newestBelow_eq_some_iff.mpr ⟨UInt64.lt_iff_toNat_lt.mp h.below, hcol, ?_⟩
    -- a live entry in between would belong to a later writer
    intro q hq hqr
    by_contra hne
    obtain ⟨tx', htx', hseq', hlt, hwrote'⟩ := il.exists_writer_of_column base hqr hne
    have hle := UInt64.le_iff_toNat_le.mp (h.highest tx' htx' hlt hwrote')
    omega
  rw [hv, MultiVersionState.read_eq, hnewest]

/-- Without a writer below it a reader finds the base value. Kind: L -/
theorem read_of_no_writer {k : StateKey} {r : UInt64}
    (h : ∀ tx ∈ txs, tx.seq < r → valuesTo tx.writes k = []) :
    (runCalls (.withBaseState base) il.calls).read k r =
      ((MultiVersionState.withBaseState base).baseState.lookup k, 0) := by
  have hnone : newestBelow
      ((runCalls (.withBaseState base) il.calls).toMemory.column k) r.toNat = none := by
    refine newestBelow_eq_none_iff.mpr fun q hqr => ?_
    by_contra hne
    obtain ⟨tx, htx, -, hlt, hwrote⟩ := il.exists_writer_of_column base hqr hne
    exact hwrote (h tx htx hlt)
  rw [MultiVersionState.read_eq, hnone, baseState_runCalls]

/-- The values at a sequence number are the same in every interleaving. Kind: L -/
theorem Interleaving.valuesTo_eq (il' : Interleaving txs) (k : StateKey) (s : UInt64) :
    valuesTo (issued il.calls s) k = valuesTo (issued il'.calls s) k := by
  by_cases h : ∃ tx ∈ txs, tx.seq = s
  · obtain ⟨tx, htx, rfl⟩ := h
    rw [il.program_order tx htx, il'.program_order tx htx]
  · have hnil : ∀ il : Interleaving txs, valuesTo (issued il.calls s) k = [] := fun il => by
      by_contra hne
      obtain ⟨tx, htx, hseq, -⟩ := il.exists_writer hne
      exact h ⟨tx, htx, hseq⟩
    rw [hnil il, hnil il']

/-- What the reader `r` of `k` should find: the last value of the last writer below it, or the base
value.
Kind: D -/
def ReadsLastWrite (txs : List WriteProgram) (base : List (StateKey × U256))
    (state : MultiVersionState) (k : StateKey) (r : UInt64) : Prop :=
  (∃ tx, LastWriter txs k r tx ∧ (valuesTo tx.writes k).getLast? = some (state.read k r).1) ∨
    (∀ tx ∈ txs, tx.seq < r → valuesTo tx.writes k = []) ∧
      (state.read k r).1 = (MultiVersionState.withBaseState base).baseState.lookup k

/-- A reader just above a writer sees it as the last one. Kind: L -/
theorem lastWriter_succ {k : StateKey} {tx : WriteProgram} (hmem : tx ∈ txs)
    (hmax : tx.seq ≠ u64Max) (hwrote : valuesTo tx.writes k ≠ []) :
    LastWriter txs k (tx.seq + 1) tx := by
  have hsucc := toNat_succ hmax
  refine ⟨hmem, ?_, hwrote, fun tx' _ hlt' _ => ?_⟩
  · rw [UInt64.lt_iff_toNat_lt]
    omega
  · rw [UInt64.lt_iff_toNat_lt] at hlt'
    rw [UInt64.le_iff_toNat_le]
    omega

/-- **All interleavings read alike, and they read the last write exactly when the second value that
each transaction writes to a key is its last one.** A transaction at `u64::MAX` has no reader above
it. Kind: P -/
theorem read_interleaving_iff (txs : List WriteProgram) (il : Interleaving txs)
    (base : List (StateKey × U256)) :
    ((∀ k r, ReadsLastWrite txs base (runCalls (.withBaseState base) il.calls) k r) ↔
      ∀ tx ∈ txs, tx.seq ≠ u64Max → ∀ k,
        secondOrOnly (valuesTo tx.writes k) = (valuesTo tx.writes k).getLast?) ∧
      ∀ (il' : Interleaving txs) k r,
        (runCalls (.withBaseState base) il.calls).read k r =
          (runCalls (.withBaseState base) il'.calls).read k r := by
  refine ⟨⟨fun hreads tx htx hmax k => ?_, fun hsecond k r => ?_⟩, fun il' k r => ?_⟩
  · by_cases hwrote : valuesTo tx.writes k = []
    · rw [hwrote]
      rfl
    · have hwriter := lastWriter_succ htx hmax hwrote
      rcases hreads k (tx.seq + 1) with ⟨last, hlast, hvalue⟩ | ⟨hnone, -⟩
      · -- both have the highest number, hence the same program
        have hseq : tx.seq = last.seq := UInt64.le_antisymm
          (hlast.highest tx htx hwriter.below hwrote)
          (hwriter.highest last hlast.mem hlast.below hlast.wrote)
        have hwrites : tx.writes = last.writes := by
          rw [← il.program_order tx htx, ← il.program_order last hlast.mem, hseq]
        rw [hwrites, hvalue]
        exact read_of_lastWriter il base hlast
      · exact absurd (hnone tx htx hwriter.below) hwrote
  · by_cases h : ∃ tx ∈ txs, tx.seq < r ∧ valuesTo tx.writes k ≠ []
    · obtain ⟨tx, htx, hlt, hwrote⟩ := h
      obtain ⟨last, hlast⟩ := exists_lastWriter htx hlt hwrote
      refine .inl ⟨last, hlast, ?_⟩
      rw [← hsecond last hlast.mem (ne_u64Max_of_lt hlast.below) k]
      exact read_of_lastWriter il base hlast
    · push Not at h
      exact .inr ⟨h, congrArg Prod.fst (read_of_no_writer il base h)⟩
  · refine MultiVersionState.read_congr ?_ fun q hq => ?_
    · rw [baseState_runCalls, baseState_runCalls]
    · have hqs : (UInt64.ofNat q).toNat = q := toNat_ofNat_of_lt_toNat hq
      rw [← hqs, column_runCalls, column_runCalls, il.valuesTo_eq il']

/-- Three writes of one transaction to one key: the reader above finds the second value. Kind: P -/
theorem read_misses_last_write :
    let k : StateKey := ⟨Bytes.fill 20 1, .zero⟩
    let tx : WriteProgram := ⟨1, [(k, some (.fromU64 1)), (k, some (.fromU64 2)),
      (k, some (.fromU64 3))]⟩
    ∃ il : Interleaving [tx],
      (runCalls (.withBaseState []) il.calls).read k 2 = (some (.fromU64 2), 1) ∧
        ¬ ReadsLastWrite [tx] [] (runCalls (.withBaseState []) il.calls) k 2 := by
  intro k tx
  let il : Interleaving [tx] :=
    { calls := [⟨k, 1, some (.fromU64 1)⟩, ⟨k, 1, some (.fromU64 2)⟩, ⟨k, 1, some (.fromU64 3)⟩]
      program_order := by decide +kernel
      issued_by := by decide +kernel }
  have hread : (runCalls (.withBaseState []) il.calls).read k 2 = (some (.fromU64 2), 1) := by
    decide +kernel
  refine ⟨il, hread, ?_⟩
  rintro (⟨tx', hlast, hvalue⟩ | ⟨hnone, -⟩)
  · obtain rfl := List.mem_singleton.mp hlast.mem
    rw [hread] at hvalue
    exact absurd hvalue (by decide +kernel)
  · exact absurd (hnone tx List.mem_cons_self (by decide)) (by decide +kernel)

end

end Ryther
