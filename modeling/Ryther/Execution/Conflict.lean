import Mathlib.Data.List.Sort
import Ryther.Types.State

/-!
# Conflict detection

`src/execution/conflict.rs`: results are validated in ascending order, against the last committed
writer of every key read.

* `ConflictDetector`, `validateBatch` — in the source's words.
* `Stale` — a result read a version that an earlier result, itself not stale, has overwritten.
* `validateBatch_eq` — validation commits the results that are not stale, in ascending order.
* `validateBatch_decides_conflicts` — one verdict for each result, and it is the documented one.
* `aborted_validateBatch_eq_nil_iff` — it aborts nothing exactly on clean batches, where no result
  reads a version older than an earlier result's write.
* `committed_reads_committed_iff` — the detector looks at committed writers only, so a result that
  read what a stale one wrote is committed unless it is stale itself.
-/

namespace Ryther

open Lib

/-- For every key the number of the last transaction that committed a write to it.
Source: `execution/conflict.rs`, `ConflictDetector`
Kind: D -/
structure ConflictDetector where
  committedWrites : HashMap StateKey UInt64

namespace ConflictDetector

/-- A detector that knows no write.
Source: `execution/conflict.rs`, `ConflictDetector::new`
Kind: D -/
def new : ConflictDetector := ⟨∅⟩

/-- Whether a key was written between the version that was read and the reader.
Source: `execution/conflict.rs`, `ConflictDetector::has_conflict`
Kind: D -/
def hasConflict (d : ConflictDetector) (txSeq : UInt64) (readSet : ReadSet) : Bool :=
  readSet.reads.entries.any fun entry =>
    match d.committedWrites.lookup entry.1 with
    | some writeSeq => decide (writeSeq > entry.2.2 ∧ writeSeq < txSeq)
    | none => false

/-- The keys of a committed transaction are marked with its number.
Source: `execution/conflict.rs`, `ConflictDetector::record_commit`
Kind: D -/
def recordCommit (d : ConflictDetector) (txSeq : UInt64) (writeSet : WriteSet) :
    ConflictDetector :=
  ⟨writeSet.keys.foldl (fun m key => m.insert key txSeq) d.committedWrites⟩

end ConflictDetector

/-- The numbers of the transactions that pass and of those that do not.
Source: `execution/conflict.rs`, `ValidationResult`
Kind: D -/
structure ValidationResult where
  committed : List UInt64
  aborted : List UInt64

/-- The loop of `validate_batch`, over sorted results.
Kind: D -/
def validateLoop (d : ConflictDetector) : List ExecutionResult → ValidationResult
  | [] => ⟨[], []⟩
  | r :: rest =>
      if d.hasConflict r.txSeq r.readSet then
        let v := validateLoop d rest
        ⟨v.committed, r.txSeq :: v.aborted⟩
      else
        let v := validateLoop (d.recordCommit r.txSeq r.writeSet) rest
        ⟨r.txSeq :: v.committed, v.aborted⟩

/-- Sort results by sequence number, keeping the order of equal ones.
Source: `sort_by_key(|r| r.tx_seq)`
Kind: D -/
def sortBySeq (results : List ExecutionResult) : List ExecutionResult :=
  results.insertionSort fun a b => a.txSeq ≤ b.txSeq

/-- All results are validated in the order of their numbers.
Source: `execution/conflict.rs`, `validate_batch`
Kind: D -/
def validateBatch (results : List ExecutionResult) : ValidationResult :=
  validateLoop .new (sortBySeq results)

/-! ### Sorting -/

instance : IsTrans ExecutionResult fun a b => a.txSeq ≤ b.txSeq :=
  ⟨fun _ _ _ h h' => UInt64.le_trans h h'⟩

instance : Std.Total fun a b : ExecutionResult => a.txSeq ≤ b.txSeq :=
  ⟨fun a b => UInt64.le_total a.txSeq b.txSeq⟩

/-- Sorting permutes. Kind: L -/
theorem sortBySeq_perm (results : List ExecutionResult) : (sortBySeq results).Perm results :=
  List.perm_insertionSort _ results

/-- Distinct sequence numbers are strictly ascending after sorting. Kind: L -/
theorem sortBySeq_ascending {results : List ExecutionResult}
    (hnodup : (results.map ExecutionResult.txSeq).Nodup) :
    (sortBySeq results).Pairwise fun a b => a.txSeq < b.txSeq := by
  have hsorted : (sortBySeq results).Pairwise fun a b => a.txSeq ≤ b.txSeq :=
    List.pairwise_insertionSort _ results
  have hne : (sortBySeq results).Pairwise fun a b => a.txSeq ≠ b.txSeq :=
    List.pairwise_map.mp (((sortBySeq_perm results).map _).nodup_iff.mpr hnodup)
  exact hsorted.imp₂ (fun a b hle hne => UInt64.lt_of_le_of_ne hle hne) hne

/-! ### What validation checks -/

/-- Every version in the read set of `r` is at least as new as every write of `earlier` to the
same key.
Kind: D -/
def ReadsNoOlder (r earlier : ExecutionResult) : Prop :=
  ∀ k v x, r.readSet.reads.lookup k = some (v, x) → k ∈ earlier.writeSet.keys → earlier.txSeq ≤ x

/-- No result reads a version older than the write of an earlier result.
Kind: D -/
def Clean (results : List ExecutionResult) : Prop :=
  ∀ r ∈ results, ∀ earlier ∈ results, earlier.txSeq < r.txSeq → ReadsNoOlder r earlier

/-- The detector knows the last of the given results that wrote each key.
Kind: D -/
def Tracks (d : ConflictDetector) (done : List ExecutionResult) : Prop :=
  ∀ k, d.committedWrites.lookup k =
    ((done.filter fun r => k ∈ r.writeSet.keys).getLast?).map ExecutionResult.txSeq

/-- Inserting one value under many keys. Kind: L -/
theorem lookup_foldl_insert (keys : List StateKey) (s : UInt64) (m : HashMap StateKey UInt64)
    (k : StateKey) :
    (keys.foldl (fun m key => m.insert key s) m).lookup k =
      if k ∈ keys then some s else m.lookup k := by
  induction keys generalizing m with
  | nil => simp
  | cons key keys ih =>
      rw [List.foldl_cons, ih]
      by_cases hk : k = key
      · subst hk
        simp
      · simp [hk, AList.lookup_insert_ne hk]

/-- Committing a result. Kind: L -/
theorem Tracks.recordCommit {d : ConflictDetector} {done : List ExecutionResult}
    (h : Tracks d done) (r : ExecutionResult) :
    Tracks (d.recordCommit r.txSeq r.writeSet) (done ++ [r]) := fun k => by
  unfold ConflictDetector.recordCommit
  rw [lookup_foldl_insert, h k]
  by_cases hk : k ∈ r.writeSet.keys <;> simp [List.filter_append, hk]

/-- The last result of an ascending list is the newest one. Kind: L -/
theorem txSeq_le_getLast? {l : List ExecutionResult}
    (hasc : l.Pairwise fun a b => a.txSeq < b.txSeq) {last e : ExecutionResult}
    (hlast : l.getLast? = some last) (he : e ∈ l) : e.txSeq ≤ last.txSeq := by
  obtain ⟨front, rfl⟩ := List.getLast?_eq_some_iff.mp hlast
  rcases List.mem_append.mp he with hf | hf
  · exact UInt64.le_of_lt ((List.pairwise_append.mp hasc).2.2 e hf last List.mem_cons_self)
  · rw [List.mem_singleton.mp hf]
    exact UInt64.le_refl _

/-- A result conflicts with nothing exactly when it reads nothing older than the writes before
it. Kind: P -/
theorem hasConflict_eq_false_iff {d : ConflictDetector} {done : List ExecutionResult}
    (h : Tracks d done) (hasc : done.Pairwise fun a b => a.txSeq < b.txSeq) {r : ExecutionResult}
    (hlt : ∀ e ∈ done, e.txSeq < r.txSeq) :
    d.hasConflict r.txSeq r.readSet = false ↔ ∀ e ∈ done, ReadsNoOlder r e := by
  unfold ConflictDetector.hasConflict
  rw [List.any_eq_false]
  constructor
  · intro hno e he k v x hread hk
    have hmem := AList.mem_lookup_iff.mp (Option.mem_def.mpr hread)
    have hno := hno _ hmem
    have hfilter : e ∈ done.filter fun r => k ∈ r.writeSet.keys :=
      List.mem_filter.mpr ⟨he, by simpa using hk⟩
    cases hlast : (done.filter fun r => k ∈ r.writeSet.keys).getLast? with
    | none =>
        rw [List.getLast?_eq_none_iff.mp hlast] at hfilter
        cases hfilter
    | some last =>
        have hw := h k
        rw [hlast, Option.map_some] at hw
        simp only [hw, decide_eq_true_eq, not_and] at hno
        have hlastMem := List.mem_of_getLast? hlast
        have hlastLt := hlt last (List.mem_filter.mp hlastMem).1
        have hx : last.txSeq ≤ x := UInt64.not_lt.mp fun hgt => hno hgt hlastLt
        have hle := txSeq_le_getLast? (hasc.sublist List.filter_sublist) hlast hfilter
        exact UInt64.le_trans hle hx
  · intro hall entry hentry
    obtain ⟨k, v, x⟩ := entry
    have hread : r.readSet.reads.lookup k = some (v, x) :=
      Option.mem_def.mp (AList.mem_lookup_iff.mpr hentry)
    rw [h k]
    cases hlast : (done.filter fun r => k ∈ r.writeSet.keys).getLast? with
    | none => simp
    | some last =>
        have hlastMem := List.mem_filter.mp (List.mem_of_getLast? hlast)
        have hle := hall last hlastMem.1 k v x hread (by simpa using hlastMem.2)
        simp only [Option.map_some, decide_eq_true_eq, not_and]
        intro hgt
        exact absurd hle (UInt64.not_le.mpr hgt)

/-! ### Which results validation keeps -/

/-- `t` read a key at a version older than the write of an earlier result that is not itself
stale.
Kind: D -/
def Stale (results : List ExecutionResult) (t : ExecutionResult) : Prop :=
  ∃ s, ∃ _ : s.txSeq < t.txSeq, s ∈ results ∧ ¬ ReadsNoOlder t s ∧ ¬ Stale results s
termination_by t.txSeq.toNat
decreasing_by exact UInt64.lt_iff_toNat_lt.mp ‹_›

/-- A result is stale if it read an older version of what an earlier result, not stale itself, has
written. Kind: L -/
theorem stale_iff (results : List ExecutionResult) (t : ExecutionResult) :
    Stale results t ↔
      ∃ s ∈ results, s.txSeq < t.txSeq ∧ ¬ ReadsNoOlder t s ∧ ¬ Stale results s := by
  rw [Stale]
  constructor
  · rintro ⟨s, hlt, hmem, hold, hnot⟩
    exact ⟨s, hmem, hlt, hold, hnot⟩
  · rintro ⟨s, hmem, hlt, hold, hnot⟩
    exact ⟨s, hlt, hmem, hold, hnot⟩

/-- In an ascending list the results before `r` are the ones with a smaller number. Kind: L -/
theorem txSeq_lt_iff_mem_before {before rest : List ExecutionResult} {r : ExecutionResult}
    (hasc : (before ++ r :: rest).Pairwise fun a b => a.txSeq < b.txSeq) {e : ExecutionResult}
    (he : e ∈ before ++ r :: rest) : e.txSeq < r.txSeq ↔ e ∈ before := by
  obtain ⟨-, hafter, hlt⟩ := List.pairwise_append.mp hasc
  constructor
  · intro hlt'
    rcases List.mem_append.mp he with he | he
    · exact he
    · rcases List.mem_cons.mp he with rfl | he
      · exact absurd hlt' (UInt64.lt_irrefl _)
      · have hgt := (List.pairwise_cons.mp hafter).1 e he
        exact absurd hlt' (UInt64.not_lt.mpr (UInt64.le_of_lt hgt))
  · exact fun hbefore => hlt e hbefore r List.mem_cons_self

open scoped Classical in
/-- The loop conflicts exactly on the stale results. Kind: L -/
theorem hasConflict_iff_stale {results before rest : List ExecutionResult} {r : ExecutionResult}
    (hmem : ∀ e, e ∈ results ↔ e ∈ before ++ r :: rest)
    (hasc : (before ++ r :: rest).Pairwise fun a b => a.txSeq < b.txSeq) {d : ConflictDetector}
    (htracks : Tracks d (before.filter fun e => ¬ Stale results e)) :
    d.hasConflict r.txSeq r.readSet = true ↔ Stale results r := by
  obtain ⟨hbefore, -, hlt⟩ := List.pairwise_append.mp hasc
  have hconf := hasConflict_eq_false_iff htracks (hbefore.sublist List.filter_sublist)
    (r := r) fun e he => hlt e (List.mem_filter.mp he).1 r List.mem_cons_self
  rw [← not_iff_not, Bool.not_eq_true, hconf, stale_iff]
  simp only [List.mem_filter, decide_eq_true_eq]
  constructor
  · rintro hall ⟨s, hs, hslt, hold, hnot⟩
    have hs' := (hmem s).mp hs
    exact hold (hall s ⟨(txSeq_lt_iff_mem_before hasc hs').mp hslt, hnot⟩)
  · rintro hnone e ⟨he, hnot⟩
    by_contra hold
    have he' : e ∈ before ++ r :: rest := List.mem_append_left _ he
    exact hnone ⟨e, (hmem e).mpr he', (txSeq_lt_iff_mem_before hasc he').mpr he, hold, hnot⟩

open scoped Classical in
/-- **The loop keeps the results that are not stale.** The detector tracks the ones kept so far.
Kind: P -/
theorem validateLoop_eq (results : List ExecutionResult) (rest : List ExecutionResult) :
    ∀ (before : List ExecutionResult) (d : ConflictDetector),
      (∀ e, e ∈ results ↔ e ∈ before ++ rest) →
      (before ++ rest).Pairwise (fun a b => a.txSeq < b.txSeq) →
      Tracks d (before.filter fun e => ¬ Stale results e) →
      validateLoop d rest =
        ⟨(rest.filter fun r => ¬ Stale results r).map ExecutionResult.txSeq,
          (rest.filter fun r => Stale results r).map ExecutionResult.txSeq⟩ := by
  induction rest with
  | nil => intro before d _ _ _; rfl
  | cons r rest ih =>
      intro before d hmem hasc htracks
      have hconf := hasConflict_iff_stale hmem hasc htracks
      have happ : before ++ r :: rest = (before ++ [r]) ++ rest := by simp
      rw [happ] at hmem hasc
      by_cases hstale : Stale results r
      · have htracks' : Tracks d ((before ++ [r]).filter fun e => ¬ Stale results e) := by
          simpa [List.filter_append, hstale] using htracks
        unfold validateLoop
        rw [if_pos (hconf.mpr hstale), ih _ d hmem hasc htracks']
        simp [hstale]
      · have htracks' : Tracks (d.recordCommit r.txSeq r.writeSet)
            ((before ++ [r]).filter fun e => ¬ Stale results e) := by
          simpa [List.filter_append, hstale] using htracks.recordCommit r
        unfold validateLoop
        rw [if_neg fun h => hstale (hconf.mp h), ih _ _ hmem hasc htracks']
        simp [hstale]

open scoped Classical in
/-- What validation answers for results with distinct numbers. Kind: P -/
theorem validateBatch_eq {results : List ExecutionResult}
    (hnodup : (results.map ExecutionResult.txSeq).Nodup) :
    validateBatch results =
      ⟨((sortBySeq results).filter fun r => ¬ Stale results r).map ExecutionResult.txSeq,
        ((sortBySeq results).filter fun r => Stale results r).map ExecutionResult.txSeq⟩ :=
  validateLoop_eq results (sortBySeq results) [] .new
    (fun _ => (sortBySeq_perm results).mem_iff.symm) (sortBySeq_ascending hnodup)
    fun k => by simp [ConflictDetector.new]

/-- Which of the sorted results' numbers a filter keeps. Kind: L -/
theorem txSeq_mem_filter_iff {results : List ExecutionResult}
    (hnodup : (results.map ExecutionResult.txSeq).Nodup) {t : ExecutionResult} (ht : t ∈ results)
    (p : ExecutionResult → Prop) [DecidablePred p] :
    t.txSeq ∈ ((sortBySeq results).filter fun r => p r).map ExecutionResult.txSeq ↔ p t := by
  simp only [List.mem_map, List.mem_filter, decide_eq_true_eq, (sortBySeq_perm results).mem_iff]
  constructor
  · rintro ⟨t', ⟨ht', hp⟩, hseq⟩
    rwa [List.inj_on_of_nodup_map hnodup ht' ht hseq] at hp
  · exact fun hp => ⟨t, ⟨ht, hp⟩, rfl⟩

/-- A result is committed exactly when it is not stale. Kind: P -/
theorem mem_committed_iff {results : List ExecutionResult}
    (hnodup : (results.map ExecutionResult.txSeq).Nodup) {t : ExecutionResult} (ht : t ∈ results) :
    t.txSeq ∈ (validateBatch results).committed ↔ ¬ Stale results t := by
  classical
  rw [validateBatch_eq hnodup]
  exact txSeq_mem_filter_iff hnodup ht fun r => ¬ Stale results r

/-- A result is aborted exactly when it is stale. Kind: P -/
theorem mem_aborted_iff {results : List ExecutionResult}
    (hnodup : (results.map ExecutionResult.txSeq).Nodup) {t : ExecutionResult} (ht : t ∈ results) :
    t.txSeq ∈ (validateBatch results).aborted ↔ Stale results t := by
  classical
  rw [validateBatch_eq hnodup]
  exact txSeq_mem_filter_iff hnodup ht (Stale results)

/-- **Validation aborts nothing exactly on clean batches.** Kind: P -/
theorem aborted_validateBatch_eq_nil_iff {results : List ExecutionResult}
    (hnodup : (results.map ExecutionResult.txSeq).Nodup) :
    (validateBatch results).aborted = [] ↔ Clean results := by
  rw [validateBatch_eq hnodup]
  simp only [List.map_eq_nil_iff, List.filter_eq_nil_iff, decide_eq_true_eq,
    (sortBySeq_perm results).mem_iff]
  constructor
  · intro hnone r hr earlier he hlt
    by_contra hold
    exact hnone r hr ((stale_iff _ _).mpr ⟨earlier, he, hlt, hold, hnone earlier he⟩)
  · intro hclean r hr hstale
    obtain ⟨s, hs, hlt, hold, -⟩ := (stale_iff _ _).mp hstale
    exact hold (hclean r hr s hs hlt)

/-! ### The documented conflict definition -/

/-- A result read something older if a key it read below the number of the other is one that the
other wrote. Kind: L -/
theorem not_readsNoOlder_iff (t s : ExecutionResult) :
    ¬ ReadsNoOlder t s ↔
      ∃ k v x, t.readSet.reads.lookup k = some (v, x) ∧ x < s.txSeq ∧ k ∈ s.writeSet.keys := by
  unfold ReadsNoOlder
  push Not
  constructor
  · rintro ⟨k, v, x, hread, hk, hlt⟩
    exact ⟨k, v, x, hread, UInt64.not_le.mp hlt, hk⟩
  · rintro ⟨k, v, x, hread, hlt, hk⟩
    exact ⟨k, v, x, hread, hk, UInt64.not_le.mpr hlt⟩

/-- Any selection of the sorted results is ascending. Kind: L -/
theorem ascending_filter {results : List ExecutionResult}
    (hnodup : (results.map ExecutionResult.txSeq).Nodup) (p : ExecutionResult → Bool) :
    (((sortBySeq results).filter p).map ExecutionResult.txSeq).Pairwise (· < ·) :=
  List.pairwise_map.mpr ((sortBySeq_ascending hnodup).sublist List.filter_sublist)

/-- Every number is committed or aborted, once. Kind: L -/
theorem committed_append_aborted_perm {results : List ExecutionResult}
    (hnodup : (results.map ExecutionResult.txSeq).Nodup) :
    ((validateBatch results).committed ++ (validateBatch results).aborted).Perm
      (results.map ExecutionResult.txSeq) := by
  classical
  rw [validateBatch_eq hnodup, ← List.map_append]
  refine List.Perm.map _ (List.Perm.trans ?_ (sortBySeq_perm results))
  refine List.perm_append_comm.trans ?_
  simpa using List.filter_append_perm (fun r => decide (Stale results r)) (sortBySeq results)

/-- **Validation decides the documented conflict definition**: every transaction gets one verdict,
and it is aborted exactly when it read a key at a version `x` and some committed transaction
strictly between `x` and its own number wrote the key.
Source: `execution/conflict.rs`, "Conflict Definition"
Kind: P -/
theorem validateBatch_decides_conflicts (results : List ExecutionResult)
    (hnodup : (results.map ExecutionResult.txSeq).Nodup) :
    ((validateBatch results).committed ++ (validateBatch results).aborted).Perm
        (results.map ExecutionResult.txSeq) ∧
      (validateBatch results).committed.Pairwise (· < ·) ∧
      (validateBatch results).aborted.Pairwise (· < ·) ∧
      ∀ t ∈ results,
        (t.txSeq ∈ (validateBatch results).committed ↔
          t.txSeq ∉ (validateBatch results).aborted) ∧
        (t.txSeq ∈ (validateBatch results).aborted ↔
          ∃ key value x, t.readSet.reads.lookup key = some (value, x) ∧
            ∃ s ∈ results, s.txSeq ∈ (validateBatch results).committed ∧
              x < s.txSeq ∧ s.txSeq < t.txSeq ∧ key ∈ s.writeSet.keys) := by
  refine ⟨committed_append_aborted_perm hnodup, ?_, ?_, fun t ht => ⟨?_, ?_⟩⟩
  · rw [validateBatch_eq hnodup]
    exact ascending_filter hnodup _
  · rw [validateBatch_eq hnodup]
    exact ascending_filter hnodup _
  · rw [mem_committed_iff hnodup ht, mem_aborted_iff hnodup ht]
  · rw [mem_aborted_iff hnodup ht, stale_iff]
    constructor
    · rintro ⟨s, hs, hlt, hold, hnot⟩
      obtain ⟨k, v, x, hread, hx, hk⟩ := (not_readsNoOlder_iff t s).mp hold
      exact ⟨k, v, x, hread, s, hs, (mem_committed_iff hnodup hs).mpr hnot, hx, hlt, hk⟩
    · rintro ⟨k, v, x, hread, s, hs, hcommit, hx, hlt, hk⟩
      refine ⟨s, hs, hlt, ?_, (mem_committed_iff hnodup hs).mp hcommit⟩
      exact (not_readsNoOlder_iff t s).mpr ⟨k, v, x, hread, hx, hk⟩

/-! ### Reads from aborted results -/

/-- `t` read a version that `s` wrote.
Kind: D -/
def ReadsFrom (t s : ExecutionResult) : Prop :=
  ∃ k v, t.readSet.reads.lookup k = some (v, s.txSeq) ∧ k ∈ s.writeSet.keys

/-- Committed results read from committed results exactly when whoever read from a stale result is
stale through some other read.
Source: `execution/conflict.rs`, "consistent with sequential execution semantics"
Kind: P -/
theorem committed_reads_committed_iff (results : List ExecutionResult)
    (hnodup : (results.map ExecutionResult.txSeq).Nodup) :
    (∀ t ∈ results, t.txSeq ∈ (validateBatch results).committed → ∀ s ∈ results, ReadsFrom t s →
        s.txSeq ∈ (validateBatch results).committed) ↔
      ∀ s ∈ results, Stale results s → ∀ t ∈ results, ReadsFrom t s →
        ∃ w ∈ results, w.txSeq < t.txSeq ∧ ¬ ReadsNoOlder t w ∧ ¬ Stale results w := by
  simp only [← stale_iff]
  constructor
  · intro hcommitted s hs hstale t ht hfrom
    by_contra hnot
    have hcommit := hcommitted t ht ((mem_committed_iff hnodup ht).mpr hnot) s hs hfrom
    exact (mem_committed_iff hnodup hs).mp hcommit hstale
  · intro hcascade t ht hcommit s hs hfrom
    rw [mem_committed_iff hnodup hs]
    intro hstale
    exact (mem_committed_iff hnodup ht).mp hcommit (hcascade s hs hstale t ht hfrom)

namespace Conflict

/-- A key of the unit tests.
Source: `execution/conflict.rs`, `make_key` of the tests
Kind: D -/
def makeKey (id : UInt8) : StateKey := ⟨Bytes.fill 20 id, .zero⟩

/-- A result of the unit tests, from the versions it reads and the keys it writes.
Source: `execution/conflict.rs`, `make_result` of the tests
Kind: D -/
def makeResult (seq : UInt64) (reads : List (UInt8 × UInt64)) (writes : List UInt8) :
    ExecutionResult where
  txSeq := seq
  status := .success
  readSet := reads.foldl (fun rs read => rs.record (makeKey read.1) none read.2) .new
  writeSet := writes.foldl (fun ws id => ws.record (makeKey id) (some (.fromU64 seq))) .new
  gasUsed := 21000
  logs := []
  output := []

/-- The batch of the cascading test, out of order: the stale reader of key 1 is aborted and the
other two are committed.
Source: `execution/conflict.rs`, `test_cascading_scenario`
Kind: L -/
theorem validateBatch_decides_conflicts_cascading :
    let results := [makeResult 3 [(3, 0)] [3], makeResult 1 [] [1], makeResult 2 [(1, 0)] [2]]
    (validateBatch results).committed = [1, 3] ∧ (validateBatch results).aborted = [2] ∧
      ∀ t ∈ results, (t.txSeq ∈ (validateBatch results).aborted ↔
        ∃ key value x, t.readSet.reads.lookup key = some (value, x) ∧
          ∃ s ∈ results, s.txSeq ∈ (validateBatch results).committed ∧
            x < s.txSeq ∧ s.txSeq < t.txSeq ∧ key ∈ s.writeSet.keys) := by
  intro results
  refine ⟨by decide +kernel, by decide +kernel, fun t ht => ?_⟩
  exact ((validateBatch_decides_conflicts results (by decide)).2.2.2 t ht).2

/-- A reader of the first transaction's write: nobody is stale. Kind: L -/
theorem committed_reads_committed_pair :
    let results := [makeResult 1 [] [1], makeResult 2 [(1, 1)] [2]]
    ∀ t ∈ results, t.txSeq ∈ (validateBatch results).committed → ∀ s ∈ results, ReadsFrom t s →
      s.txSeq ∈ (validateBatch results).committed := by
  intro results
  refine (committed_reads_committed_iff results (by decide)).mpr fun s hs hstale t ht hfrom => ?_
  -- the batch aborts nothing, so nothing in it is stale
  have hall : ∀ r ∈ results, r.txSeq ∈ (validateBatch results).committed := by decide +kernel
  exact absurd hstale ((mem_committed_iff (by decide) hs).mp (hall s hs))

/-- Transaction 3 is committed although it read what the aborted transaction 2 wrote. Kind: P -/
theorem committed_reads_from_aborted :
    let results := [makeResult 1 [] [1], makeResult 2 [(1, 0)] [2], makeResult 3 [(2, 2)] [3]]
    (validateBatch results).committed = [1, 3] ∧ (validateBatch results).aborted = [2] ∧
      ReadsFrom (makeResult 3 [(2, 2)] [3]) (makeResult 2 [(1, 0)] [2]) := by
  refine ⟨by decide +kernel, by decide +kernel, makeKey 2, none, ?_, ?_⟩
  · decide +kernel
  · decide +kernel

end Conflict

end Ryther
