import Ryther.Lib.BinarySearch
import Ryther.Lib.Versioned
import Ryther.Types.Basic

/-!
# Version chains, read and write sets, execution results

The multi-version state types of `src/types/state.rs`.

* `VersionChain` carries the order its documentation promises (newest first) as a field. The
  second promise, no two versions with one sequence number, is not kept by `add_version`, which
  inserts next to an equal version; the chain is therefore a sequence of **runs** (`runAt`), one
  per sequence number.
* `readFor_eq_newestBelow` — `read_for` is the newest live entry below the reader, where the
  entry of a sequence number is the first version of its run that is not aborted (`column`).
* `runAt_addVersion` — a new version goes just **before the last** version of its run (`tuck`),
  because the library search settles on the last of several equal elements.
* `runAt_mark` — a status change reaches the first version of a run only.
-/

namespace Ryther

open Lib

/-! ### The chain and its operations -/

/-- Status of the transaction that wrote a version.
Source: `types/state.rs`, `TxStatus`
Kind: D -/
inductive TxStatus where
  | pending
  | committed
  | aborted
  deriving DecidableEq

/-- One version of a state value; `value = none` is a deletion.
Source: `types/state.rs`, `StateVersion`
Kind: D -/
structure StateVersion where
  txSequence : UInt64
  value : Option U256
  status : TxStatus
  deriving DecidableEq

/-- Newest first.
Kind: D -/
def Descending (l : List StateVersion) : Prop :=
  l.Pairwise fun a b => b.txSequence ≤ a.txSequence

/-- The outcomes `version.tx_sequence.cmp(&v.tx_sequence)` the search sees.
Source: `types/state.rs`, closure in `VersionChain::add_version`
Kind: D -/
def outcomes (txSequence : UInt64) (l : List StateVersion) : List Ordering :=
  l.map fun v => compare txSequence v.txSequence

/-- The chain of versions of one state slot. The field `versions` is private to its module in the
source, so every chain is built by the operations below and is sorted.
Source: `types/state.rs`, `VersionChain`
Kind: D -/
structure VersionChain where
  versions : List StateVersion
  sorted : Descending versions

/-- `compare` on `u64`. Kind: L -/
theorem compare_u64_eq_iff (a b : UInt64) : compare a b = .eq ↔ a = b := by
  simp only [compare, compareOfLessAndEq]
  split_ifs with h1 h2
  · simp only [false_iff]
    rintro rfl
    exact absurd h1 (UInt64.lt_irrefl _)
  · simp [h2]
  · simp [h2]

/-- `compare` on `u64`. Kind: L -/
theorem compare_u64_lt_iff (a b : UInt64) : compare a b = .lt ↔ a < b := by
  simp only [compare, compareOfLessAndEq]
  split_ifs with h1 h2 <;> simp [h1]

/-- `compare` on `u64`. Kind: L -/
theorem compare_u64_gt_iff (a b : UInt64) : compare a b = .gt ↔ b < a := by
  simp only [compare, compareOfLessAndEq, UInt64.lt_iff_toNat_lt]
  split_ifs with h1 h2
  · simp only [false_iff]
    omega
  · subst h2
    simp
  · simp only [true_iff]
    have : a.toNat ≠ b.toNat := fun h => h2 (UInt64.toNat_inj.mp h)
    omega

/-- The outcomes of a chain are partitioned. Kind: L -/
theorem outcomes_partitioned {l : List StateVersion} (h : Descending l) (s : UInt64) :
    Partitioned (outcomes s l) := by
  refine List.pairwise_map.mpr (h.imp fun {a b} hab => ?_)
  have h' := UInt64.le_iff_toNat_le.mp hab
  cases ha : compare s a.txSequence with
  | lt => exact Nat.zero_le _
  | eq =>
      have := (compare_u64_eq_iff _ _).mp ha
      cases hb : compare s b.txSequence with
      | lt =>
          have := UInt64.lt_iff_toNat_lt.mp ((compare_u64_lt_iff _ _).mp hb)
          subst s
          omega
      | eq => exact le_rfl
      | gt => decide
  | gt =>
      have := UInt64.lt_iff_toNat_lt.mp ((compare_u64_gt_iff _ _).mp ha)
      cases hb : compare s b.txSequence with
      | lt =>
          have := UInt64.lt_iff_toNat_lt.mp ((compare_u64_lt_iff _ _).mp hb)
          omega
      | eq =>
          have := (compare_u64_eq_iff _ _).mp hb
          subst s
          omega
      | gt => exact le_rfl

/-- Where a conforming search points, nothing smaller is before and nothing larger after. Kind: L -/
theorem sides_of_position (bs : BinarySearch) {l : List StateVersion} (h : Descending l)
    (s : UInt64) {j : ℕ} {w : StateVersion} (hw : l[j]? = some w) :
    (j < bs.position (outcomes s l) → s ≤ w.txSequence) ∧
      (bs.position (outcomes s l) ≤ j → w.txSequence ≤ s) := by
  have hp := outcomes_partitioned h s
  have hjl : j < l.length := (List.getElem?_eq_some_iff.mp hw).1
  have hoj : (outcomes s l)[j]? = some (compare s w.txSequence) := by
    simp [outcomes, hw]
  unfold BinarySearch.position
  cases hr : bs.run (outcomes s l) with
  | ok i =>
      have hi := bs.ok_spec hp hr
      constructor
      · intro hji
        have hrank := hp.rank_le (by simp only at hji; omega) hoj hi
        cases hc : compare s w.txSequence with
        | lt => exact UInt64.le_of_lt ((compare_u64_lt_iff _ _).mp hc)
        | eq => exact UInt64.le_of_eq ((compare_u64_eq_iff _ _).mp hc)
        | gt => simp [hc, outcomeRank] at hrank
      · intro hij
        have hrank := hp.rank_le (by simp only at hij; omega) hi hoj
        cases hc : compare s w.txSequence with
        | lt => simp [hc, outcomeRank] at hrank
        | eq => exact UInt64.le_of_eq ((compare_u64_eq_iff _ _).mp hc).symm
        | gt => exact UInt64.le_of_lt ((compare_u64_gt_iff _ _).mp hc)
  | error i =>
      obtain ⟨-, hbelow, habove⟩ := bs.error_spec hp hr
      constructor
      · intro hji
        have hlt := hbelow j hji
        rw [hoj, Option.some.injEq] at hlt
        exact UInt64.le_of_lt ((compare_u64_lt_iff _ _).mp hlt)
      · intro hij
        have hgt := habove j hij (by simpa [outcomes] using hjl)
        rw [hoj, Option.some.injEq] at hgt
        exact UInt64.le_of_lt ((compare_u64_gt_iff _ _).mp hgt)

/-- Inserting where any conforming search points keeps the order. Kind: L -/
theorem descending_insert (bs : BinarySearch) {l : List StateVersion} (h : Descending l)
    (v : StateVersion) :
    Descending (l.take (bs.position (outcomes v.txSequence l)) ++
      v :: l.drop (bs.position (outcomes v.txSequence l))) := by
  have hside := fun j w => @sides_of_position bs l h v.txSequence j w
  generalize bs.position (outcomes v.txSequence l) = p at hside
  have hbefore : ∀ w ∈ l.take p, v.txSequence ≤ w.txSequence := by
    intro w hw
    obtain ⟨j, hj⟩ := List.mem_iff_getElem?.mp hw
    rw [List.getElem?_take] at hj
    split_ifs at hj with hjp
    exact (hside j w hj).1 hjp
  have hafter : ∀ w ∈ l.drop p, w.txSequence ≤ v.txSequence := by
    intro w hw
    obtain ⟨j, hj⟩ := List.mem_iff_getElem?.mp hw
    rw [List.getElem?_drop] at hj
    exact (hside (p + j) w hj).2 (by omega)
  refine List.pairwise_append.mpr ⟨h.sublist (List.take_sublist _ _),
    List.pairwise_cons.mpr ⟨hafter, h.sublist (List.drop_sublist _ _)⟩, ?_⟩
  intro a ha b hb
  rcases List.mem_cons.mp hb with rfl | hb
  · exact hbefore a ha
  · exact UInt64.le_trans (hafter b hb) (hbefore a ha)

/-- Change the status of the first version with the given number.
Source: `types/state.rs`, the loop shared by `mark_committed` and `mark_aborted`
Kind: D -/
def markLoop (txSeq : UInt64) (status : TxStatus) : List StateVersion → List StateVersion
  | [] => []
  | v :: vs =>
      if v.txSequence = txSeq then { v with status := status } :: vs
      else v :: markLoop txSeq status vs

/-- Marking leaves the sequence numbers alone. Kind: L -/
theorem markLoop_map_txSequence (s : UInt64) (st : TxStatus) (l : List StateVersion) :
    (markLoop s st l).map StateVersion.txSequence = l.map StateVersion.txSequence := by
  induction l with
  | nil => rfl
  | cons v vs ih =>
      unfold markLoop
      split_ifs <;> simp [ih]

/-- Order is a property of the sequence numbers. Kind: L -/
theorem descending_iff_map (l : List StateVersion) :
    Descending l ↔ (l.map StateVersion.txSequence).Pairwise fun a b => b ≤ a := by
  rw [List.pairwise_map, Descending]

namespace VersionChain

/-- A chain without versions.
Source: `types/state.rs`, `VersionChain::new`
Kind: D -/
def new : VersionChain := ⟨[], List.Pairwise.nil⟩

/-- Insert a version at the position a binary search points to.
Source: `types/state.rs`, `VersionChain::add_version`
Kind: D -/
def addVersionWith (bs : BinarySearch) (c : VersionChain) (version : StateVersion) :
    VersionChain where
  versions :=
    c.versions.take (bs.position (outcomes version.txSequence c.versions)) ++
      version :: c.versions.drop (bs.position (outcomes version.txSequence c.versions))
  sorted := descending_insert bs c.sorted version

/-- `add_version` with the search of the standard library.
Source: `types/state.rs`, `VersionChain::add_version`
Kind: D -/
def addVersion (c : VersionChain) (version : StateVersion) : VersionChain :=
  c.addVersionWith stdSearch version

/-- The loop of `read_for`: the first version below the reader that is not aborted.
Source: `types/state.rs`, `VersionChain::read_for`
Kind: D -/
def readForLoop (readerSeq : UInt64) : List StateVersion → Option (Option U256 × UInt64)
  | [] => none
  | v :: vs =>
      if v.txSequence < readerSeq then
        match v.status with
        | .committed => some (v.value, v.txSequence)
        | .pending => some (v.value, v.txSequence)
        | .aborted => readForLoop readerSeq vs
      else readForLoop readerSeq vs

/-- The newest version below the reader's number that is not aborted.
Source: `types/state.rs`, `VersionChain::read_for`
Kind: D -/
def readFor (c : VersionChain) (readerSeq : UInt64) : Option (Option U256 × UInt64) :=
  readForLoop readerSeq c.versions

/-- The two status changes, as one operation.
Kind: D -/
def mark (c : VersionChain) (txSeq : UInt64) (status : TxStatus) : VersionChain where
  versions := markLoop txSeq status c.versions
  sorted := (descending_iff_map _).mpr <| by
    rw [markLoop_map_txSequence]
    exact (descending_iff_map _).mp c.sorted

/-- The version of a transaction becomes committed.
Source: `types/state.rs`, `VersionChain::mark_committed`
Kind: D -/
def markCommitted (c : VersionChain) (txSeq : UInt64) : VersionChain := c.mark txSeq .committed

/-- The version of a transaction becomes aborted.
Source: `types/state.rs`, `VersionChain::mark_aborted`
Kind: D -/
def markAborted (c : VersionChain) (txSeq : UInt64) : VersionChain := c.mark txSeq .aborted

end VersionChain

/-! ### Runs and columns -/

/-- The versions of a chain with sequence number `q`, in chain order.
Kind: D -/
def runAt (l : List StateVersion) (q : ℕ) : List StateVersion :=
  l.filter fun v => v.txSequence.toNat = q

/-- The value of the first version of a run that is not aborted.
Kind: D -/
def live : List StateVersion → Option (Option U256)
  | [] => none
  | v :: vs => if v.status = .aborted then live vs else some v.value

/-- The entry a reader finds at sequence number `q`.
Kind: D -/
def column (l : List StateVersion) (q : ℕ) : Option (Option U256) := live (runAt l q)

@[simp] theorem column_nil (q : ℕ) : column [] q = none := rfl

/-- The column of a longer chain. Kind: L -/
theorem column_cons (v : StateVersion) (vs : List StateVersion) (q : ℕ) :
    column (v :: vs) q =
      if v.txSequence.toNat = q ∧ v.status ≠ .aborted then some v.value else column vs q := by
  unfold column runAt
  by_cases hq : v.txSequence.toNat = q
  · by_cases hs : v.status = .aborted <;> simp [hq, hs, live]
  · simp [hq]

/-- A chain has no entry where it has no version. Kind: L -/
theorem column_eq_none_of_forall_ne {l : List StateVersion} {q : ℕ}
    (h : ∀ v ∈ l, v.txSequence.toNat ≠ q) : column l q = none := by
  have : runAt l q = [] := List.filter_eq_nil_iff.mpr fun v hv => by simpa using h v hv
  rw [column, this, live]

/-- **`read_for` reads the newest live entry below the reader.** Kind: P -/
theorem readForLoop_eq_newestBelow (r : UInt64) {l : List StateVersion} (h : Descending l) :
    VersionChain.readForLoop r l =
      (newestBelow (column l) r.toNat).map fun p => (p.1, UInt64.ofNat p.2) := by
  induction l with
  | nil =>
      rw [newestBelow_eq_none_iff.mpr fun q _ => column_nil q]
      rfl
  | cons v vs ih =>
      obtain ⟨hv, hvs⟩ := List.pairwise_cons.mp h
      have ih := ih hvs
      by_cases hr : v.txSequence < r
      · have hr' := UInt64.lt_iff_toNat_lt.mp hr
        by_cases hs : v.status = .aborted
        · -- an aborted version contributes to no entry
          have hcol : ∀ q, q < r.toNat → column (v :: vs) q = column vs q := fun q _ => by
            simp [column_cons, hs]
          rw [newestBelow_congr hcol, ← ih]
          simp [VersionChain.readForLoop, hr, hs]
        · have hnew : newestBelow (column (v :: vs)) r.toNat =
              some (v.value, v.txSequence.toNat) := by
            refine newestBelow_eq_some_iff.mpr ⟨hr', by simp [column_cons, hs], fun p hp _ => ?_⟩
            rw [column_cons, if_neg (by omega)]
            refine column_eq_none_of_forall_ne fun w hw => ?_
            have := UInt64.le_iff_toNat_le.mp (hv w hw)
            omega
          rw [hnew]
          cases hst : v.status with
          | aborted => exact absurd hst hs
          | pending => simp [VersionChain.readForLoop, hr, hst]
          | committed => simp [VersionChain.readForLoop, hr, hst]
      · have hr' : r.toNat ≤ v.txSequence.toNat := by
          rw [UInt64.lt_iff_toNat_lt] at hr
          omega
        have hcol : ∀ q, q < r.toNat → column (v :: vs) q = column vs q := fun q hq => by
          rw [column_cons, if_neg (by omega)]
        rw [newestBelow_congr hcol, ← ih]
        simp [VersionChain.readForLoop, hr]

/-- Sequence numbers below a `u64` fit. Kind: L -/
theorem toNat_ofNat_of_lt_toNat {q : ℕ} {s : UInt64} (h : q < s.toNat) :
    (UInt64.ofNat q).toNat = q := by
  have := s.toNat_lt
  rw [UInt64.toNat_ofNat']
  omega

/-- The same for chains. Kind: P -/
theorem readFor_eq_newestBelow (c : VersionChain) (r : UInt64) :
    c.readFor r =
      (newestBelow (column c.versions) r.toNat).map fun p => (p.1, UInt64.ofNat p.2) :=
  readForLoop_eq_newestBelow r c.sorted

/-! ### What the operations do to the runs -/

/-- A sorted chain splits at a sequence number. Kind: L -/
theorem descending_split {l : List StateVersion} (h : Descending l) (s : ℕ) :
    l = l.filter (fun v => s < v.txSequence.toNat) ++ runAt l s ++
      l.filter (fun v => v.txSequence.toNat < s) := by
  induction l with
  | nil => rfl
  | cons v vs ih =>
      obtain ⟨hv, hvs⟩ := List.pairwise_cons.mp h
      have ih := ih hvs
      have hle : ∀ w ∈ vs, w.txSequence.toNat ≤ v.txSequence.toNat := fun w hw =>
        UInt64.le_iff_toNat_le.mp (hv w hw)
      rcases Nat.lt_trichotomy s v.txSequence.toNat with hlt | heq | hgt
      · have h1 : ¬ v.txSequence.toNat = s := by omega
        have h2 : ¬ v.txSequence.toNat < s := by omega
        simpa [runAt, hlt, h1, h2] using ih
      · have h1 : vs.filter (fun w => s < w.txSequence.toNat) = [] :=
          List.filter_eq_nil_iff.mpr fun w hw => by have := hle w hw; simp; omega
        rw [h1] at ih
        simpa [runAt, ← heq, h1] using ih
      · have h1 : vs.filter (fun w => s < w.txSequence.toNat) = [] :=
          List.filter_eq_nil_iff.mpr fun w hw => by have := hle w hw; simp; omega
        have h2 : runAt vs s = [] :=
          List.filter_eq_nil_iff.mpr fun w hw => by have := hle w hw; simp; omega
        have h3 : ¬ s < v.txSequence.toNat := by omega
        have h4 : ¬ v.txSequence.toNat = s := by omega
        rw [h1, h2] at ih
        unfold runAt at h2
        simpa [runAt, h1, h2, h3, h4, hgt] using ih

/-- The three blocks of outcomes of a chain. Kind: L -/
theorem outcomes_blocks {l : List StateVersion} (h : Descending l) (s : UInt64) :
    outcomes s l =
      List.replicate (l.filter (fun v => s.toNat < v.txSequence.toNat)).length .lt ++
        List.replicate (runAt l s.toNat).length .eq ++
        List.replicate (l.filter (fun v => v.txSequence.toNat < s.toNat)).length .gt := by
  have hblock : ∀ (m : List StateVersion) (o : Ordering),
      (∀ v ∈ m, compare s v.txSequence = o) → outcomes s m = List.replicate m.length o := by
    intro m o hm
    rw [outcomes, List.eq_replicate_iff]
    refine ⟨by simp, fun x hx => ?_⟩
    obtain ⟨v, hv, rfl⟩ := List.mem_map.mp hx
    exact hm v hv
  conv_lhs => rw [descending_split h s.toNat]
  have happ : ∀ a b : List StateVersion, outcomes s (a ++ b) = outcomes s a ++ outcomes s b :=
    fun a b => List.map_append
  rw [happ, happ, hblock _ .lt, hblock _ .eq, hblock _ .gt]
  · intro v hv
    have := (List.mem_filter.mp hv).2
    exact (compare_u64_gt_iff _ _).mpr (UInt64.lt_iff_toNat_lt.mpr (by simpa using this))
  · intro v hv
    have heq : v.txSequence.toNat = s.toNat := by simpa using (List.mem_filter.mp hv).2
    exact (compare_u64_eq_iff _ _).mpr (UInt64.toNat_inj.mp heq.symm)
  · intro v hv
    have := (List.mem_filter.mp hv).2
    exact (compare_u64_lt_iff _ _).mpr (UInt64.lt_iff_toNat_lt.mpr (by simpa using this))

/-- **Where a new version goes**: just before the last version of its own run. Kind: P -/
theorem versions_addVersion (c : VersionChain) (v : StateVersion) :
    (c.addVersion v).versions =
      c.versions.filter (fun w => v.txSequence.toNat < w.txSequence.toNat) ++
        tuck (runAt c.versions v.txSequence.toNat) v ++
        c.versions.filter (fun w => w.txSequence.toNat < v.txSequence.toNat) := by
  have hpos : stdSearch.position (outcomes v.txSequence c.versions) =
      (c.versions.filter (fun w => v.txSequence.toNat < w.txSequence.toNat)).length +
        ((runAt c.versions v.txSequence.toNat).length - 1) := by
    rw [outcomes_blocks c.sorted, stdSearch_position]
  have hsplit := descending_split c.sorted v.txSequence.toNat
  simp only [VersionChain.addVersion, VersionChain.addVersionWith, hpos]
  generalize c.versions.filter (fun w => v.txSequence.toNat < w.txSequence.toNat) = newer at *
  generalize c.versions.filter (fun w => w.txSequence.toNat < v.txSequence.toNat) = older at *
  generalize runAt c.versions v.txSequence.toNat = run at *
  rw [hsplit]
  rcases List.eq_nil_or_concat run with rfl | ⟨run, a, rfl⟩
  · simp
  · have htake : List.take (newer.length + run.length) newer = newer :=
      List.take_of_length_le (by omega)
    have hdrop : List.drop (newer.length + run.length) newer = [] :=
      List.drop_eq_nil_of_le (by omega)
    simp [List.take_append, List.drop_append, htake, hdrop]

/-- Runs of an append. Kind: L -/
theorem runAt_append (a b : List StateVersion) (q : ℕ) :
    runAt (a ++ b) q = runAt a q ++ runAt b q := List.filter_append ..

/-- A block of versions with one number is its own run. Kind: L -/
theorem runAt_eq_self {l : List StateVersion} {q : ℕ} (h : ∀ v ∈ l, v.txSequence.toNat = q) :
    runAt l q = l := List.filter_eq_self.mpr fun v hv => by simpa using h v hv

/-- A number that no version has, has no versions. Kind: L -/
theorem runAt_eq_nil {l : List StateVersion} {q : ℕ} (h : ∀ v ∈ l, v.txSequence.toNat ≠ q) :
    runAt l q = [] := List.filter_eq_nil_iff.mpr fun v hv => by simpa using h v hv

/-- The versions at a number have that number. Kind: L -/
theorem txSequence_of_mem_runAt {l : List StateVersion} {q : ℕ} {v : StateVersion}
    (h : v ∈ runAt l q) : v.txSequence.toNat = q := by
  simpa using (List.mem_filter.mp h).2

/-- The run of the new version grows by `tuck`, every other run is unchanged. Kind: P -/
theorem runAt_addVersion (c : VersionChain) (v : StateVersion) (q : ℕ) :
    runAt (c.addVersion v).versions q =
      if q = v.txSequence.toNat then tuck (runAt c.versions q) v else runAt c.versions q := by
  have hnewer : ∀ w ∈ c.versions.filter (fun w => v.txSequence.toNat < w.txSequence.toNat),
      v.txSequence.toNat < w.txSequence.toNat := fun w hw => by
    simpa using (List.mem_filter.mp hw).2
  have holder : ∀ w ∈ c.versions.filter (fun w => w.txSequence.toNat < v.txSequence.toNat),
      w.txSequence.toNat < v.txSequence.toNat := fun w hw => by
    simpa using (List.mem_filter.mp hw).2
  have htuck : ∀ w ∈ tuck (runAt c.versions v.txSequence.toNat) v,
      w.txSequence.toNat = v.txSequence.toNat := fun w hw => by
    rcases mem_tuck.mp hw with rfl | hw
    · rfl
    · exact txSequence_of_mem_runAt hw
  rw [versions_addVersion, runAt_append, runAt_append]
  split_ifs with hq
  · subst hq
    rw [runAt_eq_nil fun w hw => (hnewer w hw).ne', runAt_eq_self htuck,
      runAt_eq_nil fun w hw => (holder w hw).ne]
    simp
  · conv_rhs => rw [descending_split c.sorted v.txSequence.toNat, runAt_append, runAt_append]
    rw [runAt_eq_nil (l := tuck _ _) fun w hw => by rw [htuck w hw]; exact Ne.symm hq,
      runAt_eq_nil (l := runAt c.versions v.txSequence.toNat) fun w hw => by
        rw [txSequence_of_mem_runAt hw]; exact Ne.symm hq]

/-- A run with a version that is not aborted has an entry. Kind: L -/
theorem live_ne_none_of_mem {l : List StateVersion} {v : StateVersion} (hv : v ∈ l)
    (hs : v.status ≠ .aborted) : live l ≠ none := by
  induction l with
  | nil => cases hv
  | cons w l ih =>
      unfold live
      split_ifs with hw
      · rcases List.mem_cons.mp hv with rfl | hv
        · exact absurd hw hs
        · exact ih hv
      · simp

/-- A tucked version gives an entry. Kind: L -/
theorem live_tuck_ne_none (l : List StateVersion) (v : StateVersion) (hs : v.status ≠ .aborted) :
    live (tuck l v) ≠ none :=
  live_ne_none_of_mem (mem_tuck.mpr (Or.inl rfl)) hs

/-- Marking the first version of a run.
Kind: D -/
def markHead (status : TxStatus) : List StateVersion → List StateVersion
  | [] => []
  | v :: vs => { v with status := status } :: vs

/-- **A status change reaches only the first version of its run.** Kind: P -/
theorem runAt_markLoop (s : UInt64) (st : TxStatus) (l : List StateVersion) (q : ℕ) :
    runAt (markLoop s st l) q =
      if q = s.toNat then markHead st (runAt l q) else runAt l q := by
  induction l with
  | nil => simp [markLoop, runAt, markHead]
  | cons v vs ih =>
      unfold markLoop
      by_cases hv : v.txSequence = s
      · subst hv
        by_cases hq : q = v.txSequence.toNat
        · subst hq
          simp [runAt, markHead]
        · simp [runAt, hq, Ne.symm hq]
      · have hv' : v.txSequence.toNat ≠ s.toNat := fun h => hv (UInt64.toNat_inj.mp h)
        rw [if_neg hv]
        by_cases hq : q = s.toNat
        · have hvq : v.txSequence.toNat ≠ q := fun h => hv' (h.trans hq)
          simpa [runAt, hvq] using ih
        · by_cases hvq : v.txSequence.toNat = q
          · have ih' := ih
            simp only [if_neg hq] at ih' ⊢
            simp only [runAt] at ih' ⊢
            simp [hvq, ih']
          · simpa [runAt, hvq] using ih

/-- The same for chains. Kind: P -/
theorem runAt_mark (c : VersionChain) (s : UInt64) (st : TxStatus) (q : ℕ) :
    runAt (c.mark s st).versions q =
      if q = s.toNat then markHead st (runAt c.versions q) else runAt c.versions q :=
  runAt_markLoop s st c.versions q

/-! ### Read sets, write sets and results -/

/-- The reads of a transaction: key to value and version read.
Source: `types/state.rs`, `ReadSet`
Kind: D -/
structure ReadSet where
  reads : HashMap StateKey (Option U256 × UInt64)

/-- Nothing has been read.
Source: `types/state.rs`, `ReadSet::new`
Kind: D -/
def ReadSet.new : ReadSet := ⟨∅⟩

/-- A read with the version it found; a later read of the key replaces it.
Source: `types/state.rs`, `ReadSet::record`
Kind: D -/
def ReadSet.record (rs : ReadSet) (key : StateKey) (value : Option U256) (version : UInt64) :
    ReadSet := ⟨rs.reads.insert key (value, version)⟩

/-- The writes of a transaction: key to new value, `none` for a deletion.
Source: `types/state.rs`, `WriteSet`
Kind: D -/
structure WriteSet where
  writes : HashMap StateKey (Option U256)

/-- Nothing has been written.
Source: `types/state.rs`, `WriteSet::new`
Kind: D -/
def WriteSet.new : WriteSet := ⟨∅⟩

/-- A write; a later write of the key replaces it.
Source: `types/state.rs`, `WriteSet::record`
Kind: D -/
def WriteSet.record (ws : WriteSet) (key : StateKey) (value : Option U256) : WriteSet :=
  ⟨ws.writes.insert key value⟩

/-- The keys that were written.
Source: `types/state.rs`, `WriteSet::keys`
Kind: D -/
def WriteSet.keys (ws : WriteSet) : List StateKey := ws.writes.keys

/-- How an execution ended.
Source: `types/state.rs`, `ExecutionStatus`
Kind: D -/
inductive ExecutionStatus where
  | success
  | revert
  | failure
  deriving DecidableEq

/-- A log of the virtual machine.
Source: `types/state.rs`, `Log`
Kind: D -/
structure Log where
  address : Bytes 20
  topics : List (Bytes 32)
  data : List UInt8
  deriving DecidableEq

/-- What an execution did: its status, its reads and writes, its gas and its output.
Source: `types/state.rs`, `ExecutionResult`
Kind: D -/
structure ExecutionResult where
  txSeq : UInt64
  status : ExecutionStatus
  readSet : ReadSet
  writeSet : WriteSet
  gasUsed : UInt64
  logs : List Log
  output : List UInt8

end Ryther
