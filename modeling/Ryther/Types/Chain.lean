import Ryther.Types.State

/-!
# Histories of a version chain

The methods of `VersionChain` in `src/types/state.rs`, called in any order on one chain. A version
may be added under a sequence number that is taken, with any status; each call of `add_version` may
come with another search, as long as it finds some match in a sorted slice or the insertion point.

* `VersionChain.gcAborted` — the clean-up; no reader notices it (`readFor_gcAborted`).
* `VersionChain.readFor_eq_find` — `read_for` is a search for the first visible version.
* `VersionChain.Changes`, `changes_step` — what each call adds, changes and removes.
* `VersionChain.resolves_along_runs` — in every chain that is reached, the version found is a newest
  visible one and was added by a call, and no version is lost.
-/

namespace Ryther

open Lib

/-- A reader may see a version: it is older than the reader and not aborted.
Kind: D -/
def StateVersion.VisibleTo (readerSeq : UInt64) (v : StateVersion) : Prop :=
  v.txSequence < readerSeq ∧ v.status ≠ .aborted

instance (readerSeq : UInt64) (v : StateVersion) : Decidable (v.VisibleTo readerSeq) :=
  inferInstanceAs (Decidable (_ ∧ _))

namespace VersionChain

/-- The aborted versions go.
Source: `types/state.rs`, `VersionChain::gc_aborted`
Kind: D -/
def gcAborted (c : VersionChain) : VersionChain where
  versions := c.versions.filter fun v => v.status ≠ .aborted
  sorted := c.sorted.sublist List.filter_sublist

/-! ### What a reader finds -/

/-- The loop stops at the first version the reader may see. Kind: L -/
theorem readForLoop_eq_find (r : UInt64) (l : List StateVersion) :
    readForLoop r l = (l.find? fun v => v.VisibleTo r).map fun v => (v.value, v.txSequence) := by
  induction l with
  | nil => rfl
  | cons v vs ih =>
      by_cases hvisible : v.VisibleTo r
      · rw [List.find?_cons_of_pos (by simpa using hvisible), readForLoop, if_pos hvisible.1]
        rcases hcase : v.status with _ | _ | _
        · rfl
        · rfl
        · exact absurd hcase hvisible.2
      · rw [List.find?_cons_of_neg (by simpa using hvisible), ← ih, readForLoop]
        by_cases hlt : v.txSequence < r
        · have hstatus : v.status = .aborted := by
            by_contra hstatus
            exact hvisible ⟨hlt, hstatus⟩
          rw [if_pos hlt, hstatus]
        · rw [if_neg hlt]

/-- **`read_for` looks for the first visible version.** Kind: P -/
theorem readFor_eq_find (c : VersionChain) (r : UInt64) :
    c.readFor r = (c.versions.find? fun v => v.VisibleTo r).map fun v => (v.value, v.txSequence) :=
  readForLoop_eq_find r c.versions

/-- A read finds nothing exactly if no version is visible to the reader. Kind: L -/
theorem readFor_eq_none_iff (c : VersionChain) (r : UInt64) :
    c.readFor r = none ↔ ∀ v ∈ c.versions, ¬ v.VisibleTo r := by
  rw [readFor_eq_find, Option.map_eq_none_iff, List.find?_eq_none]
  simp only [decide_eq_true_eq]

/-- **What is read comes from a newest visible version.** The versions before the one found are not
visible, and those behind it are not newer, as the chain is sorted. Kind: P -/
theorem readFor_eq_some {c : VersionChain} {r : UInt64} {value : Option U256} {s : UInt64}
    (h : c.readFor r = some (value, s)) :
    (∃ v ∈ c.versions, v.VisibleTo r ∧ v.txSequence = s ∧ v.value = value) ∧
      ∀ w ∈ c.versions, w.VisibleTo r → w.txSequence ≤ s := by
  rw [readFor_eq_find] at h
  obtain ⟨v, hfind, hpair⟩ := Option.map_eq_some_iff.mp h
  obtain ⟨rfl, rfl⟩ := Prod.mk.inj hpair
  obtain ⟨hvisible, before, behind, hversions, hbefore⟩ := List.find?_eq_some_iff_append.mp hfind
  have hsorted : Descending (before ++ v :: behind) := hversions ▸ c.sorted
  obtain ⟨-, hbehind, -⟩ := List.pairwise_append.mp hsorted
  refine ⟨⟨v, by simp [hversions], by simpa using hvisible, rfl, rfl⟩, ?_⟩
  intro w hw hwvisible
  rw [hversions, List.mem_append, List.mem_cons] at hw
  rcases hw with hw | rfl | hw
  · exact absurd hwvisible (by simpa using hbefore w hw)
  · exact UInt64.le_refl _
  · exact (List.pairwise_cons.mp hbehind).1 w hw

/-- **No reader notices the clean-up.** Kind: P -/
theorem readFor_gcAborted (c : VersionChain) (r : UInt64) :
    c.gcAborted.readFor r = c.readFor r := by
  rw [readFor_eq_find, readFor_eq_find]
  show ((c.versions.filter fun v => v.status ≠ .aborted).find? _).map _ = _
  rw [List.find?_filter]
  congr 2
  funext v
  simp only [decide_eq_true_eq, decide_eq_decide]
  exact and_iff_right_of_imp And.right

/-! ### Histories -/

/-- A call on the chain. The search belongs to the call.
Kind: D -/
inductive Op where
  | addVersion (bs : BinarySearch) (version : StateVersion)
  | markCommitted (txSeq : UInt64)
  | markAborted (txSeq : UInt64)
  | gcAborted

/-- The chain after a call.
Kind: D -/
def step (c : VersionChain) : Op → VersionChain
  | .addVersion bs version => c.addVersionWith bs version
  | .markCommitted txSeq => c.markCommitted txSeq
  | .markAborted txSeq => c.markAborted txSeq
  | .gcAborted => c.gcAborted

/-- The chain after some calls.
Kind: D -/
def run (c : VersionChain) (ops : List Op) : VersionChain := ops.foldl step c

/-- A call that marks a version: its number and the status it gets.
Kind: D -/
def Op.marks : Op → Option (UInt64 × TxStatus)
  | .markCommitted txSeq => some (txSeq, .committed)
  | .markAborted txSeq => some (txSeq, .aborted)
  | _ => none

/-- What a call adds to the versions, changes in them and removes from them.
Kind: D -/
inductive Changes : List StateVersion → Op → List StateVersion → Prop
  /-- The new version comes in somewhere, and all others stay. -/
  | added (bs : BinarySearch) (v : StateVersion) (before behind : List StateVersion) :
      Changes (before ++ behind) (.addVersion bs v) (before ++ v :: behind)
  /-- The first version with the number gets the status. -/
  | marked (op : Op) (s : UInt64) (status : TxStatus) (hop : op.marks = some (s, status))
      (before : List StateVersion) (v : StateVersion) (behind : List StateVersion)
      (hs : v.txSequence = s) (hbefore : ∀ w ∈ before, w.txSequence ≠ s) :
      Changes (before ++ v :: behind) op (before ++ { v with status := status } :: behind)
  /-- No version has the number. -/
  | unmarked (op : Op) (s : UInt64) (status : TxStatus) (hop : op.marks = some (s, status))
      (l : List StateVersion) (hnone : ∀ w ∈ l, w.txSequence ≠ s) : Changes l op l
  /-- The aborted versions go. -/
  | cleaned (l : List StateVersion) :
      Changes l .gcAborted (l.filter fun v => v.status ≠ .aborted)

/-- Marking stops at the first version with the number. Kind: L -/
theorem markLoop_split {s : UInt64} {status : TxStatus} {before behind : List StateVersion}
    {v : StateVersion} (hs : v.txSequence = s) (hbefore : ∀ w ∈ before, w.txSequence ≠ s) :
    markLoop s status (before ++ v :: behind) =
      before ++ { v with status := status } :: behind := by
  induction before with
  | nil => exact if_pos hs
  | cons w before ih =>
      rw [List.cons_append, markLoop, if_neg (hbefore w List.mem_cons_self),
        ih fun u hu => hbefore u (List.mem_cons_of_mem _ hu)]
      rfl

/-- Marking a number that no version has changes nothing. Kind: L -/
theorem markLoop_of_forall_ne {s : UInt64} {status : TxStatus} {l : List StateVersion}
    (hnone : ∀ w ∈ l, w.txSequence ≠ s) : markLoop s status l = l := by
  induction l with
  | nil => rfl
  | cons w l ih =>
      rw [markLoop, if_neg (hnone w List.mem_cons_self),
        ih fun u hu => hnone u (List.mem_cons_of_mem _ hu)]

/-- Marking changes the first version with the number, if there is one. Kind: L -/
theorem changes_markLoop {op : Op} {s : UInt64} {status : TxStatus}
    (hop : op.marks = some (s, status)) (l : List StateVersion) :
    Changes l op (markLoop s status l) := by
  cases hfind : l.find? fun v => v.txSequence = s with
  | some v =>
      obtain ⟨hs, before, behind, rfl, hbefore⟩ := List.find?_eq_some_iff_append.mp hfind
      have hs : v.txSequence = s := by simpa using hs
      have hbefore : ∀ w ∈ before, w.txSequence ≠ s := fun w hw => by simpa using hbefore w hw
      rw [markLoop_split hs hbefore]
      exact .marked op s status hop before v behind hs hbefore
  | none =>
      have hnone : ∀ w ∈ l, w.txSequence ≠ s := by simpa using hfind
      rw [markLoop_of_forall_ne hnone]
      exact .unmarked op s status hop l hnone

/-- **What a call does to the versions of a chain.** Kind: P -/
theorem changes_step (c : VersionChain) (op : Op) : Changes c.versions op (c.step op).versions := by
  cases op with
  | addVersion bs v =>
      have hadd := Changes.added bs v
        (c.versions.take (bs.position (outcomes v.txSequence c.versions)))
        (c.versions.drop (bs.position (outcomes v.txSequence c.versions)))
      rwa [List.take_append_drop] at hadd
  | markCommitted s => exact changes_markLoop rfl c.versions
  | markAborted s => exact changes_markLoop rfl c.versions
  | gcAborted => exact .cleaned c.versions

/-- A version after a call is the one it adds, or it was there, perhaps with another status.
Kind: L -/
theorem Changes.mem {l l' : List StateVersion} {op : Op} (h : Changes l op l') {v : StateVersion}
    (hv : v ∈ l') : (∃ bs, op = .addVersion bs v) ∨
      ∃ w ∈ l, w.txSequence = v.txSequence ∧ w.value = v.value := by
  cases h with
  | added bs new before behind =>
      rcases List.mem_append.mp hv with hold | hv
      · exact .inr ⟨v, List.mem_append_left _ hold, rfl, rfl⟩
      · rcases List.mem_cons.mp hv with rfl | hold
        · exact .inl ⟨bs, rfl⟩
        · exact .inr ⟨v, List.mem_append_right _ hold, rfl, rfl⟩
  | marked _ s status hop before w behind hs hbefore =>
      rcases List.mem_append.mp hv with hold | hv
      · exact .inr ⟨v, List.mem_append_left _ hold, rfl, rfl⟩
      · rcases List.mem_cons.mp hv with rfl | hold
        · exact .inr ⟨w, by simp, rfl, rfl⟩
        · exact .inr ⟨v, by simp [hold], rfl, rfl⟩
  | unmarked _ s status hop _ hnone => exact .inr ⟨v, hv, rfl, rfl⟩
  | cleaned => exact .inr ⟨v, (List.mem_filter.mp hv).1, rfl, rfl⟩

/-- A version that is not aborted stays, and is not aborted after a call that does not abort its
number. Kind: L -/
theorem Changes.kept {l l' : List StateVersion} {op : Op} (h : Changes l op l') {w : StateVersion}
    (hw : w ∈ l) (hlive : w.status ≠ .aborted) (hop : op ≠ .markAborted w.txSequence) :
    ∃ v ∈ l', v.status ≠ .aborted ∧ v.txSequence = w.txSequence ∧ v.value = w.value := by
  cases h with
  | added bs new before behind =>
      refine ⟨w, ?_, hlive, rfl, rfl⟩
      rcases List.mem_append.mp hw with hw | hw
      · exact List.mem_append_left _ hw
      · exact List.mem_append_right _ (List.mem_cons_of_mem _ hw)
  | marked _ s status hmarks before v behind hs hbefore =>
      rcases List.mem_append.mp hw with hw | hw
      · exact ⟨w, List.mem_append_left _ hw, hlive, rfl, rfl⟩
      · rcases List.mem_cons.mp hw with rfl | hw
        · refine ⟨{ w with status := status }, by simp, ?_, rfl, rfl⟩
          rintro rfl
          cases op with
          | markAborted txSeq =>
              obtain ⟨rfl, -⟩ := Prod.mk.inj (Option.some.inj hmarks)
              exact hop (congrArg Op.markAborted hs.symm)
          | _ => cases hmarks
        · exact ⟨w, by simp [hw], hlive, rfl, rfl⟩
  | unmarked _ s status hmarks _ hnone => exact ⟨w, hw, hlive, rfl, rfl⟩
  | cleaned => exact ⟨w, List.mem_filter.mpr ⟨hw, by simpa using hlive⟩, hlive, rfl, rfl⟩

/-- The versions of a chain after some calls are those of calls of `add_version`, perhaps with
another status. By induction on the calls, from the end. Kind: L -/
theorem exists_addVersion_of_mem_run {ops : List Op} {v : StateVersion}
    (hv : v ∈ (new.run ops).versions) :
    ∃ bs w, Op.addVersion bs w ∈ ops ∧ w.txSequence = v.txSequence ∧ w.value = v.value := by
  induction ops using List.reverseRecOn generalizing v with
  | nil => cases hv
  | append_singleton ops op ih =>
      rw [run, List.foldl_append] at hv
      rcases (changes_step (new.run ops) op).mem hv with ⟨bs, rfl⟩ | ⟨w, hw, hseq, hvalue⟩
      · exact ⟨bs, v, by simp, rfl, rfl⟩
      · obtain ⟨bs, u, hu, huseq, huvalue⟩ := ih hw
        exact ⟨bs, u, List.mem_append_left _ hu, huseq.trans hseq, huvalue.trans hvalue⟩

/-- A version that is not aborted outlasts calls that do not abort its number. Kind: L -/
theorem exists_mem_run {c : VersionChain} {w : StateVersion} (hw : w ∈ c.versions)
    (hlive : w.status ≠ .aborted) {ops : List Op} (hops : Op.markAborted w.txSequence ∉ ops) :
    ∃ v ∈ (c.run ops).versions, v.status ≠ .aborted ∧ v.txSequence = w.txSequence ∧
      v.value = w.value := by
  induction ops generalizing c w with
  | nil => exact ⟨w, hw, hlive, rfl, rfl⟩
  | cons op ops ih =>
      obtain ⟨hop, hops⟩ := not_or.mp (mt List.mem_cons.mpr hops)
      obtain ⟨v, hv, hvlive, hseq, hvalue⟩ := (changes_step c op).kept hw hlive (Ne.symm hop)
      obtain ⟨u, hu, hulive, huseq, huvalue⟩ := ih hv hvlive (hseq ▸ hops)
      exact ⟨u, hu, hulive, huseq.trans hseq, huvalue.trans hvalue⟩

/-- **No version is lost.** What was added and never aborted is still there. Kind: P -/
theorem exists_mem_run_of_addVersion {ops : List Op} {bs : BinarySearch} {v : StateVersion}
    (hadd : Op.addVersion bs v ∈ ops) (hlive : v.status ≠ .aborted)
    (hops : Op.markAborted v.txSequence ∉ ops) :
    ∃ w ∈ (new.run ops).versions, w.status ≠ .aborted ∧ w.txSequence = v.txSequence ∧
      w.value = v.value := by
  obtain ⟨pre, post, rfl⟩ := List.append_of_mem hadd
  rw [run, List.foldl_append, List.foldl_cons]
  exact exists_mem_run (by simp [step, addVersionWith]) hlive fun h => hops (by simp [h])

/-- **Reads resolve to the newest visible version in every history.** The chain is sorted after any
calls, a reader finds nothing exactly if no version is visible to it, and otherwise it finds the
largest visible sequence number with the value of a visible version that carries it. What it finds
was added under that number by one of the calls, and what was added and not aborted is still there.
Source: `types/state.rs`, `VersionChain`
Kind: P -/
theorem resolves_along_runs (ops : List Op) (r : UInt64) :
    let c := new.run ops
    Descending c.versions ∧
      (c.readFor r = none ↔ ∀ v ∈ c.versions, v.status ≠ .aborted → ¬ v.txSequence < r) ∧
      (∀ value s, c.readFor r = some (value, s) →
        (∃ v ∈ c.versions, v.status ≠ .aborted ∧ v.txSequence < r ∧
          v.txSequence = s ∧ v.value = value) ∧
        (∀ w ∈ c.versions, w.status ≠ .aborted → w.txSequence < r → w.txSequence ≤ s) ∧
        ∃ bs v, Op.addVersion bs v ∈ ops ∧ v.txSequence = s ∧ v.value = value) ∧
      ∀ bs v, Op.addVersion bs v ∈ ops → v.status ≠ .aborted →
        Op.markAborted v.txSequence ∉ ops →
        ∃ w ∈ c.versions, w.status ≠ .aborted ∧ w.txSequence = v.txSequence ∧
          w.value = v.value := by
  intro c
  refine ⟨c.sorted, ?_, ?_, ?_⟩
  · rw [readFor_eq_none_iff]
    exact forall₂_congr fun v _ => ⟨fun h hs hlt => h ⟨hlt, hs⟩, fun h hv => h hv.2 hv.1⟩
  · intro value s h
    obtain ⟨⟨v, hv, hvisible, rfl, rfl⟩, hnewest⟩ := readFor_eq_some h
    refine ⟨⟨v, hv, hvisible.2, hvisible.1, rfl, rfl⟩, ?_, exists_addVersion_of_mem_run hv⟩
    exact fun w hw hstatus hlt => hnewest w hw ⟨hlt, hstatus⟩
  · exact fun bs v hadd hlive hops => exists_mem_run_of_addVersion hadd hlive hops

end VersionChain

end Ryther
