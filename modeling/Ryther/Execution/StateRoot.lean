import Mathlib.Data.List.Infix
import Ryther.Execution.Mvcc
import Ryther.Storage.JmtMap

/-!
# The Merkle tree beside the base state

`MultiVersionState` keeps a base state and a Merkle tree of it, and `finalize` updates both. A
visible value is inserted into both; a visible deletion leaves the base state only, the source notes
"JMT delete not implemented in mock yet".

* `StateOp`, `run` — runs of writes, marks and `finalize` on a new store.
* `putsOf` — the insertions into the tree that a run makes; `jmt_run` says the tree is theirs.
* `base_eq_some_imp` — a base value is the last one put, in every run.
* `lastPut_eq_base` — the converse holds as long as no `finalize` deletes a base value.
* `tree_follows_base_iff` — so the tree answers for a key what the base state holds exactly in the
  runs that never delete a base value of it, and among these the base state determines the root.
-/

namespace Ryther

open Lib JellyfishMerkleTree

namespace MultiVersionState

/-! ### Runs -/

/-- The operations of a run.
Kind: D -/
inductive StateOp where
  | write (key : StateKey) (writerSeq : UInt64) (value : Option U256)
  | markCommitted (key : StateKey) (txSeq : UInt64)
  | markAborted (key : StateKey) (txSeq : UInt64)
  | finalize

section

variable (sha256 : List UInt8 → Bytes 32)

/-- The state after one call. Kind: D -/
def step (state : MultiVersionState) : StateOp → MultiVersionState
  | .write key writerSeq value => state.write key writerSeq value
  | .markCommitted key txSeq => state.markCommitted key txSeq
  | .markAborted key txSeq => state.markAborted key txSeq
  | .finalize => state.finalize sha256

/-- The store after a run from `MultiVersionState::new`.
Kind: D -/
def run (ops : List StateOp) : MultiVersionState := ops.foldl (step sha256) new

/-- What one entry of the chains puts into the tree.
Kind: D -/
def entryPut (entry : Sigma fun _ : StateKey => VersionChain) : Option (StateKey × U256) :=
  match entry.2.readFor u64Max with
  | some (some v, _) => some (entry.1, v)
  | _ => none

/-- The insertions into the tree that an operation makes.
Kind: D -/
def stepPuts (state : MultiVersionState) : StateOp → List (StateKey × U256)
  | .finalize => state.data.entries.filterMap entryPut
  | _ => []

/-- The insertions of a run that starts in `state`.
Kind: D -/
def putsFrom (state : MultiVersionState) : List StateOp → List (StateKey × U256)
  | [] => []
  | op :: rest => state.stepPuts op ++ putsFrom (state.step sha256 op) rest

/-- The insertions of a run.
Kind: D -/
def putsOf (ops : List StateOp) : List (StateKey × U256) := putsFrom sha256 new ops

variable {sha256}

/-- The state after one more call. Kind: L -/
@[simp] theorem run_concat (ops : List StateOp) (op : StateOp) :
    run sha256 (ops ++ [op]) = (run sha256 ops).step sha256 op := by
  simp [run]

/-- The updates of the tree by two runs come one after the other. Kind: L -/
theorem putsFrom_append (a b : List StateOp) (state : MultiVersionState) :
    putsFrom sha256 state (a ++ b) =
      putsFrom sha256 state a ++ putsFrom sha256 (a.foldl (step sha256) state) b := by
  induction a generalizing state with
  | nil => rfl
  | cons op a ih => simp only [List.cons_append, putsFrom, ih, List.append_assoc, List.foldl_cons]

/-- One more call adds its own updates of the tree. Kind: L -/
theorem putsOf_concat (ops : List StateOp) (op : StateOp) :
    putsOf sha256 (ops ++ [op]) = putsOf sha256 ops ++ (run sha256 ops).stepPuts op := by
  rw [putsOf, putsFrom_append, putsFrom, putsFrom, List.append_nil]
  rfl

/-- The insertions of a first part of a run come first. Kind: L -/
theorem exists_putsOf_append {pre ops : List StateOp} (h : pre <+: ops) :
    ∃ rest, putsOf sha256 ops = putsOf sha256 pre ++ rest := by
  obtain ⟨post, rfl⟩ := h
  exact ⟨_, putsFrom_append pre post new⟩

/-! ### The tree of a run -/

/-- The loop of `finalize` inserts the entries' values one after the other. Kind: L -/
theorem snd_foldl_finalizeEntry (entries : List (Sigma fun _ : StateKey => VersionChain))
    (acc : HashMap StateKey U256 × JellyfishMerkleTree) :
    (entries.foldl (finalizeEntry sha256) acc).2 =
      (entries.filterMap entryPut).foldl (fun tree p => tree.put sha256 p.1 p.2) acc.2 := by
  induction entries generalizing acc with
  | nil => rfl
  | cons entry entries ih =>
      rw [List.foldl_cons, ih, List.filterMap_cons]
      unfold finalizeEntry entryPut
      rcases entry.2.readFor u64Max with _ | ⟨_ | v, _⟩ <;> rfl

/-- Only `finalize` touches the tree. Kind: L -/
theorem jmt_step (state : MultiVersionState) (op : StateOp) :
    (state.step sha256 op).jmt =
      (state.stepPuts op).foldl (fun tree p => tree.put sha256 p.1 p.2) state.jmt := by
  have hmark : ∀ key txSeq status, (state.mark key txSeq status).jmt = state.jmt := by
    intro key txSeq status
    unfold mark
    cases state.data.lookup key <;> rfl
  cases op with
  | write key writerSeq value => rfl
  | markCommitted key txSeq => exact hmark key txSeq .committed
  | markAborted key txSeq => exact hmark key txSeq .aborted
  | finalize => exact snd_foldl_finalizeEntry _ _

/-- The tree of a run is that of its insertions. Kind: P -/
theorem jmt_run (ops : List StateOp) :
    (run sha256 ops).jmt = runPuts sha256 (putsOf sha256 ops) := by
  induction ops using List.reverseRecOn with
  | nil => rfl
  | append_singleton ops op ih =>
      rw [run_concat, jmt_step, ih, putsOf_concat]
      simp only [runPuts, List.foldl_append]

/-! ### Base values and last insertions -/

/-- The last insertion of a key after the loop of `finalize`. Kind: L -/
theorem lastPut_append_filterMap (k : StateKey)
    (entries : List (Sigma fun _ : StateKey => VersionChain)) (hnodup : entries.NodupKeys)
    (puts : List (StateKey × U256)) :
    lastPut (puts ++ entries.filterMap entryPut) k =
      match (entries.dlookup k).bind fun chain => chain.readFor u64Max with
      | some (some v, _) => some v
      | _ => lastPut puts k := by
  induction entries generalizing puts with
  | nil => simp
  | cons entry entries ih =>
      obtain ⟨key, chain⟩ := entry
      obtain ⟨hnot, hnodup⟩ := List.nodupKeys_cons.mp hnodup
      have hput : puts ++ (⟨key, chain⟩ :: entries).filterMap entryPut =
          (puts ++ (entryPut ⟨key, chain⟩).toList) ++ entries.filterMap entryPut := by
        rw [List.filterMap_cons]
        cases entryPut ⟨key, chain⟩ <;> simp
      rw [hput, ih hnodup]
      by_cases hk : k = key
      · subst hk
        rw [List.dlookup_eq_none.mpr hnot, List.dlookup_cons_eq, Option.bind_none,
          Option.bind_some]
        unfold entryPut
        rcases chain.readFor u64Max with _ | ⟨_ | v, _⟩ <;> simp [lastPut_concat]
      · rw [List.dlookup_cons_ne _ _ hk]
        have hkeep : lastPut (puts ++ (entryPut ⟨key, chain⟩).toList) k = lastPut puts k := by
          unfold entryPut
          rcases chain.readFor u64Max with _ | ⟨_ | v, _⟩ <;> simp [lastPut_concat, Ne.symm hk]
        rw [hkeep]

/-- What `finalize` does to the base value and the last insertion of a key: it keeps both, sets
both, or clears the base value alone. Kind: L -/
theorem finalize_cases (state : MultiVersionState) (puts : List (StateKey × U256)) (k : StateKey) :
    ((state.read k u64Max).1 = state.baseState.lookup k ∧
        lastPut (puts ++ state.stepPuts .finalize) k = lastPut puts k) ∨
      (∃ v, (state.read k u64Max).1 = some v ∧
        lastPut (puts ++ state.stepPuts .finalize) k = some v) ∨
      ((state.read k u64Max).1 = none ∧
        lastPut (puts ++ state.stepPuts .finalize) k = lastPut puts k) := by
  have hput : lastPut (puts ++ state.stepPuts .finalize) k =
      match (state.data.lookup k).bind fun chain => chain.readFor u64Max with
      | some (some v, _) => some v
      | _ => lastPut puts k :=
    lastPut_append_filterMap k state.data.entries state.data.nodupKeys puts
  rw [hput]
  unfold read
  rcases (state.data.lookup k).bind fun chain => chain.readFor u64Max with _ | ⟨_ | v, _⟩
  · exact .inl ⟨rfl, rfl⟩
  · exact .inr (.inr ⟨rfl, rfl⟩)
  · exact .inr (.inl ⟨v, rfl, rfl⟩)

/-- Operations other than `finalize` keep base state and tree. Kind: L -/
theorem step_of_ne_finalize (state : MultiVersionState) {op : StateOp} (h : op ≠ .finalize) :
    (state.step sha256 op).baseState = state.baseState ∧ state.stepPuts op = [] := by
  cases op with
  | write key writerSeq value => exact ⟨rfl, rfl⟩
  | markCommitted key txSeq => exact ⟨baseState_mark state key txSeq .committed, rfl⟩
  | markAborted key txSeq => exact ⟨baseState_mark state key txSeq .aborted, rfl⟩
  | finalize => exact absurd rfl h

/-- The next `finalize` removes a base value of `k`.
Kind: D -/
def Deletes (state : MultiVersionState) (k : StateKey) : Prop :=
  state.baseState.lookup k ≠ none ∧ (state.read k u64Max).1 = none

/-- In every run a base value is the last one put. Kind: P -/
theorem base_eq_some_imp (ops : List StateOp) (k : StateKey) (v : U256)
    (h : (run sha256 ops).baseState.lookup k = some v) :
    lastPut (putsOf sha256 ops) k = some v := by
  induction ops using List.reverseRecOn generalizing v with
  | nil => simp [run, new] at h
  | append_singleton ops op ih =>
      rw [run_concat] at h
      rw [putsOf_concat]
      by_cases hop : op = .finalize
      · subst hop
        rw [step, lookup_finalize] at h
        rcases finalize_cases (run sha256 ops) (putsOf sha256 ops) k with
          ⟨hread, hput⟩ | ⟨w, hread, hput⟩ | ⟨hread, hput⟩
        · rw [hput]
          exact ih v (hread ▸ h)
        · rw [hput, ← hread, h]
        · rw [hread] at h
          cases h
      · obtain ⟨hbase, hputs⟩ := @step_of_ne_finalize sha256 (run sha256 ops) op hop
        rw [hputs, List.append_nil]
        exact ih v (hbase ▸ h)

variable (sha256)

/-- No `finalize` of the run removes a base value of `k`.
Kind: D -/
def NeverDeletes (ops : List StateOp) (k : StateKey) : Prop :=
  ∀ pre, pre ++ [.finalize] <+: ops → ¬ (run sha256 pre).Deletes k

/-- After every `finalize` of the run the tree answers for `k` what the base state holds.
Kind: D -/
def FollowsBase (ops : List StateOp) (k : StateKey) : Prop :=
  ∀ pre, pre ++ [.finalize] <+: ops →
    (run sha256 (pre ++ [.finalize])).jmt.get sha256 k =
      some (((run sha256 (pre ++ [.finalize])).baseState.lookup k).map (hashValue sha256))

variable {sha256}

/-- A key that is never deleted is not deleted in the beginning of a run. Kind: L -/
theorem NeverDeletes.mono {pre ops : List StateOp} {k : StateKey} (h : NeverDeletes sha256 ops k)
    (hpre : pre <+: ops) : NeverDeletes sha256 pre k :=
  fun pre' hpre' => h pre' (hpre'.trans hpre)

/-- Without deletions the last insertion of a key is its base value. Kind: P -/
theorem lastPut_eq_base (ops : List StateOp) (k : StateKey) (h : NeverDeletes sha256 ops k) :
    lastPut (putsOf sha256 ops) k = (run sha256 ops).baseState.lookup k := by
  induction ops using List.reverseRecOn with
  | nil => rfl
  | append_singleton ops op ih =>
      have ih := ih (h.mono (List.prefix_append ops [op]))
      rw [run_concat, putsOf_concat]
      by_cases hop : op = .finalize
      · subst hop
        rw [step, lookup_finalize]
        rcases finalize_cases (run sha256 ops) (putsOf sha256 ops) k with
          ⟨hread, hput⟩ | ⟨w, hread, hput⟩ | ⟨hread, hput⟩
        · rw [hput, hread, ih]
        · rw [hput, hread]
        · -- a deletion is visible, so there was no base value
          have hnone : (run sha256 ops).baseState.lookup k = none := by
            by_contra hsome
            exact h ops List.prefix_rfl ⟨hsome, hread⟩
          rw [hput, hread, ih, hnone]
      · obtain ⟨hbase, hputs⟩ := @step_of_ne_finalize sha256 (run sha256 ops) op hop
        rw [hputs, List.append_nil, hbase, ih]

/-- A deletion leaves the last insertion in place. Kind: L -/
theorem Deletes.lastPut_ne_none {pre : List StateOp} {k : StateKey}
    (h : (run sha256 pre).Deletes k) : lastPut (putsOf sha256 (pre ++ [.finalize])) k ≠ none := by
  obtain ⟨hsome, hread⟩ := h
  obtain ⟨v, hv⟩ := Option.ne_none_iff_exists'.mp hsome
  have hlast := base_eq_some_imp pre k v hv
  rw [putsOf_concat]
  rcases finalize_cases (run sha256 pre) (putsOf sha256 pre) k with
    ⟨-, hput⟩ | ⟨w, hread', -⟩ | ⟨-, hput⟩
  · rw [hput, hlast]
    exact Option.some_ne_none v
  · rw [hread] at hread'
    cases hread'
  · rw [hput, hlast]
    exact Option.some_ne_none v

/-- The root of a run is that of the trie of its insertions. Kind: L -/
theorem root_run {ops : List StateOp}
    (hinj : InjectiveOn sha256 (inputsUsed sha256 (putsOf sha256 ops)))
    (hne : ∀ n ∈ storedBy sha256 .new (putsOf sha256 ops), n.hash sha256 ≠ emptyHash) :
    (run sha256 ops).jmt.rootHash = rootOf sha256 (trieOf sha256 (putsOf sha256 ops)) := by
  have hS := @collisionFree_storedBy sha256 (putsOf sha256 ops) [] hinj hne
  rw [jmt_run]
  exact (runPuts_inv hS _ fun _ hn => hn).root_eq

/-- **The tree follows the base state exactly without deletions.** For every run and key, the tree
answers what the base state holds after each `finalize` iff no `finalize` removes a base value of
the key; and runs that remove no base value and end in the same base state have the same root.
Source: `execution/mvcc.rs`, `MultiVersionState::finalize`
Kind: P -/
theorem tree_follows_base_iff (sha256 : List UInt8 → Bytes 32) (ops ops' : List StateOp)
    (k : StateKey)
    (hinj : InjectiveOn sha256 (k.toBytes.toList :: inputsUsed sha256 (putsOf sha256 ops)))
    (hne : ∀ n ∈ storedBy sha256 .new (putsOf sha256 ops), n.hash sha256 ≠ emptyHash)
    (hinj' : InjectiveOn sha256 (inputsUsed sha256 (putsOf sha256 ops')))
    (hne' : ∀ n ∈ storedBy sha256 .new (putsOf sha256 ops'), n.hash sha256 ≠ emptyHash) :
    (FollowsBase sha256 ops k ↔ NeverDeletes sha256 ops k) ∧
      ((∀ key, NeverDeletes sha256 ops key) → (∀ key, NeverDeletes sha256 ops' key) →
        (∀ key, (run sha256 ops).baseState.lookup key = (run sha256 ops').baseState.lookup key) →
        (run sha256 ops).jmt.rootHash = (run sha256 ops').jmt.rootHash) := by
  have hget : ∀ pre, pre <+: ops → (run sha256 pre).jmt.get sha256 k =
      some ((lastPut (putsOf sha256 pre) k).map (hashValue sha256)) := by
    intro pre hpre
    obtain ⟨rest, hrest⟩ := @exists_putsOf_append sha256 pre ops hpre
    rw [hrest] at hinj hne
    rw [jmt_run]
    refine get_runPuts (hinj.mono fun x hx => ?_) fun n hn =>
      hne n (storedBy_append_left _ _ n hn)
    rcases List.mem_cons.mp hx with rfl | hx
    · exact List.mem_cons_self
    · exact List.mem_cons_of_mem _ (inputsUsed_append_left _ _ x hx)
  refine ⟨⟨fun hfollows pre hpre hdel => ?_, fun hnever pre hpre => ?_⟩, fun hops hops' hbase => ?_⟩
  · -- the base value is gone, the tree still answers the last insertion
    have hnone : (run sha256 (pre ++ [.finalize])).baseState.lookup k = none := by
      rw [run_concat, step, lookup_finalize]
      exact hdel.2
    have hf := hfollows pre hpre
    rw [hget _ hpre, hnone, Option.map_none, Option.some.injEq, Option.map_eq_none_iff] at hf
    exact hdel.lastPut_ne_none hf
  · rw [hget _ hpre, lastPut_eq_base _ k (hnever.mono hpre)]
  · rw [root_run (hinj.mono fun x hx => List.mem_cons_of_mem _ hx) hne, root_run hinj' hne']
    congr 1
    refine trieOf_eq_of_lastPut_eq (hinj.mono fun x hx => List.mem_cons_of_mem _ hx) hinj'
      fun key => ?_
    rw [lastPut_eq_base ops key (hops key), lastPut_eq_base ops' key (hops' key), hbase key]

/-- The general theorem on one finalized write and the empty run. Kind: L -/
theorem tree_follows_base_one_write :
    FollowsBase treeSha256 [.write (makeKey 1 100) 1 (some (.fromU64 42)), .finalize]
      (makeKey 1 100) := by
  refine (tree_follows_base_iff treeSha256 _ [] (makeKey 1 100) (by decide +kernel)
    (by decide +kernel) (by decide +kernel) (by decide +kernel)).1.mpr ?_
  -- the only `finalize` is the first one, before which the base state is empty
  rintro pre ⟨post, hops⟩ ⟨hbase, -⟩
  match pre with
  | [] => simp at hops
  | [op] =>
      obtain ⟨rfl, -⟩ := List.cons.inj hops
      exact hbase (by decide +kernel)
  | op :: op' :: rest => simp at hops

/-- A write and a deletion, each finalized: the base state is empty again, the tree still answers
the value, and its root is not that of the empty run. Kind: P -/
theorem tree_keeps_deleted_value :
    let ops : List StateOp := [.write (makeKey 1 100) 1 (some (.fromU64 42)), .finalize,
      .write (makeKey 1 100) 2 none, .finalize]
    (run treeSha256 ops).baseState.lookup (makeKey 1 100) = none ∧
      (run treeSha256 ops).jmt.get treeSha256 (makeKey 1 100) =
        some (some (hashValue treeSha256 (.fromU64 42))) ∧
      (run treeSha256 ops).jmt.rootHash ≠ (run treeSha256 []).jmt.rootHash := by
  decide +kernel

end

end MultiVersionState

end Ryther
