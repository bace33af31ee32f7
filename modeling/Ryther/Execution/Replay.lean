import Ryther.Evm.Accounts
import Ryther.Execution.Serial

/-!
# No transaction is replayed

Over any sequence of blocks the successful transactions of a sender carry consecutive nonces.

* `runChain` — blocks one after the other, with the log of executed transactions.
* `NonceRun f f' log` — the successes of every sender in `log` count up from its nonce in `f` to
  its nonce in `f'`; logs compose (`NonceRun.append`).
* `nonceIn_step` — one transaction moves its sender's nonce by one if it is accepted, and nothing
  else moves a nonce.
* `successes_consecutive` — the result for whole runs.
-/

namespace Ryther

open Lib

/-! ### Runs of blocks -/

/-- The transactions of a batch with their results, in the order of the results.
Kind: D -/
def executedIn (txs : List DecryptedTransaction) (results : List ExecutionResult) :
    List (DecryptedTransaction × ExecutionResult) :=
  results.filterMap fun r =>
    (txs.find? fun tx => tx.sequenceNumber = r.txSeq).map fun tx => (tx, r)

/-- Run blocks one after the other: the log of executed transactions and the final state.
Kind: D -/
def runChain (keccak256 sha256 : List UInt8 → Bytes 32) (ex : ParallelExecutor) :
    List (List DecryptedTransaction × BlockContext) → MultiVersionState →
      List (DecryptedTransaction × ExecutionResult) × MultiVersionState
  | [], state => ([], state)
  | (txs, block) :: rest, state =>
      let (results, state) := runBlock keccak256 sha256 ex block txs state
      let (log, state) := runChain keccak256 sha256 ex rest state
      (executedIn txs results ++ log, state)

/-- The successful transactions of a log.
Kind: D -/
def successes (log : List (DecryptedTransaction × ExecutionResult)) : List DecryptedTransaction :=
  (log.filter fun p => p.2.status = .success).map Prod.fst

/-- Those of one sender.
Kind: D -/
def sentBy (sender : Address) (txs : List DecryptedTransaction) : List DecryptedTransaction :=
  txs.filter fun tx => tx.from = sender

/-! ### Nonces -/

section

variable {keccak256 : List UInt8 → Bytes 32} {vm : RytherVm} {block : BlockContext}

/-- **One transaction moves its sender's nonce by one if it is accepted; no other nonce moves.**
Kind: P -/
theorem nonceIn_step (tx : DecryptedTransaction) (view : View) (a : Address) :
    nonceIn (Memory.overlay view (rowOf (txWrites keccak256 vm tx block view))) a =
      if Accepted tx view ∧ a = tx.from then nonceIn view tx.from + 1 else nonceIn view a := by
  have hrow : rowOf (txWrites keccak256 vm tx block view) (nonceKey a) =
      if Accepted tx view ∧ a = tx.from then some (some (.fromU64 (nonceIn view tx.from + 1)))
      else none := by
    rw [rowOf, valuesAt_nonceKey]
    split_ifs <;> rfl
  unfold nonceIn Memory.overlay
  rw [hrow]
  split_ifs <;> simp [U256.fromU64, nonceIn]

/-- The successes of every sender count up from its nonce in `f` to its nonce in `f'`.
Kind: D -/
def NonceRun (f f' : View) (log : List DecryptedTransaction) : Prop :=
  ∀ a, (sentBy a log).map (fun tx => tx.nonce.toNat) =
      List.range' (nonceIn f a).toNat (sentBy a log).length ∧
    (nonceIn f' a).toNat = (nonceIn f a).toNat + (sentBy a log).length

/-- Without transactions the nonces stay. Kind: L -/
theorem NonceRun.nil (f : View) : NonceRun f f [] := fun _ => ⟨rfl, rfl⟩

/-- Logs compose. Kind: L -/
theorem NonceRun.append {f f' f'' : View} {log log' : List DecryptedTransaction}
    (h : NonceRun f f' log) (h' : NonceRun f' f'' log') : NonceRun f f'' (log ++ log') := by
  intro a
  obtain ⟨hlog, hend⟩ := h a
  obtain ⟨hlog', hend'⟩ := h' a
  have hsent : sentBy a (log ++ log') = sentBy a log ++ sentBy a log' := List.filter_append ..
  rw [hsent, List.map_append, List.length_append, hlog, hlog', hend, hend', hend]
  refine ⟨?_, by omega⟩
  rw [List.range'_append_1]

/-- The transactions of a list that are accepted when it is run on a flat map.
Kind: D -/
def acceptedIn (keccak256 : List UInt8 → Bytes 32) (vm : RytherVm) (block : BlockContext) :
    View → List DecryptedTransaction → List DecryptedTransaction
  | _, [] => []
  | f, tx :: txs =>
      (if Accepted tx f then [tx] else []) ++
        acceptedIn keccak256 vm block
          (Memory.overlay f (rowOf (txWrites keccak256 vm tx block f))) txs

/-- One transaction on a flat map. Kind: L -/
theorem NonceRun.single (tx : DecryptedTransaction) (f : View)
    (hmax : Accepted tx f → tx.nonce ≠ u64Max) :
    NonceRun f (Memory.overlay f (rowOf (txWrites keccak256 vm tx block f)))
      (if Accepted tx f then [tx] else []) := by
  intro a
  rw [nonceIn_step]
  by_cases hacc : Accepted tx f
  · have hnonce : nonceIn f tx.from = tx.nonce := hacc.1
    have hlt : (tx.nonce + 1).toNat = tx.nonce.toNat + 1 := toNat_succ (hmax hacc)
    by_cases ha : a = tx.from
    · subst ha
      simp [hacc, sentBy, hnonce, hlt]
    · simp [hacc, sentBy, ha, Ne.symm ha]
  · simp [hacc, sentBy]

/-- A run on a flat map counts its accepted transactions. Kind: P -/
theorem nonceRun_runFlat (txs : List DecryptedTransaction) :
    ∀ f : View, (∀ tx ∈ txs, tx.sequenceNumber < u64Max) →
      (∀ tx ∈ acceptedIn keccak256 vm block f txs, tx.nonce ≠ u64Max) →
      NonceRun f (Memory.runFlat u64Max.toNat f (txs.map (txStep keccak256 vm block))).2
        (acceptedIn keccak256 vm block f txs) := by
  induction txs with
  | nil => intro f _ _; exact NonceRun.nil f
  | cons tx txs ih =>
      intro f hseq hmax
      have hlt : (txStep keccak256 vm block tx).seq < u64Max.toNat :=
        UInt64.lt_iff_toNat_lt.mp (hseq tx List.mem_cons_self)
      simp only [List.map_cons, Memory.runFlat, if_pos hlt]
      have hone := @NonceRun.single keccak256 vm block tx f fun hacc =>
        hmax tx (List.mem_append_left _ (by simp [hacc]))
      exact hone.append (ih _ (fun u hu => hseq u (List.mem_cons_of_mem _ hu)) fun u hu =>
        hmax u (List.mem_append_right _ hu))

/-- The successes of a pass are the transactions accepted on the flat map. Kind: L -/
theorem successes_zip (txs : List DecryptedTransaction) :
    ∀ (f : View) (results : List ExecutionResult),
      (∀ tx ∈ txs, tx.sequenceNumber < u64Max) →
      results.map ExecutionResult.outcome =
        (Memory.runFlat u64Max.toNat f (txs.map (txStep keccak256 vm block))).1 →
      successes (txs.zip results) = acceptedIn keccak256 vm block f txs := by
  induction txs with
  | nil => intro f results _ _; rfl
  | cons tx txs ih =>
      intro f results hseq hout
      have hlt : (txStep keccak256 vm block tx).seq < u64Max.toNat :=
        UInt64.lt_iff_toNat_lt.mp (hseq tx List.mem_cons_self)
      simp only [List.map_cons, Memory.runFlat, if_pos hlt] at hout
      cases results with
      | nil => cases hout
      | cons r results =>
          obtain ⟨hr, hrest⟩ := List.cons.inj hout
          have ih := ih _ results (fun u hu => hseq u (List.mem_cons_of_mem _ hu)) hrest
          have hstatus : r.status = .success ↔ Accepted tx f := by
            rw [← @status_txOutcome keccak256 vm]
            have : r.status = r.outcome.status := rfl
            rw [this, hr]
            rfl
          unfold successes at ih ⊢
          simp only [List.zip_cons_cons, acceptedIn]
          by_cases hacc : Accepted tx f
          · simp [hstatus.mpr hacc, hacc, ih, txStep]
          · have : r.status ≠ .success := fun h => hacc (hstatus.mp h)
            simp [this, hacc, ih, txStep]

end

/-! ### Whole runs -/

/-- The transactions of an ascending pass are found by their numbers. Kind: L -/
theorem executedIn_eq_zip {txs : List DecryptedTransaction}
    (hnodup : (txs.map DecryptedTransaction.sequenceNumber).Nodup) :
    (ts : List DecryptedTransaction) → (results : List ExecutionResult) → (∀ tx ∈ ts, tx ∈ txs) →
      results.map ExecutionResult.txSeq = ts.map DecryptedTransaction.sequenceNumber →
      executedIn txs results = ts.zip results
  | [], [], _, _ => rfl
  | tx :: ts, r :: results, hmem, hseq => by
      obtain ⟨hr, hrest⟩ := List.cons.inj hseq
      have ih := executedIn_eq_zip hnodup ts results
        (fun u hu => hmem u (List.mem_cons_of_mem _ hu)) hrest
      have hfind : (txs.find? fun u => u.sequenceNumber = r.txSeq) = some tx := by
        cases hf : txs.find? fun u => u.sequenceNumber = r.txSeq with
        | none =>
            have := List.find?_eq_none.mp hf tx (hmem tx List.mem_cons_self)
            simp [hr] at this
        | some u =>
            have hu : u.sequenceNumber = tx.sequenceNumber := by
              simpa [hr] using List.find?_some hf
            rw [List.inj_on_of_nodup_map hnodup (List.mem_of_find?_eq_some hf)
              (hmem tx List.mem_cons_self) hu]
      unfold executedIn at ih ⊢
      simp [hfind, ih]

/-- A block counts its successes. Kind: P -/
theorem nonceRun_runBlock {keccak256 sha256 : List UInt8 → Bytes 32} {ex : ParallelExecutor}
    {block : BlockContext} {txs : List DecryptedTransaction}
    (hnodup : (txs.map DecryptedTransaction.sequenceNumber).Nodup)
    (hseq : ∀ tx ∈ txs, tx.sequenceNumber < u64Max) {state : MultiVersionState}
    (hdata : state.data = ∅)
    (hmax : ∀ tx ∈ successes (executedIn txs (runBlock keccak256 sha256 ex block txs state).1),
      tx.nonce ≠ u64Max) :
    NonceRun state.getBase (runBlock keccak256 sha256 ex block txs state).2.getBase
      (successes (executedIn txs (runBlock keccak256 sha256 ex block txs state).1)) := by
  have hflat := @runBlock_eq_runFlat keccak256 sha256 ex block txs hnodup state hdata
  obtain ⟨hout, hbase⟩ := Prod.mk.inj (hflat.trans (Prod.mk.eta).symm)
  have hseq' : ∀ tx ∈ sortTxs txs, tx.sequenceNumber < u64Max := fun tx htx =>
    hseq tx ((sortTxs_perm txs).mem_iff.mp htx)
  have hlog := executedIn_eq_zip hnodup (sortTxs txs) _
    (fun tx htx => (sortTxs_perm txs).mem_iff.mp htx)
    (@runBlock_map_txSeq keccak256 sha256 ex block txs hnodup state)
  have hsucc := @successes_zip keccak256 ex.vm block (sortTxs txs) state.getBase _ hseq' hout
  rw [hlog, hsucc] at hmax ⊢
  rw [hbase]
  exact nonceRun_runFlat (sortTxs txs) state.getBase hseq' hmax

/-- A run of blocks counts its successes. Kind: P -/
theorem nonceRun_runChain {keccak256 sha256 : List UInt8 → Bytes 32} {ex : ParallelExecutor}
    (blocks : List (List DecryptedTransaction × BlockContext)) :
    ∀ state : MultiVersionState, state.data = ∅ →
      (∀ b ∈ blocks, (b.1.map DecryptedTransaction.sequenceNumber).Nodup ∧
        ∀ tx ∈ b.1, tx.sequenceNumber < u64Max) →
      (∀ tx ∈ successes (runChain keccak256 sha256 ex blocks state).1, tx.nonce ≠ u64Max) →
      NonceRun state.getBase (runChain keccak256 sha256 ex blocks state).2.getBase
        (successes (runChain keccak256 sha256 ex blocks state).1) := by
  induction blocks with
  | nil => intro state _ _ _; exact NonceRun.nil _
  | cons b blocks ih =>
      obtain ⟨txs, block⟩ := b
      intro state hdata hblocks hmax
      have happ : ∀ log log' : List (DecryptedTransaction × ExecutionResult),
          successes (log ++ log') = successes log ++ successes log' := fun log log' => by
        simp [successes, List.filter_append]
      simp only [runChain, happ] at hmax ⊢
      obtain ⟨hnodup, hseq⟩ := hblocks _ List.mem_cons_self
      refine (nonceRun_runBlock hnodup hseq hdata fun tx htx => hmax tx ?_).append
        (ih _ rfl (fun b hb => hblocks b (List.mem_cons_of_mem _ hb)) fun tx htx => hmax tx ?_)
      · exact List.mem_append_left _ htx
      · exact List.mem_append_right _ htx

/-- Distinct nonces of every sender are distinct pairs. Kind: L -/
theorem nodup_from_nonce {log : List DecryptedTransaction}
    (h : ∀ a, ((sentBy a log).map fun tx => tx.nonce.toNat).Nodup) :
    (log.map fun tx => (tx.from, tx.nonce)).Nodup := by
  induction log with
  | nil => exact List.nodup_nil
  | cons tx log ih =>
      refine List.nodup_cons.mpr ⟨fun hmem => ?_, ih fun a => ?_⟩
      · obtain ⟨u, hu, heq⟩ := List.mem_map.mp hmem
        obtain ⟨hfrom, hnonce⟩ := Prod.mk.inj heq
        have hsplit : sentBy tx.from (tx :: log) = tx :: sentBy tx.from log := by simp [sentBy]
        have hnot := h tx.from
        rw [hsplit, List.map_cons, List.nodup_cons] at hnot
        refine hnot.1 (List.mem_map.mpr ⟨u, List.mem_filter.mpr ⟨hu, by simpa using hfrom⟩, ?_⟩)
        rw [hnonce]
      · have hsub : (sentBy a log).Sublist (sentBy a (tx :: log)) :=
          (List.sublist_cons_self tx log).filter _
        exact (h a).sublist (hsub.map _)

/-- **No replay.** Over any run of blocks from a finalized state, with distinct sequence numbers
below `u64::MAX` in every batch and as long as no successful transaction carries the nonce
`u64::MAX` (so none is accepted when its account's nonce has reached it), the successful
transactions of every sender carry consecutive nonces from the sender's initial one, and no two
successful transactions share sender and nonce. Kind: P -/
theorem successes_consecutive (keccak256 sha256 : List UInt8 → Bytes 32) (ex : ParallelExecutor)
    (blocks : List (List DecryptedTransaction × BlockContext)) (state : MultiVersionState)
    (hdata : state.data = ∅)
    (hblocks : ∀ b ∈ blocks, (b.1.map DecryptedTransaction.sequenceNumber).Nodup ∧
      ∀ tx ∈ b.1, tx.sequenceNumber < u64Max)
    (hmax : ∀ tx ∈ successes (runChain keccak256 sha256 ex blocks state).1, tx.nonce ≠ u64Max) :
    (∀ sender, (sentBy sender (successes (runChain keccak256 sha256 ex blocks state).1)).map
        (fun tx => tx.nonce.toNat) =
      List.range' (nonceIn state.getBase sender).toNat
        (sentBy sender (successes (runChain keccak256 sha256 ex blocks state).1)).length) ∧
      ((successes (runChain keccak256 sha256 ex blocks state).1).map
        fun tx => (tx.from, tx.nonce)).Nodup := by
  have hrun := @nonceRun_runChain keccak256 sha256 ex blocks state hdata hblocks hmax
  refine ⟨fun sender => (hrun sender).1, nodup_from_nonce fun a => ?_⟩
  rw [(hrun a).1]
  exact List.nodup_range'

/-- Two blocks; the second one repeats a transaction of the first under a new number. Kind: L -/
theorem successes_consecutive_sample :
    let blocks : List (List DecryptedTransaction × BlockContext) :=
      [([makeTx 0xAA (some 0xBB) 100 0 1], ⟨.fill 0⟩),
        ([makeTx 0xAA (some 0xBB) 100 1 2, makeTx 0xAA (some 0xBB) 100 0 3], ⟨.fill 0⟩)]
    let log := (runChain (fun _ => .fill 32 0xEE) (fun _ => .fill 32 0xDD) ⟨3, ⟨∅⟩⟩ blocks
      (fundedState [0xAA])).1
    (∀ sender, (sentBy sender (successes log)).map (fun tx => tx.nonce.toNat) =
        List.range' (nonceIn (fundedState [0xAA]).getBase sender).toNat
          (sentBy sender (successes log)).length) ∧
      ((successes log).map fun tx => (tx.from, tx.nonce)).Nodup :=
  successes_consecutive _ _ _ _ _ rfl (by decide) (by decide +kernel)

end Ryther
