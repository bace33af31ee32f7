import Ryther.Execution.Speculative

/-!
# Transactions that number 0 misleads

In a validated run a transaction may have read the base state although number 0, executed later,
writes the key. What it would have found after number 0 is known, as number 0 reads the base state
wherever it runs.

* `viewWithZero`, `Misled` — what a transaction would find if number 0 had run before it, and that
  its writes would then be others.
* `NoneMisled.column_eq` — a validated run that misleads nobody leaves the entries of the ascending
  run.
* `catchesStaleReads_of_noneMisled` — its results are then those of ascending execution.
* `Misled.exists_read` — a misled transaction read the base state at a key that number 0 writes.
-/

namespace Ryther

open Lib

/-! ### Number 0 after its readers -/

/-- What a transaction would find if number 0 had run before it. Where number 0 is among the
transactions that run later, its writes take the place of what was read as version 0, the base
state. Number 0 itself reads the base state wherever it runs, so its writes are known.
Kind: D -/
def viewWithZero (keccak256 : List UInt8 → Bytes 32) (vm : RytherVm) (block : BlockContext)
    (state : MultiVersionState) (tx : DecryptedTransaction)
    (later : List DecryptedTransaction) : View := fun k =>
  match later.find? fun t => t.sequenceNumber = 0 with
  | some zero =>
      if (state.read k tx.sequenceNumber).2 = 0 then
        (rowOf (txWrites keccak256 vm zero block (viewOf state 0)) k).getD
          (viewOf state tx.sequenceNumber k)
      else viewOf state tx.sequenceNumber k
  | none => viewOf state tx.sequenceNumber k

namespace ParallelExecutor

variable {keccak256 : List UInt8 → Bytes 32} {ex : ParallelExecutor} {block : BlockContext}

/-- Number 0 leaves the row of its writes on the base state. Kind: L -/
theorem executeAll_column_zero {pre post : List DecryptedTransaction} {zero : DecryptedTransaction}
    {state : MultiVersionState} (hdata : state.data = ∅)
    (hnodup : ((pre ++ zero :: post).map DecryptedTransaction.sequenceNumber).Nodup)
    (hzero : zero.sequenceNumber = 0) (k : StateKey) :
    (ex.executeAll keccak256 block (pre ++ zero :: post) state).2.toMemory.column k 0 =
      rowOf (txWrites keccak256 ex.vm zero block (viewOf state 0)) k := by
  have hcol := @executeAll_column_of_mem keccak256 ex block pre post zero state hdata hnodup k
  rw [hzero, UInt64.toNat_zero] at hcol
  rw [hcol, viewOf_zero, viewOf_zero, (executeAll_frame _ _).1]

/-- Without an entry at 0, version 0 is the base state. Kind: L -/
theorem newestBelow_eq_none_of_version {state : MultiVersionState} {k : StateKey} {r : UInt64}
    (hversion : (state.read k r).2 = 0) (hnever : state.toMemory.column k 0 = none) :
    newestBelow (state.toMemory.column k) r.toNat = none := by
  cases hnew : newestBelow (state.toMemory.column k) r.toNat with
  | none => rfl
  | some p =>
      obtain ⟨v, q⟩ := p
      obtain ⟨hq, hv, -⟩ := newestBelow_eq_some_iff.mp hnew
      rw [state.read_eq, hnew] at hversion
      have hzero := congrArg UInt64.toNat hversion
      rw [toNat_ofNat_of_lt_toNat hq, UInt64.toNat_zero] at hzero
      subst hzero
      rw [hnever] at hv
      cases hv

/-- What a transaction sees is the newest entry below it, or else the base state. Kind: L -/
theorem viewOf_eq_getD (state : MultiVersionState) (r : UInt64) (k : StateKey) :
    viewOf state r k = ((newestBelow (state.toMemory.column k) r.toNat).map Prod.fst).getD
      (state.baseState.lookup k) := by
  rw [viewOf, state.read_eq]
  cases newestBelow (state.toMemory.column k) r.toNat <;> rfl

section Clean

variable {pre post : List DecryptedTransaction} {tx : DecryptedTransaction}
  {state : MultiVersionState} {k : StateKey}

/-- A validated transaction after which number 0 does not run saw what the whole run shows below
it. Kind: L -/
theorem view_eq_of_clean (hdata : state.data = ∅)
    (hnodup : ((pre ++ tx :: post).map DecryptedTransaction.sequenceNumber).Nodup)
    (hclean : Clean (ex.executeAll keccak256 block (pre ++ tx :: post) state).1)
    (hk : k ∈ txReads tx block
      (viewOf (ex.executeAll keccak256 block pre state).2 tx.sequenceNumber))
    (hzero : ∀ u ∈ post, u.sequenceNumber ≠ 0) :
    viewOf (ex.executeAll keccak256 block pre state).2 tx.sequenceNumber k =
      viewOf (ex.executeAll keccak256 block (pre ++ tx :: post) state).2 tx.sequenceNumber k := by
  rw [viewOf_eq_getD, viewOf_eq_getD, (executeAll_frame _ _).1, (executeAll_frame _ _).1]
  rcases newest_of_clean hdata hnodup hclean hk with hsame | ⟨hnone, v, hnewest⟩
  · rw [hsame]
  · -- an entry of number 0 was there before the transaction ran
    exfalso
    obtain ⟨hpos, hv, -⟩ := newestBelow_eq_some_iff.mp hnewest
    rw [executeAll_column_keep, newestBelow_eq_none_iff.mp hnone 0 hpos] at hv
    · cases hv
    · intro u hu heq
      rcases List.mem_cons.mp hu with rfl | hu
      · omega
      · exact hzero u hu (UInt64.toNat_inj.mp (heq.trans UInt64.toNat_zero.symm))

/-- A validated transaction that read the base state where number 0, which runs later, writes the
key: the whole run shows what number 0 writes. Otherwise it shows what the transaction saw.
Kind: L -/
theorem view_eq_of_clean_of_zero (hdata : state.data = ∅)
    (hnodup : ((pre ++ tx :: post).map DecryptedTransaction.sequenceNumber).Nodup)
    (hclean : Clean (ex.executeAll keccak256 block (pre ++ tx :: post) state).1)
    (hk : k ∈ txReads tx block
      (viewOf (ex.executeAll keccak256 block pre state).2 tx.sequenceNumber))
    (hpos : 0 < tx.sequenceNumber.toNat)
    (hnever : (ex.executeAll keccak256 block pre state).2.toMemory.column k 0 = none) :
    (if ((ex.executeAll keccak256 block pre state).2.read k tx.sequenceNumber).2 = 0 then
        ((ex.executeAll keccak256 block (pre ++ tx :: post) state).2.toMemory.column k 0).getD
          (viewOf (ex.executeAll keccak256 block pre state).2 tx.sequenceNumber k)
      else viewOf (ex.executeAll keccak256 block pre state).2 tx.sequenceNumber k) =
      viewOf (ex.executeAll keccak256 block (pre ++ tx :: post) state).2 tx.sequenceNumber k := by
  rcases newest_of_clean hdata hnodup hclean hk with hsame | ⟨hnone, v, hnewest⟩
  · have hview : viewOf (ex.executeAll keccak256 block (pre ++ tx :: post) state).2
        tx.sequenceNumber k =
        viewOf (ex.executeAll keccak256 block pre state).2 tx.sequenceNumber k := by
      rw [viewOf_eq_getD, viewOf_eq_getD, hsame, (executeAll_frame _ _).1, (executeAll_frame _ _).1]
    rw [hview]
    split_ifs with hversion
    · -- version 0 was the base state, and number 0 does not write the key
      rw [newestBelow_eq_none_of_version hversion hnever] at hsame
      rw [newestBelow_eq_none_iff.mp hsame 0 hpos]
      rfl
    · rfl
  · obtain ⟨-, hv, -⟩ := newestBelow_eq_some_iff.mp hnewest
    have hversion :
        ((ex.executeAll keccak256 block pre state).2.read k tx.sequenceNumber).2 = 0 := by
      rw [MultiVersionState.read_eq, hnone]
    rw [if_pos hversion, hv, Option.getD_some, viewOf_eq_getD, hnewest]
    rfl

/-- **A validated transaction saw what the whole run shows below it**, up to the writes of number 0
where number 0 ran later. Kind: P -/
theorem viewWithZero_eq_of_clean (hdata : state.data = ∅)
    (hnodup : ((pre ++ tx :: post).map DecryptedTransaction.sequenceNumber).Nodup)
    (hclean : Clean (ex.executeAll keccak256 block (pre ++ tx :: post) state).1)
    (hk : k ∈ txReads tx block
      (viewOf (ex.executeAll keccak256 block pre state).2 tx.sequenceNumber)) :
    viewWithZero keccak256 ex.vm block (ex.executeAll keccak256 block pre state).2 tx post k =
      viewOf (ex.executeAll keccak256 block (pre ++ tx :: post) state).2 tx.sequenceNumber k := by
  unfold viewWithZero
  cases hfind : post.find? fun t => t.sequenceNumber = 0 with
  | none =>
      refine view_eq_of_clean hdata hnodup hclean hk fun u hu => ?_
      simpa using List.find?_eq_none.mp hfind u hu
  | some zero =>
      obtain ⟨hz, before, behind, rfl, -⟩ := List.find?_eq_some_iff_append.mp hfind
      have hz : zero.sequenceNumber = 0 := by simpa using hz
      have hsplit : pre ++ tx :: (before ++ zero :: behind) =
          (pre ++ tx :: before) ++ zero :: behind := by simp
      have hne : ∀ u ∈ pre ++ tx :: before, (0 : ℕ) ≠ u.sequenceNumber.toNat := fun u hu => by
        have h := toNat_ne_of_nodup_append (hsplit ▸ hnodup) hu (List.mem_cons_self (l := behind))
        rwa [hz, UInt64.toNat_zero] at h
      have hrow : (ex.executeAll keccak256 block (pre ++ tx :: (before ++ zero :: behind))
          state).2.toMemory.column k 0 = rowOf (txWrites keccak256 ex.vm zero block
            (viewOf (ex.executeAll keccak256 block pre state).2 0)) k := by
        rw [hsplit, executeAll_column_zero hdata (hsplit ▸ hnodup) hz, viewOf_zero, viewOf_zero,
          (executeAll_frame _ _).1]
      simp only [← hrow]
      exact view_eq_of_clean_of_zero hdata hnodup hclean hk
        (Nat.pos_of_ne_zero (hne tx (by simp)).symm)
        (executeAll_column_of_notMem hdata fun u hu => (hne u (List.mem_append_left _ hu)).symm)

end Clean

/-- In ascending order every transaction sees what the whole run shows below it. Kind: L -/
theorem view_eq_of_ascending {pre post : List DecryptedTransaction} {tx : DecryptedTransaction}
    {state : MultiVersionState}
    (hle : ∀ u ∈ post, tx.sequenceNumber.toNat ≤ u.sequenceNumber.toNat) (k : StateKey) :
    viewOf (ex.executeAll keccak256 block pre state).2 tx.sequenceNumber k =
      viewOf (ex.executeAll keccak256 block (pre ++ tx :: post) state).2 tx.sequenceNumber k := by
  refine congrArg Prod.fst (MultiVersionState.read_congr ?_ fun q hq => ?_)
  · rw [(executeAll_frame _ _).1, (executeAll_frame _ _).1]
  · refine (executeAll_column_keep fun u hu heq => ?_).symm
    rcases List.mem_cons.mp hu with rfl | hu
    · omega
    · have := hle u hu
      omega

/-- In ascending order only larger numbers come later. Kind: L -/
theorem sortTxs_le {order pre post : List DecryptedTransaction} {tx : DecryptedTransaction}
    (hnodup : (order.map DecryptedTransaction.sequenceNumber).Nodup)
    (hsplit : sortTxs order = pre ++ tx :: post) :
    ∀ u ∈ post, tx.sequenceNumber.toNat ≤ u.sequenceNumber.toNat := by
  intro u hu
  have hasc := sortTxs_ascending hnodup
  rw [hsplit] at hasc
  have hlt := (List.pairwise_cons.mp (List.pairwise_append.mp hasc).2.1).1 u hu
  exact (UInt64.lt_iff_toNat_lt.mp hlt).le

/-- A transaction of a batch stands somewhere in its ascending order. Kind: L -/
theorem sortTxs_split {order : List DecryptedTransaction} {tx : DecryptedTransaction}
    (htx : tx ∈ order) : ∃ pre post, sortTxs order = pre ++ tx :: post :=
  List.append_of_mem ((sortTxs_perm order).mem_iff.mpr htx)

/-- Number 0 misleads a transaction that runs before it: after it the transaction would have made
other writes, or would not have been accepted alike. `pre` ran before, `later` runs after.
Kind: D -/
def Misled (keccak256 : List UInt8 → Bytes 32) (ex : ParallelExecutor) (block : BlockContext)
    (state : MultiVersionState) (pre : List DecryptedTransaction) (tx : DecryptedTransaction)
    (later : List DecryptedTransaction) : Prop :=
  txWrites keccak256 ex.vm tx block
      (viewWithZero keccak256 ex.vm block (ex.executeAll keccak256 block pre state).2 tx later) ≠
    txWrites keccak256 ex.vm tx block
      (viewOf (ex.executeAll keccak256 block pre state).2 tx.sequenceNumber)

/-- Number 0 misleads no transaction of a run in the given order.
Kind: D -/
def NoneMisled (keccak256 : List UInt8 → Bytes 32) (ex : ParallelExecutor) (block : BlockContext)
    (state : MultiVersionState) (order : List DecryptedTransaction) : Prop :=
  ∀ pre tx later, order = pre ++ tx :: later → ¬ ex.Misled keccak256 block state pre tx later

/-- Every transaction makes the same writes in the given order and in ascending order.
Kind: D -/
def SameWrites (keccak256 : List UInt8 → Bytes 32) (ex : ParallelExecutor) (block : BlockContext)
    (state : MultiVersionState) (order : List DecryptedTransaction) : Prop :=
  ∀ pre tx post pre' post', order = pre ++ tx :: post → sortTxs order = pre' ++ tx :: post' →
    txWrites keccak256 ex.vm tx block
        (viewOf (ex.executeAll keccak256 block pre state).2 tx.sequenceNumber) =
      txWrites keccak256 ex.vm tx block
        (viewOf (ex.executeAll keccak256 block pre' state).2 tx.sequenceNumber)

section Order

variable {order : List DecryptedTransaction} {state : MultiVersionState}

/-- Equal writes of the transaction with a number are equal entries at the number. Kind: L -/
theorem column_eq_of_txWrites_eq (hdata : state.data = ∅)
    (hnodup : (order.map DecryptedTransaction.sequenceNumber).Nodup) {q : ℕ}
    (hwrites : ∀ pre tx post pre' post', order = pre ++ tx :: post →
      sortTxs order = pre' ++ tx :: post' → tx.sequenceNumber.toNat = q →
      txWrites keccak256 ex.vm tx block
          (viewOf (ex.executeAll keccak256 block pre state).2 tx.sequenceNumber) =
        txWrites keccak256 ex.vm tx block
          (viewOf (ex.executeAll keccak256 block pre' state).2 tx.sequenceNumber)) (k : StateKey) :
    (ex.executeAll keccak256 block order state).2.toMemory.column k q =
      (ex.executeAll keccak256 block (sortTxs order) state).2.toMemory.column k q := by
  by_cases hex : ∃ tx ∈ order, tx.sequenceNumber.toNat = q
  · obtain ⟨tx, htx, rfl⟩ := hex
    obtain ⟨pre, post, hsplit⟩ := List.append_of_mem htx
    obtain ⟨pre', post', hsplit'⟩ := sortTxs_split htx
    have hrow := hwrites _ _ _ _ _ hsplit hsplit' rfl
    have hnodup' : ((sortTxs order).map DecryptedTransaction.sequenceNumber).Nodup :=
      ((sortTxs_perm order).map _).nodup_iff.mpr hnodup
    rw [hsplit'] at hnodup' ⊢
    rw [executeAll_column_of_mem hdata hnodup']
    subst hsplit
    rw [executeAll_column_of_mem hdata hnodup, hrow]
  · push Not at hex
    rw [executeAll_column_of_notMem hdata hex, executeAll_column_of_notMem hdata]
    exact fun tx htx => hex tx ((sortTxs_perm order).mem_iff.mp htx)

/-- Where the two runs have the same entries below a transaction's number, ascending order shows it
what it would find if number 0 had run before it. Kind: L -/
theorem viewWithZero_eq_ascending {pre post pre' post' : List DecryptedTransaction}
    {tx : DecryptedTransaction} (hdata : state.data = ∅)
    (hnodup : (order.map DecryptedTransaction.sequenceNumber).Nodup)
    (hclean : Clean (ex.executeAll keccak256 block order state).1)
    (hsplit : order = pre ++ tx :: post) (hsplit' : sortTxs order = pre' ++ tx :: post')
    (hbelow : ∀ k, ∀ q < tx.sequenceNumber.toNat,
      (ex.executeAll keccak256 block order state).2.toMemory.column k q =
        (ex.executeAll keccak256 block (sortTxs order) state).2.toMemory.column k q) :
    ∀ k ∈ txReads tx block (viewOf (ex.executeAll keccak256 block pre state).2 tx.sequenceNumber),
      viewWithZero keccak256 ex.vm block (ex.executeAll keccak256 block pre state).2 tx post k =
        viewOf (ex.executeAll keccak256 block pre' state).2 tx.sequenceNumber k := by
  intro k hk
  subst hsplit
  rw [viewWithZero_eq_of_clean hdata hnodup hclean hk]
  refine Eq.trans ?_ (view_eq_of_ascending (sortTxs_le hnodup hsplit') k).symm
  rw [← hsplit']
  refine congrArg Prod.fst (MultiVersionState.read_congr ?_ (hbelow k))
  rw [(executeAll_frame _ _).1, (executeAll_frame _ _).1]

/-- A transaction that number 0 does not mislead makes the writes of ascending order, where the two
runs have the same entries below its number. Kind: L -/
theorem txWrites_eq_of_not_misled {pre post pre' post' : List DecryptedTransaction}
    {tx : DecryptedTransaction} (hdata : state.data = ∅)
    (hnodup : (order.map DecryptedTransaction.sequenceNumber).Nodup)
    (hclean : Clean (ex.executeAll keccak256 block order state).1)
    (hsplit : order = pre ++ tx :: post) (hsplit' : sortTxs order = pre' ++ tx :: post')
    (hmisled : ¬ ex.Misled keccak256 block state pre tx post)
    (hbelow : ∀ k, ∀ q < tx.sequenceNumber.toNat,
      (ex.executeAll keccak256 block order state).2.toMemory.column k q =
        (ex.executeAll keccak256 block (sortTxs order) state).2.toMemory.column k q) :
    txWrites keccak256 ex.vm tx block
        (viewOf (ex.executeAll keccak256 block pre state).2 tx.sequenceNumber) =
      txWrites keccak256 ex.vm tx block
        (viewOf (ex.executeAll keccak256 block pre' state).2 tx.sequenceNumber) := by
  have hsame := not_not.mp hmisled
  have hview := viewWithZero_eq_ascending hdata hnodup hclean hsplit hsplit' hbelow
  rw [← txReads_congr (accepted_iff_of_txWrites_eq hsame)] at hview
  rw [← hsame]
  exact (effect_congr hview).1

/-- **A validated run that misleads nobody leaves the entries of the ascending run.** By strong
induction on the sequence number. Kind: P -/
theorem NoneMisled.column_eq (hmisled : ex.NoneMisled keccak256 block state order)
    (hdata : state.data = ∅) (hnodup : (order.map DecryptedTransaction.sequenceNumber).Nodup)
    (hclean : Clean (ex.executeAll keccak256 block order state).1) (q : ℕ) :
    ∀ k, (ex.executeAll keccak256 block order state).2.toMemory.column k q =
      (ex.executeAll keccak256 block (sortTxs order) state).2.toMemory.column k q := by
  induction q using Nat.strong_induction_on with
  | _ q ih =>
    refine column_eq_of_txWrites_eq hdata hnodup fun pre tx post pre' post' hsplit hsplit' hq => ?_
    subst hq
    exact txWrites_eq_of_not_misled hdata hnodup hclean hsplit hsplit' (hmisled _ _ _ hsplit)
      fun k q hq => ih q hq k

/-- **A validated run that misleads nobody makes the writes of the ascending run.** Kind: P -/
theorem NoneMisled.sameWrites (hmisled : ex.NoneMisled keccak256 block state order)
    (hdata : state.data = ∅) (hnodup : (order.map DecryptedTransaction.sequenceNumber).Nodup)
    (hclean : Clean (ex.executeAll keccak256 block order state).1) :
    ex.SameWrites keccak256 block state order := by
  intro pre tx post pre' post' hsplit hsplit'
  exact txWrites_eq_of_not_misled hdata hnodup hclean hsplit hsplit' (hmisled _ _ _ hsplit)
    fun k q _ => hmisled.column_eq hdata hnodup hclean q k

/-- Runs with the same writes leave the same entries. Kind: L -/
theorem SameWrites.column_eq (hsame : ex.SameWrites keccak256 block state order)
    (hdata : state.data = ∅) (hnodup : (order.map DecryptedTransaction.sequenceNumber).Nodup)
    (k : StateKey) (q : ℕ) :
    (ex.executeAll keccak256 block order state).2.toMemory.column k q =
      (ex.executeAll keccak256 block (sortTxs order) state).2.toMemory.column k q := by
  exact column_eq_of_txWrites_eq hdata hnodup
    (fun _ _ _ _ _ hsplit hsplit' _ => hsame _ _ _ _ _ hsplit hsplit') k

/-- **A validated run that makes the writes of the ascending run misleads nobody.** Kind: P -/
theorem SameWrites.noneMisled (hsame : ex.SameWrites keccak256 block state order)
    (hdata : state.data = ∅) (hnodup : (order.map DecryptedTransaction.sequenceNumber).Nodup)
    (hclean : Clean (ex.executeAll keccak256 block order state).1) :
    ex.NoneMisled keccak256 block state order := by
  intro pre tx post hsplit
  obtain ⟨pre', post', hsplit'⟩ := sortTxs_split (show tx ∈ order by rw [hsplit]; simp)
  have hwrites := hsame _ _ _ _ _ hsplit hsplit'
  have hview := viewWithZero_eq_ascending hdata hnodup hclean hsplit hsplit'
    fun k q _ => hsame.column_eq hdata hnodup k q
  rw [txReads_congr (accepted_iff_of_txWrites_eq hwrites)] at hview
  refine not_not.mpr ?_
  rw [hwrites]
  exact (effect_congr fun k hk => (hview k hk).symm).1.symm

end Order

end ParallelExecutor

/-- Validation catches every stale read of a run in the given order: if it aborts none, then every
result has the status, gas and write set of the run in ascending order. Kind: D -/
def CatchesStaleReads (keccak256 : List UInt8 → Bytes 32) (ex : ParallelExecutor)
    (block : BlockContext) (state : MultiVersionState) (order : List DecryptedTransaction) : Prop :=
  (validateBatch (ex.executeAll keccak256 block order state).1).aborted = [] →
    ∀ r ∈ (ex.executeAll keccak256 block order state).1,
      ∃ r' ∈ (ex.executeAll keccak256 block (sortTxs order) state).1,
        r'.txSeq = r.txSeq ∧ r'.status = r.status ∧ r'.gasUsed = r.gasUsed ∧
          r'.writeSet = r.writeSet

section

variable {keccak256 : List UInt8 → Bytes 32} {ex : ParallelExecutor} {block : BlockContext}
  {state : MultiVersionState} {order : List DecryptedTransaction}

/-- Executions with the same writes have the same status, gas and write set. Kind: L -/
theorem execute_congr_of_txWrites_eq {vm : RytherVm} {tx : DecryptedTransaction}
    {σ τ : MultiVersionState}
    (h : txWrites keccak256 vm tx block (viewOf σ tx.sequenceNumber) =
      txWrites keccak256 vm tx block (viewOf τ tx.sequenceNumber)) :
    (vm.execute keccak256 tx σ block).1.status = (vm.execute keccak256 tx τ block).1.status ∧
      (vm.execute keccak256 tx σ block).1.gasUsed = (vm.execute keccak256 tx τ block).1.gasUsed ∧
      (vm.execute keccak256 tx σ block).1.writeSet =
        (vm.execute keccak256 tx τ block).1.writeSet := by
  have hacc := accepted_iff_of_txWrites_eq h
  unfold viewOf at h hacc
  simp only [execute_eq, resultOf, h, txOutcome, hacc, and_true]
  split_ifs <;> exact ⟨rfl, rfl⟩

/-- **Validation catches every stale read where number 0 misleads nobody.** Kind: P -/
theorem catchesStaleReads_of_noneMisled (hdata : state.data = ∅)
    (hnodup : (order.map DecryptedTransaction.sequenceNumber).Nodup)
    (hmisled : (validateBatch (ex.executeAll keccak256 block order state).1).aborted = [] →
      ex.NoneMisled keccak256 block state order) :
    CatchesStaleReads keccak256 ex block state order := by
  intro hvalid r hr
  have hclean : Clean (ex.executeAll keccak256 block order state).1 :=
    (aborted_validateBatch_eq_nil_iff
      (by rw [ParallelExecutor.executeAll_map_txSeq]; exact hnodup)).mp hvalid
  obtain ⟨pre, tx, post, hsplit, rfl⟩ := ParallelExecutor.exists_of_mem_executeAll hr
  obtain ⟨pre', post', hsplit'⟩ :=
    ParallelExecutor.sortTxs_split (show tx ∈ order by rw [hsplit]; simp)
  refine ⟨_, hsplit' ▸ ParallelExecutor.mem_executeAll_middle pre' post' tx state, ?_⟩
  obtain ⟨hstatus, hgas, hwrites⟩ := execute_congr_of_txWrites_eq
    ((hmisled hvalid).sameWrites hdata hnodup hclean _ _ _ _ _ hsplit hsplit')
  refine ⟨?_, hstatus.symm, hgas.symm, hwrites.symm⟩
  rw [execute_eq, execute_eq]
  rfl

/-- **A misled transaction read the base state at a key that number 0, accepted later, writes.**
Kind: P -/
theorem ParallelExecutor.Misled.exists_read {pre later : List DecryptedTransaction}
    {tx : DecryptedTransaction} (hmisled : ex.Misled keccak256 block state pre tx later) :
    ∃ zero ∈ later, zero.sequenceNumber = 0 ∧ Accepted zero (viewOf state 0) ∧
      ∃ k ∈ txReads tx block
          (viewOf (ex.executeAll keccak256 block pre state).2 tx.sequenceNumber),
        ((ex.executeAll keccak256 block pre state).2.read k tx.sequenceNumber).2 = 0 ∧
          ∃ w ∈ txWrites keccak256 ex.vm zero block (viewOf state 0), w.key = k := by
  have hzeroView : viewOf (ex.executeAll keccak256 block pre state).2 0 = viewOf state 0 := by
    rw [viewOf_zero, viewOf_zero, (ParallelExecutor.executeAll_frame _ _).1]
  have hdiffer : ∃ k ∈ txReads tx block
      (viewOf (ex.executeAll keccak256 block pre state).2 tx.sequenceNumber),
      viewOf (ex.executeAll keccak256 block pre state).2 tx.sequenceNumber k ≠
        viewWithZero keccak256 ex.vm block (ex.executeAll keccak256 block pre state).2 tx later
          k := by
    by_contra hsame
    push Not at hsame
    exact hmisled (effect_congr hsame).1.symm
  obtain ⟨k, hk, hne⟩ := hdiffer
  unfold viewWithZero at hne
  cases hfind : later.find? fun t => t.sequenceNumber = 0 with
  | none => simp only [hfind, ne_eq, not_true_eq_false] at hne
  | some zero =>
      simp only [hfind, hzeroView] at hne
      have hz : zero.sequenceNumber = 0 := by simpa using List.find?_some hfind
      by_cases hversion :
          ((ex.executeAll keccak256 block pre state).2.read k tx.sequenceNumber).2 = 0
      · rw [if_pos hversion] at hne
        have hvalues : valuesAt (txWrites keccak256 ex.vm zero block (viewOf state 0)) k ≠ [] := by
          intro hnil
          rw [rowOf, hnil] at hne
          exact hne rfl
        obtain ⟨w, hw, hkey⟩ := exists_mem_of_valuesAt_ne_nil hvalues
        have hacc : Accepted zero (viewOf state 0) := by
          by_contra hrej
          rw [txWrites, if_neg hrej] at hw
          cases hw
        exact ⟨zero, List.mem_of_find?_eq_some hfind, hz, hacc, k, hk, hversion, w, hw, hkey⟩
      · rw [if_neg hversion] at hne
        exact absurd rfl hne

/-- Number 0 misleads nobody if it comes first. Kind: L -/
theorem noneMisled_of_zero_first (hzero : ∀ t ∈ order.tail, t.sequenceNumber ≠ 0) :
    ex.NoneMisled keccak256 block state order := by
  rintro pre tx later rfl hmisled
  obtain ⟨zero, hmem, hz, -⟩ := hmisled.exists_read
  refine hzero zero ?_ hz
  cases pre with
  | nil => exact hmem
  | cons head rest => exact List.mem_append_right rest (List.mem_cons_of_mem tx hmem)

/-- Number 0 misleads nobody if it is rejected. Kind: L -/
theorem noneMisled_of_rejected
    (hzero : ∀ t ∈ order, t.sequenceNumber = 0 → ¬ Accepted t (viewOf state 0)) :
    ex.NoneMisled keccak256 block state order := by
  rintro pre tx later rfl hmisled
  obtain ⟨zero, hmem, hz, hacc, -⟩ := hmisled.exists_read
  exact hzero zero (List.mem_append_right pre (List.mem_cons_of_mem tx hmem)) hz hacc

end

end Ryther
