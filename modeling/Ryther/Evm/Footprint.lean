import Ryther.Evm.Effect

/-!
# The footprint of an execution

What an execution leaves alone, in every state and for all coincidences of sender, recipient,
contract and coinbase.

* `ExtendsAt` — a chain with versions of one sequence number added and nothing else changed.
* `touchedKeys` — the slots of the sender, the payee and the coinbase.
* `execute_footprint` — a failed execution changes nothing; any other one extends the chains of
  the touched keys at its own number; readers at or below that number see what they saw before.
-/

namespace Ryther

open Lib

/-! ### Added versions -/

/-- The versions `before` with some added, all with number `seq`.
Kind: D -/
def ExtendsAt (seq : UInt64) (before after : List StateVersion) : Prop :=
  before.Sublist after ∧
    (after.filter fun v => v.txSequence ≠ seq) = before.filter fun v => v.txSequence ≠ seq

namespace ExtendsAt

variable {seq : UInt64} {a b c : List StateVersion}

/-- Versions extend themselves. Kind: L -/
theorem refl (seq : UInt64) (a : List StateVersion) : ExtendsAt seq a a := ⟨.refl a, rfl⟩

/-- Extending versions twice by versions of one number extends them by versions of that number.
Kind: L -/
theorem trans (h : ExtendsAt seq a b) (h' : ExtendsAt seq b c) : ExtendsAt seq a c :=
  ⟨h.1.trans h'.1, h'.2.trans h.2⟩

/-- Wherever the search puts it, a new version is all that is added. Kind: L -/
theorem addVersion (chain : VersionChain) (v : StateVersion) :
    ExtendsAt v.txSequence chain.versions (chain.addVersion v).versions := by
  obtain ⟨p, hp⟩ : ∃ p, (chain.addVersion v).versions =
      chain.versions.take p ++ v :: chain.versions.drop p := ⟨_, rfl⟩
  have hsplit : chain.versions = chain.versions.take p ++ chain.versions.drop p :=
    (List.take_append_drop p _).symm
  rw [hp]
  refine ⟨?_, ?_⟩
  · nth_rewrite 1 [hsplit]
    exact (List.Sublist.refl _).append (List.sublist_cons_self v _)
  · nth_rewrite 3 [hsplit]
    rw [List.filter_append, List.filter_append, List.filter_cons_of_neg (by simp)]

end ExtendsAt

/-! ### Series of writes -/

/-- A write adds at most a version of the writer's number. Kind: L -/
theorem extendsAt_write (state : MultiVersionState) (key : StateKey) (seq : UInt64)
    (v : Option U256) (k : StateKey) :
    ExtendsAt seq (state.versionsOf k) ((state.write key seq v).versionsOf k) := by
  unfold MultiVersionState.versionsOf MultiVersionState.write
  by_cases hk : k = key
  · subst hk
    simp only [AList.lookup_insert]
    cases state.data.lookup k with
    | some chain => exact ExtendsAt.addVersion chain ⟨seq, v, .pending⟩
    | none => exact ExtendsAt.addVersion .new ⟨seq, v, .pending⟩
  · simp only [AList.lookup_insert_ne hk]
    exact .refl seq _

/-- **A series of writes at one number extends the chains at it.** Kind: P -/
theorem extendsAt_writeAll (seq : UInt64) (writes : List Write) (state : MultiVersionState)
    (k : StateKey) :
    ExtendsAt seq (state.versionsOf k) ((writeAll seq state writes).versionsOf k) := by
  unfold writeAll
  induction writes generalizing state with
  | nil => exact .refl seq _
  | cons w writes ih => exact (extendsAt_write state w.key seq (some w.value) k).trans (ih _)

/-- The chains of other keys stay. Kind: L -/
theorem lookup_writeAll_of_ne (seq : UInt64) {writes : List Write} (state : MultiVersionState)
    {k : StateKey} (h : ∀ w ∈ writes, w.key ≠ k) :
    (writeAll seq state writes).data.lookup k = state.data.lookup k := by
  unfold writeAll
  induction writes generalizing state with
  | nil => rfl
  | cons w writes ih =>
      obtain ⟨hw, hrest⟩ := List.forall_mem_cons.mp h
      rw [List.foldl_cons, ih _ hrest]
      exact AList.lookup_insert_ne hw.symm

/-- The writes of a transaction do not reach the state tree. Kind: L -/
theorem jmt_writeAll (seq : UInt64) (writes : List Write) (state : MultiVersionState) :
    (writeAll seq state writes).jmt = state.jmt := by
  unfold writeAll
  induction writes generalizing state with
  | nil => rfl
  | cons w writes ih => exact ih _

/-! ### Executions -/

section

variable (keccak256 : List UInt8 → Bytes 32) (vm : RytherVm) (tx : DecryptedTransaction)
  (block : BlockContext)

/-- The keys an execution may write.
Kind: D -/
def touchedKeys : List StateKey :=
  [balanceKey tx.from, nonceKey tx.from, balanceKey block.coinbase] ++
    match tx.to with
    | some recipient => [balanceKey recipient]
    | none =>
        [balanceKey (computeCreateAddress keccak256 tx.from tx.nonce),
          codeHashKey (computeCreateAddress keccak256 tx.from tx.nonce)]

variable {keccak256 vm tx block}

/-- Whatever a transaction sees, it writes only keys that can be told beforehand. Kind: L -/
theorem key_mem_touchedKeys {view : View} {w : Write}
    (hw : w ∈ txWrites keccak256 vm tx block view) : w.key ∈ touchedKeys keccak256 tx block := by
  unfold txWrites transferWrites payee at hw
  unfold touchedKeys
  cases hto : tx.to with
  | some recipient =>
      simp only [hto] at hw ⊢
      split_ifs at hw <;> simp only [List.mem_append, List.mem_cons, List.not_mem_nil] at hw ⊢ <;>
        grind
  | none =>
      simp only [hto] at hw ⊢
      split_ifs at hw <;> simp only [List.mem_append, List.mem_cons, List.not_mem_nil] at hw ⊢ <;>
        grind

/-- A failed execution was rejected, so it wrote nothing. Kind: L -/
theorem txWrites_of_failure {view : View}
    (h : (txOutcome keccak256 vm tx view).status = .failure) :
    txWrites keccak256 vm tx block view = [] := by
  have hacc : ¬ Accepted tx view := fun hacc => by
    rw [(status_txOutcome tx view).mpr hacc] at h
    cases h
  rw [txWrites, if_neg hacc]

/-- **The footprint of an execution.** A failed one leaves the store as it is and returns an empty
write set. Any other one adds versions at its own sequence number only, to the chains of the touched
keys only. In both cases readers at or below that number are not affected. Kind: P -/
theorem execute_footprint (keccak256 : List UInt8 → Bytes 32) (vm : RytherVm)
    (tx : DecryptedTransaction) (block : BlockContext) (state : MultiVersionState) :
    ((vm.execute keccak256 tx state block).1.status = .failure →
        (vm.execute keccak256 tx state block).2 = state ∧
          (vm.execute keccak256 tx state block).1.writeSet = .new) ∧
      ((vm.execute keccak256 tx state block).1.status ≠ .failure →
        (∀ k, ExtendsAt tx.sequenceNumber (state.versionsOf k)
          ((vm.execute keccak256 tx state block).2.versionsOf k)) ∧
        (∀ k, k ∉ touchedKeys keccak256 tx block →
          (vm.execute keccak256 tx state block).2.data.lookup k = state.data.lookup k) ∧
        (vm.execute keccak256 tx state block).2.baseState = state.baseState ∧
        (vm.execute keccak256 tx state block).2.jmt = state.jmt) ∧
      ∀ k reader, reader ≤ tx.sequenceNumber →
        (vm.execute keccak256 tx state block).2.read k reader = state.read k reader := by
  rw [execute_eq]
  refine ⟨fun hfail => ?_, fun _ => ⟨fun k => ?_, fun k hk => ?_, ?_, ?_⟩, fun k r hr => ?_⟩
  · have hnil := @txWrites_of_failure keccak256 vm tx block _ hfail
    refine ⟨?_, ?_⟩
    · exact congrArg (writeAll tx.sequenceNumber state) hnil
    · exact congrArg (recordWrites .new) hnil
  · exact extendsAt_writeAll _ _ state k
  · exact lookup_writeAll_of_ne _ state fun w hw hkey => hk (hkey ▸ key_mem_touchedKeys hw)
  · exact baseState_writeAll _ state _
  · exact jmt_writeAll _ _ state
  · exact read_writeAll_of_le hr _ state k

end

end Ryther
