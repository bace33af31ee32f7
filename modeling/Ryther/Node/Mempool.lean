import Mathlib.Data.Finset.Basic
import Ryther.Types.Event

/-!
# The transaction pool

`src/node/mempool.rs`: pending transactions by commitment, an index of them by gas price, and the
set of all commitments ever accepted. A full pool takes a transaction only in exchange for the
cheapest one it holds.

* `TransactionPool.Coherent` — what the three collections promise each other; every operation keeps
  it (`coherent_remove`, `coherent_add`, `coherent_run`).
* `TransactionPool.nodup_accepted` — no commitment is accepted twice.
* `TransactionPool.indexes_agree_along_runs` — the indexes agree after any operations.
* `TransactionPool.length_best` — `best` never skips a transaction.

The ordered map is `Std.TreeMap`. Times are nanoseconds of the monotonic clock and are arguments.
-/

namespace Ryther

open Lib

/-! ### The order of the price index -/

/-- The derived order on words: by limbs, the least significant limb first.
Source: `types/mod.rs`, `Ord` of `U256`
Kind: D -/
def U256.cmp : U256 → U256 → Ordering :=
  compareLex (compareOn U256.limb0) (compareLex (compareOn U256.limb1)
    (compareLex (compareOn U256.limb2) (compareOn U256.limb3)))

/-- The order of the keys `(gas_price, commitment)`.
Kind: D -/
def priceOrder : U256 × Bytes 32 → U256 × Bytes 32 → Ordering :=
  compareLex (fun a b => U256.cmp a.1 b.1) (compareOn fun key => key.2.toList)

instance instTransCmpU256 : Std.TransCmp U256.cmp := by
  unfold U256.cmp
  infer_instance

/-- The derived order tells all numbers apart. Kind: L -/
theorem U256.cmp_eq {a b : U256} : U256.cmp a b = .eq ↔ a = b := by
  unfold U256.cmp compareOn
  simp only [compareLex_eq_eq, Std.LawfulEqCmp.compare_eq_iff_eq]
  exact U256.ext_iff.symm

instance instTransCmpPriceOrder : Std.TransCmp priceOrder := by
  have : Std.TransCmp fun a b : U256 × Bytes 32 => U256.cmp a.1 b.1 :=
    { eq_swap := Std.OrientedCmp.eq_swap
      isLE_trans := Std.TransCmp.isLE_trans }
  unfold priceOrder
  infer_instance

/-- Two entries of the index are equal only if price and commitment are. Kind: L -/
theorem priceOrder_eq {a b : U256 × Bytes 32} : priceOrder a b = .eq ↔ a = b := by
  unfold priceOrder compareOn
  rw [compareLex_eq_eq, U256.cmp_eq, Std.LawfulEqCmp.compare_eq_iff_eq, Prod.ext_iff]
  exact and_congr_right fun _ => List.Vector.toList_injective.eq_iff

instance instLawfulEqCmpPriceOrder : Std.LawfulEqCmp priceOrder :=
  { compare_self := priceOrder_eq.mpr rfl
    eq_of_compare := priceOrder_eq.mp }

/-! ### The pool -/

/-- A transaction in the pool, with its price and the time it came at.
Source: `node/mempool.rs`, `PendingTransaction`
Kind: D -/
structure PendingTransaction where
  transaction : EncryptedTransaction
  gasPrice : U256
  /-- In nanoseconds. -/
  receivedAt : ℕ
  broadcastCount : UInt32
  deriving DecidableEq

/-- Why a transaction is not taken.
Source: `node/mempool.rs`, `PoolError`
Kind: D -/
inductive PoolError where
  | alreadyKnown
  | poolFull
  | gasPriceTooLow
  | invalid (msg : String)
  deriving DecidableEq

/-- The transactions by commitment and by price, and all commitments that were ever taken.
Source: `node/mempool.rs`, `TransactionPool`
Kind: D -/
structure TransactionPool where
  transactions : HashMap (Bytes 32) PendingTransaction
  byPrice : Std.TreeMap (U256 × Bytes 32) (Bytes 32) priceOrder
  known : Finset (Bytes 32)
  maxSize : ℕ
  maxAgeSecs : UInt64

namespace TransactionPool

/-- An empty pool; transactions expire after an hour.
Source: `node/mempool.rs`, `TransactionPool::new`
Kind: D -/
def new (maxSize : ℕ) : TransactionPool := ⟨∅, ∅, ∅, maxSize, 3600⟩

/-- The number of transactions in the pool.
Source: `node/mempool.rs`, `TransactionPool::len`
Kind: D -/
def len (pool : TransactionPool) : ℕ := pool.transactions.entries.length

/-- The transactions in the pool.
Source: `node/mempool.rs`, `TransactionPool::all`
Kind: D -/
def all (pool : TransactionPool) : List PendingTransaction :=
  pool.transactions.entries.map Sigma.snd

/-- The transaction leaves both maps.
Source: `node/mempool.rs`, `TransactionPool::remove`
Kind: D -/
def remove (pool : TransactionPool) (commitment : Bytes 32) :
    TransactionPool × Option PendingTransaction :=
  match pool.transactions.lookup commitment with
  | none => (pool, none)
  | some pending =>
      -- the commitment stays known, so that it is not taken again
      ({ pool with
          transactions := pool.transactions.erase commitment
          byPrice := pool.byPrice.erase (pending.gasPrice, commitment) }, some pending)

/-- The transaction that is first by price makes room for one with a higher price.
Source: `node/mempool.rs`, `TransactionPool::evict_lowest`
Kind: D -/
def evictLowest (pool : TransactionPool) (newPrice : U256) : TransactionPool × Bool :=
  match pool.byPrice.keys.head? with
  | none => (pool, false)
  | some (price, commitment) =>
      if U256.cmp newPrice price = .gt then ((pool.remove commitment).1, true) else (pool, false)

/-- The last part of `add`: the transaction goes into all three collections.
Source: `node/mempool.rs`, `TransactionPool::add`
Kind: D -/
def insertPending (pool : TransactionPool) (pending : PendingTransaction) : TransactionPool :=
  let commitment := pending.transaction.commitment
  { pool with
    transactions := pool.transactions.insert commitment pending
    byPrice := pool.byPrice.insert (pending.gasPrice, commitment) commitment
    known := insert commitment pool.known }

/-- A known commitment is refused; a full pool takes a transaction only in place of one with a lower
price.
Source: `node/mempool.rs`, `TransactionPool::add`
Kind: D -/
def add (pool : TransactionPool) (tx : EncryptedTransaction) (gasPrice : U256) (now : ℕ) :
    TransactionPool × Except PoolError Unit :=
  let pending : PendingTransaction := ⟨tx, gasPrice, now, 0⟩
  if tx.commitment ∈ pool.known then (pool, .error .alreadyKnown)
  else if pool.maxSize ≤ pool.len then
    match pool.evictLowest gasPrice with
    | (pool, false) => (pool, .error .poolFull)
    | (pool, true) => (pool.insertPending pending, .ok ())
  else (pool.insertPending pending, .ok ())

/-- The loop of `prune_expired`.
Source: `node/mempool.rs`, `TransactionPool::prune_expired`
Kind: D -/
def removeAll (pool : TransactionPool) (commitments : List (Bytes 32)) : TransactionPool :=
  commitments.foldl (fun pool commitment => (pool.remove commitment).1) pool

/-- The transactions of a block leave the pool, and those that were in it are counted.
Source: `node/mempool.rs`, `TransactionPool::mark_included`
Kind: D -/
def markIncluded (pool : TransactionPool) (commitments : List (Bytes 32)) : TransactionPool × ℕ :=
  commitments.foldl (fun (pool, count) commitment =>
    match pool.remove commitment with
    | (pool, some _) => (pool, count + 1)
    | (pool, none) => (pool, count)) (pool, 0)

/-- The commitments that have been in the pool for too long. Differences of times stop at zero.
Source: `node/mempool.rs`, `TransactionPool::prune_expired`
Kind: D -/
def expired (pool : TransactionPool) (now : ℕ) : List (Bytes 32) :=
  (pool.transactions.entries.filter fun e =>
    pool.maxAgeSecs.toNat * 1000000000 < now - e.2.receivedAt).map Sigma.fst

/-- The expired transactions leave the pool and are counted.
Source: `node/mempool.rs`, `TransactionPool::prune_expired`
Kind: D -/
def pruneExpired (pool : TransactionPool) (now : ℕ) : TransactionPool × ℕ :=
  (pool.removeAll (pool.expired now), (pool.expired now).length)

/-- The last ones by price, the highest first.
Source: `node/mempool.rs`, `TransactionPool::best`
Kind: D -/
def best (pool : TransactionPool) (limit : ℕ) : List PendingTransaction :=
  ((pool.byPrice.toList.map Prod.snd).reverse.take limit).filterMap fun commitment =>
    pool.transactions.lookup commitment

/-! ### Runs -/

/-- A call on the pool.
Kind: D -/
inductive Op where
  | add (tx : EncryptedTransaction) (gasPrice : U256) (now : ℕ)
  | remove (commitment : Bytes 32)
  | pruneExpired (now : ℕ)
  | markIncluded (commitments : List (Bytes 32))

/-- The pool after a call.
Kind: D -/
def step (pool : TransactionPool) : Op → TransactionPool
  | .add tx gasPrice now => (pool.add tx gasPrice now).1
  | .remove commitment => (pool.remove commitment).1
  | .pruneExpired now => (pool.pruneExpired now).1
  | .markIncluded commitments => (pool.markIncluded commitments).1

/-- The pool after some calls.
Kind: D -/
def run (pool : TransactionPool) (ops : List Op) : TransactionPool := ops.foldl step pool

/-- The commitment a call accepts.
Kind: D -/
def acceptedBy (pool : TransactionPool) : Op → Option (Bytes 32)
  | .add tx gasPrice now =>
      match (pool.add tx gasPrice now).2 with
      | .ok () => some tx.commitment
      | .error _ => none
  | _ => none

/-- The commitments accepted in a run, in order.
Kind: D -/
def accepted (pool : TransactionPool) : List Op → List (Bytes 32)
  | [] => []
  | op :: ops => (pool.acceptedBy op).toList ++ (pool.step op).accepted ops

/-! ### Coherence -/

/-- What the collections promise each other.
Kind: D -/
structure Coherent (pool : TransactionPool) : Prop where
  /-- A transaction is filed under its own commitment. -/
  key : ∀ {c tx}, pool.transactions.lookup c = some tx → tx.transaction.commitment = c
  /-- The price index has the entries of the pooled transactions and no others. -/
  price : ∀ {k : U256 × Bytes 32} {c : Bytes 32}, pool.byPrice[k]? = some c ↔
    c = k.2 ∧ ∃ tx, pool.transactions.lookup k.2 = some tx ∧ tx.gasPrice = k.1
  size : pool.len ≤ pool.maxSize
  known : ∀ {c tx}, pool.transactions.lookup c = some tx → c ∈ pool.known

/-- A new pool is empty. Kind: L -/
theorem coherent_new (maxSize : ℕ) : (new maxSize).Coherent where
  key h := by cases h
  price := by
    intro k c
    have hempty : (new maxSize).byPrice[k]? = none := Std.TreeMap.getElem?_emptyc
    rw [hempty]
    refine iff_of_false nofun ?_
    rintro ⟨-, tx, h, -⟩
    cases h
  size := Nat.zero_le _
  known h := by cases h

/-- Removing a transaction that is not in the pool changes nothing. Kind: L -/
theorem remove_of_none {pool : TransactionPool} {c : Bytes 32}
    (h : pool.transactions.lookup c = none) : pool.remove c = (pool, none) := by
  unfold remove
  rw [h]

/-- Removing a transaction takes it out of both maps and returns it. Kind: L -/
theorem remove_of_some {pool : TransactionPool} {c : Bytes 32} {tx : PendingTransaction}
    (h : pool.transactions.lookup c = some tx) :
    pool.remove c =
      ({ pool with
          transactions := pool.transactions.erase c
          byPrice := pool.byPrice.erase (tx.gasPrice, c) }, some tx) := by
  unfold remove
  rw [h]

/-- A removed transaction leaves room for another. Kind: L -/
theorem len_remove {pool : TransactionPool} {c : Bytes 32} {tx : PendingTransaction}
    (h : pool.transactions.lookup c = some tx) : (pool.remove c).1.len + 1 = pool.len := by
  have hmem : c ∈ pool.transactions.entries.keys :=
    AList.lookup_isSome.mp (by rw [h]; rfl)
  obtain ⟨b, l₁, l₂, -, hl, herase⟩ := List.exists_of_kerase hmem
  rw [remove_of_some h]
  show (List.kerase c pool.transactions.entries).length + 1 = pool.transactions.entries.length
  rw [herase, hl]
  simp only [List.length_append, List.length_cons]
  omega

/-- A removal does not make the pool larger. Kind: L -/
theorem len_remove_le (pool : TransactionPool) (c : Bytes 32) :
    (pool.remove c).1.len ≤ pool.len := by
  cases h : pool.transactions.lookup c with
  | none => rw [remove_of_none h]
  | some tx =>
      have := len_remove h
      omega

@[simp] theorem maxSize_remove (pool : TransactionPool) (c : Bytes 32) :
    (pool.remove c).1.maxSize = pool.maxSize := by
  unfold remove
  cases pool.transactions.lookup c <;> rfl

/-- A removed transaction stays known, so it cannot come back. Kind: L -/
@[simp] theorem known_remove (pool : TransactionPool) (c : Bytes 32) :
    (pool.remove c).1.known = pool.known := by
  unfold remove
  cases pool.transactions.lookup c <;> rfl

/-- A removal takes out the transaction of its commitment only. Kind: L -/
theorem lookup_remove (pool : TransactionPool) (c c' : Bytes 32) :
    (pool.remove c).1.transactions.lookup c' =
      if c' = c then none else pool.transactions.lookup c' := by
  cases h : pool.transactions.lookup c with
  | none =>
      rw [remove_of_none h]
      split
      · next heq => rw [heq, h]
      · rfl
  | some tx =>
      rw [remove_of_some h]
      split
      · next heq => rw [heq]; exact AList.lookup_erase _ _
      · next hne => exact AList.lookup_erase_ne hne

/-- A removal keeps the two maps in step. Kind: L -/
theorem coherent_remove {pool : TransactionPool} (h : pool.Coherent) (c : Bytes 32) :
    (pool.remove c).1.Coherent where
  key := by
    intro c' tx hlookup
    rw [lookup_remove] at hlookup
    split at hlookup
    · cases hlookup
    · exact h.key hlookup
  price := by
    intro k c'
    rw [lookup_remove]
    cases hc : pool.transactions.lookup c with
    | none =>
        rw [remove_of_none hc, h.price]
        split
        · next heq => rw [heq, hc]
        · rfl
    | some tx =>
        rw [remove_of_some hc, Std.TreeMap.getElem?_erase]
        simp only [priceOrder_eq]
        split
        · -- the entry of the removed transaction is gone, and so is the transaction
          next heq =>
            rw [if_pos (by rw [← heq])]
            refine iff_of_false nofun ?_
            rintro ⟨-, tx', h', -⟩
            cases h'
        · next hne =>
            rw [h.price]
            split
            · -- another price under the same commitment had no entry before
              next heq =>
                refine iff_of_false ?_ ?_
                · rintro ⟨-, tx', hlookup, hgas⟩
                  rw [heq, hc, Option.some.injEq] at hlookup
                  exact hne (Prod.ext (by rw [← hgas, hlookup]) heq.symm)
                · rintro ⟨-, tx', h', -⟩
                  cases h'
            · rfl
  size := by
    rw [maxSize_remove]
    exact (len_remove_le pool c).trans h.size
  known := by
    intro c' tx hlookup
    rw [known_remove]
    rw [lookup_remove] at hlookup
    split at hlookup
    · cases hlookup
    · exact h.known hlookup

/-- An unknown transaction is not in the pool. Kind: L -/
theorem Coherent.lookup_of_notMem {pool : TransactionPool} (h : pool.Coherent) {c : Bytes 32}
    (hnew : c ∉ pool.known) : pool.transactions.lookup c = none := by
  cases hc : pool.transactions.lookup c with
  | none => rfl
  | some tx => exact absurd (h.known hc) hnew

/-- An insertion adds a transaction under its own commitment. Kind: L -/
theorem lookup_insertPending (pool : TransactionPool) (pending : PendingTransaction)
    (c : Bytes 32) :
    (pool.insertPending pending).transactions.lookup c =
      if c = pending.transaction.commitment then some pending
      else pool.transactions.lookup c := by
  show (pool.transactions.insert _ pending).lookup c = _
  split
  · next heq => rw [heq]; exact AList.lookup_insert _
  · next hne => exact AList.lookup_insert_ne hne

/-- A new commitment makes the pool larger by one. Kind: L -/
theorem len_insertPending {pool : TransactionPool} {pending : PendingTransaction}
    (habsent : pool.transactions.lookup pending.transaction.commitment = none) :
    (pool.insertPending pending).len = pool.len + 1 := by
  have habs : pending.transaction.commitment ∉ pool.transactions :=
    AList.lookup_eq_none.mp habsent
  show (pool.transactions.insert _ pending).entries.length = _
  rw [AList.entries_insert_of_notMem habs, List.length_cons]
  rfl

/-- Inserting an unknown transaction where there is room keeps the two maps in step. Kind: L -/
theorem coherent_insertPending {pool : TransactionPool} (h : pool.Coherent)
    (pending : PendingTransaction) (hnew : pending.transaction.commitment ∉ pool.known)
    (hroom : pool.len < pool.maxSize) : (pool.insertPending pending).Coherent where
  key := by
    intro c tx hc
    rw [lookup_insertPending] at hc
    split at hc
    · next heq =>
        cases hc
        exact heq.symm
    · exact h.key hc
  price := by
    intro k c
    show (pool.byPrice.insert (pending.gasPrice, pending.transaction.commitment) _)[k]? = _ ↔ _
    rw [Std.TreeMap.getElem?_insert, lookup_insertPending]
    simp only [priceOrder_eq]
    split
    · next heq =>
        subst heq
        rw [if_pos rfl]
        constructor
        · intro hc
          exact ⟨(Option.some.inj hc).symm, pending, rfl, rfl⟩
        · rintro ⟨hc, -⟩
          rw [hc]
    · next hne =>
        rw [h.price]
        split
        · -- the new commitment had no entry, and has one only at its own price
          next heq =>
            rw [heq, h.lookup_of_notMem hnew]
            refine and_congr_right fun _ => iff_of_false ?_ ?_
            · rintro ⟨tx, h', -⟩
              cases h'
            · rintro ⟨tx, h', hgas⟩
              cases h'
              exact hne (Prod.ext hgas heq.symm)
        · rfl
  size := by
    rw [len_insertPending (h.lookup_of_notMem hnew)]
    exact hroom
  known := by
    intro c tx hc
    show c ∈ insert pending.transaction.commitment pool.known
    rw [lookup_insertPending] at hc
    split at hc
    · next heq => rw [heq]; exact Finset.mem_insert_self _ _
    · exact Finset.mem_insert_of_mem (h.known hc)

/-! ### Adding -/

/-- What `evict_lowest` does: nothing, or it removes one pooled transaction. Kind: L -/
theorem evictLowest_cases {pool : TransactionPool} (h : pool.Coherent) (newPrice : U256) :
    pool.evictLowest newPrice = (pool, false) ∨
      ∃ c tx, pool.transactions.lookup c = some tx ∧
        pool.evictLowest newPrice = ((pool.remove c).1, true) := by
  unfold evictLowest
  cases hmin : pool.byPrice.keys.head? with
  | none => exact .inl rfl
  | some k =>
      obtain ⟨price, c⟩ := k
      have hmem : (price, c) ∈ pool.byPrice :=
        Std.TreeMap.mem_keys.mp (List.mem_of_head? hmin)
      obtain ⟨c', hc'⟩ := Option.isSome_iff_exists.mp (Std.TreeMap.mem_iff_isSome_getElem?.mp hmem)
      obtain ⟨-, tx, hlookup, -⟩ := h.price.mp hc'
      show (if U256.cmp newPrice price = .gt then ((pool.remove c).1, true)
        else (pool, false)) = _ ∨ _
      split
      · next hgt => exact .inr ⟨c, tx, hlookup, if_pos hgt⟩
      · exact .inl rfl

/-- What `add` does: it fails and changes nothing, or it takes the transaction into the pool, from
which one transaction has been removed if it was full. Kind: L -/
theorem add_cases {pool : TransactionPool} (h : pool.Coherent) (tx : EncryptedTransaction)
    (gasPrice : U256) (now : ℕ) :
    (∃ e, pool.add tx gasPrice now = (pool, .error e)) ∨
      tx.commitment ∉ pool.known ∧ ∃ pool' : TransactionPool, pool'.Coherent ∧
        pool'.known = pool.known ∧ pool'.maxSize = pool.maxSize ∧ pool'.len < pool'.maxSize ∧
        pool.add tx gasPrice now = (pool'.insertPending ⟨tx, gasPrice, now, 0⟩, .ok ()) := by
  unfold add
  by_cases hknown : tx.commitment ∈ pool.known
  · exact .inl ⟨_, if_pos hknown⟩
  by_cases hfull : pool.maxSize ≤ pool.len
  · rcases evictLowest_cases h gasPrice with hevict | ⟨c, old, hold, hevict⟩
    · left
      refine ⟨.poolFull, ?_⟩
      simp only [if_neg hknown, if_pos hfull, hevict]
    · right
      have hlen := len_remove hold
      have hsize := h.size
      refine ⟨hknown, (pool.remove c).1, coherent_remove h c, known_remove pool c,
        maxSize_remove pool c, ?_, ?_⟩
      · rw [maxSize_remove]
        omega
      · simp only [if_neg hknown, if_pos hfull, hevict]
  · right
    refine ⟨hknown, pool, h, rfl, rfl, Nat.not_le.mp hfull, ?_⟩
    simp only [if_neg hknown, if_neg hfull]

/-- An addition keeps the pool coherent, whether it is refused, replaces another or is taken. Kind:
L -/
theorem coherent_add {pool : TransactionPool} (h : pool.Coherent) (tx : EncryptedTransaction)
    (gasPrice : U256) (now : ℕ) : (pool.add tx gasPrice now).1.Coherent := by
  rcases add_cases h tx gasPrice now with ⟨e, hadd⟩ | ⟨hnew, pool', h', hknown, -, hroom, hadd⟩
  · rw [hadd]
    exact h
  · rw [hadd]
    exact coherent_insertPending h' _ (by rw [hknown]; exact hnew) hroom

/-! ### Whole runs -/

/-- The pool after an inclusion is the one without the included transactions. Kind: L -/
theorem markIncluded_fst (pool : TransactionPool) (commitments : List (Bytes 32)) :
    (pool.markIncluded commitments).1 = pool.removeAll commitments := by
  unfold markIncluded removeAll
  -- the count does not influence the pool
  generalize 0 = count
  induction commitments generalizing pool count with
  | nil => rfl
  | cons c commitments ih =>
      simp only [List.foldl_cons]
      split
      · next pool' pending heq => rw [heq, ih]
      · next pool' heq => rw [heq, ih]

/-- What every removal keeps is kept by removing many. Kind: L -/
theorem removeAll_induction {P : TransactionPool → Prop}
    (hremove : ∀ pool c, P pool → P (pool.remove c).1) (commitments : List (Bytes 32)) :
    ∀ {pool : TransactionPool}, P pool → P (pool.removeAll commitments) := by
  induction commitments with
  | nil => exact fun h => h
  | cons c commitments ih => exact fun h => ih (hremove _ c h)

/-- What a call other than `add` does. Kind: L -/
theorem step_cases (pool : TransactionPool) (op : Op) :
    (∃ tx gasPrice now, op = .add tx gasPrice now) ∨
      pool.acceptedBy op = none ∧ ∃ commitments, pool.step op = pool.removeAll commitments := by
  cases op with
  | add tx gasPrice now => exact .inl ⟨tx, gasPrice, now, rfl⟩
  | remove c => exact .inr ⟨rfl, [c], rfl⟩
  | pruneExpired now => exact .inr ⟨rfl, pool.expired now, rfl⟩
  | markIncluded commitments => exact .inr ⟨rfl, commitments, markIncluded_fst pool commitments⟩

/-- Every operation keeps the pool coherent. Kind: L -/
theorem coherent_step {pool : TransactionPool} (h : pool.Coherent) (op : Op) :
    (pool.step op).Coherent := by
  rcases step_cases pool op with ⟨tx, gasPrice, now, rfl⟩ | ⟨-, commitments, hstep⟩
  · exact coherent_add h tx gasPrice now
  · rw [hstep]
    exact removeAll_induction (P := Coherent) (fun _ c h => coherent_remove h c) commitments h

/-- No operation changes the bound of the pool. Kind: L -/
theorem maxSize_step {pool : TransactionPool} (h : pool.Coherent) (op : Op) :
    (pool.step op).maxSize = pool.maxSize := by
  rcases step_cases pool op with ⟨tx, gasPrice, now, rfl⟩ | ⟨-, commitments, hstep⟩
  · show (pool.add tx gasPrice now).1.maxSize = _
    rcases add_cases h tx gasPrice now with ⟨e, hadd⟩ | ⟨-, pool', -, -, hmax, -, hadd⟩
    · rw [hadd]
    · rw [hadd]
      exact hmax
  · rw [hstep]
    refine removeAll_induction (P := fun p => p.maxSize = pool.maxSize) ?_ commitments rfl
    exact fun p c hp => (maxSize_remove p c).trans hp

/-- An `add` accepts its commitment exactly if it succeeds. Kind: L -/
theorem acceptedBy_add_of_eq {pool pool' : TransactionPool} {tx : EncryptedTransaction}
    {gasPrice : U256} {now : ℕ} {answer : Except PoolError Unit}
    (h : pool.add tx gasPrice now = (pool', answer)) :
    pool.acceptedBy (.add tx gasPrice now) = answer.toOption.map fun _ => tx.commitment := by
  unfold acceptedBy
  simp only [h]
  cases answer with
  | ok _ => rfl
  | error _ => rfl

/-- The known commitments only grow, by the accepted one. Kind: L -/
theorem known_step {pool : TransactionPool} (h : pool.Coherent) (op : Op) :
    (∀ c ∈ pool.acceptedBy op, c ∉ pool.known) ∧
      ∀ c, c ∈ (pool.step op).known ↔ c ∈ pool.acceptedBy op ∨ c ∈ pool.known := by
  rcases step_cases pool op with ⟨tx, gasPrice, now, rfl⟩ | ⟨hnone, commitments, hstep⟩
  · have hstep : pool.step (.add tx gasPrice now) = (pool.add tx gasPrice now).1 := rfl
    rcases add_cases h tx gasPrice now with ⟨e, hadd⟩ | ⟨hnew, pool', -, hknown, -, -, hadd⟩
    · rw [hstep, acceptedBy_add_of_eq hadd, hadd]
      simp [Except.toOption]
    · rw [hstep, acceptedBy_add_of_eq hadd, hadd]
      constructor
      · rintro c ⟨⟩
        exact hnew
      · intro c
        show c ∈ insert tx.commitment pool'.known ↔ c ∈ some tx.commitment ∨ _
        rw [hknown, Finset.mem_insert, Option.mem_some_iff, eq_comm]
  · have hknown : (pool.removeAll commitments).known = pool.known :=
      removeAll_induction (P := fun p => p.known = pool.known)
        (fun p c hp => (known_remove p c).trans hp) commitments rfl
    rw [hnone, hstep, hknown]
    simp

/-- A pool stays coherent along a run, with the same bound. Kind: L -/
theorem coherent_run {pool : TransactionPool} (h : pool.Coherent) (ops : List Op) :
    (pool.run ops).Coherent ∧ (pool.run ops).maxSize = pool.maxSize := by
  induction ops generalizing pool with
  | nil => exact ⟨h, rfl⟩
  | cons op ops ih =>
      obtain ⟨hrun, hmax⟩ := ih (coherent_step h op)
      exact ⟨hrun, hmax.trans (maxSize_step h op)⟩

/-- No commitment is accepted twice in a run, and none that was known before. Kind: L -/
theorem nodup_accepted {pool : TransactionPool} (h : pool.Coherent) (ops : List Op) :
    (pool.accepted ops).Nodup ∧ ∀ c ∈ pool.accepted ops, c ∉ pool.known := by
  induction ops generalizing pool with
  | nil => exact ⟨List.nodup_nil, nofun⟩
  | cons op ops ih =>
      obtain ⟨hnodup, hfresh⟩ := ih (coherent_step h op)
      obtain ⟨hnew, hknown⟩ := known_step h op
      -- what is accepted later is not known after the first call
      have hlater : ∀ c ∈ (pool.step op).accepted ops, c ∉ pool.acceptedBy op ∧ c ∉ pool.known :=
        fun c hc => not_or.mp fun hor => hfresh c hc ((hknown c).mpr hor)
      constructor
      · refine List.nodup_append'.mpr ⟨?_, hnodup, ?_⟩
        · cases pool.acceptedBy op with
          | none => exact List.nodup_nil
          | some c => exact List.nodup_singleton c
        · intro c hc hc'
          exact (hlater c hc').1 (Option.mem_toList.mp hc)
      · intro c hc
        rcases List.mem_append.mp hc with hc | hc
        · exact hnew c (Option.mem_toList.mp hc)
        · exact (hlater c hc).2

/-- The index by price has exactly the entries of the pool's transactions. Kind: L -/
theorem perm_byPrice {pool : TransactionPool} (h : pool.Coherent) :
    pool.byPrice.toList.Perm (pool.all.map fun tx =>
      ((tx.gasPrice, tx.transaction.commitment), tx.transaction.commitment)) := by
  have hentry : ∀ {c tx}, (⟨c, tx⟩ : Sigma fun _ => PendingTransaction) ∈
      pool.transactions.entries ↔ pool.transactions.lookup c = some tx :=
    AList.mem_lookup_iff.symm
  refine (List.perm_ext_iff_of_nodup ?_ ?_).mpr ?_
  · refine Std.TreeMap.distinct_keys_toList.imp ?_
    rintro a b hne rfl
    exact hne (priceOrder_eq.mpr rfl)
  · -- the commitments in the entries are the keys of the map
    apply List.Nodup.of_map Prod.snd
    have hkeys : ((pool.all.map fun tx => ((tx.gasPrice, tx.transaction.commitment),
        tx.transaction.commitment)).map Prod.snd) = pool.transactions.entries.map Sigma.fst := by
      unfold all
      simp only [List.map_map]
      exact List.map_congr_left fun e he => h.key (hentry.mp he)
    rw [hkeys]
    exact pool.transactions.nodupKeys
  · rintro ⟨⟨price, c⟩, c'⟩
    rw [Std.TreeMap.mem_toList_iff_getElem?_eq_some, h.price, List.mem_map]
    unfold all
    constructor
    · rintro ⟨rfl, tx, hlookup, rfl⟩
      refine ⟨tx, List.mem_map.mpr ⟨⟨_, tx⟩, hentry.mpr hlookup, rfl⟩, ?_⟩
      rw [h.key hlookup]
    · rintro ⟨tx, htx, heq⟩
      obtain ⟨⟨c₀, tx₀⟩, he, rfl⟩ := List.mem_map.mp htx
      have hlookup := hentry.mp he
      simp only [h.key hlookup, Prod.mk.injEq] at heq
      obtain ⟨⟨rfl, rfl⟩, rfl⟩ := heq
      exact ⟨rfl, tx₀, hlookup, rfl⟩

/-- `best` never skips a transaction. Kind: L -/
theorem length_best {pool : TransactionPool} (h : pool.Coherent) (limit : ℕ) :
    (pool.best limit).length = min limit pool.len := by
  have hsome : ∀ c ∈ (pool.byPrice.toList.map Prod.snd).reverse.take limit,
      (pool.transactions.lookup c).isSome := by
    intro c hc
    obtain ⟨⟨k, c⟩, he, rfl⟩ :=
      List.mem_map.mp (List.mem_reverse.mp (List.mem_of_mem_take hc))
    obtain ⟨hk, tx, hlookup, -⟩ := h.price.mp (Std.TreeMap.mem_toList_iff_getElem?_eq_some.mp he)
    rw [hk, hlookup]
    rfl
  have hlen : pool.byPrice.toList.length = pool.len := by
    rw [(perm_byPrice h).length_eq]
    unfold all len
    simp only [List.length_map]
  unfold best
  rw [List.length_filterMap_eq_countP, List.countP_eq_length.mpr hsome, List.length_take,
    List.length_reverse, List.length_map, hlen]

/-- **The indexes of the pool agree after any calls.** The price index is the list of the entries
of the pooled transactions, once each.
Source: `node/mempool.rs`, `TransactionPool`
Kind: P -/
theorem indexes_agree_along_runs (maxSize : ℕ) (ops : List Op) :
    let pool := (new maxSize).run ops
    pool.byPrice.toList.Perm (pool.all.map fun tx =>
        ((tx.gasPrice, tx.transaction.commitment), tx.transaction.commitment)) ∧
      pool.len ≤ maxSize ∧ (∀ c ∈ pool.transactions, c ∈ pool.known) ∧
      ((new maxSize).accepted ops).Nodup ∧
      ∀ tx gasPrice now e, (pool.add tx gasPrice now).2 = .error e →
        (pool.add tx gasPrice now).1 = pool := by
  intro pool
  obtain ⟨h, hmax⟩ := coherent_run (coherent_new maxSize) ops
  refine ⟨perm_byPrice h, ?_, ?_, (nodup_accepted (coherent_new maxSize) ops).1, ?_⟩
  · exact h.size.trans_eq hmax
  · intro c hc
    obtain ⟨tx, htx⟩ := Option.isSome_iff_exists.mp (AList.lookup_isSome.mpr hc)
    exact h.known htx
  · intro tx gasPrice now e herror
    rcases add_cases h tx gasPrice now with ⟨e', hadd⟩ | ⟨-, pool', -, -, -, -, hadd⟩
    · exact congrArg Prod.fst hadd
    · rw [show pool.add tx gasPrice now = _ from hadd] at herror
      cases herror

/-- The addition of the unit tests: a transaction of one byte at a price.
Source: `node/mempool.rs`, `make_tx` of the tests
Kind: D -/
def makePending (id : UInt8) (gasPrice : UInt64) : Op :=
  .add ⟨[id], ⟨[], []⟩, .fill 32 id⟩ (.fromU64 gasPrice) 0

/-- A full pool that has given up its cheapest transaction refuses a cheaper one, and keeps its
indexes.
Source: `node/mempool.rs`, `test_pool_capacity`
Kind: P -/
theorem indexes_agree_at_capacity :
    let pool := (new 2).run [makePending 1 100, makePending 2 200, makePending 3 300]
    let tx : EncryptedTransaction := ⟨[4], ⟨[], []⟩, .fill 32 4⟩
    (pool.add tx (.fromU64 50) 0).2 = .error .poolFull ∧
      (pool.add tx (.fromU64 50) 0).1 = pool := by
  have hfull : (((new 2).run [makePending 1 100, makePending 2 200, makePending 3 300]).add
      ⟨[4], ⟨[], []⟩, .fill 32 4⟩ (.fromU64 50) 0).2 = .error .poolFull := by decide +kernel
  exact ⟨hfull, (indexes_agree_along_runs 2
    [makePending 1 100, makePending 2 200, makePending 3 300]).2.2.2.2 _ _ _ _ hfull⟩

end TransactionPool

end Ryther
