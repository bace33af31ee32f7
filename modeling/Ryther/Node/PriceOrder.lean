import Mathlib.Data.List.Pairwise
import Ryther.Node.Mempool

/-!
# The order of gas prices in the transaction pool

The price index of `src/node/mempool.rs` is ordered by the derived order of `U256`, which compares
the least significant limb first. This is the order of the numbers with the limbs reversed, and not
the numeric one, which the virtual machine uses (`compare_u256` in `src/evm/vm.rs`).

* `U256.cmp_eq_lt_iff`, `U256.SameOrder` — the derived order, and where it is the numeric one.
* `TransactionPool.priced` — the pooled transactions in the order of the index; `best_eq` and
  `evictLowest_of_priced` describe `best` and the evicted transaction by it.
* `TransactionPool.follows_price_iff` — `best` and the eviction follow the numeric price exactly if
  the two orders agree on the prices they compare. The part on `best` is `bestByPrice_iff`; the part
  on eviction is `evictsLowest_iff`, which needs that the first transaction of the index is one of
  the lowest price.
-/

namespace Ryther

open Lib

/-! ### The derived order -/

namespace U256

/-- The limbs the other way round.
Kind: D -/
def reversed (a : U256) : U256 := ⟨a.limb3, a.limb2, a.limb1, a.limb0⟩

/-- The derived order and the numeric one put `a` below `b`, or neither does.
Kind: D -/
def SameOrder (a b : U256) : Prop := a.toNat < b.toNat ↔ a.reversed.toNat < b.reversed.toNat

instance (a b : U256) : Decidable (a.SameOrder b) := inferInstanceAs (Decidable (_ ↔ _))

/-- **The derived order is that of the numbers with the limbs reversed.** Kind: P -/
theorem cmp_eq_lt_iff (a b : U256) : cmp a b = .lt ↔ a.reversed.toNat < b.reversed.toNat := by
  have hlimb : ∀ x y : UInt64, compare x y = .lt ↔ x.toNat < y.toNat := by
    intro x y
    rw [Std.compare_eq_lt, UInt64.lt_iff_toNat_lt]
  have ha0 := a.limb0.toNat_lt
  have ha1 := a.limb1.toNat_lt
  have ha2 := a.limb2.toNat_lt
  have ha3 := a.limb3.toNat_lt
  have hb0 := b.limb0.toNat_lt
  have hb1 := b.limb1.toNat_lt
  have hb2 := b.limb2.toNat_lt
  have hb3 := b.limb3.toNat_lt
  unfold cmp compareLex compareOn
  simp only [Ordering.then_eq_lt, hlimb, Std.LawfulEqCmp.compare_eq_iff_eq, ← UInt64.toNat_inj,
    toNat, reversed]
  omega

/-- The derived order compares the numbers with their limbs reversed. Kind: L -/
theorem cmp_eq_gt_iff (a b : U256) : cmp a b = .gt ↔ b.reversed.toNat < a.reversed.toNat := by
  rw [← cmp_eq_lt_iff, Std.OrientedCmp.gt_iff_lt]

/-- Reversing the limbs tells the same numbers apart. Kind: L -/
theorem toNat_eq_iff_reversed (a b : U256) :
    a.toNat = b.toNat ↔ a.reversed.toNat = b.reversed.toNat := by
  rw [toNat_injective.eq_iff, toNat_injective.eq_iff]
  constructor
  · intro h
    rw [h]
  · intro h
    exact congrArg reversed h

/-- Prices of one limb, as the tests of the pool have them, are in the numeric order. Kind: L -/
theorem sameOrder_fromU64 (a b : UInt64) : SameOrder (fromU64 a) (fromU64 b) := by
  simp only [SameOrder, toNat, reversed, fromU64, UInt64.toNat_zero]
  omega

end U256

namespace TransactionPool

/-! ### The pooled transactions in the order of the index -/

/-- The transactions the entries of the price index lead to.
Kind: D -/
def priced (pool : TransactionPool) : List PendingTransaction :=
  pool.byPrice.toList.filterMap fun entry => pool.transactions.lookup entry.2

section Coherent

variable {pool : TransactionPool} (h : pool.Coherent)

include h

/-- The transactions of the pool are those found under their own commitments. Kind: L -/
theorem mem_all_iff (tx : PendingTransaction) :
    tx ∈ pool.all ↔ pool.transactions.lookup tx.transaction.commitment = some tx := by
  unfold all
  rw [List.mem_map]
  constructor
  · rintro ⟨⟨c, tx⟩, hentry, rfl⟩
    have hlookup : pool.transactions.lookup c = some tx := AList.mem_lookup_iff.mpr hentry
    rw [h.key hlookup]
    exact hlookup
  · intro hlookup
    exact ⟨⟨_, tx⟩, AList.mem_lookup_iff.mp hlookup, rfl⟩

/-- Pooled transactions are found by their commitments. Kind: L -/
theorem filterMap_lookup_commitment {txs : List PendingTransaction}
    (htxs : ∀ tx ∈ txs, tx ∈ pool.all) :
    (txs.map fun tx => tx.transaction.commitment).filterMap pool.transactions.lookup = txs := by
  rw [List.filterMap_map]
  calc txs.filterMap (pool.transactions.lookup ∘ fun tx => tx.transaction.commitment)
      = txs.filterMap some :=
        List.filterMap_congr fun tx htx => (mem_all_iff h tx).mp (htxs tx htx)
    _ = txs := List.filterMap_some

/-- Every pooled transaction is in the order, once. Kind: L -/
theorem perm_priced : pool.priced.Perm pool.all := by
  have hperm := (perm_byPrice h).filterMap fun entry => pool.transactions.lookup entry.2
  have hself : ∀ tx ∈ pool.all, tx ∈ pool.all := fun tx htx => htx
  have hall := filterMap_lookup_commitment h hself
  rw [List.filterMap_map] at hperm hall
  exact hperm.trans (List.Perm.of_eq hall)

/-- The index by price lists the transactions in the order of `priced`. Kind: L -/
theorem toList_eq_priced :
    pool.byPrice.toList = pool.priced.map fun tx =>
      ((tx.gasPrice, tx.transaction.commitment), tx.transaction.commitment) := by
  have hentry : ∀ entry ∈ pool.byPrice.toList, ∃ tx,
      pool.transactions.lookup entry.2 = some tx ∧
        ((tx.gasPrice, tx.transaction.commitment), tx.transaction.commitment) = entry := by
    rintro ⟨⟨price, c⟩, c'⟩ hmem
    obtain ⟨rfl, tx, hlookup, rfl⟩ :=
      h.price.mp (Std.TreeMap.mem_toList_iff_getElem?_eq_some.mp hmem)
    refine ⟨tx, hlookup, ?_⟩
    rw [h.key hlookup]
  unfold priced
  generalize pool.byPrice.toList = entries at hentry
  induction entries with
  | nil => rfl
  | cons entry entries ih =>
      obtain ⟨tx, hlookup, heq⟩ := hentry entry List.mem_cons_self
      have hentries := ih fun other hother => hentry other (List.mem_cons_of_mem _ hother)
      simp only [List.filterMap_cons, hlookup, List.map_cons, heq]
      rw [← hentries]

/-- **`best` reads the order from its end.** Kind: P -/
theorem best_eq (limit : ℕ) : pool.best limit = pool.priced.reverse.take limit := by
  have hcommitments : pool.byPrice.toList.map Prod.snd =
      pool.priced.map fun tx => tx.transaction.commitment := by
    rw [toList_eq_priced h, List.map_map]
    rfl
  unfold best
  rw [hcommitments, ← List.map_reverse, ← List.map_take]
  refine filterMap_lookup_commitment h fun tx htx => ?_
  exact (perm_priced h).mem_iff.mp (List.mem_reverse.mp (List.mem_of_mem_take htx))

/-- The order is by the derived order of the prices. Kind: L -/
theorem pairwise_priced :
    pool.priced.Pairwise fun a b => a.gasPrice.reversed.toNat ≤ b.gasPrice.reversed.toNat := by
  have hordered : pool.byPrice.toList.Pairwise fun a b => priceOrder a.1 b.1 = .lt :=
    Std.TreeMap.ordered_keys_toList
  rw [toList_eq_priced h, List.pairwise_map] at hordered
  refine hordered.imp fun {a b} hlt => ?_
  have hcmp : U256.cmp a.gasPrice b.gasPrice ≠ .gt := by
    intro hgt
    have horder : priceOrder (a.gasPrice, a.transaction.commitment)
        (b.gasPrice, b.transaction.commitment) = .gt := by
      simp only [priceOrder, compareLex, hgt, Ordering.gt_then]
    rw [horder] at hlt
    cases hlt
  rw [ne_eq, U256.cmp_eq_gt_iff] at hcmp
  exact Nat.not_lt.mp hcmp

end Coherent

/-! ### What should follow the price -/

/-- `best` returns as many pooled transactions as it may, in non-increasing price, and none that is
left out has a higher price than one that is returned.
Kind: D -/
def BestByPrice (pool : TransactionPool) : Prop :=
  ∀ limit, (pool.best limit).length = min limit pool.len ∧ (pool.best limit).Subperm pool.all ∧
    (pool.best limit).Pairwise (fun a b => b.gasPrice.toNat ≤ a.gasPrice.toNat) ∧
    ∀ out ∈ pool.all, out ∉ pool.best limit →
      ∀ tx ∈ pool.best limit, out.gasPrice.toNat ≤ tx.gasPrice.toNat

/-- A pooled transaction of the lowest price.
Kind: D -/
def IsLowest (pool : TransactionPool) (low : PendingTransaction) : Prop :=
  low ∈ pool.all ∧ ∀ other ∈ pool.all, low.gasPrice.toNat ≤ other.gasPrice.toNat

/-- A full pool takes a transaction exactly if its price is above the lowest one, and in exchange
for a transaction of that price.
Kind: D -/
def EvictsLowest (pool : TransactionPool) (tx : EncryptedTransaction) (gasPrice : U256) (now : ℕ) :
    Prop :=
  pool.maxSize ≤ pool.len →
    ((pool.add tx gasPrice now).2 = .ok () ↔
        ∃ low, pool.IsLowest low ∧ low.gasPrice.toNat < gasPrice.toNat) ∧
      ((pool.add tx gasPrice now).2 = .ok () → ∃ low, pool.IsLowest low ∧
        (low :: (pool.add tx gasPrice now).1.all).Perm (⟨tx, gasPrice, now, 0⟩ :: pool.all))

/-- The two orders agree on the pooled prices.
Kind: D -/
def PricesAgree (pool : TransactionPool) : Prop :=
  ∀ a ∈ pool.all, ∀ b ∈ pool.all, a.gasPrice.SameOrder b.gasPrice

/-- A full pool compares a new price rightly with the lowest one; a commitment that is known is not
above it.
Kind: D -/
def NewPriceAgrees (pool : TransactionPool) (commitment : Bytes 32) (gasPrice : U256) : Prop :=
  pool.maxSize ≤ pool.len → ∀ low, pool.IsLowest low →
    if commitment ∈ pool.known then gasPrice.toNat ≤ low.gasPrice.toNat
    else low.gasPrice.SameOrder gasPrice

/-- All transactions of the lowest price have one price. Kind: L -/
theorem IsLowest.gasPrice_eq {pool : TransactionPool} {low low' : PendingTransaction}
    (h : pool.IsLowest low) (h' : pool.IsLowest low') : low'.gasPrice = low.gasPrice :=
  U256.toNat_injective (Nat.le_antisymm (h'.2 low h.1) (h.2 low' h'.1))

/-- All lowest transactions have one price, so some has a property of it if a given one has. Kind: L
-/
theorem IsLowest.exists_iff {pool : TransactionPool} {low : PendingTransaction}
    (h : pool.IsLowest low) (p : U256 → Prop) :
    (∃ low', pool.IsLowest low' ∧ p low'.gasPrice) ↔ p low.gasPrice := by
  constructor
  · rintro ⟨low', hlow', hp⟩
    rwa [h.gasPrice_eq hlow'] at hp
  · intro hp
    exact ⟨low, h, hp⟩

/-- All lowest transactions have one price, so all have a property of it if a given one has. Kind: L
-/
theorem IsLowest.forall_iff {pool : TransactionPool} {low : PendingTransaction}
    (h : pool.IsLowest low) (p : U256 → Prop) :
    (∀ low', pool.IsLowest low' → p low'.gasPrice) ↔ p low.gasPrice := by
  constructor
  · intro hall
    exact hall low h
  · intro hp low' hlow'
    rwa [h.gasPrice_eq hlow']

section Coherent

variable {pool : TransactionPool} (h : pool.Coherent)

include h

/-! ### The best transactions -/

/-- Where the orders agree, the order of the index is that of the prices. Kind: L -/
theorem pairwise_toNat_priced (hagree : pool.PricesAgree) :
    pool.priced.Pairwise fun a b => a.gasPrice.toNat ≤ b.gasPrice.toNat := by
  refine (pairwise_priced h).imp_of_mem fun {a b} ha hb hle => ?_
  have ha' := (perm_priced h).mem_iff.mp ha
  have hb' := (perm_priced h).mem_iff.mp hb
  have hsame := hagree b hb' a ha'
  unfold U256.SameOrder at hsame
  omega

/-- **When the best transactions are those of the highest prices.** (⇒) All transactions are
returned for a large limit, and so both orders hold along the list. Kind: P -/
theorem bestByPrice_iff : pool.BestByPrice ↔ pool.PricesAgree := by
  have hlength : pool.priced.length = pool.len := by
    rw [(perm_priced h).length_eq]
    exact List.length_map _
  constructor
  · intro hbest
    obtain ⟨-, -, hsorted, -⟩ := hbest pool.len
    rw [best_eq h, List.take_of_length_le (by rw [List.length_reverse, hlength]),
      List.pairwise_reverse] at hsorted
    have hsame : pool.priced.Pairwise fun a b =>
        a.gasPrice.SameOrder b.gasPrice ∧ b.gasPrice.SameOrder a.gasPrice := by
      refine (hsorted.and (pairwise_priced h)).imp fun {a b} hle => ?_
      have heq := U256.toNat_eq_iff_reversed a.gasPrice b.gasPrice
      unfold U256.SameOrder
      omega
    have : Std.Symm fun a b : PendingTransaction =>
        a.gasPrice.SameOrder b.gasPrice ∧ b.gasPrice.SameOrder a.gasPrice :=
      ⟨fun a b hab => hab.symm⟩
    have hrefl : ∀ a ∈ pool.priced,
        a.gasPrice.SameOrder a.gasPrice ∧ a.gasPrice.SameOrder a.gasPrice := by
      intro a _
      unfold U256.SameOrder
      omega
    intro a ha b hb
    have ha' := (perm_priced h).mem_iff.mpr ha
    have hb' := (perm_priced h).mem_iff.mpr hb
    exact (hsame.forall_of_forall hrefl ha' hb').1
  · intro hagree limit
    have hsorted := List.pairwise_reverse.mpr (pairwise_toNat_priced h hagree)
    refine ⟨length_best h limit, ?_, ?_, ?_⟩
    · rw [best_eq h]
      have hperm := (List.reverse_perm pool.priced).trans (perm_priced h)
      exact (List.take_sublist _ _).subperm.trans hperm.subperm
    · rw [best_eq h]
      exact hsorted.sublist (List.take_sublist _ _)
    · intro out hout hleft tx htx
      rw [best_eq h] at hleft htx
      rw [← List.take_append_drop limit pool.priced.reverse, List.pairwise_append] at hsorted
      have hmem : out ∈ pool.priced.reverse :=
        List.mem_reverse.mpr ((perm_priced h).mem_iff.mpr hout)
      rw [← List.take_append_drop limit pool.priced.reverse] at hmem
      exact hsorted.2.2 tx htx out ((List.mem_append.mp hmem).resolve_left hleft)

/-! ### The evicted transaction -/

/-- **`evict_lowest` looks at the first transaction of the order.** Kind: P -/
theorem evictLowest_of_priced (newPrice : U256) :
    pool.evictLowest newPrice =
      match pool.priced.head? with
      | none => (pool, false)
      | some low =>
          if low.gasPrice.reversed.toNat < newPrice.reversed.toNat then
            ((pool.remove low.transaction.commitment).1, true)
          else (pool, false) := by
  have hhead : pool.byPrice.keys.head? =
      pool.priced.head?.map fun tx => (tx.gasPrice, tx.transaction.commitment) := by
    rw [← Std.TreeMap.map_fst_toList_eq_keys, toList_eq_priced h, List.map_map, List.head?_map]
    rfl
  unfold evictLowest
  rw [hhead]
  rcases pool.priced.head? with _ | low
  · rfl
  · simp only [Option.map_some, U256.cmp_eq_gt_iff]

end Coherent

/-- Removing a transaction. Kind: L -/
theorem perm_all_remove {pool : TransactionPool} {c : Bytes 32} {tx : PendingTransaction}
    (hlookup : pool.transactions.lookup c = some tx) :
    (tx :: (pool.remove c).1.all).Perm pool.all := by
  have hmem : c ∈ pool.transactions.entries.keys :=
    AList.lookup_isSome.mp (by rw [hlookup]; rfl)
  obtain ⟨b, front, back, hfront, hentries, herase⟩ := List.exists_of_kerase hmem
  have hb : b = tx := by
    have hentry : (⟨c, b⟩ : Sigma fun _ : Bytes 32 => PendingTransaction) ∈
        pool.transactions.entries := by
      rw [hentries]
      exact List.mem_append_right _ List.mem_cons_self
    have hlookup' := AList.mem_lookup_iff.mpr hentry
    rw [hlookup] at hlookup'
    exact (Option.some.inj hlookup').symm
  subst hb
  rw [remove_of_some hlookup]
  show (b :: (List.kerase c pool.transactions.entries).map Sigma.snd).Perm
    (pool.transactions.entries.map Sigma.snd)
  rw [herase, hentries, List.map_append, List.map_append, List.map_cons]
  exact List.perm_middle.symm

/-- A new commitment comes in front of the list of transactions. Kind: L -/
theorem all_insertPending {pool : TransactionPool} {pending : PendingTransaction}
    (habsent : pool.transactions.lookup pending.transaction.commitment = none) :
    (pool.insertPending pending).all = pending :: pool.all := by
  have habs : pending.transaction.commitment ∉ pool.transactions :=
    AList.lookup_eq_none.mp habsent
  show (pool.transactions.insert _ pending).entries.map Sigma.snd = _
  rw [AList.entries_insert_of_notMem habs, List.map_cons]
  rfl

section Coherent

variable {pool : TransactionPool} (h : pool.Coherent)

include h

/-- One transaction is exchanged for another. Kind: L -/
theorem perm_all_exchange {low pending : PendingTransaction} (hlow : low ∈ pool.all)
    (hnew : pending.transaction.commitment ∉ pool.known) :
    (low :: ((pool.remove low.transaction.commitment).1.insertPending pending).all).Perm
      (pending :: pool.all) := by
  have habsent := (coherent_remove h low.transaction.commitment).lookup_of_notMem
    (by rwa [known_remove] : pending.transaction.commitment ∉ _)
  rw [all_insertPending habsent]
  refine (List.Perm.swap _ _ _).trans (List.Perm.cons _ ?_)
  exact perm_all_remove ((mem_all_iff h low).mp hlow)

/-- The first transaction of the order has the lowest price where the orders agree. Kind: L -/
theorem isLowest_head (hagree : pool.PricesAgree) {low : PendingTransaction}
    (hhead : pool.priced.head? = some low) : pool.IsLowest low := by
  have hsorted := pairwise_toNat_priced h hagree
  obtain ⟨rest, hpriced⟩ := List.head?_eq_some_iff.mp hhead
  rw [hpriced, List.pairwise_cons] at hsorted
  have hmem : ∀ tx, tx ∈ pool.all ↔ tx = low ∨ tx ∈ rest := by
    intro tx
    rw [← (perm_priced h).mem_iff, hpriced, List.mem_cons]
  refine ⟨(hmem low).mpr (.inl rfl), fun other hother => ?_⟩
  rcases (hmem other).mp hother with rfl | hother
  · exact le_rfl
  · exact hsorted.1 other hother

/-- What `add` does in a full pool. Kind: L -/
theorem add_of_full (hfull : pool.maxSize ≤ pool.len) {tx : EncryptedTransaction}
    (hnew : tx.commitment ∉ pool.known) (gasPrice : U256) (now : ℕ) :
    pool.add tx gasPrice now =
      match pool.priced.head? with
      | none => (pool, .error .poolFull)
      | some low =>
          if low.gasPrice.reversed.toNat < gasPrice.reversed.toNat then
            ((pool.remove low.transaction.commitment).1.insertPending ⟨tx, gasPrice, now, 0⟩,
              .ok ())
          else (pool, .error .poolFull) := by
  unfold add
  rw [if_neg hnew, if_pos hfull, evictLowest_of_priced h]
  rcases pool.priced.head? with _ | low
  · rfl
  · dsimp only
    split_ifs
    · rfl
    · rfl

/-- When a full pool takes a transaction. Kind: L -/
theorem add_eq_ok_iff (hfull : pool.maxSize ≤ pool.len) (tx : EncryptedTransaction)
    (gasPrice : U256) (now : ℕ) :
    (pool.add tx gasPrice now).2 = .ok () ↔ tx.commitment ∉ pool.known ∧
      ∃ first, pool.priced.head? = some first ∧
        first.gasPrice.reversed.toNat < gasPrice.reversed.toNat := by
  by_cases hknown : tx.commitment ∈ pool.known
  · unfold add
    rw [if_pos hknown]
    exact iff_of_false (by simp) fun hok => hok.1 hknown
  · rw [add_of_full h hfull hknown, and_iff_right hknown]
    rcases pool.priced.head? with _ | first
    · simp
    · dsimp only
      split_ifs with hlt
      · exact iff_of_true rfl ⟨first, rfl, hlt⟩
      · refine iff_of_false (by simp) ?_
        rintro ⟨_, ⟨⟩, hlt'⟩
        exact hlt hlt'

/-- What a full pool takes, it takes in exchange for the first transaction of the order. Kind: L -/
theorem perm_all_add (hfull : pool.maxSize ≤ pool.len) {tx : EncryptedTransaction} {gasPrice : U256}
    {now : ℕ} (hok : (pool.add tx gasPrice now).2 = .ok ()) :
    ∃ first, pool.priced.head? = some first ∧
      (first :: (pool.add tx gasPrice now).1.all).Perm (⟨tx, gasPrice, now, 0⟩ :: pool.all) := by
  obtain ⟨hnew, first, hhead, hlt⟩ := (add_eq_ok_iff h hfull tx gasPrice now).mp hok
  have hmem : first ∈ pool.all := (perm_priced h).mem_iff.mp (List.mem_of_head? hhead)
  refine ⟨first, hhead, ?_⟩
  rw [add_of_full h hfull hnew, hhead]
  dsimp only
  rw [if_pos hlt]
  exact perm_all_exchange h hmem hnew

/-- **When a full pool gives up a transaction of the lowest price.** The first transaction of the
order is one of them, and what it gives up. Kind: P -/
theorem evictsLowest_iff (hagree : pool.PricesAgree) (tx : EncryptedTransaction) (gasPrice : U256)
    (now : ℕ) :
    pool.EvictsLowest tx gasPrice now ↔ pool.NewPriceAgrees tx.commitment gasPrice := by
  refine imp_congr_right fun hfull => ?_
  have hexchange : (pool.add tx gasPrice now).2 = .ok () → ∃ low, pool.IsLowest low ∧
      (low :: (pool.add tx gasPrice now).1.all).Perm (⟨tx, gasPrice, now, 0⟩ :: pool.all) := by
    intro hok
    obtain ⟨first, hhead, hperm⟩ := perm_all_add h hfull hok
    exact ⟨first, isLowest_head h hagree hhead, hperm⟩
  rw [and_iff_left hexchange, add_eq_ok_iff h hfull]
  rcases hhead : pool.priced.head? with _ | first
  · -- an empty pool has no lowest price
    have hempty : ∀ low, ¬ pool.IsLowest low := by
      rintro low ⟨hmem, -⟩
      rw [← (perm_priced h).mem_iff, List.head?_eq_none_iff.mp hhead] at hmem
      cases hmem
    refine iff_of_true (iff_of_false ?_ ?_) fun low hlow => absurd hlow (hempty low)
    · rintro ⟨-, first, hfirst, -⟩
      cases hfirst
    · rintro ⟨low, hlow, -⟩
      exact hempty low hlow
  · have hfirst := isLowest_head h hagree hhead
    have htaken : (∃ low, some first = some low ∧
        low.gasPrice.reversed.toNat < gasPrice.reversed.toNat) ↔
        first.gasPrice.reversed.toNat < gasPrice.reversed.toNat := by
      simp
    rw [htaken, hfirst.exists_iff fun price => price.toNat < gasPrice.toNat,
      hfirst.forall_iff fun price => if tx.commitment ∈ pool.known
        then gasPrice.toNat ≤ price.toNat else price.SameOrder gasPrice]
    split_ifs with hknown
    · have hrefused : ¬ (tx.commitment ∉ pool.known ∧
          first.gasPrice.reversed.toNat < gasPrice.reversed.toNat) := fun hok => hok.1 hknown
      rw [iff_false_left hrefused, Nat.not_lt]
    · rw [and_iff_right hknown]
      exact Iff.comm

end Coherent

/-- **When the pool follows the numeric gas price.** In a pool reached by any calls, `best` returns
transactions of the highest prices in non-increasing order, and a full pool takes a transaction
exactly if its price is above the lowest one and in exchange for one of that price, if and only if
the derived order agrees with the numeric one on the pooled prices and, in a full pool, on the new
price and the lowest one. A transaction that was accepted before is never taken again.
Source: `node/mempool.rs`, `TransactionPool::best`, `TransactionPool::add`,
`TransactionPool::evict_lowest`
Kind: P -/
theorem follows_price_iff (maxSize : ℕ) (ops : List Op) (tx : EncryptedTransaction)
    (gasPrice : U256) (now : ℕ) :
    let pool := (new maxSize).run ops
    (pool.BestByPrice ∧ pool.EvictsLowest tx gasPrice now) ↔
      (pool.PricesAgree ∧ pool.NewPriceAgrees tx.commitment gasPrice) := by
  intro pool
  have h : pool.Coherent := (coherent_run (coherent_new maxSize) ops).1
  rw [bestByPrice_iff h]
  exact and_congr_right fun hagree => evictsLowest_iff h hagree tx gasPrice now

/-- **A price of `2 ^ 64` counts as less than a price of 1.** `best` puts it last, and a full pool
with the lowest price 1 refuses it. Kind: P -/
theorem low_limb_decides :
    let cheap : EncryptedTransaction := ⟨[1], ⟨[], []⟩, .fill 32 1⟩
    let dear : EncryptedTransaction := ⟨[2], ⟨[], []⟩, .fill 32 2⟩
    ((new 2).run [.add cheap (.fromU64 1) 0, .add dear ⟨0, 1, 0, 0⟩ 0]).best 1 =
        [⟨cheap, .fromU64 1, 0, 0⟩] ∧
      (((new 1).run [.add cheap (.fromU64 1) 0]).add dear ⟨0, 1, 0, 0⟩ 0).2 = .error .poolFull ∧
      (U256.fromU64 1).toNat < (⟨0, 1, 0, 0⟩ : U256).toNat := by
  decide +kernel

end TransactionPool

end Ryther
