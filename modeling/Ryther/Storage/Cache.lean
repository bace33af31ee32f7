import Ryther.Lib.LinkedList
import Ryther.Types.Basic

/-!
# The LRU cache

`src/storage/cache.rs`: a bounded cache that drops the least recently used value. Its entries lie in
a vector and are linked in the order of their last use; a map takes keys to indexes, and freed
indexes are reused.

* `LruReference` — what the cache is for: a list of pairs, the most recently used first.
* `LruCacheInner.Stored`, `LruCacheInner.Represents` — the entries are the cells of a linked list,
  the map and the free list agree with it.
* `LruCache.step_refines` — one call on a cache that represents some cells does what the reference
  does on their pairs.
* `LruCache.run_refines_reference` — all results and lengths are those of the reference, and every
  index the cache holds points to a live entry.

An index out of bounds is a panic and gives `none`. The mutex makes every call atomic.
-/

namespace Ryther

open Lib Lib.Slots

variable {K V : Type}

/-! ### The cache -/

/-- A value with links to its neighbours.
Source: `storage/cache.rs`, `CacheEntry`
Kind: D -/
abbrev CacheEntry := ListNode

/-- The entries with their chain from the most to the least recently used, the free slots, and the
map from keys to slots.
Source: `storage/cache.rs`, `LruCacheInner`
Kind: D -/
structure LruCacheInner (K V : Type) where
  map : HashMap K ℕ
  entries : Slots V
  /-- A stack, its top first. -/
  freeList : List ℕ
  head : Option ℕ
  tail : Option ℕ
  capacity : ℕ
  size : ℕ
  hits : UInt64
  misses : UInt64

namespace LruCacheInner

/-- `if let Some(entry) = self.entries[idx].as_mut()` with an update of the entry.
Kind: D -/
def modifyEntry (inner : LruCacheInner K V) (idx : ℕ) (f : CacheEntry V → CacheEntry V) :
    Option (LruCacheInner K V) :=
  if idx < inner.entries.length then some { inner with entries := inner.entries.update idx f }
  else none

/-- A free slot is used again, or the vector gets one more; an index outside the vector would panic.
Source: `storage/cache.rs`, `LruCacheInner::allocate_entry`
Kind: D -/
def allocateEntry (inner : LruCacheInner K V) (value : V) : Option (LruCacheInner K V × ℕ) :=
  match inner.freeList with
  | idx :: freeList =>
      if idx < inner.entries.length then
        some ({ inner with
          entries := inner.entries.set idx (some ⟨value, none, none⟩)
          freeList := freeList }, idx)
      else none
  | [] =>
      some ({ inner with entries := inner.entries ++ [some ⟨value, none, none⟩] },
        inner.entries.length)

/-- The old head gets a predecessor.
Source: `storage/cache.rs`, `LruCacheInner::add_to_front`
Kind: D -/
def linkOldHead (inner : LruCacheInner K V) (idx : ℕ) : Option (LruCacheInner K V) :=
  match inner.head with
  | some oldHead => inner.modifyEntry oldHead fun entry => { entry with prev := some idx }
  | none => some inner

/-- The entry becomes the head of the chain.
Source: `storage/cache.rs`, `LruCacheInner::add_to_front`
Kind: D -/
def addToFront (inner : LruCacheInner K V) (idx : ℕ) : Option (LruCacheInner K V) := do
  let inner ← inner.modifyEntry idx fun entry => { entry with prev := none, next := inner.head }
  let inner ← inner.linkOldHead idx
  some { inner with
    head := some idx
    tail := if inner.tail.isNone then some idx else inner.tail }

/-- The predecessor of a removed entry, or the head, points behind it.
Source: `storage/cache.rs`, `LruCacheInner::remove_from_list`
Kind: D -/
def linkPrev (inner : LruCacheInner K V) (prev next : Option ℕ) : Option (LruCacheInner K V) :=
  match prev with
  | some prevIdx => inner.modifyEntry prevIdx fun entry => { entry with next := next }
  | none => some { inner with head := next }

/-- The successor of a removed entry, or the tail, points before it.
Source: `storage/cache.rs`, `LruCacheInner::remove_from_list`
Kind: D -/
def linkNext (inner : LruCacheInner K V) (prev next : Option ℕ) : Option (LruCacheInner K V) :=
  match next with
  | some nextIdx => inner.modifyEntry nextIdx fun entry => { entry with prev := prev }
  | none => some { inner with tail := prev }

/-- The neighbours of an entry are linked to each other.
Source: `storage/cache.rs`, `LruCacheInner::remove_from_list`
Kind: D -/
def removeFromList (inner : LruCacheInner K V) (idx : ℕ) : Option (LruCacheInner K V) := do
  match ← inner.entries[idx]? with
  | none => some inner
  | some ⟨_, prev, next⟩ =>
      let inner ← inner.linkPrev prev next
      inner.linkNext prev next

/-- The entry becomes the head, unless it is already.
Source: `storage/cache.rs`, `LruCacheInner::move_to_front`
Kind: D -/
def moveToFront (inner : LruCacheInner K V) (idx : ℕ) : Option (LruCacheInner K V) :=
  if inner.head = some idx then some inner
  else do
    let inner ← inner.removeFromList idx
    inner.addToFront idx

/-- What `remove` and `evict_lru` do with the entries: the entry leaves the list and its slot is
free again.
Source: `storage/cache.rs`, `LruCache::remove`, `LruCacheInner::evict_lru`
Kind: D -/
def takeEntry (inner : LruCacheInner K V) (idx : ℕ) : Option (LruCacheInner K V × Option V) := do
  let inner ← inner.removeFromList idx
  let entry ← inner.entries[idx]?
  some ({ inner with
    entries := inner.entries.set idx none
    freeList := idx :: inner.freeList
    size := inner.size - 1 }, entry.map (·.value))

/-- `HashMap::retain` with the condition that the index is another one.
Kind: D -/
def retainOther (map : HashMap K ℕ) (idx : ℕ) : HashMap K ℕ :=
  ⟨map.entries.filter fun entry => entry.2 ≠ idx, map.nodupKeys.sublist List.filter_sublist⟩

/-- The last entry of the chain goes, with the key that leads to it.
Source: `storage/cache.rs`, `LruCacheInner::evict_lru`
Kind: D -/
def evictLru (inner : LruCacheInner K V) : Option (LruCacheInner K V × Option V) :=
  match inner.tail with
  | none => some (inner, none)
  | some tailIdx => do
      let (inner, value) ← inner.takeEntry tailIdx
      some ({ inner with map := retainOther inner.map tailIdx }, value)

end LruCacheInner

namespace LruCache

open LruCacheInner

/-- An empty cache; a capacity of 0 becomes 1.
Source: `storage/cache.rs`, `LruCache::new`
Kind: D -/
def new (capacity : ℕ) : LruCacheInner K V := ⟨∅, [], [], none, none, max capacity 1, 0, 0, 0⟩

variable [DecidableEq K]

/-- A hit moves the entry in front; a miss is only counted.
Source: `storage/cache.rs`, `LruCache::get`
Kind: D -/
def get (inner : LruCacheInner K V) (key : K) : Option (LruCacheInner K V × Option V) :=
  match inner.map.lookup key with
  | none => some ({ inner with misses := inner.misses + 1 }, none)
  | some idx => do
      let inner ← { inner with hits := inner.hits + 1 }.moveToFront idx
      let entry ← inner.entries[idx]?
      some (inner, entry.map (·.value))

/-- The last part of `put`: a new entry in front.
Source: `storage/cache.rs`, `LruCache::put`
Kind: D -/
def putNew (inner : LruCacheInner K V) (key : K) (value : V) : Option (LruCacheInner K V) := do
  let (inner, idx) ← inner.allocateEntry value
  let inner ← { inner with map := inner.map.insert key idx }.addToFront idx
  some { inner with size := inner.size + 1 }

/-- A known key gets the new value and moves in front; a new one may evict the last entry.
Source: `storage/cache.rs`, `LruCache::put`
Kind: D -/
def put (inner : LruCacheInner K V) (key : K) (value : V) :
    Option (LruCacheInner K V × Option V) :=
  match inner.map.lookup key with
  | some idx => do
      let old ← inner.entries[idx]?
      let inner ← inner.modifyEntry idx fun entry => { entry with value := value }
      let inner ← inner.moveToFront idx
      some (inner, old.map (·.value))
  | none => do
      let (inner, evicted) ←
        if inner.capacity ≤ inner.size then inner.evictLru else some (inner, none)
      let inner ← putNew inner key value
      some (inner, evicted)

/-- The key and its entry go, and the value is returned.
Source: `storage/cache.rs`, `LruCache::remove`
Kind: D -/
def remove (inner : LruCacheInner K V) (key : K) : Option (LruCacheInner K V × Option V) :=
  match inner.map.lookup key with
  | none => some (inner, none)
  | some idx => { inner with map := inner.map.erase key }.takeEntry idx

/-- Whether the map has a key; the order is not touched.
Source: `storage/cache.rs`, `LruCache::contains`
Kind: D -/
def contains (inner : LruCacheInner K V) (key : K) : Bool := (inner.map.lookup key).isSome

/-- The number of entries.
Source: `storage/cache.rs`, `LruCache::len`
Kind: D -/
def len (inner : LruCacheInner K V) : ℕ := inner.size

/-- All entries go; the counters stay.
Source: `storage/cache.rs`, `LruCache::clear`
Kind: D -/
def clear (inner : LruCacheInner K V) : LruCacheInner K V :=
  { inner with
    map := ∅
    entries := []
    freeList := []
    head := none
    tail := none
    size := 0 }

end LruCache

/-! ### Calls and what they return -/

/-- A call on the cache.
Kind: D -/
inductive CacheOp (K V : Type) where
  | get (key : K)
  | put (key : K) (value : V)
  | remove (key : K)
  | contains (key : K)
  | clear

/-- What a call returns.
Kind: D -/
inductive CacheOutput (V : Type) where
  | value (v : Option V)
  | found (b : Bool)
  | cleared
  deriving DecidableEq

namespace LruCache

variable [DecidableEq K]

/-- The cache after one call, with the output of the call; `none` stands for a panic. Kind: D -/
def step (inner : LruCacheInner K V) : CacheOp K V → Option (LruCacheInner K V × CacheOutput V)
  | .get key => (get inner key).map (Prod.map id .value)
  | .put key value => (put inner key value).map (Prod.map id .value)
  | .remove key => (remove inner key).map (Prod.map id .value)
  | .contains key => some (inner, .found (contains inner key))
  | .clear => some (clear inner, .cleared)

/-- The cache after some calls, with what each returned and the length after it.
Kind: D -/
def run (inner : LruCacheInner K V) :
    List (CacheOp K V) → Option (LruCacheInner K V × List (CacheOutput V × ℕ))
  | [] => some (inner, [])
  | op :: ops => do
      let (inner, output) ← step inner op
      let (final, outputs) ← run inner ops
      some (final, (output, len inner) :: outputs)

end LruCache

/-! ### The reference -/

namespace LruReference

variable [DecidableEq K]

/-- The value of a key.
Kind: D -/
def find (pairs : List (K × V)) (key : K) : Option V :=
  (pairs.find? fun pair => pair.1 = key).map Prod.snd

/-- The pairs of the other keys.
Kind: D -/
def without (pairs : List (K × V)) (key : K) : List (K × V) :=
  pairs.filter fun pair => pair.1 ≠ key

/-- A found pair moves to the front.
Kind: D -/
def get (pairs : List (K × V)) (key : K) : List (K × V) × Option V :=
  match find pairs key with
  | none => (pairs, none)
  | some v => ((key, v) :: without pairs key, some v)

/-- A pair goes to the front; for a new key at capacity the last pair is dropped and returned.
Kind: D -/
def put (capacity : ℕ) (pairs : List (K × V)) (key : K) (value : V) : List (K × V) × Option V :=
  match find pairs key with
  | some old => ((key, value) :: without pairs key, some old)
  | none =>
      if capacity ≤ pairs.length then
        ((key, value) :: pairs.dropLast, pairs.getLast?.map Prod.snd)
      else ((key, value) :: pairs, none)

/-- The pairs without the key, and the value it had. Kind: D -/
def remove (pairs : List (K × V)) (key : K) : List (K × V) × Option V :=
  (without pairs key, find pairs key)

/-- A call on a list of pairs, the most recently used first.
Kind: D -/
def step (capacity : ℕ) (pairs : List (K × V)) : CacheOp K V → List (K × V) × CacheOutput V
  | .get key => (get pairs key).map id .value
  | .put key value => (put capacity pairs key value).map id .value
  | .remove key => (remove pairs key).map id .value
  | .contains key => (pairs, .found (find pairs key).isSome)
  | .clear => ([], .cleared)

/-- The pairs after some calls, with what each returned and the length after it.
Kind: D -/
def run (capacity : ℕ) (pairs : List (K × V)) :
    List (CacheOp K V) → List (K × V) × List (CacheOutput V × ℕ)
  | [] => (pairs, [])
  | op :: ops =>
      let (pairs, output) := step capacity pairs op
      let (final, outputs) := run capacity pairs ops
      (final, (output, pairs.length) :: outputs)

end LruReference

/-! ### The list of the entries -/

namespace LruCacheInner

/-- The entries are linked as the cells, from the head to the tail.
Kind: D -/
structure Chained (entries : Slots V) (head tail : Option ℕ) (cells : List (ℕ × V)) : Prop where
  nodup : (cells.map Prod.fst).Nodup
  segment : Segment entries none cells none
  head_eq : head = firstOf cells none
  tail_eq : tail = lastOf none cells

/-- The live entries are those of the cells, and the free list has free slots only.
Kind: D -/
structure Stored (inner : LruCacheInner K V) (cells : List (ℕ × V)) : Prop where
  chained : Chained inner.entries inner.head inner.tail cells
  freeNodup : inner.freeList.Nodup
  free : ∀ i ∈ inner.freeList, inner.entries.shape[i]? = some false
  live : ∀ i, inner.entries.shape[i]? = some true → i ∈ cells.map Prod.fst
  size : inner.size = cells.length

/-- Changing the entry of an occupied slot does not panic. Kind: L -/
theorem modifyEntry_of_node {inner : LruCacheInner K V} {idx : ℕ} {n : CacheEntry V}
    (h : inner.entries[idx]? = some (some n)) (f : CacheEntry V → CacheEntry V) :
    inner.modifyEntry idx f = some { inner with entries := inner.entries.update idx f } :=
  if_pos (List.getElem?_eq_some_iff.mp h).1

/-- Every index of the chain is an occupied slot. Kind: L -/
theorem Chained.exists_node {entries : Slots V} {head tail : Option ℕ} {cells : List (ℕ × V)}
    (h : Chained entries head tail cells) {i : ℕ} (hi : i ∈ cells.map Prod.fst) :
    ∃ n, entries[i]? = some (some n) := by
  obtain ⟨cell, hcell, rfl⟩ := List.mem_map.mp hi
  obtain ⟨l₁, l₂, -, hnode⟩ := exists_node_of_mem h.segment hcell
  exact ⟨_, hnode⟩

/-- Changes that occupy and free no slot leave the slots of the chain occupied. Kind: L -/
theorem Chained.of_shape {entries entries' : Slots V} {head tail : Option ℕ}
    {cells : List (ℕ × V)} (h : Chained entries head tail cells)
    (hshape : entries'.shape = entries.shape) {i : ℕ} (hi : i ∈ cells.map Prod.fst) :
    ∃ n, entries'[i]? = some (some n) := by
  rw [← getElem?_shape_eq_true, hshape, getElem?_shape_eq_true]
  exact h.exists_node hi

/-- The node of a cell. Kind: L -/
theorem Chained.node {entries : Slots V} {head tail : Option ℕ} {l₁ l₂ : List (ℕ × V)}
    {cell : ℕ × V} (h : Chained entries head tail (l₁ ++ cell :: l₂)) :
    entries[cell.1]? = some (some ⟨cell.2, lastOf none l₁, firstOf l₂ none⟩) :=
  (segment_append.mp h.segment).2.1

/-- The link from the cell before. Kind: L -/
theorem linkPrev_eq {inner : LruCacheInner K V} {l₁ l₂ : List (ℕ × V)} {cell : ℕ × V}
    (h : Chained inner.entries inner.head inner.tail (l₁ ++ cell :: l₂)) :
    inner.linkPrev (lastOf none l₁) (firstOf l₂ none) = some { inner with
      entries := inner.entries.relinkNext (lastOf none l₁) (firstOf l₂ none)
      head := firstOf l₁ (firstOf l₂ none) } := by
  have hhead := h.head_eq
  rw [firstOf_append] at hhead
  cases hlast : lastOf none l₁ with
  | none =>
      cases l₁ with
      | nil => rfl
      | cons c l₁ => exact absurd hlast (lastOf_some_ne_none c.1 l₁)
  | some p =>
      obtain ⟨n, hn⟩ := h.exists_node (i := p) (by
        rw [List.map_append]
        exact List.mem_append_left _ (mem_of_lastOf hlast))
      have hsame : inner.head = firstOf l₁ (firstOf l₂ none) := by
        cases l₁ with
        | nil => cases hlast
        | cons c l₁ => exact hhead
      show inner.modifyEntry p _ = _
      rw [modifyEntry_of_node hn, ← hsame]
      rfl

/-- Removing a cell of the chain does not panic and links its neighbours. Kind: L -/
theorem removeFromList_eq {inner : LruCacheInner K V} {l₁ l₂ : List (ℕ × V)} {cell : ℕ × V}
    (h : Chained inner.entries inner.head inner.tail (l₁ ++ cell :: l₂)) :
    inner.removeFromList cell.1 = some { inner with
      entries := inner.entries.unlink (lastOf none l₁) (firstOf l₂ none)
      head := firstOf (l₁ ++ l₂) none
      tail := lastOf none (l₁ ++ l₂) } := by
  have htail := h.tail_eq
  rw [lastOf_append] at htail
  unfold removeFromList
  rw [h.node, firstOf_append, lastOf_append]
  show (inner.linkPrev (lastOf none l₁) (firstOf l₂ none)).bind _ = _
  rw [linkPrev_eq h, Option.bind_some]
  cases l₂ with
  | nil => rfl
  | cons c l₂ =>
      have hsame : inner.tail = lastOf (lastOf none l₁) (c :: l₂) := htail
      obtain ⟨n, hn⟩ := h.of_shape (i := c.1)
        (shape_relinkNext inner.entries (lastOf none l₁) (some c.1)) (by simp)
      show modifyEntry _ c.1 _ = _
      rw [modifyEntry_of_node hn, ← hsame]
      rfl

/-- Adding an entry in front of the chain does not panic and makes it the head. Kind: L -/
theorem addToFront_eq {inner : LruCacheInner K V} {cells : List (ℕ × V)} {i : ℕ}
    {n : CacheEntry V} (h : Chained inner.entries inner.head inner.tail cells)
    (hnode : inner.entries[i]? = some (some n)) :
    inner.addToFront i = some { inner with
      entries := inner.entries.pushFront i (firstOf cells none)
      head := some i
      tail := lastOf none ((i, n.value) :: cells) } := by
  have htail : (if inner.tail.isNone then some i else inner.tail) =
      lastOf none ((i, n.value) :: cells) := by
    rw [h.tail_eq]
    cases cells with
    | nil => rfl
    | cons c cells =>
        apply if_neg
        rw [Option.isNone_iff_eq_none]
        exact lastOf_some_ne_none c.1 cells
  unfold addToFront
  rw [modifyEntry_of_node hnode]
  show (linkOldHead _ i).bind _ = _
  unfold linkOldHead
  simp only [h.head_eq]
  cases cells with
  | nil =>
      show some _ = _
      rw [htail]
      rfl
  | cons c cells =>
      obtain ⟨m, hm⟩ := h.of_shape (i := c.1) (shape_update inner.entries i
        fun entry => { entry with prev := none, next := some c.1 }) List.mem_cons_self
      show (modifyEntry _ c.1 _).bind _ = _
      rw [modifyEntry_of_node hm, Option.bind_some]
      show some _ = _
      rw [htail]
      rfl

/-! ### What the list operations do to the cells -/

/-- The cells of the chain are occupied slots. Kind: L -/
theorem Stored.slot_of_mem {inner : LruCacheInner K V} {cells : List (ℕ × V)}
    (h : Stored inner cells) {i : ℕ} (hi : i ∈ cells.map Prod.fst) :
    inner.entries.shape[i]? = some true :=
  getElem?_shape_eq_true.mpr (h.chained.exists_node hi)

/-- Live and free slots are apart. Kind: L -/
theorem Stored.notMem_freeList {inner : LruCacheInner K V} {cells : List (ℕ × V)}
    (h : Stored inner cells) {i : ℕ} (hi : i ∈ cells.map Prod.fst) : i ∉ inner.freeList := by
  intro hfree
  have hslot := h.slot_of_mem hi
  rw [h.free i hfree] at hslot
  cases hslot

/-- Distinct indices stay distinct without one of them, which is then none of the others. Kind: L -/
theorem nodup_of_middle {l₁ l₂ : List (ℕ × V)} {cell : ℕ × V}
    (h : ((l₁ ++ cell :: l₂).map Prod.fst).Nodup) :
    ((l₁ ++ l₂).map Prod.fst).Nodup ∧ cell.1 ∉ (l₁ ++ l₂).map Prod.fst := by
  have hperm : ((l₁ ++ cell :: l₂).map Prod.fst).Perm ((cell :: (l₁ ++ l₂)).map Prod.fst) :=
    List.perm_middle.map _
  obtain ⟨hnot, hnodup⟩ := List.nodup_cons.mp (hperm.nodup_iff.mp h)
  exact ⟨hnodup, hnot⟩

/-- The slots with a cell unlinked hold the chain without it. Kind: L -/
theorem chained_unlink {entries : Slots V} {head tail : Option ℕ} {l₁ l₂ : List (ℕ × V)}
    {cell : ℕ × V} (h : Chained entries head tail (l₁ ++ cell :: l₂)) :
    Chained (entries.unlink (lastOf none l₁) (firstOf l₂ none)) (firstOf (l₁ ++ l₂) none)
      (lastOf none (l₁ ++ l₂)) (l₁ ++ l₂) :=
  ⟨(nodup_of_middle h.nodup).1, (segment_unlink h.nodup h.segment).1, rfl, rfl⟩

/-- The slots with an entry put in front hold the chain with it as its head. Kind: L -/
theorem chained_pushFront {entries : Slots V} {head tail : Option ℕ} {cells : List (ℕ × V)}
    {i : ℕ} {n : CacheEntry V} (h : Chained entries head tail cells)
    (hnode : entries[i]? = some (some n)) (hnew : i ∉ cells.map Prod.fst) :
    Chained (entries.pushFront i (firstOf cells none)) (some i)
      (lastOf none ((i, n.value) :: cells)) ((i, n.value) :: cells) :=
  ⟨List.nodup_cons.mpr ⟨hnew, h.nodup⟩, segment_pushFront h.nodup h.segment hnode hnew, rfl, rfl⟩

/-- Moving an entry to the front moves its cell. Kind: L -/
theorem moveToFront_spec {inner : LruCacheInner K V} {l₁ l₂ : List (ℕ × V)} {cell : ℕ × V}
    (h : Stored inner (l₁ ++ cell :: l₂)) :
    ∃ entries head tail,
      inner.moveToFront cell.1 =
        some { inner with entries := entries, head := head, tail := tail } ∧
      Stored { inner with entries := entries, head := head, tail := tail }
        (cell :: (l₁ ++ l₂)) := by
  have hnodup := nodup_of_middle h.chained.nodup
  by_cases hhead : inner.head = some cell.1
  · -- the cell is in front already
    have hnil : l₁ = [] := by
      cases l₁ with
      | nil => rfl
      | cons c l₁ =>
          have hc : some c.1 = some cell.1 := h.chained.head_eq.symm.trans hhead
          exact absurd (by simp [Option.some.inj hc]) hnodup.2
    subst hnil
    exact ⟨inner.entries, inner.head, inner.tail, if_pos hhead, h⟩
  · have hunlink := chained_unlink h.chained
    have hnode := (segment_unlink h.chained.nodup h.chained.segment).2.trans h.chained.node
    have hpush := chained_pushFront hunlink hnode hnodup.2
    refine ⟨(inner.entries.unlink (lastOf none l₁) (firstOf l₂ none)).pushFront cell.1
      (firstOf (l₁ ++ l₂) none), some cell.1, lastOf none (cell :: (l₁ ++ l₂)), ?_, ?_⟩
    · unfold moveToFront
      rw [if_neg hhead, removeFromList_eq h.chained]
      exact addToFront_eq hunlink hnode
    · refine ⟨hpush, h.freeNodup, ?_, ?_, ?_⟩
      · intro i hi
        rw [shape_pushFront, shape_unlink]
        exact h.free i hi
      · intro i hi
        rw [shape_pushFront, shape_unlink] at hi
        exact (List.perm_middle.map Prod.fst).mem_iff.mp (h.live i hi)
      · rw [h.size]
        exact List.perm_middle.length_eq

/-- Changing the value of an entry changes its cell. Kind: L -/
theorem setValue_spec {inner : LruCacheInner K V} {l₁ l₂ : List (ℕ × V)} {i : ℕ} {v : V}
    (h : Stored inner (l₁ ++ (i, v) :: l₂)) (v' : V) :
    Stored { inner with
      entries := inner.entries.update i fun entry => { entry with value := v' } }
      (l₁ ++ (i, v') :: l₂) := by
  have hindexes : (l₁ ++ (i, v') :: l₂).map Prod.fst = (l₁ ++ (i, v) :: l₂).map Prod.fst := by
    rw [List.map_append, List.map_append]
    rfl
  refine ⟨⟨?_, segment_setValue h.chained.nodup h.chained.segment v', ?_, ?_⟩, h.freeNodup, ?_, ?_,
    ?_⟩
  · rw [hindexes]
    exact h.chained.nodup
  · show inner.head = _
    rw [h.chained.head_eq, firstOf_append, firstOf_append]
    rfl
  · show inner.tail = _
    rw [h.chained.tail_eq, lastOf_append, lastOf_append]
    rfl
  · intro j hj
    rw [shape_update]
    exact h.free j hj
  · intro j hj
    rw [shape_update] at hj
    rw [hindexes]
    exact h.live j hj
  · show inner.size = _
    rw [h.size, List.length_append, List.length_append]
    rfl

/-- Taking an entry removes its cell and frees its slot. Kind: L -/
theorem takeEntry_spec {inner : LruCacheInner K V} {l₁ l₂ : List (ℕ × V)} {cell : ℕ × V}
    (h : Stored inner (l₁ ++ cell :: l₂)) :
    ∃ entries head tail freeList size,
      inner.takeEntry cell.1 = some ({ inner with
        entries := entries, head := head, tail := tail, freeList := freeList, size := size },
        some cell.2) ∧
      Stored { inner with
        entries := entries, head := head, tail := tail, freeList := freeList, size := size }
        (l₁ ++ l₂) := by
  have hnodup := nodup_of_middle h.chained.nodup
  have hunlink := chained_unlink h.chained
  have hnode := (segment_unlink h.chained.nodup h.chained.segment).2.trans h.chained.node
  have hmem : cell.1 ∈ (l₁ ++ cell :: l₂).map Prod.fst := by simp
  have hlt : cell.1 < inner.entries.shape.length :=
    (List.getElem?_eq_some_iff.mp (h.slot_of_mem hmem)).1
  refine ⟨(inner.entries.unlink (lastOf none l₁) (firstOf l₂ none)).set cell.1 none,
    firstOf (l₁ ++ l₂) none, lastOf none (l₁ ++ l₂), cell.1 :: inner.freeList, inner.size - 1,
    ?_, ⟨hunlink.nodup, ?_, rfl, rfl⟩, ?_, ?_, ?_, ?_⟩
  · unfold takeEntry
    rw [removeFromList_eq h.chained]
    simp only [Option.bind_eq_bind, Option.bind_some]
    rw [hnode]
    rfl
  · refine segment_congr hunlink.segment fun j hj => List.getElem?_set_ne ?_
    rintro rfl
    exact hnodup.2 hj
  · exact List.nodup_cons.mpr ⟨h.notMem_freeList hmem, h.freeNodup⟩
  · intro i hi
    rw [shape_set, shape_unlink]
    rcases List.mem_cons.mp hi with rfl | hi
    · exact List.getElem?_set_self hlt
    · rw [List.getElem?_set_ne]
      · exact h.free i hi
      · rintro rfl
        exact h.notMem_freeList hmem hi
  · intro i hi
    rw [shape_set, shape_unlink] at hi
    by_cases hcell : cell.1 = i
    · rw [← hcell, List.getElem?_set_self hlt] at hi
      cases hi
    · rw [List.getElem?_set_ne hcell] at hi
      have hmem := (List.perm_middle.map Prod.fst).mem_iff.mp (h.live i hi)
      exact (List.mem_cons.mp hmem).resolve_left (Ne.symm hcell)
  · show inner.size - 1 = _
    rw [h.size]
    simp

/-- An allocated entry lies in a slot of its own. Kind: L -/
theorem allocateEntry_spec {inner : LruCacheInner K V} {cells : List (ℕ × V)}
    (h : Stored inner cells) (value : V) :
    ∃ entries freeList i,
      inner.allocateEntry value =
        some ({ inner with entries := entries, freeList := freeList }, i) ∧
      entries[i]? = some (some ⟨value, none, none⟩) ∧ i ∉ cells.map Prod.fst ∧
      (∀ j, i ≠ j → entries[j]? = inner.entries[j]?) ∧ freeList.Nodup ∧
      ∀ j ∈ freeList, i ≠ j ∧ j ∈ inner.freeList := by
  unfold allocateEntry
  cases hfree : inner.freeList with
  | nil =>
      refine ⟨inner.entries ++ [some ⟨value, none, none⟩], [], inner.entries.length, ?_, ?_, ?_, ?_,
        List.nodup_nil, nofun⟩
      · rfl
      · simp
      · intro hmem
        obtain ⟨n, hn⟩ := h.chained.exists_node hmem
        simp at hn
      · intro j hj
        rcases Nat.lt_or_gt_of_ne hj with hlt | hgt
        · rw [List.getElem?_eq_none (by rw [List.length_append]; exact hlt),
            List.getElem?_eq_none hlt.le]
        · exact List.getElem?_append_left hgt
  | cons i freeList =>
      have hi : i ∈ inner.freeList := by
        rw [hfree]
        exact List.mem_cons_self
      have hlt : i < inner.entries.length :=
        (List.getElem?_eq_some_iff.mp (getElem?_shape_eq_false.mp (h.free i hi))).1
      have hnodup := h.freeNodup
      rw [hfree, List.nodup_cons] at hnodup
      refine ⟨_, freeList, i, if_pos hlt, ?_, ?_, ?_, hnodup.2, ?_⟩
      · exact List.getElem?_set_self hlt
      · exact fun hmem => h.notMem_freeList hmem hi
      · exact fun j hj => List.getElem?_set_ne hj
      · intro j hj
        refine ⟨?_, List.mem_cons_of_mem _ hj⟩
        rintro rfl
        exact hnodup.1 hj

/-! ### The map -/

variable [DecidableEq K]

/-- The map takes the keys of the cells to their indexes.
Kind: D -/
def Mapped (map : HashMap K ℕ) (cells : List (K × ℕ × V)) : Prop :=
  ∀ k i, map.lookup k = some i ↔ ∃ v, (k, i, v) ∈ cells

/-- A key that the map does not have is the key of no cell. Kind: L -/
theorem Mapped.notMem {map : HashMap K ℕ} {cells : List (K × ℕ × V)} (h : Mapped map cells)
    {k : K} (hk : map.lookup k = none) : k ∉ cells.map Prod.fst := by
  intro hmem
  obtain ⟨⟨k, i, v⟩, hcell, rfl⟩ := List.mem_map.mp hmem
  rw [(h k i).mpr ⟨v, hcell⟩] at hk
  cases hk

/-- The order of the cells does not matter to the map. Kind: L -/
theorem Mapped.perm {map : HashMap K ℕ} {cells cells' : List (K × ℕ × V)} (h : Mapped map cells)
    (hperm : cells.Perm cells') : Mapped map cells' := by
  intro k i
  rw [h]
  exact exists_congr fun v => hperm.mem_iff

/-- Inserting a new key adds its cell. Kind: L -/
theorem Mapped.insert {map : HashMap K ℕ} {cells : List (K × ℕ × V)} (h : Mapped map cells)
    {k : K} (hk : k ∉ cells.map Prod.fst) (i : ℕ) (v : V) :
    Mapped (map.insert k i) ((k, i, v) :: cells) := by
  intro k' i'
  by_cases heq : k' = k
  · subst heq
    rw [AList.lookup_insert]
    constructor
    · rintro ⟨⟩
      exact ⟨v, List.mem_cons_self⟩
    · rintro ⟨v', hmem⟩
      rcases List.mem_cons.mp hmem with heq | hmem
      · cases heq
        rfl
      · exact absurd (List.mem_map_of_mem hmem) hk
  · rw [AList.lookup_insert_ne heq, h]
    refine exists_congr fun v' => ?_
    rw [List.mem_cons, Prod.mk.injEq]
    simp [heq]

/-- Erasing a key takes out its cell. Kind: L -/
theorem Mapped.erase {map : HashMap K ℕ} {cells : List (K × ℕ × V)} {k : K} {c : ℕ × V}
    (h : Mapped map ((k, c) :: cells)) (hk : k ∉ cells.map Prod.fst) :
    Mapped (map.erase k) cells := by
  intro k' i'
  by_cases heq : k' = k
  · subst heq
    rw [AList.lookup_erase]
    refine iff_of_false nofun ?_
    rintro ⟨v', hmem⟩
    exact hk (List.mem_map_of_mem hmem)
  · rw [AList.lookup_erase_ne heq, h]
    refine exists_congr fun v' => ?_
    rw [List.mem_cons, Prod.mk.injEq]
    simp [heq]

/-- Retaining the other indices drops exactly the keys of one index. Kind: L -/
theorem lookup_retainOther {map : HashMap K ℕ} {idx : ℕ} {k : K} {i : ℕ} :
    (retainOther map idx).lookup k = some i ↔ map.lookup k = some i ∧ i ≠ idx := by
  have hentry : ∀ m : HashMap K ℕ, m.lookup k = some i ↔
      (⟨k, i⟩ : Sigma fun _ : K => ℕ) ∈ m.entries := fun m => AList.mem_lookup_iff
  rw [hentry, hentry]
  show _ ∈ map.entries.filter _ ↔ _
  rw [List.mem_filter]
  simp

/-- Dropping an index drops one key, since indexes are not shared. Kind: L -/
theorem Mapped.retainOther {map : HashMap K ℕ} {cells : List (K × ℕ × V)} {k : K} {c : ℕ × V}
    (h : Mapped map ((k, c) :: cells)) (hc : c.1 ∉ (cells.map Prod.snd).map Prod.fst) :
    Mapped (retainOther map c.1) cells := by
  intro k' i'
  rw [lookup_retainOther, h]
  constructor
  · rintro ⟨⟨v', hmem⟩, hne⟩
    rcases List.mem_cons.mp hmem with heq | hmem
    · cases heq
      exact absurd rfl hne
    · exact ⟨v', hmem⟩
  · rintro ⟨v', hmem⟩
    refine ⟨⟨v', List.mem_cons_of_mem _ hmem⟩, ?_⟩
    rintro rfl
    exact hc (List.mem_map.mpr ⟨(c.1, v'), List.mem_map_of_mem hmem, rfl⟩)

/-! ### Refinement -/

/-- The cache holds the cells, in this order, and no more than it may.
Kind: D -/
structure Represents (inner : LruCacheInner K V) (cells : List (K × ℕ × V)) : Prop where
  stored : Stored inner (cells.map Prod.snd)
  keys : (cells.map Prod.fst).Nodup
  mapped : Mapped inner.map cells
  bound : cells.length ≤ inner.capacity
  capacity_pos : 0 < inner.capacity

/-- The pairs of the cells.
Kind: D -/
def pairsOf (cells : List (K × ℕ × V)) : List (K × V) := cells.map fun c => (c.1, c.2.2)

/-- The reference does not find a key that has no cell. Kind: L -/
theorem find_pairsOf_of_notMem {cells : List (K × ℕ × V)} {k : K} (hk : k ∉ cells.map Prod.fst) :
    LruReference.find (pairsOf cells) k = none := by
  unfold LruReference.find pairsOf
  rw [Option.map_eq_none_iff, List.find?_eq_none]
  intro pair hpair
  obtain ⟨c, hc, rfl⟩ := List.mem_map.mp hpair
  have hne : c.1 ≠ k := fun heq => hk (heq ▸ List.mem_map_of_mem hc)
  simpa using hne

/-- The reference drops nothing for a key that has no cell. Kind: L -/
theorem without_pairsOf_of_notMem {cells : List (K × ℕ × V)} {k : K}
    (hk : k ∉ cells.map Prod.fst) : LruReference.without (pairsOf cells) k = pairsOf cells := by
  unfold LruReference.without
  rw [List.filter_eq_self]
  intro pair hpair
  obtain ⟨c, hc, rfl⟩ := List.mem_map.mp hpair
  have hne : c.1 ≠ k := fun heq => hk (heq ▸ List.mem_map_of_mem hc)
  simpa using hne

/-- Where a key of the map lies among the cells, and what the reference sees of it. Kind: L -/
theorem Represents.split {inner : LruCacheInner K V} {cells : List (K × ℕ × V)}
    (h : Represents inner cells) {k : K} {i : ℕ} (hk : inner.map.lookup k = some i) :
    ∃ l₁ l₂ v, cells = l₁ ++ (k, i, v) :: l₂ ∧ k ∉ (l₁ ++ l₂).map Prod.fst ∧
      LruReference.find (pairsOf cells) k = some v ∧
      LruReference.without (pairsOf cells) k = pairsOf (l₁ ++ l₂) := by
  obtain ⟨v, hmem⟩ := (h.mapped k i).mp hk
  obtain ⟨l₁, l₂, rfl⟩ := List.append_of_mem hmem
  have hkeys := h.keys
  have hperm : ((l₁ ++ (k, i, v) :: l₂).map Prod.fst).Perm
      (((k, i, v) :: (l₁ ++ l₂)).map Prod.fst) := List.perm_middle.map _
  have hnot : k ∉ (l₁ ++ l₂).map Prod.fst := (List.nodup_cons.mp (hperm.nodup_iff.mp hkeys)).1
  have hnot' := hnot
  rw [List.map_append, List.mem_append, not_or] at hnot'
  have hpairs : pairsOf (l₁ ++ (k, i, v) :: l₂) = pairsOf l₁ ++ (k, v) :: pairsOf l₂ :=
    List.map_append
  have hfind₁ := find_pairsOf_of_notMem hnot'.1
  unfold LruReference.find at hfind₁
  rw [Option.map_eq_none_iff] at hfind₁
  refine ⟨l₁, l₂, v, rfl, hnot, ?_, ?_⟩
  · rw [hpairs]
    unfold LruReference.find
    rw [List.find?_append, hfind₁]
    simp
  · rw [hpairs]
    have h₁ := without_pairsOf_of_notMem hnot'.1
    have h₂ := without_pairsOf_of_notMem hnot'.2
    unfold LruReference.without at h₁ h₂ ⊢
    rw [List.filter_append, List.filter_cons_of_neg (by simp), h₁, h₂]
    exact List.map_append.symm

/-- A new cache is the empty one. Kind: L -/
theorem represents_new (capacity : ℕ) :
    Represents (LruCache.new capacity : LruCacheInner K V) [] where
  stored := ⟨⟨List.nodup_nil, trivial, rfl, rfl⟩, List.nodup_nil, nofun, nofun, rfl⟩
  keys := List.nodup_nil
  mapped _ _ := iff_of_false nofun nofun
  bound := Nat.zero_le _
  capacity_pos := Nat.lt_of_lt_of_le Nat.one_pos (Nat.le_max_right _ _)

/-- Changing the counters changes nothing that is represented. Kind: L -/
theorem Represents.withCounters {inner : LruCacheInner K V} {cells : List (K × ℕ × V)}
    (h : Represents inner cells) (hits misses : UInt64) :
    Represents { inner with hits := hits, misses := misses } cells :=
  ⟨⟨h.stored.chained, h.stored.freeNodup, h.stored.free, h.stored.live, h.stored.size⟩, h.keys,
    h.mapped, h.bound, h.capacity_pos⟩

/-- Moving the entry of a key to the front. Kind: L -/
theorem Represents.moveToFront {inner : LruCacheInner K V} {l₁ l₂ : List (K × ℕ × V)} {k : K}
    {i : ℕ} {v : V} (h : Represents inner (l₁ ++ (k, i, v) :: l₂)) :
    ∃ inner' : LruCacheInner K V, inner.moveToFront i = some inner' ∧
      Represents inner' ((k, i, v) :: (l₁ ++ l₂)) ∧ inner'.capacity = inner.capacity ∧
      ∃ n, inner'.entries[i]? = some (some n) ∧ n.value = v := by
  have hstored := h.stored
  rw [List.map_append] at hstored
  obtain ⟨entries, head, tail, hmove, hstored'⟩ := moveToFront_spec hstored
  refine ⟨_, hmove, ⟨?_, ?_, ?_, ?_, h.capacity_pos⟩, rfl, _, hstored'.chained.segment.1, rfl⟩
  · rw [List.map_cons, List.map_append]
    exact hstored'
  · exact (List.perm_middle.map Prod.fst).nodup_iff.mp h.keys
  · exact h.mapped.perm List.perm_middle
  · exact List.perm_middle.length_eq ▸ h.bound

/-- Changing the value of a key. Kind: L -/
theorem Represents.setValue {inner : LruCacheInner K V} {l₁ l₂ : List (K × ℕ × V)} {k : K}
    {i : ℕ} {v : V} (h : Represents inner (l₁ ++ (k, i, v) :: l₂)) (v' : V) :
    Represents { inner with
      entries := inner.entries.update i fun entry => { entry with value := v' } }
      (l₁ ++ (k, i, v') :: l₂) := by
  have hstored := h.stored
  have hkeys := h.keys
  have hbound := h.bound
  rw [List.map_append] at hstored hkeys
  rw [List.length_append] at hbound
  refine ⟨?_, ?_, ?_, ?_, h.capacity_pos⟩
  · rw [List.map_append]
    exact setValue_spec hstored v'
  · rw [List.map_append]
    exact hkeys
  · -- the map knows the index only
    intro k' i'
    rw [h.mapped k' i']
    simp only [List.mem_append, List.mem_cons, Prod.mk.injEq, exists_or, exists_and_left,
      exists_eq, and_true]
  · rw [List.length_append]
    exact hbound

/-- Taking the entry of a key, with the key gone from the map. Kind: L -/
theorem Represents.takeEntry {inner : LruCacheInner K V} {l₁ l₂ : List (K × ℕ × V)} {k : K}
    {i : ℕ} {v : V} (h : Represents inner (l₁ ++ (k, i, v) :: l₂)) (map₀ map : HashMap K ℕ)
    (hmap : Mapped map (l₁ ++ l₂)) :
    ∃ inner' : LruCacheInner K V,
      { inner with map := map₀ }.takeEntry i = some ({ inner' with map := map₀ }, some v) ∧
      Represents { inner' with map := map } (l₁ ++ l₂) ∧
      inner'.capacity = inner.capacity := by
  have hstored : Stored { inner with map := map₀ }
      (l₁.map Prod.snd ++ (i, v) :: l₂.map Prod.snd) := by
    have := h.stored
    rw [List.map_append] at this
    exact ⟨this.chained, this.freeNodup, this.free, this.live, this.size⟩
  obtain ⟨entries, head, tail, freeList, size, htake, hstored'⟩ := takeEntry_spec hstored
  refine ⟨{ inner with
      entries := entries, head := head, tail := tail, freeList := freeList, size := size },
    htake, ⟨?_, ?_, hmap, ?_, h.capacity_pos⟩, rfl⟩
  · rw [List.map_append]
    exact ⟨hstored'.chained, hstored'.freeNodup, hstored'.free, hstored'.live, hstored'.size⟩
  · have hkeys := (List.perm_middle.map Prod.fst).nodup_iff.mp h.keys
    exact (List.nodup_cons.mp hkeys).2
  · have hbound := h.bound
    rw [List.perm_middle.length_eq, List.length_cons] at hbound
    exact Nat.le_of_succ_le hbound

end LruCacheInner

namespace LruCache

open LruCacheInner

variable [DecidableEq K]

/-- A call ends without a panic in a state and with a result that are those of the reference.
Kind: D -/
def Refines {α : Type} (capacity : ℕ) (result : Option (LruCacheInner K V × α))
    (reference : List (K × V) × α) : Prop :=
  ∃ inner cells out, result = some (inner, out) ∧ Represents inner cells ∧
    inner.capacity = capacity ∧ reference = (pairsOf cells, out)

/-- An operation refines the reference after its outputs are wrapped as well. Kind: L -/
theorem Refines.map {α β : Type} {capacity : ℕ} {result : Option (LruCacheInner K V × α)}
    {reference : List (K × V) × α} (h : Refines capacity result reference) (f : α → β) :
    Refines capacity (result.map (Prod.map id f)) (reference.map id f) := by
  obtain ⟨inner, cells, out, rfl, hrep, hcap, rfl⟩ := h
  exact ⟨inner, cells, f out, rfl, hrep, hcap, rfl⟩

/-- `get` returns what the reference returns and moves the key in front as it does. Kind: L -/
theorem get_refines {inner : LruCacheInner K V} {cells : List (K × ℕ × V)}
    (h : Represents inner cells) (key : K) :
    Refines inner.capacity (get inner key) (LruReference.get (pairsOf cells) key) := by
  unfold get LruReference.get
  cases hkey : inner.map.lookup key with
  | none =>
      refine ⟨_, cells, none, rfl, h.withCounters inner.hits (inner.misses + 1), rfl, ?_⟩
      rw [find_pairsOf_of_notMem (h.mapped.notMem hkey)]
  | some idx =>
      obtain ⟨l₁, l₂, v, rfl, -, hfind, hwithout⟩ := h.split hkey
      obtain ⟨inner', hmove, h', hcap, n, hn, rfl⟩ :=
        (h.withCounters (inner.hits + 1) inner.misses).moveToFront
      refine ⟨inner', _, some n.value, ?_, h', hcap, ?_⟩
      · simp only [hmove, hn, Option.bind_eq_bind, Option.bind_some, Option.map_some]
      · rw [hfind, hwithout]
        rfl

/-- `remove` returns what the reference returns and drops the key as it does. Kind: L -/
theorem remove_refines {inner : LruCacheInner K V} {cells : List (K × ℕ × V)}
    (h : Represents inner cells) (key : K) :
    Refines inner.capacity (remove inner key) (LruReference.remove (pairsOf cells) key) := by
  unfold remove LruReference.remove
  cases hkey : inner.map.lookup key with
  | none =>
      have hnot := h.mapped.notMem hkey
      refine ⟨inner, cells, none, rfl, h, rfl, ?_⟩
      rw [find_pairsOf_of_notMem hnot, without_pairsOf_of_notMem hnot]
  | some idx =>
      obtain ⟨l₁, l₂, v, rfl, hnot, hfind, hwithout⟩ := h.split hkey
      have hmap : Mapped (inner.map.erase key) (l₁ ++ l₂) :=
        (h.mapped.perm List.perm_middle).erase hnot
      obtain ⟨inner', htake, h', hcap⟩ := h.takeEntry (inner.map.erase key) _ hmap
      refine ⟨_, _, some v, htake, h', hcap, ?_⟩
      rw [hfind, hwithout]

/-- A new entry in front of a cache that is not full. Kind: L -/
theorem putNew_spec {inner : LruCacheInner K V} {cells : List (K × ℕ × V)}
    (h : Represents inner cells) {key : K} (hkey : key ∉ cells.map Prod.fst) (value : V)
    (hroom : cells.length < inner.capacity) :
    ∃ inner' i, putNew inner key value = some inner' ∧
      Represents inner' ((key, i, value) :: cells) ∧ inner'.capacity = inner.capacity := by
  obtain ⟨entries, freeList, i, halloc, hnode, hnew, hother, hfreeNodup, hfree⟩ :=
    allocateEntry_spec h.stored value
  have hchained : Chained entries inner.head inner.tail (cells.map Prod.snd) := by
    refine ⟨h.stored.chained.nodup, ?_, h.stored.chained.head_eq, h.stored.chained.tail_eq⟩
    refine segment_congr h.stored.chained.segment fun j hj => hother j ?_
    rintro rfl
    exact hnew hj
  have hshape : ∀ j, i ≠ j → entries.shape[j]? = inner.entries.shape[j]? := by
    intro j hj
    unfold shape
    rw [List.getElem?_map, List.getElem?_map, hother j hj]
  have hadd :
      LruCacheInner.addToFront
        { inner with
          entries := entries
          freeList := freeList
          map := inner.map.insert key i } i = some _ :=
    addToFront_eq hchained hnode
  refine ⟨{ inner with
      map := inner.map.insert key i
      entries := entries.pushFront i (firstOf (cells.map Prod.snd) none)
      freeList := freeList
      head := some i
      tail := lastOf none ((i, value) :: cells.map Prod.snd)
      size := inner.size + 1 }, i, ?_,
    ⟨⟨chained_pushFront hchained hnode hnew, hfreeNodup, ?_, ?_, ?_⟩, ?_, ?_, hroom,
      h.capacity_pos⟩, rfl⟩
  · unfold putNew
    rw [halloc]
    simp only [Option.bind_eq_bind, Option.bind_some]
    rw [hadd]
    rfl
  · intro j hj
    rw [shape_pushFront, hshape j (hfree j hj).1]
    exact h.stored.free j (hfree j hj).2
  · intro j hj
    rw [shape_pushFront] at hj
    by_cases hij : i = j
    · subst hij
      exact List.mem_cons_self
    · rw [hshape j hij] at hj
      exact List.mem_cons_of_mem _ (h.stored.live j hj)
  · show inner.size + 1 = _
    rw [h.stored.size]
    rfl
  · exact List.nodup_cons.mpr ⟨hkey, h.keys⟩
  · exact h.mapped.insert hkey i value

/-- At capacity the last pair makes room. Kind: L -/
theorem evictLru_spec {inner : LruCacheInner K V} {cells : List (K × ℕ × V)}
    (h : Represents inner cells) (hfull : inner.capacity ≤ cells.length) :
    ∃ inner' cells', inner.evictLru =
        some (inner', (pairsOf cells).getLast?.map Prod.snd) ∧
      Represents inner' cells' ∧ inner'.capacity = inner.capacity ∧
      cells'.length < inner'.capacity ∧ pairsOf cells' = (pairsOf cells).dropLast ∧
      cells'.Sublist cells := by
  have hpos := h.capacity_pos
  rcases List.eq_nil_or_concat cells with rfl | ⟨cells', ⟨k, i, v⟩, rfl⟩
  · exact absurd hfull (Nat.not_le.mpr hpos)
  rw [List.concat_eq_append] at h hfull ⊢
  have htail : inner.tail = some i := by
    rw [h.stored.chained.tail_eq, List.map_append, lastOf_append]
    rfl
  have hnew : i ∉ (cells'.map Prod.snd).map Prod.fst := by
    have hnodup := h.stored.chained.nodup
    rw [List.map_append] at hnodup
    have := (nodup_of_middle hnodup).2
    rwa [List.map_nil, List.append_nil] at this
  have hmap : Mapped (retainOther inner.map i) (cells' ++ []) := by
    rw [List.append_nil]
    exact (h.mapped.perm (List.perm_append_singleton _ _)).retainOther hnew
  obtain ⟨inner', htake, h', hcap⟩ := h.takeEntry inner.map _ hmap
  rw [List.append_nil] at h'
  have hpairs : pairsOf (cells' ++ [(k, i, v)]) = pairsOf cells' ++ [(k, v)] := List.map_append
  refine ⟨_, cells', ?_, h', hcap, ?_, ?_, List.sublist_append_left _ _⟩
  · unfold evictLru
    rw [htail]
    simp only [show inner.takeEntry i = _ from htake, Option.bind_eq_bind, Option.bind_some]
    rw [hpairs, List.getLast?_concat]
    rfl
  · have hbound := h.bound
    rw [List.length_append] at hbound
    show cells'.length < inner'.capacity
    rw [hcap]
    exact hbound
  · rw [hpairs, List.dropLast_concat]

/-- `put` returns what the reference returns, with the same eviction. Kind: L -/
theorem put_refines {inner : LruCacheInner K V} {cells : List (K × ℕ × V)}
    (h : Represents inner cells) (key : K) (value : V) :
    Refines inner.capacity (put inner key value)
      (LruReference.put inner.capacity (pairsOf cells) key value) := by
  have hlen : (pairsOf cells).length = cells.length := List.length_map ..
  have hsize : inner.size = cells.length := by
    rw [h.stored.size, List.length_map]
  unfold put LruReference.put
  cases hkey : inner.map.lookup key with
  | some idx =>
      obtain ⟨l₁, l₂, v, rfl, -, hfind, hwithout⟩ := h.split hkey
      have hset : Represents { inner with
          entries := inner.entries.update idx fun entry => { entry with value := value } }
          (l₁ ++ (key, idx, value) :: l₂) := h.setValue value
      obtain ⟨inner', hmove, h', hcap, -⟩ := hset.moveToFront
      have hstored := h.stored
      rw [List.map_append] at hstored
      have hnode := hstored.chained.node
      refine ⟨inner', _, some v, ?_, h', hcap, ?_⟩
      · simp only [show inner.entries[idx]? = _ from hnode, Option.bind_eq_bind, Option.bind_some,
          modifyEntry_of_node hnode, hmove, Option.map_some]
      · rw [hfind, hwithout]
        rfl
  | none =>
      have hnot := h.mapped.notMem hkey
      rw [find_pairsOf_of_notMem hnot, hlen, hsize]
      by_cases hfull : inner.capacity ≤ cells.length
      · obtain ⟨inner₁, cells₁, hevict, h₁, hcap₁, hroom, hpairs, hsub⟩ := evictLru_spec h hfull
        have hnot₁ : key ∉ cells₁.map Prod.fst := fun hmem => hnot ((hsub.map _).subset hmem)
        obtain ⟨inner', i, hput, h', hcap⟩ := putNew_spec h₁ hnot₁ value hroom
        refine ⟨inner', _, (pairsOf cells).getLast?.map Prod.snd, ?_, h', hcap.trans hcap₁, ?_⟩
        · simp only [if_pos hfull, hevict, Option.bind_eq_bind, Option.bind_some, hput]
        · simp only [if_pos hfull, ← hpairs]
          rfl
      · obtain ⟨inner', i, hput, h', hcap⟩ := putNew_spec h hnot value (Nat.not_le.mp hfull)
        refine ⟨inner', _, none, ?_, h', hcap, ?_⟩
        · simp only [if_neg hfull, Option.bind_eq_bind, Option.bind_some, hput]
        · simp only [if_neg hfull]
          rfl

/-! ### Runs -/

/-- **One call does what the reference does.** Kind: L -/
theorem step_refines {inner : LruCacheInner K V} {cells : List (K × ℕ × V)}
    (h : Represents inner cells) (op : CacheOp K V) :
    Refines inner.capacity (step inner op)
      (LruReference.step inner.capacity (pairsOf cells) op) := by
  cases op with
  | get key => exact (get_refines h key).map _
  | put key value => exact (put_refines h key value).map _
  | remove key => exact (remove_refines h key).map _
  | contains key =>
      refine ⟨inner, cells, _, rfl, h, rfl, ?_⟩
      show (pairsOf cells, CacheOutput.found (LruReference.find (pairsOf cells) key).isSome) =
        (pairsOf cells, .found (inner.map.lookup key).isSome)
      cases hkey : inner.map.lookup key with
      | none =>
          rw [find_pairsOf_of_notMem (h.mapped.notMem hkey)]
          rfl
      | some idx =>
          obtain ⟨l₁, l₂, v, rfl, -, hfind, -⟩ := h.split hkey
          rw [hfind]
          rfl
  | clear =>
      refine ⟨clear inner, [], .cleared, rfl, ?_, rfl, rfl⟩
      have hnew := represents_new (K := K) (V := V) inner.capacity
      exact ⟨⟨⟨List.nodup_nil, trivial, rfl, rfl⟩, List.nodup_nil, nofun, nofun, rfl⟩, hnew.keys,
        hnew.mapped, Nat.zero_le _, h.capacity_pos⟩

/-- An index of a slot with an entry.
Kind: D -/
def Live (inner : LruCacheInner K V) (i : ℕ) : Prop := ∃ n, inner.entries[i]? = some (some n)

/-- Every index the cache holds points to a live entry.
Kind: D -/
structure IndexesLive (inner : LruCacheInner K V) : Prop where
  map : ∀ {k i}, inner.map.lookup k = some i → Live inner i
  head : ∀ {i}, inner.head = some i → Live inner i
  tail : ∀ {i}, inner.tail = some i → Live inner i
  prev : ∀ {i j : ℕ} {n : CacheEntry V},
    inner.entries[i]? = some (some n) → n.prev = some j → Live inner j
  next : ∀ {i j : ℕ} {n : CacheEntry V},
    inner.entries[i]? = some (some n) → n.next = some j → Live inner j

/-- In a cache that represents some cells every index is that of a live entry. Kind: L -/
theorem indexesLive_of_represents {inner : LruCacheInner K V} {cells : List (K × ℕ × V)}
    (h : Represents inner cells) : IndexesLive inner := by
  have hlive : ∀ {i}, i ∈ (cells.map Prod.snd).map Prod.fst → Live inner i :=
    fun hi => h.stored.chained.exists_node hi
  -- a live entry is the node of a cell, and its neighbours are cells
  have hnode : ∀ {i : ℕ} {n : CacheEntry V}, inner.entries[i]? = some (some n) → ∃ l₁ l₂ cell,
      cells.map Prod.snd = l₁ ++ cell :: l₂ ∧ n.prev = lastOf none l₁ ∧
        n.next = firstOf l₂ none := by
    intro i n hn
    obtain ⟨cell, hcell, rfl⟩ :=
      List.mem_map.mp (h.stored.live i (getElem?_shape_eq_true.mpr ⟨n, hn⟩))
    obtain ⟨l₁, l₂, hsplit, hcell⟩ := exists_node_of_mem h.stored.chained.segment hcell
    rw [hn] at hcell
    cases hcell
    exact ⟨l₁, l₂, cell, hsplit, rfl, rfl⟩
  refine ⟨?_, ?_, ?_, ?_, ?_⟩
  · intro k i hk
    obtain ⟨v, hmem⟩ := (h.mapped k i).mp hk
    exact hlive (List.mem_map.mpr ⟨(i, v), List.mem_map_of_mem hmem, rfl⟩)
  · intro i hi
    rw [h.stored.chained.head_eq] at hi
    exact hlive (mem_of_firstOf hi)
  · intro i hi
    rw [h.stored.chained.tail_eq] at hi
    exact hlive (mem_of_lastOf hi)
  · intro i j n hn hj
    obtain ⟨l₁, l₂, cell, hsplit, hprev, -⟩ := hnode hn
    apply hlive
    rw [hsplit, List.map_append]
    exact List.mem_append_left _ (mem_of_lastOf (hprev.symm.trans hj))
  · intro i j n hn hj
    obtain ⟨l₁, l₂, cell, hsplit, -, hnext⟩ := hnode hn
    apply hlive
    rw [hsplit, List.map_append]
    exact List.mem_append_right _
      (List.mem_cons_of_mem _ (mem_of_firstOf (hnext.symm.trans hj)))

/-- A run returns what the reference returns, call by call. Kind: L -/
theorem run_refines {inner : LruCacheInner K V} {cells : List (K × ℕ × V)}
    (h : Represents inner cells) (ops : List (CacheOp K V)) :
    Refines inner.capacity (run inner ops)
      (LruReference.run inner.capacity (pairsOf cells) ops) := by
  induction ops generalizing inner cells with
  | nil => exact ⟨inner, cells, [], rfl, h, rfl, rfl⟩
  | cons op ops ih =>
      obtain ⟨inner₁, cells₁, out, hstep, h₁, hcap₁, href⟩ := step_refines h op
      obtain ⟨final, cells', outs, hrun, h', hcap, href'⟩ := ih h₁
      rw [hcap₁] at hcap href'
      refine ⟨final, cells', (out, cells₁.length) :: outs, ?_, h', hcap, ?_⟩
      · have hlen : len inner₁ = cells₁.length := h₁.stored.size.trans (List.length_map ..)
        unfold run
        simp only [hstep, hrun, Option.bind_eq_bind, Option.bind_some, hlen]
      · unfold LruReference.run
        simp only [href, href']
        rw [show (pairsOf cells₁).length = cells₁.length from List.length_map ..]

/-- **The cache is a list of pairs ordered by their last use.** Every result and every length of a
run is that of the reference; no index is out of bounds or leads to a freed entry.
Source: `storage/cache.rs`, `LruCache`
Kind: P -/
theorem run_refines_reference (capacity : ℕ) (ops : List (CacheOp K V)) :
    let reference := LruReference.run (max capacity 1) [] ops
    reference.1.length ≤ max capacity 1 ∧
      ∃ inner, run (new capacity) ops = some (inner, reference.2) ∧
        len inner = reference.1.length ∧ IndexesLive inner := by
  obtain ⟨inner, cells, outs, hrun, h, hcap, href⟩ :=
    run_refines (represents_new (K := K) (V := V) capacity) ops
  have href' : LruReference.run (max capacity 1) [] ops = (pairsOf cells, outs) := href
  have hlen : (pairsOf cells).length = cells.length := List.length_map ..
  rw [href']
  refine ⟨?_, inner, hrun, ?_, indexesLive_of_represents h⟩
  · rw [hlen]
    exact h.bound.trans_eq hcap
  · rw [hlen]
    exact h.stored.size.trans (List.length_map ..)

-- `test_access_updates_lru`: the value that was read last is not the one that is dropped
example : (run (new 3) [.put 1 1, .put 2 2, .put 3 3, .get 1, .put 4 4, .get 2, .get 1] :
    Option (LruCacheInner ℕ ℕ × _)).map Prod.snd =
    some [(.value none, 1), (.value none, 2), (.value none, 3), (.value (some 1), 3),
      (.value (some 2), 3), (.value none, 3), (.value (some 1), 3)] := by
  decide

end LruCache

end Ryther
