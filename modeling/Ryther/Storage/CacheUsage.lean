import Ryther.Storage.Cache

/-!
# What the LRU cache uses and counts

`src/storage/cache.rs`: the slots a cache takes up and its statistics. Pointer updates change
neither, so every call is a small change of six numbers.

* `CacheUsage` — the slots, the free ones, the size, the capacity and the counters.
* `LruCacheInner.usage_allocateEntry`, `usage_takeEntry`, … — what each part of a call does to them.
* `CacheUsage.Tight` — there are as many slots as entries and free slots together, and no more than
  the capacity.
* `LruCache.live_iff_notMem` — so every slot holds an entry or is on the free list.
* `LruCache.slots_and_stats` — a cache never takes up more slots than its capacity, whatever was
  put, evicted, removed and put again, and its statistics count the calls of `get`.
-/

namespace Ryther

open Lib Lib.Slots

variable {K V : Type}

/-! ### Usage -/

/-- The figures that a cache reports.
Source: `storage/cache.rs`, `CacheStats`
Kind: D -/
structure CacheStats where
  size : ℕ
  capacity : ℕ
  hits : UInt64
  misses : UInt64
  deriving DecidableEq

/-- The statistics of a cache with its slots and how many of them are free.
Kind: D -/
structure CacheUsage extends CacheStats where
  slots : ℕ
  free : ℕ

namespace CacheUsage

/-- A slot for a new entry: a free one, or one more.
Kind: D -/
def allocate (u : CacheUsage) : CacheUsage :=
  if 0 < u.free then { u with free := u.free - 1, size := u.size + 1 }
  else { u with slots := u.slots + 1, size := u.size + 1 }

/-- The slot of an entry becomes free.
Kind: D -/
def release (u : CacheUsage) : CacheUsage := { u with free := u.free + 1, size := u.size - 1 }

/-- There are as many slots as entries and free slots together, and no more than the capacity.
Kind: D -/
structure Tight (u : CacheUsage) : Prop where
  slots_eq : u.slots = u.size + u.free
  slots_le : u.slots ≤ u.capacity

/-- What only calls of `get` change.
Kind: D -/
def counters (u : CacheUsage) : ℕ × UInt64 × UInt64 := (u.capacity, u.hits, u.misses)

/-- Taking a slot counts no call. Kind: L -/
theorem counters_allocate (u : CacheUsage) : u.allocate.counters = u.counters := by
  unfold allocate
  split_ifs <;> rfl

/-- Taking a slot where there is room takes a free one first, so no slot is wasted. Kind: L -/
theorem Tight.allocate {u : CacheUsage} (h : u.Tight) (hroom : u.size < u.capacity) :
    u.allocate.Tight := by
  obtain ⟨hslots, hle⟩ := h
  unfold CacheUsage.allocate
  split_ifs with hfree
  · refine ⟨?_, hle⟩
    show u.slots = u.size + 1 + (u.free - 1)
    omega
  · -- without a free slot all of them are in use
    refine ⟨?_, ?_⟩
    · show u.slots + 1 = u.size + 1 + u.free
      omega
    · show u.slots + 1 ≤ u.capacity
      omega

/-- A released slot goes to the free list. Kind: L -/
theorem Tight.release {u : CacheUsage} (h : u.Tight) (hpos : 0 < u.size) : u.release.Tight := by
  obtain ⟨hslots, hle⟩ := h
  refine ⟨?_, hle⟩
  show u.slots = u.size - 1 + (u.free + 1)
  omega

end CacheUsage

namespace LruCacheInner

/-- The use that a cache makes of its slots, and its counters. Kind: D -/
def usage (inner : LruCacheInner K V) : CacheUsage where
  size := inner.size
  capacity := inner.capacity
  hits := inner.hits
  misses := inner.misses
  slots := inner.entries.length
  free := inner.freeList.length

/-! ### What the parts of a call use -/

/-- Changing an entry takes and releases no slot. Kind: L -/
theorem usage_modifyEntry {inner inner' : LruCacheInner K V} {idx : ℕ}
    {f : CacheEntry V → CacheEntry V} (h : inner.modifyEntry idx f = some inner') :
    inner'.usage = inner.usage := by
  unfold modifyEntry at h
  split_ifs at h
  obtain rfl := Option.some.inj h
  simp [usage, update]

theorem usage_linkOldHead {inner inner' : LruCacheInner K V} {idx : ℕ}
    (h : inner.linkOldHead idx = some inner') : inner'.usage = inner.usage := by
  unfold linkOldHead at h
  rcases hhead : inner.head with _ | oldHead
  · rw [hhead] at h
    rw [← Option.some.inj h]
  · rw [hhead] at h
    exact usage_modifyEntry h

/-- Adding an entry to the chain takes and releases no slot. Kind: L -/
theorem usage_addToFront {inner inner' : LruCacheInner K V} {idx : ℕ}
    (h : inner.addToFront idx = some inner') : inner'.usage = inner.usage := by
  unfold addToFront at h
  obtain ⟨inner₁, h₁, h⟩ := Option.bind_eq_some_iff.mp h
  obtain ⟨inner₂, h₂, h⟩ := Option.bind_eq_some_iff.mp h
  rw [← usage_modifyEntry h₁, ← usage_linkOldHead h₂, ← Option.some.inj h]
  rfl

theorem usage_linkPrev {inner inner' : LruCacheInner K V} {prev next : Option ℕ}
    (h : inner.linkPrev prev next = some inner') : inner'.usage = inner.usage := by
  rcases prev with _ | prevIdx
  · rw [← Option.some.inj h]
    rfl
  · exact usage_modifyEntry h

theorem usage_linkNext {inner inner' : LruCacheInner K V} {prev next : Option ℕ}
    (h : inner.linkNext prev next = some inner') : inner'.usage = inner.usage := by
  rcases next with _ | nextIdx
  · rw [← Option.some.inj h]
    rfl
  · exact usage_modifyEntry h

/-- Removing an entry from the chain takes and releases no slot. Kind: L -/
theorem usage_removeFromList {inner inner' : LruCacheInner K V} {idx : ℕ}
    (h : inner.removeFromList idx = some inner') : inner'.usage = inner.usage := by
  unfold removeFromList at h
  obtain ⟨entry, -, h⟩ := Option.bind_eq_some_iff.mp h
  rcases entry with _ | ⟨_, prev, next⟩
  · rw [← Option.some.inj h]
  · obtain ⟨inner₁, h₁, h₂⟩ := Option.bind_eq_some_iff.mp h
    exact (usage_linkNext h₂).trans (usage_linkPrev h₁)

/-- Moving an entry in front takes and releases no slot. Kind: L -/
theorem usage_moveToFront {inner inner' : LruCacheInner K V} {idx : ℕ}
    (h : inner.moveToFront idx = some inner') : inner'.usage = inner.usage := by
  unfold moveToFront at h
  split_ifs at h
  · rw [← Option.some.inj h]
  · obtain ⟨inner₁, h₁, h₂⟩ := Option.bind_eq_some_iff.mp h
    exact (usage_addToFront h₂).trans (usage_removeFromList h₁)

/-- Taking an entry out releases its slot. Kind: L -/
theorem usage_takeEntry {inner inner' : LruCacheInner K V} {idx : ℕ} {value : Option V}
    (h : inner.takeEntry idx = some (inner', value)) : inner'.usage = inner.usage.release := by
  unfold takeEntry at h
  obtain ⟨inner₁, h₁, h⟩ := Option.bind_eq_some_iff.mp h
  obtain ⟨entry, -, h⟩ := Option.bind_eq_some_iff.mp h
  obtain ⟨rfl, -⟩ := Prod.mk.inj (Option.some.inj h)
  rw [← usage_removeFromList h₁]
  simp [usage, CacheUsage.release]

/-- An eviction releases the slot of the last entry. Kind: L -/
theorem usage_evictLru {inner inner' : LruCacheInner K V} {value : Option V} {tailIdx : ℕ}
    (htail : inner.tail = some tailIdx) (h : inner.evictLru = some (inner', value)) :
    inner'.usage = inner.usage.release := by
  unfold evictLru at h
  rw [htail] at h
  obtain ⟨⟨inner₁, value₁⟩, h₁, h⟩ := Option.bind_eq_some_iff.mp h
  obtain ⟨rfl, -⟩ := Prod.mk.inj (Option.some.inj h)
  rw [← usage_takeEntry h₁]
  rfl

/-- The size is changed after the entry is linked. Kind: L -/
theorem usage_allocateEntry {inner inner' : LruCacheInner K V} {value : V} {idx : ℕ}
    (h : inner.allocateEntry value = some (inner', idx)) :
    { inner'.usage with size := inner'.size + 1 } = inner.usage.allocate := by
  unfold allocateEntry at h
  unfold CacheUsage.allocate
  rcases hfree : inner.freeList with _ | ⟨i, freeList⟩
  · rw [hfree] at h
    obtain ⟨rfl, -⟩ := Prod.mk.inj (Option.some.inj h)
    simp [usage, hfree]
  · simp only [hfree] at h
    split_ifs at h
    obtain ⟨rfl, -⟩ := Prod.mk.inj (Option.some.inj h)
    simp [usage, hfree]

end LruCacheInner

namespace LruCache

open LruCacheInner

/-! ### What the calls use and count -/

/-- The present figures of a cache.
Source: `storage/cache.rs`, `LruCache::stats`
Kind: D -/
def stats (inner : LruCacheInner K V) : CacheStats :=
  ⟨inner.size, inner.capacity, inner.hits, inner.misses⟩

/-- A call of `get` that returned a value.
Kind: D -/
def isHit : CacheOp K V × CacheOutput V → Bool
  | (.get _, .value v) => v.isSome
  | _ => false

/-- A call of `get` that returned none.
Kind: D -/
def isMiss : CacheOp K V × CacheOutput V → Bool
  | (.get _, .value v) => v.isNone
  | _ => false

/-- The usage after a call, from the usage before it and the call with what it returned: one of the
counters, and the slots.
Kind: D -/
structure Uses (u u' : CacheUsage) (call : CacheOp K V × CacheOutput V) : Prop where
  tight : u.Tight → u'.Tight
  capacity : u'.capacity = u.capacity
  hits : u'.hits = u.hits + if isHit call then 1 else 0
  misses : u'.misses = u.misses + if isMiss call then 1 else 0

/-- A call of anything but `get`. Kind: L -/
theorem Uses.of_counters {u u' : CacheUsage} {call : CacheOp K V × CacheOutput V}
    (hhit : isHit call = false) (hmiss : isMiss call = false) (hcounters : u'.counters = u.counters)
    (htight : u.Tight → u'.Tight) : Uses u u' call := by
  obtain ⟨hcapacity, hcounters⟩ := Prod.mk.inj hcounters
  obtain ⟨hhits, hmisses⟩ := Prod.mk.inj hcounters
  exact ⟨htight, hcapacity, by simp [hhit, hhits], by simp [hmiss, hmisses]⟩

variable [DecidableEq K]

/-- A new entry takes one slot. Kind: L -/
theorem usage_putNew {inner inner' : LruCacheInner K V} {key : K} {value : V}
    (h : putNew inner key value = some inner') : inner'.usage = inner.usage.allocate := by
  unfold putNew at h
  obtain ⟨⟨inner₁, idx⟩, h₁, h⟩ := Option.bind_eq_some_iff.mp h
  obtain ⟨inner₂, h₂, h⟩ := Option.bind_eq_some_iff.mp h
  have husage := usage_addToFront h₂
  change inner₂.usage = inner₁.usage at husage
  obtain rfl := Option.some.inj h
  rw [← usage_allocateEntry h₁, ← husage]
  have hsize : inner₂.size = inner₁.size := congrArg (·.size) husage
  rw [← hsize]
  rfl

/-- `get` takes no slot and counts a hit or a miss. Kind: L -/
theorem get_uses {inner inner' : LruCacheInner K V} {cells : List (K × ℕ × V)} {key : K}
    {value : Option V} (h : Represents inner cells) (hget : get inner key = some (inner', value)) :
    Uses inner.usage inner'.usage (.get (V := V) key, .value value) := by
  unfold get at hget
  rcases hkey : inner.map.lookup key with _ | idx
  · rw [hkey] at hget
    obtain ⟨rfl, rfl⟩ := Prod.mk.inj (Option.some.inj hget)
    exact ⟨fun htight => ⟨htight.1, htight.2⟩, rfl, by simp [isHit, usage], by simp [isMiss, usage]⟩
  · obtain ⟨l₁, l₂, v, rfl, -⟩ := h.split hkey
    obtain ⟨inner₁, hmove, -, -, n, hn, rfl⟩ :=
      (h.withCounters (inner.hits + 1) inner.misses).moveToFront
    have husage := usage_moveToFront hmove
    simp only [hkey, hmove, hn, Option.bind_eq_bind, Option.bind_some, Option.map_some,
      Option.some.injEq, Prod.mk.injEq] at hget
    obtain ⟨rfl, rfl⟩ := hget
    rw [husage]
    exact ⟨fun htight => ⟨htight.1, htight.2⟩, rfl, by simp [isHit, usage], by simp [isMiss, usage]⟩

/-- A cache that is not empty has a last entry. Kind: L -/
theorem exists_tail {inner : LruCacheInner K V} {cells : List (K × ℕ × V)}
    (h : Represents inner cells) (hpos : 0 < inner.size) : ∃ i, inner.tail = some i := by
  refine Option.ne_none_iff_exists'.mp ?_
  rw [h.stored.chained.tail_eq]
  rw [h.stored.size] at hpos
  rcases hcells : cells.map Prod.snd with _ | ⟨c, cells'⟩
  · rw [hcells] at hpos
    exact absurd hpos (Nat.lt_irrefl 0)
  · exact lastOf_some_ne_none c.1 cells'

/-- A call of `put` needs no slot, or one, or the slot of the entry it evicts. Kind: L -/
theorem usage_put {inner inner' : LruCacheInner K V} {cells : List (K × ℕ × V)} {key : K}
    {value : V} {old : Option V} (h : Represents inner cells)
    (hput : put inner key value = some (inner', old)) :
    inner'.usage = inner.usage ∨
      inner.size < inner.capacity ∧ inner'.usage = inner.usage.allocate ∨
      0 < inner.size ∧ inner.usage.release.size < inner.capacity ∧
        inner'.usage = inner.usage.release.allocate := by
  unfold put at hput
  rcases hkey : inner.map.lookup key with _ | idx
  · simp only [hkey] at hput
    by_cases hfull : inner.capacity ≤ inner.size
    · rw [if_pos hfull] at hput
      obtain ⟨⟨inner₁, evicted⟩, h₁, hput⟩ := Option.bind_eq_some_iff.mp hput
      obtain ⟨inner₂, h₂, hput⟩ := Option.bind_eq_some_iff.mp hput
      obtain ⟨rfl, -⟩ := Prod.mk.inj (Option.some.inj hput)
      have hpos : 0 < inner.size := Nat.lt_of_lt_of_le h.capacity_pos hfull
      have hbound : inner.size ≤ inner.capacity := by
        rw [h.stored.size, List.length_map]
        exact h.bound
      obtain ⟨tailIdx, htail⟩ := exists_tail h hpos
      refine .inr (.inr ⟨hpos, ?_, ?_⟩)
      · show inner.size - 1 < inner.capacity
        omega
      · rw [usage_putNew h₂, usage_evictLru htail h₁]
    · rw [if_neg hfull, Option.bind_eq_bind, Option.bind_some] at hput
      obtain ⟨inner₁, h₁, hput⟩ := Option.bind_eq_some_iff.mp hput
      obtain ⟨rfl, -⟩ := Prod.mk.inj (Option.some.inj hput)
      exact .inr (.inl ⟨Nat.not_le.mp hfull, usage_putNew h₁⟩)
  · rw [hkey] at hput
    obtain ⟨entry, -, hput⟩ := Option.bind_eq_some_iff.mp hput
    obtain ⟨inner₁, h₁, hput⟩ := Option.bind_eq_some_iff.mp hput
    obtain ⟨inner₂, h₂, hput⟩ := Option.bind_eq_some_iff.mp hput
    obtain ⟨rfl, -⟩ := Prod.mk.inj (Option.some.inj hput)
    exact .inl ((usage_moveToFront h₂).trans (usage_modifyEntry h₁))

/-- `remove` releases one slot or does nothing. Kind: L -/
theorem usage_remove {inner inner' : LruCacheInner K V} {cells : List (K × ℕ × V)} {key : K}
    {old : Option V} (h : Represents inner cells)
    (hremove : remove inner key = some (inner', old)) :
    inner'.usage = inner.usage ∨ 0 < inner.size ∧ inner'.usage = inner.usage.release := by
  unfold remove at hremove
  rcases hkey : inner.map.lookup key with _ | idx
  · rw [hkey] at hremove
    obtain ⟨rfl, -⟩ := Prod.mk.inj (Option.some.inj hremove)
    exact .inl rfl
  · simp only [hkey] at hremove
    have husage := usage_takeEntry hremove
    refine .inr ⟨?_, husage⟩
    obtain ⟨l₁, l₂, v, rfl, -⟩ := h.split hkey
    rw [h.stored.size]
    simp

/-- **One call of the cache.** Kind: L -/
theorem step_uses {inner inner' : LruCacheInner K V} {cells : List (K × ℕ × V)}
    {op : CacheOp K V} {out : CacheOutput V} (h : Represents inner cells)
    (hstep : step inner op = some (inner', out)) : Uses inner.usage inner'.usage (op, out) := by
  rcases op with key | ⟨key, value⟩ | key | key | _
  · obtain ⟨⟨inner₁, value⟩, hget, heq⟩ := Option.map_eq_some_iff.mp hstep
    obtain ⟨rfl, rfl⟩ := Prod.mk.inj heq
    exact get_uses h hget
  · obtain ⟨⟨inner₁, old⟩, hput, heq⟩ := Option.map_eq_some_iff.mp hstep
    obtain ⟨rfl, rfl⟩ := Prod.mk.inj heq
    rcases usage_put h hput with hsame | ⟨hroom, hnew⟩ | ⟨hpos, hroom, hnew⟩
    · exact .of_counters rfl rfl (congrArg CacheUsage.counters hsame) fun ht => hsame ▸ ht
    · refine .of_counters rfl rfl ?_ fun ht => ?_
      · exact (congrArg CacheUsage.counters hnew).trans inner.usage.counters_allocate
      · exact hnew ▸ ht.allocate hroom
    · refine .of_counters rfl rfl ?_ fun ht => ?_
      · exact (congrArg CacheUsage.counters hnew).trans inner.usage.release.counters_allocate
      · exact hnew ▸ (ht.release hpos).allocate hroom
  · obtain ⟨⟨inner₁, old⟩, hremove, heq⟩ := Option.map_eq_some_iff.mp hstep
    obtain ⟨rfl, rfl⟩ := Prod.mk.inj heq
    rcases usage_remove h hremove with hsame | ⟨hpos, hnew⟩
    · exact .of_counters rfl rfl (congrArg CacheUsage.counters hsame) fun ht => hsame ▸ ht
    · refine .of_counters rfl rfl ?_ fun ht => ?_
      · exact (congrArg CacheUsage.counters hnew).trans rfl
      · exact hnew ▸ ht.release hpos
  · obtain ⟨rfl, rfl⟩ := Prod.mk.inj (Option.some.inj hstep)
    exact .of_counters rfl rfl rfl id
  · obtain ⟨rfl, rfl⟩ := Prod.mk.inj (Option.some.inj hstep)
    exact .of_counters rfl rfl rfl fun _ => ⟨rfl, Nat.zero_le _⟩

/-- A counter that goes up by one ahead of `n` more calls. Kind: L -/
theorem add_counted (c : UInt64) (b : Bool) (n : ℕ) :
    c + (if b then 1 else 0) + UInt64.ofNat n = c + UInt64.ofNat (n + if b then 1 else 0) := by
  rcases b with _ | _
  · simp
  · rw [if_pos rfl, if_pos rfl, UInt64.ofNat_add, UInt64.add_assoc, UInt64.add_comm 1]
    rfl

/-- A run, from a cache that holds some cells. Kind: L -/
theorem run_uses {inner : LruCacheInner K V} {cells : List (K × ℕ × V)}
    (h : Represents inner cells) (ht : inner.usage.Tight) (ops : List (CacheOp K V)) :
    ∃ inner' outputs cells', run inner ops = some (inner', outputs) ∧ Represents inner' cells' ∧
      inner'.usage.Tight ∧ inner'.capacity = inner.capacity ∧
      inner'.hits = inner.hits +
        UInt64.ofNat ((ops.zip (outputs.map Prod.fst)).countP isHit) ∧
      inner'.misses = inner.misses +
        UInt64.ofNat ((ops.zip (outputs.map Prod.fst)).countP isMiss) := by
  induction ops generalizing inner cells with
  | nil => exact ⟨inner, [], cells, rfl, h, ht, rfl, by simp, by simp⟩
  | cons op ops ih =>
      obtain ⟨inner₁, cells₁, out, hstep, h₁, -, -⟩ := step_refines h op
      have huses := step_uses h hstep
      obtain ⟨inner', outputs, cells', hrun, h', ht', hcapacity, hhits, hmisses⟩ :=
        ih h₁ (huses.tight ht)
      refine ⟨inner', (out, len inner₁) :: outputs, cells', ?_, h', ht',
        hcapacity.trans huses.capacity, ?_, ?_⟩
      · simp only [run, hstep, hrun, Option.bind_eq_bind, Option.bind_some]
      · have hcount : inner₁.hits = inner.hits + if isHit (op, out) then 1 else 0 := huses.hits
        rw [hhits, hcount, List.map_cons, List.zip_cons_cons, List.countP_cons, add_counted]
      · have hcount : inner₁.misses = inner.misses + if isMiss (op, out) then 1 else 0 :=
          huses.misses
        rw [hmisses, hcount, List.map_cons, List.zip_cons_cons, List.countP_cons, add_counted]

/-- **Every slot holds an entry or is on the free list, and none does both.** The indices of the
entries and the free list have no repetition and no common index, and together they are as many as
the slots. Kind: P -/
theorem live_iff_notMem {inner : LruCacheInner K V} {cells : List (K × ℕ × V)}
    (h : Represents inner cells) (ht : inner.usage.Tight) {i : ℕ}
    (hi : i < inner.entries.length) : Live inner i ↔ i ∉ inner.freeList := by
  have hlength : inner.entries.length = inner.size + inner.freeList.length := ht.slots_eq
  have hbound : ∀ {j b}, inner.entries.shape[j]? = some b → j < inner.entries.length := by
    intro j b hj
    have hlt := (List.getElem?_eq_some_iff.mp hj).1
    rwa [shape, List.length_map] at hlt
  -- the indices in use and the free ones, without repetition
  have hnodup : ((cells.map Prod.snd).map Prod.fst ++ inner.freeList).Nodup :=
    List.nodup_append.mpr ⟨h.stored.chained.nodup, h.stored.freeNodup, fun j hj k hk heq =>
      h.stored.notMem_freeList hj (heq ▸ hk)⟩
  have hsub : (cells.map Prod.snd).map Prod.fst ++ inner.freeList ⊆
      List.range inner.entries.length := by
    intro j hj
    rw [List.mem_range]
    rcases List.mem_append.mp hj with hlive | hfree
    · exact hbound (h.stored.slot_of_mem hlive)
    · exact hbound (h.stored.free j hfree)
  have hperm := (List.subperm_of_subset hnodup hsub).perm_of_length_le (by
    rw [List.length_range, List.length_append, List.length_map, hlength, h.stored.size])
  constructor
  · intro hlive
    exact h.stored.notMem_freeList (h.stored.live i (getElem?_shape_eq_true.mpr hlive))
  · intro hfree
    have hmem := hperm.mem_iff.mpr (List.mem_range.mpr hi)
    exact h.stored.chained.exists_node ((List.mem_append.mp hmem).resolve_right hfree)

/-- **The slots and the statistics of a cache.** After any sequence of calls on a new cache: every
slot of the vector holds an entry or is on the free list and none does both, there are never more
slots than the capacity, and the statistics are the size, the capacity and the numbers of calls of
`get` that returned a value and that returned none, modulo `2 ^ 64`; clearing the cache does not
reset them.
Kind: P -/
theorem slots_and_stats (capacity : ℕ) (ops : List (CacheOp K V)) :
    ∃ inner outputs, run (new capacity) ops = some (inner, outputs) ∧
      (∀ i < inner.entries.length, Live inner i ↔ i ∉ inner.freeList) ∧
      inner.entries.length = len inner + inner.freeList.length ∧
      inner.entries.length ≤ max capacity 1 ∧
      stats inner =
        { size := len inner
          capacity := max capacity 1
          hits := UInt64.ofNat ((ops.zip (outputs.map Prod.fst)).countP isHit)
          misses := UInt64.ofNat ((ops.zip (outputs.map Prod.fst)).countP isMiss) } := by
  obtain ⟨inner, outputs, cells, hrun, h, ht, hcapacity, hhits, hmisses⟩ :=
    run_uses (represents_new capacity) ⟨rfl, Nat.zero_le _⟩ ops
  refine ⟨inner, outputs, hrun, fun i hi => live_iff_notMem h ht hi, ht.slots_eq, ?_, ?_⟩
  · have hle : inner.entries.length ≤ inner.capacity := ht.slots_le
    rwa [hcapacity] at hle
  · unfold stats
    rw [hhits, hmisses, hcapacity]
    simp [new, len]

end LruCache

end Ryther
