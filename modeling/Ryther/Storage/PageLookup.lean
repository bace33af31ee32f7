import Mathlib.Data.List.Range
import Ryther.Storage.Page

/-!
# Which pages a store has

`src/storage/page.rs` for ids that `allocate` never returned. Offsets are products that wrap, so the
ids `k` and `k + 2 ^ 52` name the same bytes, and `exists` and `read_page` compute with different
ones.

* `PageStore.existsPage`, `pageCount` — as in the source.
* `pageSlot` — the block that an id reads.
* `PageSession.Durable.length_issued` — the file has as many blocks as ids were returned.
* `PageSession.page_lookup_exact` — after every run: what `page_count`, `exists` and `read_page`
  return for every id there is.
-/

namespace Ryther

open Lib

/-! ### Lookups -/

namespace PageStore

/-- Whether a page is cached or lies within the file; a store in memory has no file.
Source: `storage/page.rs`, `PageStore::exists`
Kind: D -/
def existsPage (store : PageStore) (id : UInt64) : Bool :=
  (store.pages.lookup id).isSome ||
    match store.file with
    | some file => decide ((id * 4096).toNat ≤ file.length)
    | none => false

/-- The number of ids that were issued.
Source: `storage/page.rs`, `PageStore::page_count`
Kind: D -/
def pageCount (store : PageStore) : ℕ := (store.nextId - 1).toNat

end PageStore

/-- The number of ids after which offsets repeat.
Kind: D -/
abbrev idPeriod : ℕ := 2 ^ 52

/-- The block at which an id is read.
Kind: D -/
def pageSlot (id : UInt64) : ℕ := (id.toNat + idPeriod - 1) % idPeriod

/-- The offset is that of the slot of the page, for every id. Kind: L -/
theorem toNat_pageOffset_eq (id : UInt64) : (pageOffset id).toNat = pageSlot id * pageSize := by
  have hlt := id.toNat_lt
  rw [pageOffset, UInt64.toNat_mul, UInt64.toNat_sub, pageSlot]
  show (2 ^ 64 - 1 + id.toNat) % 2 ^ 64 * 4096 % 2 ^ 64 = (id.toNat + 2 ^ 52 - 1) % 2 ^ 52 * 4096
  omega

/-- The product with the page size forgets all but the lower bits of the id. Kind: L -/
theorem toNat_mul_pageSize (id : UInt64) :
    (id * 4096).toNat = id.toNat % idPeriod * pageSize := by
  have hlt := id.toNat_lt
  rw [UInt64.toNat_mul]
  show id.toNat * 4096 % 2 ^ 64 = id.toNat % 2 ^ 52 * 4096
  omega

namespace PageSession

variable {session : PageSession} {blocks : List (Bytes pageSize)}

/-- There are as many blocks as issued ids. Kind: L -/
theorem Durable.length_issued (h : session.Durable blocks) :
    session.issued.length = blocks.length := by
  have hlt := h.length_lt
  have hperm : (session.issued.map UInt64.toNat).Perm (List.range' 1 blocks.length) := by
    rw [List.perm_ext_iff_of_nodup (h.nodup.map fun _ _ => UInt64.toNat_inj.mp) List.nodup_range']
    intro n
    rw [List.mem_map, List.mem_range'_1]
    constructor
    · rintro ⟨id, hid, rfl⟩
      have := (h.mem_issued id).mp hid
      omega
    · intro hn
      have htoNat : (UInt64.ofNat n).toNat = n :=
        UInt64.toNat_ofNat_of_lt' (show n < 2 ^ 64 by omega)
      refine ⟨UInt64.ofNat n, (h.mem_issued _).mpr ?_, htoNat⟩
      omega
  rw [← List.length_map UInt64.toNat, hperm.length_eq, List.length_range']

/-- There are fewer pages than a period. Kind: L -/
theorem Durable.length_lt_idPeriod (h : session.Durable blocks) : blocks.length < idPeriod := by
  have hsize : blocks.length * 4096 ≤ 2 ^ 63 - 1 := h.size
  show blocks.length < 2 ^ 52
  omega

/-- The slot of an issued id is the block that was appended for it. Kind: L -/
theorem Durable.pageSlot_of_mem (h : session.Durable blocks) {id : UInt64}
    (hid : id ∈ session.issued) : pageSlot id = id.toNat - 1 := by
  obtain ⟨hpos, hle⟩ := (h.mem_issued id).mp hid
  have hlt : blocks.length < 2 ^ 52 := h.length_lt_idPeriod
  show (id.toNat + 2 ^ 52 - 1) % 2 ^ 52 = id.toNat - 1
  omega

/-- The code takes a page to exist if the lower bits of its id do not exceed the number of blocks.
Kind: L -/
theorem Durable.existsPage_iff (h : session.Durable blocks) (id : UInt64) :
    session.store.existsPage id = true ↔ id.toNat % idPeriod ≤ blocks.length := by
  have hfile : (id * 4096).toNat ≤ (concat blocks).length ↔
      id.toNat % idPeriod ≤ blocks.length := by
    rw [toNat_mul_pageSize, length_concat]
    exact Nat.mul_le_mul_right_iff (by decide)
  unfold PageStore.existsPage
  rw [h.file, Bool.or_eq_true, decide_eq_true_iff, hfile, or_iff_right_iff_imp]
  -- a cached page was issued, so it lies within the file
  intro hcached
  obtain ⟨page, hlookup⟩ := Option.isSome_iff_exists.mp hcached
  obtain ⟨-, hle⟩ := (h.mem_issued id).mp (h.cached id page hlookup).1
  exact (Nat.mod_le _ _).trans hle

/-- An id reads the page issued for its block, if there is one. Kind: L -/
theorem Durable.readPage_eq (h : session.Durable blocks) (id : UInt64) :
    (session.store.readPage id).map (fun page => (page.id, page.data)) =
      if pageSlot id < blocks.length then
        some (id, session.written (UInt64.ofNat (pageSlot id + 1)))
      else none := by
  have hlength := h.length_lt
  rcases hlookup : session.store.pages.lookup id with _ | page
  · simp only [PageStore.readPage, hlookup, h.file, toNat_pageOffset_eq]
    split_ifs with hslot
    · have htoNat : (UInt64.ofNat (pageSlot id + 1)).toNat = pageSlot id + 1 :=
        UInt64.toNat_ofNat_of_lt' (show pageSlot id + 1 < 2 ^ 64 by omega)
      have hissued : UInt64.ofNat (pageSlot id + 1) ∈ session.issued := by
        rw [h.mem_issued, htoNat]
        omega
      have hblock := h.block _ hissued
      rw [htoNat, Nat.add_sub_cancel, List.getElem?_eq_getElem hslot] at hblock
      rw [readExact_concat hslot, Option.some.inj hblock]
      rfl
    · -- the block ends behind the file
      have hend : ¬ pageSlot id * pageSize + pageSize ≤ (concat blocks).length := by
        rw [length_concat, ← Nat.succ_mul, Nat.mul_le_mul_right_iff (by decide)]
        exact hslot
      rw [readExact, dif_neg hend]
      rfl
  · obtain ⟨hid, hpage, hdata⟩ := h.cached id page hlookup
    obtain ⟨hpos, hle⟩ := (h.mem_issued id).mp hid
    have hslot := h.pageSlot_of_mem hid
    have hsame : UInt64.ofNat (pageSlot id + 1) = id := by
      rw [hslot, Nat.sub_add_cancel hpos, UInt64.ofNat_toNat]
    rw [if_pos (by omega), hsame]
    simp only [PageStore.readPage, hlookup, Option.map_some, hpage, hdata]

/-- **What the store answers for every id.** After every run on a new file, with `n` ids returned by
`allocate`: `page_count` is `n`; `exists` holds exactly for the ids whose remainder by `2 ^ 52` is
at most `n`, in particular for 0; and `read_page` returns, under the id that was asked for, the data
last written to the issued page in the same block, which is that of `id - 1` modulo `2 ^ 52`, and
nothing if that page was not issued. Freed pages stay readable. Kind: P -/
theorem page_lookup_exact (ops : List PageOp) (hops : init.AllPermitted ops) :
    (init.run ops).store.pageCount = (init.run ops).issued.length ∧
      ∀ id, ((init.run ops).store.existsPage id = true ↔
          id.toNat % idPeriod ≤ (init.run ops).issued.length) ∧
        ((init.run ops).store.readPage id).map (fun page => (page.id, page.data)) =
          if pageSlot id < (init.run ops).issued.length then
            some (id, (init.run ops).written (UInt64.ofNat (pageSlot id + 1)))
          else none := by
  obtain ⟨blocks, h⟩ := run_durable ops durable_init hops
  rw [h.length_issued]
  refine ⟨?_, fun id => ⟨h.existsPage_iff id, h.readPage_eq id⟩⟩
  have hlt := h.length_lt
  have hnext := h.nextId
  rw [PageStore.pageCount, UInt64.toNat_sub, hnext]
  show (2 ^ 64 - 1 + (blocks.length + 1)) % 2 ^ 64 = blocks.length
  omega

/-- A page is written, freed, and read under another id; the id 0 is said to exist. Kind: P -/
theorem page_lookup_exact_alias :
    let ops := [.allocate, .writePage (Page.withData 1 (Bytes.fill pageSize 7)), .free 1]
    let other := UInt64.ofNat (idPeriod + 1)
    init.AllPermitted ops ∧ (init.run ops).store.existsPage 0 = true ∧
      ((init.run ops).store.readPage other).map (fun page => (page.id, page.data)) =
        some (other, Bytes.fill pageSize 7) := by
  intro ops other
  obtain ⟨hops, hissued⟩ : init.AllPermitted ops ∧ (init.run ops).issued = [1] := by
    decide +kernel
  obtain ⟨-, hlookup⟩ := page_lookup_exact ops hops
  have hslot : pageSlot other = 0 := by decide
  have hwritten : (init.run ops).written =
      Function.update (fun _ => Bytes.fill pageSize 0) 1 (Bytes.fill pageSize 7) := rfl
  refine ⟨hops, (hlookup 0).1.mpr (by decide), ?_⟩
  rw [(hlookup other).2, hissued, hslot, hwritten, if_pos (by decide)]
  exact congrArg (fun data => some (other, data)) (Function.update_self ..)

end PageSession

end Ryther
