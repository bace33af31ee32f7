import Ryther.Lib.BlockFile
import Ryther.Types.Basic

/-!
# The page store

`src/storage/page.rs`: pages of 4096 bytes behind a cache, with an optional file in which page `id`
lies at offset `(id - 1) * 4096`.

* `PageStore.allocate`, `readPage`, `writePage`, `free`, `flush`, `openFile` — the store. A failed
  seek or write is ignored, as in the source.
* `PageSession` — a store on a file over its whole life, together with its history: the ids that
  `allocate` returned and the data last written to each id.
* `PageSession.Durable` — the invariant: the file is the concatenation of the pages issued, the
  next id is one more than their number, and every cached page is the one in the file.
* `PageSession.run_durable` — a run keeps it; reads and fresh ids follow from it alone.

The file is the list of its bytes. Every access seeks first, so the cursor needs no model. A write
succeeds where it ends within the largest offset a file has; other failures of the file system are
not modelled.
-/

namespace Ryther

open Lib

/-! ### Pages and the store -/

/-- The bytes of a page.
Source: `storage/page.rs`, `PAGE_SIZE`
Kind: D -/
abbrev pageSize : ℕ := 4096

/-- A page with its contents and the mark that they are not yet written.
Source: `storage/page.rs`, `Page`
Kind: D -/
structure Page where
  id : UInt64
  data : Bytes pageSize
  dirty : Bool

namespace Page

/-- A page of zeros.
Source: `storage/page.rs`, `Page::new`
Kind: D -/
def new (id : UInt64) : Page where
  id := id
  data := Bytes.fill pageSize 0
  dirty := false

/-- A page as it is read from the file.
Source: `storage/page.rs`, `Page::with_data`
Kind: D -/
def withData (id : UInt64) (data : Bytes pageSize) : Page where
  id := id
  data := data
  dirty := false

/-- The page is taken to be written.
Source: `storage/page.rs`, `Page::mark_clean`
Kind: D -/
def markClean (page : Page) : Page := { page with dirty := false }

end Page

/-- The end of the largest file: offsets are signed 64-bit numbers.
Kind: D -/
def maxFileSize : ℕ := 2 ^ 63 - 1

/-- `(id - 1) * PAGE_SIZE as u64`.
Kind: D -/
def pageOffset (id : UInt64) : UInt64 := (id - 1) * 4096

/-- Whether the page `id` can be written to a file.
Kind: D -/
def PageFits (id : UInt64) : Prop := (pageOffset id).toNat + pageSize ≤ maxFileSize

instance (id : UInt64) : Decidable (PageFits id) :=
  inferInstanceAs (Decidable ((pageOffset id).toNat + pageSize ≤ maxFileSize))

/-- `seek` to the page's offset and `write_all`, both results ignored.
Kind: D -/
def writeToFile (file : List UInt8) (page : Page) : List UInt8 :=
  if PageFits page.id then writeAt 0 file (pageOffset page.id).toNat page.data.toList else file

/-- The cached pages, the next id, and the backing file.
Source: `storage/page.rs`, `PageStore`
Kind: D -/
structure PageStore where
  pages : HashMap UInt64 Page
  nextId : UInt64
  /-- The contents of the backing file, none for a store in memory. -/
  file : Option (List UInt8)

namespace PageStore

/-- A store on an existing file; the next id follows from its length.
Source: `storage/page.rs`, `PageStore::open`
Kind: D -/
def openFile (file : List UInt8) : PageStore where
  pages := ∅
  nextId := UInt64.ofNat file.length / 4096 + 1
  file := some file

/-- A new page of zeros, which is written at once.
Source: `storage/page.rs`, `PageStore::allocate`
Kind: D -/
def allocate (store : PageStore) : UInt64 × PageStore :=
  let id := store.nextId
  let page := Page.new id
  (id, {
    pages := store.pages.insert id page
    nextId := store.nextId + 1
    file := store.file.map fun file => writeToFile file page })

/-- The cached page, or else the one in the file.
Source: `storage/page.rs`, `PageStore::read_page`
Kind: D -/
def readPage (store : PageStore) (id : UInt64) : Option Page :=
  match store.pages.lookup id with
  | some page => some page
  | none =>
      match store.file with
      | some file => (readExact file (pageOffset id).toNat pageSize).map (Page.withData id)
      | none => none

/-- The page is cached and written to the file.
Source: `storage/page.rs`, `PageStore::write_page`
Kind: D -/
def writePage (store : PageStore) (page : Page) : PageStore :=
  { store with
    pages := store.pages.insert page.id page
    file := store.file.map fun file => writeToFile file page }

/-- The page leaves the cache; the file keeps it.
Source: `storage/page.rs`, `PageStore::free`
Kind: D -/
def free (store : PageStore) (id : UInt64) : Bool × PageStore :=
  ((store.pages.lookup id).isSome, { store with pages := store.pages.erase id })

/-- `for page in pages.values_mut() { page.mark_clean(); }`
Kind: D -/
def markAllClean (pages : HashMap UInt64 Page) : HashMap UInt64 Page where
  entries := pages.entries.map fun entry => ⟨entry.1, entry.2.markClean⟩
  nodupKeys := List.NodupKeys.map₂ (fun _ => Page.markClean) pages.entries pages.nodupKeys

/-- Syncing the file leaves its contents as they are.
Source: `storage/page.rs`, `PageStore::flush`
Kind: D -/
def flush (store : PageStore) : PageStore :=
  { store with pages := markAllClean store.pages }

/-- Marking the pages clean changes their marks only. Kind: L -/
theorem lookup_markAllClean (pages : HashMap UInt64 Page) (id : UInt64) :
    (markAllClean pages).lookup id = (pages.lookup id).map Page.markClean :=
  List.dlookup_map₂ (f := fun _ => Page.markClean) id

end PageStore

/-! ### Offsets -/

/-- The offset of a page within the largest file is computed without overflow. Kind: L -/
theorem toNat_pageOffset {id : UInt64} (hpos : 0 < id.toNat)
    (hfits : (id.toNat - 1) * pageSize ≤ maxFileSize) :
    (pageOffset id).toNat = (id.toNat - 1) * pageSize := by
  have hsub : (id - 1).toNat = id.toNat - 1 := by
    apply UInt64.toNat_sub_of_le
    rw [UInt64.le_iff_toNat_le]
    exact hpos
  rw [pageOffset, UInt64.toNat_mul, hsub]
  apply Nat.mod_eq_of_lt
  change (id.toNat - 1) * 4096 < 2 ^ 64
  have : maxFileSize < 2 ^ 64 := by decide
  exact hfits.trans_lt this

/-! ### A store over its life -/

/-- The calls of a run. Closing drops the store; the file stays.
Kind: D -/
inductive PageOp where
  | allocate
  | writePage (page : Page)
  | readPage (id : UInt64)
  | free (id : UInt64)
  | flush
  | reopen

/-- A store and what happened to its file so far.
Kind: D -/
structure PageSession where
  store : PageStore
  /-- The ids that `allocate` returned, also before the store was last opened. -/
  issued : List UInt64
  /-- The data last written to each id, zeros where nothing was written. -/
  written : UInt64 → Bytes pageSize

namespace PageSession

/-- A store opened on a new file.
Kind: D -/
def init : PageSession where
  store := PageStore.openFile []
  issued := []
  written := fun _ => Bytes.fill pageSize 0

/-- One call.
Kind: D -/
def step (session : PageSession) : PageOp → PageSession
  | .allocate =>
      { session with
        store := session.store.allocate.2
        issued := session.issued ++ [session.store.allocate.1] }
  | .writePage page =>
      { session with
        store := session.store.writePage page
        written := Function.update session.written page.id page.data }
  | .readPage _ => session
  | .free id => { session with store := (session.store.free id).2 }
  | .flush => { session with store := session.store.flush }
  | .reopen => { session with store := PageStore.openFile (session.store.file.getD []) }

/-- The calls in order.
Kind: D -/
def run (session : PageSession) (ops : List PageOp) : PageSession := ops.foldl step session

/-- Only pages that `allocate` returned are written, and the writes to the file succeed.
Kind: D -/
def Permitted (session : PageSession) : PageOp → Prop
  | .allocate => PageFits session.store.nextId
  | .writePage page => page.id ∈ session.issued ∧ PageFits page.id
  | _ => True

instance (session : PageSession) : (op : PageOp) → Decidable (session.Permitted op)
  | .allocate => inferInstanceAs (Decidable (PageFits _))
  | .writePage _ => inferInstanceAs (Decidable (_ ∧ _))
  | .readPage _ | .free _ | .flush | .reopen => inferInstanceAs (Decidable True)

/-- Every call of the run is permitted where it is made.
Kind: D -/
def AllPermitted (session : PageSession) : List PageOp → Prop
  | [] => True
  | op :: ops => session.Permitted op ∧ (session.step op).AllPermitted ops

instance decidableAllPermitted (session : PageSession) :
    (ops : List PageOp) → Decidable (session.AllPermitted ops)
  | [] => inferInstanceAs (Decidable True)
  | op :: ops =>
      have := decidableAllPermitted (session.step op) ops
      inferInstanceAs (Decidable (_ ∧ _))

/-! ### The invariant -/

/-- The file holds `blocks`, the pages issued so far in the order of their ids, and the cache agrees
with it.
Kind: D -/
structure Durable (session : PageSession) (blocks : List (Bytes pageSize)) : Prop where
  file : session.store.file = some (concat blocks)
  size : blocks.length * pageSize ≤ maxFileSize
  nextId : session.store.nextId.toNat = blocks.length + 1
  mem_issued : ∀ id, id ∈ session.issued ↔ 0 < id.toNat ∧ id.toNat ≤ blocks.length
  nodup : session.issued.Nodup
  block : ∀ id ∈ session.issued, blocks[id.toNat - 1]? = some (session.written id)
  unwritten : ∀ id ∉ session.issued, session.written id = Bytes.fill pageSize 0
  cached : ∀ id page, session.store.pages.lookup id = some page →
    id ∈ session.issued ∧ page.id = id ∧ page.data = session.written id

/-- In the beginning the file is empty, and no id has been issued. Kind: L -/
theorem durable_init : init.Durable [] where
  file := rfl
  size := by decide
  nextId := rfl
  mem_issued := by
    intro id
    simp only [init, List.not_mem_nil, List.length_nil, false_iff]
    omega
  nodup := List.nodup_nil
  block := by simp [init]
  unwritten := by simp [init]
  cached := by
    intro id page hlookup
    simp [init, PageStore.openFile] at hlookup

variable {session : PageSession} {blocks : List (Bytes pageSize)}

/-- There are fewer pages than a `u64` counts. Kind: L -/
theorem Durable.length_lt (h : session.Durable blocks) : blocks.length < 2 ^ 63 := by
  have hmax : maxFileSize < 2 ^ 63 := by decide
  calc blocks.length ≤ blocks.length * pageSize := Nat.le_mul_of_pos_right _ (by decide)
    _ ≤ maxFileSize := h.size
    _ < 2 ^ 63 := hmax

/-- A page issued lies at its own block. Kind: L -/
theorem Durable.offset (h : session.Durable blocks) {id : UInt64} (hid : id ∈ session.issued) :
    (pageOffset id).toNat = (id.toNat - 1) * pageSize ∧ id.toNat - 1 < blocks.length := by
  obtain ⟨hpos, hle⟩ := (h.mem_issued id).mp hid
  have hlt : id.toNat - 1 < blocks.length := by omega
  refine ⟨?_, hlt⟩
  apply toNat_pageOffset hpos
  exact (Nat.mul_le_mul_right pageSize hlt.le).trans h.size

/-- The next page lies at the end of the file. Kind: L -/
theorem Durable.offset_nextId (h : session.Durable blocks) :
    (pageOffset session.store.nextId).toNat = blocks.length * pageSize := by
  have hslot : session.store.nextId.toNat - 1 = blocks.length := by
    rw [h.nextId]
    exact Nat.add_sub_cancel _ _
  rw [← hslot]
  apply toNat_pageOffset
  · rw [h.nextId]
    exact Nat.succ_pos _
  · rw [hslot]
    exact h.size

/-- The next id was not returned before. Kind: L -/
theorem Durable.nextId_not_mem (h : session.Durable blocks) :
    session.store.nextId ∉ session.issued := by
  rw [h.mem_issued, h.nextId]
  omega

/-- An allocation appends a block of zeros. Kind: L -/
theorem Durable.allocate (h : session.Durable blocks)
    (hfits : PageFits session.store.nextId) :
    (session.step .allocate).Durable (blocks ++ [Bytes.fill pageSize 0]) := by
  have hsize : (blocks ++ [Bytes.fill pageSize 0]).length * pageSize ≤ maxFileSize := by
    rw [PageFits, h.offset_nextId] at hfits
    rw [List.length_append, List.length_singleton, Nat.add_mul, Nat.one_mul]
    exact hfits
  have hfresh := h.nextId_not_mem
  have hmem : ∀ id, id ∈ (session.step .allocate).issued
      ↔ id ∈ session.issued ∨ id = session.store.nextId := by
    intro id
    exact List.mem_append.trans (or_congr Iff.rfl List.mem_singleton)
  refine ⟨?_, hsize, ?_, ?_, ?_, ?_, ?_, ?_⟩
  · have hwrite : writeToFile (concat blocks) (Page.new session.store.nextId)
        = writeAt 0 (concat blocks) (pageOffset session.store.nextId).toNat
          (Bytes.fill pageSize 0).toList := if_pos hfits
    change session.store.file.map (writeToFile · (Page.new session.store.nextId)) = _
    rw [h.file, Option.map_some, hwrite, h.offset_nextId, writeAt_concat_append]
  · change (session.store.nextId + 1).toNat = _
    rw [UInt64.toNat_add, h.nextId, List.length_append, List.length_singleton]
    apply Nat.mod_eq_of_lt
    change blocks.length + 1 + 1 < 2 ^ 64
    have hfew := h.length_lt
    omega
  · intro id
    rw [hmem, h.mem_issued, ← UInt64.toNat_inj, h.nextId, List.length_append, List.length_singleton]
    omega
  · exact List.nodup_append.mpr ⟨h.nodup, List.nodup_singleton _, by
      intro a ha b hb
      rw [List.mem_singleton.mp hb]
      rintro rfl
      exact hfresh ha⟩
  · intro id hid
    rcases (hmem id).mp hid with hid | rfl
    · have hlt := (h.offset hid).2
      rw [List.getElem?_append_left hlt]
      exact h.block id hid
    · -- nothing was written to an id before it was issued
      change _ = some (session.written _)
      rw [h.unwritten _ hfresh, h.nextId, Nat.add_sub_cancel, List.getElem?_concat_length]
  · intro id hid
    exact h.unwritten id fun hold => hid ((hmem id).mpr (.inl hold))
  · intro id page hlookup
    rcases lookup_insert_cases hlookup with ⟨rfl, rfl⟩ | ⟨-, hlookup⟩
    · exact ⟨(hmem _).mpr (.inr rfl), rfl, (h.unwritten _ hfresh).symm⟩
    · obtain ⟨hid, hpage⟩ := h.cached id page hlookup
      exact ⟨(hmem id).mpr (.inl hid), hpage⟩

/-- A write replaces the block of its page. Kind: L -/
theorem Durable.writePage (h : session.Durable blocks) {page : Page}
    (hid : page.id ∈ session.issued) (hfits : PageFits page.id) :
    (session.step (.writePage page)).Durable (blocks.set (page.id.toNat - 1) page.data) := by
  obtain ⟨hoffset, hlt⟩ := h.offset hid
  have hlength : (blocks.set (page.id.toNat - 1) page.data).length = blocks.length :=
    List.length_set
  refine ⟨?_, ?_, ?_, ?_, h.nodup, ?_, ?_, ?_⟩
  · change session.store.file.map (writeToFile · page) = _
    rw [h.file, Option.map_some, writeToFile, if_pos hfits, hoffset, writeAt_concat_set 0 hlt]
  · rw [hlength]
    exact h.size
  · rw [hlength]
    exact h.nextId
  · rw [hlength]
    exact h.mem_issued
  · intro id hid'
    change _ = some (Function.update session.written page.id page.data id)
    by_cases heq : id = page.id
    · subst heq
      rw [Function.update_self, List.getElem?_set_self hlt]
    · -- another id issued is another block
      have hslot : page.id.toNat - 1 ≠ id.toNat - 1 := by
        have hpos := ((h.mem_issued _).mp hid).1
        have hpos' := ((h.mem_issued _).mp hid').1
        have hne : id.toNat ≠ page.id.toNat := fun he => heq (UInt64.toNat_inj.mp he)
        omega
      rw [Function.update_of_ne heq, List.getElem?_set_ne hslot]
      exact h.block id hid'
  · intro id hid'
    have hne : id ≠ page.id := fun heq => hid' (heq ▸ hid)
    change Function.update session.written page.id page.data id = _
    rw [Function.update_of_ne hne]
    exact h.unwritten id hid'
  · intro id cachedPage hlookup
    change id ∈ session.issued ∧ _ ∧ _ = Function.update session.written page.id page.data id
    rcases lookup_insert_cases hlookup with ⟨rfl, rfl⟩ | ⟨hne, hlookup⟩
    · exact ⟨hid, rfl, by rw [Function.update_self]⟩
    · rw [Function.update_of_ne hne]
      exact h.cached id cachedPage hlookup

/-- A change of the cache that only drops pages or their marks. Kind: L -/
theorem Durable.of_cache (h : session.Durable blocks) {store : PageStore}
    (hfile : store.file = session.store.file) (hnext : store.nextId = session.store.nextId)
    (hcache : ∀ id page, store.pages.lookup id = some page →
      ∃ old, session.store.pages.lookup id = some old ∧ page.id = old.id ∧ page.data = old.data) :
    ({ session with store := store } : PageSession).Durable blocks where
  file := hfile.trans h.file
  size := h.size
  nextId := (congrArg UInt64.toNat hnext).trans h.nextId
  mem_issued := h.mem_issued
  nodup := h.nodup
  block := h.block
  unwritten := h.unwritten
  cached := by
    intro id page hlookup
    obtain ⟨old, hold, hid, hdata⟩ := hcache id page hlookup
    rw [hid, hdata]
    exact h.cached id old hold

/-- The next id is found again from the length of the file. Kind: L -/
theorem Durable.nextId_openFile (h : session.Durable blocks) :
    (PageStore.openFile (concat blocks)).nextId = session.store.nextId := by
  have hlength : (UInt64.ofNat (concat blocks).length / 4096).toNat = blocks.length := by
    have hlt : blocks.length * pageSize < UInt64.size := h.size.trans_lt (by decide)
    rw [UInt64.toNat_div, length_concat, UInt64.toNat_ofNat_of_lt' hlt]
    exact Nat.mul_div_cancel _ (by decide)
  apply UInt64.toNat_inj.mp
  change (UInt64.ofNat (concat blocks).length / 4096 + 1).toNat = _
  rw [UInt64.toNat_add, hlength, h.nextId]
  apply Nat.mod_eq_of_lt
  change blocks.length + 1 < 2 ^ 64
  have hfew := h.length_lt
  omega

/-- One permitted call keeps the invariant, for the pages it leaves. Kind: L -/
theorem Durable.step (h : session.Durable blocks) {op : PageOp} (hop : session.Permitted op) :
    ∃ blocks', (session.step op).Durable blocks' := by
  cases op with
  | allocate => exact ⟨_, h.allocate hop⟩
  | writePage page => exact ⟨_, h.writePage hop.1 hop.2⟩
  | readPage id => exact ⟨blocks, h⟩
  | free id =>
      refine ⟨blocks, h.of_cache rfl rfl ?_⟩
      intro other page hlookup
      change (session.store.pages.erase id).lookup other = some page at hlookup
      by_cases heq : other = id
      · rw [heq, AList.lookup_erase] at hlookup
        simp at hlookup
      · rw [AList.lookup_erase_ne heq] at hlookup
        exact ⟨page, hlookup, rfl, rfl⟩
  | flush =>
      refine ⟨blocks, h.of_cache rfl rfl ?_⟩
      intro id page hlookup
      change (PageStore.markAllClean session.store.pages).lookup id = some page at hlookup
      rw [PageStore.lookup_markAllClean] at hlookup
      obtain ⟨old, hold, rfl⟩ := Option.map_eq_some_iff.mp hlookup
      exact ⟨old, hold, rfl, rfl⟩
  | reopen =>
      have hfile : session.store.file.getD [] = concat blocks := by rw [h.file, Option.getD_some]
      refine ⟨blocks, ?_⟩
      change ({ session with store := PageStore.openFile (session.store.file.getD []) } :
        PageSession).Durable blocks
      rw [hfile]
      apply h.of_cache h.file.symm h.nextId_openFile
      -- the new store has nothing cached
      intro id page hlookup
      simp [PageStore.openFile] at hlookup

/-- **Every run keeps the invariant.** Kind: P -/
theorem run_durable (ops : List PageOp) (h : session.Durable blocks)
    (hops : session.AllPermitted ops) : ∃ blocks', (session.run ops).Durable blocks' := by
  induction ops generalizing session blocks with
  | nil => exact ⟨blocks, h⟩
  | cons op ops ih =>
      obtain ⟨blocks', hstep⟩ := h.step hops.1
      exact ih hstep hops.2

/-- A page issued is read back with the data last written, from the cache or from the file.
Kind: L -/
theorem Durable.readPage (h : session.Durable blocks) {id : UInt64} (hid : id ∈ session.issued) :
    ∃ page, session.store.readPage id = some page ∧ page.id = id
      ∧ page.data = session.written id := by
  rcases hlookup : session.store.pages.lookup id with _ | page
  · obtain ⟨hoffset, hlt⟩ := h.offset hid
    have hblock : blocks[id.toNat - 1] = session.written id := by
      apply Option.some.inj
      rw [← h.block id hid, List.getElem?_eq_getElem hlt]
    refine ⟨Page.withData id (session.written id), ?_, rfl, rfl⟩
    simp only [PageStore.readPage, hlookup, h.file]
    rw [hoffset, readExact_concat hlt, hblock, Option.map_some]
  · refine ⟨page, ?_, (h.cached id page hlookup).2⟩
    simp only [PageStore.readPage, hlookup]

/-- **The page store is durable and its cache transparent.** After every run on a new file, however
often the store was reopened, each id that `allocate` returned is read back with the data last
written to it, and no id was returned twice.
Source: `storage/page.rs`, `PageStore::open`, `allocate`, `read_page`, `write_page`, `free`, `flush`
Kind: P -/
theorem read_after_run (ops : List PageOp) (hops : init.AllPermitted ops) :
    (init.run ops).issued.Nodup
      ∧ ∀ id ∈ (init.run ops).issued, ∃ page, (init.run ops).store.readPage id = some page
        ∧ page.id = id ∧ page.data = (init.run ops).written id := by
  obtain ⟨blocks, h⟩ := run_durable ops durable_init hops
  refine ⟨h.nodup, ?_⟩
  intro id hid
  exact h.readPage hid

/-- A page is written, dropped from the cache and read after the store was reopened; the next page
gets a new id. Kind: P -/
theorem read_after_run_reopened :
    let ops := [.allocate, .writePage (Page.withData 1 (Bytes.fill pageSize 7)), .free 1, .reopen,
      .allocate]
    (init.run ops).issued = [1, 2]
      ∧ ∃ page, (init.run ops).store.readPage 1 = some page
        ∧ page.data = Bytes.fill pageSize 7 := by
  intro ops
  obtain ⟨hops, hissued⟩ : init.AllPermitted ops ∧ (init.run ops).issued = [1, 2] := by
    decide +kernel
  obtain ⟨page, hread, -, hdata⟩ := (read_after_run ops hops).2 1 (by rw [hissued]; decide)
  exact ⟨hissued, page, hread, hdata⟩

end PageSession

end Ryther
