-- The file of a table: a disk whose pages hold records of one schema. New pages are
-- appended at the end.
import PageCache.Disk.RequestQueue
import PageCache.Page.Image

namespace PageCache

/-- How a table is set up. -/
structure TableSetup where
  table : TableId
  schema : Schema
  pageSize : Nat
deriving DecidableEq

/-- A table, its schema and its disk. -/
structure TableFile where
  table : TableId
  schema : Schema
  disk : Disk
deriving DecidableEq

namespace TableFile

/-- Opens the file of a table. The page size must not be zero. -/
def open? (file : SparseFile) (setup : TableSetup) : Option TableFile :=
  (Disk.open? file setup.pageSize).map (⟨setup.table, setup.schema, ·⟩)

/-- The number of pages of the table. -/
def pageCount (f : TableFile) : UInt32 := f.disk.pageCount

/-- The page of the table with a number. -/
def pageId (f : TableFile) (number : UInt32) : PageId := ⟨f.table, number⟩

/-- The page belongs to this table and is one of its pages. -/
def check (f : TableFile) (page : PageId) : Except StoreError Unit :=
  if page.table ≠ f.table then .error (.unknownTable page.table)
  else if page.number ≥ f.pageCount then .error (.pageOutOfRange page f.pageCount)
  else .ok ()

/-- Reads a page from the disk. The read counts even if the bytes are no page. Pages that
are too large to be held are not read at all. -/
def read (f : TableFile) (page : PageId) : TableFile × Except StoreError HeapPage :=
  match f.check page with
  | .error e => (f, .error e)
  | .ok () =>
    match f.disk.read page.number with
    | .ok (disk, data) => ({ f with disk }, HeapPage.ofImage page f.schema disk.pageSize data)
    | .error e => (f, .error (RequestQueue.seen e))

/-- Writes a page to the disk. -/
def write (f : TableFile) (p : HeapPage) : Except StoreError TableFile :=
  match f.check p.id with
  | .error e => .error e
  | .ok () =>
    match f.disk.write p.id.number p.image with
    | (disk, .ok ()) => .ok { f with disk }
    | (_, .error e) => .error (RequestQueue.seen e)

/-- Appends an empty page. -/
def allocate (f : TableFile) : TableFile × Except StoreError PageId :=
  let (disk, result) := f.disk.allocate
  ({ f with disk }, result.map f.pageId)

/-- Appends a number of empty pages. -/
def allocateMany (f : TableFile) : (count : Nat) → Except StoreError TableFile
  | 0 => .ok f
  | count + 1 =>
    match f.allocate with
    | (f, .ok _) => f.allocateMany count
    | (_, .error e) => .error e

end TableFile

end PageCache
