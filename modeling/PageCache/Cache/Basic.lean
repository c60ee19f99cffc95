-- The cache: pages of tables in memory. A page is used under a lock of its transaction
-- and is read from its file when it is not resident. Changed pages stay until they are
-- written, and pages locked for writing stay too; when all are of that kind and the
-- cache is full, another page cannot be brought in.
import PageCache.Cache.Config
import PageCache.Cache.WriteLog
import PageCache.Eviction.LruK
import PageCache.Lock.Locking
import PageCache.Table.TableFile

namespace PageCache

/-- A resident page. A pinned one is being changed by a user of the cache right now, and
nobody else can look at it. -/
structure Frame where
  page : HeapPage
  pinned : Bool
deriving DecidableEq

/-- A cache of pages. -/
structure Cache where
  capacity : Nat
  resident : FinMap PageId Frame
  uses : LruK
  tables : FinMap TableId TableFile
  locks : Locking
  log : Option WriteLog

/-- What came of the wish for a page. -/
inductive Fetched where
  | page (p : HeapPage)
  | failed (e : StoreError)
  | blocked

namespace Cache

/-- An empty cache. -/
def new (config : Config) (log : Option WriteLog) : Cache :=
  ⟨config.capacity, .empty, .new config.lruK, .empty, .empty, log⟩

/-- Adds a table. -/
def addTable (c : Cache) (file : TableFile) : Except StoreError Cache :=
  if c.tables.contains file.table then .error (.duplicateTable file.table)
  else .ok { c with tables := c.tables.insert file.table file }

/-- A table of the cache. -/
def table (c : Cache) (id : TableId) : Except StoreError TableFile :=
  match c.tables.get? id with
  | some file => .ok file
  | none => .error (.unknownTable id)

/-- The state of a table's file after it was used. -/
def setTable (c : Cache) (file : TableFile) : Cache :=
  { c with tables := c.tables.insert file.table file }

/-- The number of pages of a table; a table that is not there has none. -/
def pageCount (c : Cache) (id : TableId) : UInt32 :=
  match c.tables.get? id with
  | some file => file.pageCount
  | none => 0

/-- A resident page. -/
def residentPage (c : Cache) (page : PageId) : Option HeapPage :=
  (c.resident.get? page).map Frame.page

/-- The transaction holds the page. -/
def holds (c : Cache) (txn : TransactionId) (page : PageId) : Bool :=
  c.locks.table.holds txn page

/-- The pages that a transaction holds. -/
def heldPages (c : Cache) (txn : TransactionId) : List PageId := c.locks.table.heldPages txn

/-- Drops a transaction's lock on a page. -/
def release (c : Cache) (txn : TransactionId) (page : PageId) : Cache :=
  { c with locks := c.locks.release txn page }

/-- The page may go: nobody has it locked for writing, nobody is changing it now, and it
is not changed. -/
def mayEvict (c : Cache) (page : PageId) : Bool :=
  c.locks.table.pageMode page ≠ some .readWrite &&
    (c.resident.get? page).any fun frame => !frame.pinned && frame.page.dirty.isNone

/-- Lets one page go. -/
def evict (c : Cache) : Except StoreError (Cache × PageId) :=
  match c.uses.evict c.mayEvict with
  | (uses, some page) => .ok ({ c with uses, resident := c.resident.erase page }, page)
  | (_, none) => .error (.cacheFull c.capacity)

/-- Makes room for one more page. -/
def makeRoom (c : Cache) : Except StoreError Cache :=
  if c.resident.size ≥ c.capacity then c.evict.map Prod.fst else .ok c

/-- Notes a use of a page. -/
def noteUse (c : Cache) (page : PageId) : Cache := { c with uses := c.uses.access page }

/-- Puts a page into the place where it is resident, or into a new one. -/
def place (c : Cache) (p : HeapPage) : Cache :=
  let pinned := (c.resident.get? p.id).any Frame.pinned
  { c with resident := c.resident.insert p.id ⟨p, pinned⟩ }

/-- Makes a page resident: it is there already, or it is read from its file. -/
def bring (c : Cache) (page : PageId) : Cache × Except StoreError HeapPage :=
  match c.resident.get? page with
  | some frame => (c.noteUse page, .ok frame.page)
  | none =>
    match c.table page.table with
    | .error e => (c, .error e)
    | .ok file =>
      match file.read page with
      | (file, .error e) => (c.setTable file, .error e)
      | (file, .ok p) =>
        let c := c.setTable file
        match c.makeRoom with
        | .error e => (c, .error e)
        | .ok c => ((c.place p).noteUse page, .ok p)

/-- Locks a page for a transaction and makes it resident. A lock that was granted stays,
even if the page cannot be brought in. -/
def fetch (c : Cache) (txn : TransactionId) (page : PageId) (access : Access) :
    Cache × Fetched :=
  match c.table page.table with
  | .error e => (c, .failed e)
  | .ok _ =>
    match c.locks.acquire txn page access with
    | (locks, .refused) => ({ c with locks }, .failed (.wouldDeadlock txn page))
    | (locks, .waiting) => ({ c with locks }, .blocked)
    | (locks, .granted) =>
      match bring { c with locks } page with
      | (c, .ok p) => (c, .page p)
      | (c, .error e) => (c, .failed e)

/-- Changes a resident page where it stands. -/
def amend (c : Cache) (p : HeapPage) : Cache :=
  if c.resident.contains p.id then c.place p else c

/-- Enters a changed page: marks it and makes it the resident one. -/
def enterDirty (c : Cache) (txn : TransactionId) (p : HeapPage) : Except StoreError Cache :=
  let p := p.markDirty txn
  if c.resident.contains p.id then .ok ((c.place p).noteUse p.id)
  else
    match c.makeRoom with
    | .error e => .error e
    | .ok c => .ok ((c.place p).noteUse p.id)

/-- Drops a page without writing it. -/
def discard (c : Cache) (page : PageId) : Cache :=
  if c.resident.contains page then
    { c with resident := c.resident.erase page, uses := c.uses.remove page }
  else c

/-- Pins a resident page, or takes its pin away. -/
def setPinned (c : Cache) (page : PageId) (pinned : Bool) : Cache :=
  match c.resident.get? page with
  | some frame => { c with resident := c.resident.insert page { frame with pinned } }
  | none => c

/-- Reads a page of a table, past the cache. -/
def readPage (c : Cache) (table : TableId) (page : PageId) : Cache × Except StoreError HeapPage :=
  match c.table table with
  | .error e => (c, .error e)
  | .ok file =>
    let (file, result) := file.read page
    (c.setTable file, result)

/-- Writes the page with the given bytes to the file of a table, past the cache. -/
def writeImage (c : Cache) (table : TableId) (page : PageId) (data : Bytes) :
    Cache × Except StoreError Unit :=
  match c.table table with
  | .error e => (c, .error e)
  | .ok file =>
    match HeapPage.ofImage page file.schema file.disk.pageSize data with
    | .error e => (c, .error e)
    | .ok p =>
      match file.write p with
      | .error e => (c, .error e)
      | .ok file => (c.setTable file, .ok ())

/-- Reads the bytes of a page from the disk of a table, past cache and table. -/
def readDisk (c : Cache) (table : TableId) (number : UInt32) : Cache × Except StoreError Bytes :=
  match c.table table with
  | .error e => (c, .error e)
  | .ok file =>
    match file.disk.read number with
    | .error e => (c, .error e)
    | .ok (disk, data) => (c.setTable { file with disk }, .ok data)

/-- Writes bytes to the disk of a table, past cache and table. They must be one page. -/
def writeDisk (c : Cache) (table : TableId) (number : UInt32) (data : Bytes) :
    Cache × Except StoreError Unit :=
  match c.table table with
  | .error e => (c, .error e)
  | .ok file =>
    let (disk, result) := file.disk.write number data
    (c.setTable { file with disk }, result)

/-- Appends an empty page to a table. -/
def allocate (c : Cache) (id : TableId) : Cache × Except StoreError PageId :=
  match c.table id with
  | .error e => (c, .error e)
  | .ok file =>
    let (file, result) := file.allocate
    (c.setTable file, result)

end Cache

end PageCache
