-- Calls that may have to wait for a lock. A call runs until it is finished or until the
-- lock of a page is not free; then it is kept as the page that it waits for and the stage
-- that goes on once the page is there.
import PageCache.Cache.Basic
import PageCache.Table.Cursor

namespace PageCache

/-- What a user of the cache does with a page that was fetched for it. -/
inductive Purpose where
  /-- Looks at the page. -/
  | view
  /-- Looks at the page as of its last snapshot. -/
  | viewBefore
  /-- Keeps the page in use, alone or together with others. -/
  | pin (alone : Bool)
  /-- Stores a record on the page itself, and marks the page as changed if `mark` is set. -/
  | insert (record : Record) (mark : Bool)
  /-- Takes a record from the page itself, and marks the page as changed if `mark` is set. -/
  | delete (location : Option RecordId) (mark : Bool)

/-- A record that is to be stored in a table. A tracked insertion counts as one more use of
the page that it changes. -/
structure Insertion where
  table : TableId
  record : Record
  tracked : Bool

/-- A record that is to be taken out. A tracked deletion counts as one more use of the page
that it changes. -/
structure Deletion where
  location : RecordId
  tracked : Bool

/-- What is left to do once the page that a call asked for is there. -/
inductive Stage where
  /-- Uses the page. -/
  | use (purpose : Purpose)
  /-- Looks for an empty slot on the page, then on `left` pages from number `next` on. `held`
  tells whether the transaction held the page before it looked. -/
  | seek (job : Insertion) (left : Nat) (next : UInt32) (held : Bool)
  /-- Stores the record on the page. -/
  | fill (job : Insertion)
  /-- Looks whether the record is there. -/
  | inspect (job : Deletion)
  /-- Takes the record out. -/
  | remove (job : Deletion)
  /-- Hands out the records of the page, then goes on to the next one. -/
  | walk (draw : Draw)

/-- What a finished call returns. -/
inductive Reply where
  | page (p : HeapPage)
  | location (r : RecordId)
  | done
  /-- A record was stored; these pages were changed. -/
  | stored (r : RecordId) (pages : List PageId)
  /-- A record was taken out; these pages were changed. -/
  | removed (pages : List PageId)
  /-- All records of a table. -/
  | rows (records : List Record)
  /-- Items of a cursor, which stands at a new place now, and whether it came to the end. -/
  | drawn (cursor : Cursor) (items : List Item) (ended : Bool)

/-- The result of a finished call. -/
abbrev Outcome := Except StoreError Reply

/-- How far a call has come. -/
inductive Progress where
  | finished (outcome : Outcome)
  | waiting (page : PageId) (stage : Stage)

/-- The outcome of a request to a cursor that asks for no further page. A request for all
items returns the records, or the failure among them. -/
def Draw.outcome (d : Draw) (ended : Bool) : Outcome :=
  match d.wanted with
  | none => (d.items.mapM id).map .rows
  | some _ => .ok (.drawn d.cursor d.items ended)

/-- The outcome of a request to a cursor that did not get its next page. -/
def Draw.outcomeOf (d : Draw) (e : StoreError) : Outcome :=
  let d := d.fail e
  d.outcome !d.isFull

namespace Cache

/-- Does with a fetched page what it was fetched for. -/
def use (c : Cache) (txn : TransactionId) (p : HeapPage) : Purpose → Cache × Outcome
  | .view => (c, .ok (.page p))
  | .viewBefore => (c, p.beforeImage.map .page)
  | .pin alone => (if alone then c.setPinned p.id true else c, .ok .done)
  | .insert record mark =>
    match p.insert record with
    | .error e => (c, .error e)
    | .ok (p, place) =>
      (c.amend (if mark then p.markDirty txn else p), .ok (.location place))
  | .delete location mark =>
    match p.delete location with
    | .error e => (c, .error e)
    | .ok p => (c.amend (if mark then p.markDirty txn else p), .ok .done)

/-- Stores the record of an insertion on a page that was fetched for writing. -/
def fill (c : Cache) (txn : TransactionId) (job : Insertion) (p : HeapPage) : Cache × Outcome :=
  match p.insert job.record with
  | .error e => (c, .error e)
  | .ok (p, place) =>
    let p := p.markDirty txn
    let c := c.amend p
    if job.tracked then
      match c.enterDirty txn p with
      | .error e => (c, .error e)
      | .ok c => (c, .ok (.location place))
    else (c, .ok (.stored place [p.id]))

/-- Goes on with a call whose stage needs no further page. -/
def finish (result : Cache × Outcome) : Cache × Progress := (result.1, .finished result.2)

/-- Fetches a page for writing and stores the record of an insertion on it. -/
def fetchAndFill (c : Cache) (txn : TransactionId) (job : Insertion) (page : PageId) :
    Cache × Progress :=
  match c.fetch txn page .readWrite with
  | (c, .failed e) => (c, .finished (.error e))
  | (c, .blocked) => (c, .waiting page (.fill job))
  | (c, .page p) => finish (c.fill txn job p)

/-- Appends a page to the table of an insertion and stores the record there. -/
def append (c : Cache) (txn : TransactionId) (job : Insertion) : Cache × Progress :=
  match c.allocate job.table with
  | (c, .error e) => (c, .finished (.error e))
  | (c, .ok page) => c.fetchAndFill txn job page

/-- Gives the lock on a full page back, unless the transaction held it before. -/
def leave (c : Cache) (txn : TransactionId) (page : PageId) (held : Bool) : Cache :=
  if held then c else c.release txn page

/-- Looks for an empty slot on `left` pages of a table, one after the other from `number` on.
Where there is none the lock on the page is given back, unless the transaction held it
before. Behind the last page a new one is appended. -/
def seek (txn : TransactionId) (job : Insertion) :
    (left : Nat) → (number : UInt32) → Cache → Cache × Progress
  | 0, _, c => c.append txn job
  | left + 1, number, c =>
    let page : PageId := ⟨job.table, number⟩
    let held := c.holds txn page
    match c.fetch txn page .readOnly with
    | (c, .failed e) => (c, .finished (.error e))
    | (c, .blocked) => (c, .waiting page (.seek job left (number + 1) held))
    | (c, .page p) =>
      if p.freeCount = 0 then seek txn job left (number + 1) (c.leave txn page held)
      else c.fetchAndFill txn job page

/-- Takes the record of a deletion out of a page that was fetched for writing. -/
def removeFrom (c : Cache) (txn : TransactionId) (job : Deletion) (p : HeapPage) :
    Cache × Outcome :=
  match p.delete (some job.location) with
  | .error e => (c, .error e)
  | .ok p =>
    let p := p.markDirty txn
    let c := c.amend p
    if job.tracked then
      match c.enterDirty txn p with
      | .error e => (c, .error e)
      | .ok c => (c, .ok .done)
    else (c, .ok (.removed [p.id]))

/-- Looks on a page that was fetched for reading whether the record of a deletion is there;
if so, fetches the page for writing and takes the record out. -/
def inspect (c : Cache) (txn : TransactionId) (job : Deletion) (p : HeapPage) :
    Cache × Progress :=
  let place := job.location
  if p.slotCount ≤ place.slot.toNat then
    (c, .finished (.error (.notOnPage place place.page)))
  else if !p.isUsed place.slot.toNat then
    (c, .finished (.error (.slotEmpty place.page place.slot)))
  else
    match c.fetch txn place.page .readWrite with
    | (c, .failed e) => (c, .finished (.error e))
    | (c, .blocked) => (c, .waiting place.page (.remove job))
    | (c, .page p) => finish (c.removeFrom txn job p)

/-- Walks through the pages of a table that are left, at most `left` of them, and hands out
their records. -/
def walk (txn : TransactionId) (left : Nat) (draw : Draw) (c : Cache) : Cache × Progress :=
  let d := draw.serve
  if d.isFull then (c, .finished (d.outcome false))
  else if d.cursor.failed then (c, .finished (d.outcome true))
  else
    match left with
    | 0 => (c, .finished (d.outcome true))
    | left + 1 =>
      match c.fetch txn d.page .readOnly with
      | (c, .failed e) => (c, .finished (d.advance.outcomeOf e))
      | (c, .blocked) => (c, .waiting d.page (.walk d.advance))
      | (c, .page p) => walk txn left (d.advance.receive p) c

/-- Walks on from where a request to a cursor stands, through the pages that the table has
now. -/
def walkOn (c : Cache) (txn : TransactionId) (d : Draw) : Cache × Progress :=
  walk txn ((c.pageCount d.cursor.table).toNat - d.cursor.nextPage.toNat) d c

/-- Goes on with a call that has waited for a page: the page is there, or there is none. -/
def proceed (c : Cache) (txn : TransactionId) (page : PageId) (stage : Stage)
    (result : Except StoreError HeapPage) : Cache × Progress :=
  match stage, result with
  | .walk d, .error e => (c, .finished (d.outcomeOf e))
  | _, .error e => (c, .finished (.error e))
  | .use purpose, .ok p => finish (c.use txn p purpose)
  | .seek job left next held, .ok p =>
    if p.freeCount = 0 then seek txn job left next (c.leave txn page held)
    else c.fetchAndFill txn job page
  | .fill job, .ok p => finish (c.fill txn job p)
  | .inspect job, .ok p => c.inspect txn job p
  | .remove job, .ok p => finish (c.removeFrom txn job p)
  | .walk d, .ok p => c.walkOn txn (d.receive p)

/-- Fetches a page and goes on with a stage once it is there. -/
def ask (c : Cache) (txn : TransactionId) (page : PageId) (access : Access) (stage : Stage) :
    Cache × Progress :=
  match c.fetch txn page access with
  | (c, .failed e) => c.proceed txn page stage (.error e)
  | (c, .blocked) => (c, .waiting page stage)
  | (c, .page p) => c.proceed txn page stage (.ok p)

end Cache

/-- What can be asked of a cache that may have to wait. -/
inductive Operation where
  /-- Fetches a page and uses it. -/
  | fetch (page : PageId) (access : Access) (purpose : Purpose)
  /-- Stores a record in a table. -/
  | insert (job : Insertion)
  /-- Takes the record at a place out of its table. -/
  | delete (location : Option RecordId)
  /-- Takes the record at a place out of a table that is given, past the cache's own use. -/
  | deleteFrom (table : TableId) (location : Option RecordId)
  /-- Reads all records of a table. -/
  | scan (table : TableId)
  /-- Asks a cursor for a number of items. -/
  | draw (cursor : Cursor) (count : Nat)

namespace Cache

/-- Starts an insertion: the table must be there and the schemas must agree. -/
def startInsert (c : Cache) (txn : TransactionId) (job : Insertion) : Cache × Progress :=
  match c.table job.table with
  | .error e => (c, .finished (.error e))
  | .ok file =>
    if job.record.schema ≠ file.schema then
      (c, .finished (.error (.schemaMismatch (file.pageId 0))))
    else seek txn job file.pageCount.toNat 0 c

/-- Starts a deletion from the table of the place. -/
def startDelete (c : Cache) (txn : TransactionId) (location : Option RecordId) :
    Cache × Progress :=
  match location with
  | none => (c, .finished (.error .noLocation))
  | some place =>
    match c.table place.page.table with
    | .error e => (c, .finished (.error e))
    | .ok _ => c.ask txn place.page .readOnly (.inspect ⟨place, true⟩)

/-- Starts a deletion from a table that is given; the place must be one of its places. -/
def startDeleteFrom (c : Cache) (txn : TransactionId) (table : TableId)
    (location : Option RecordId) : Cache × Progress :=
  match c.table table, location with
  | .error e, _ => (c, .finished (.error e))
  | .ok _, none => (c, .finished (.error .noLocation))
  | .ok file, some place =>
    if place.page.table ≠ table then
      (c, .finished (.error (.notOnPage place (file.pageId 0))))
    else c.ask txn place.page .readOnly (.inspect ⟨place, false⟩)

/-- Starts an operation of a transaction that has no other one unfinished. -/
def start (c : Cache) (txn : TransactionId) : Operation → Cache × Progress
  | .fetch page access purpose => c.ask txn page access (.use purpose)
  | .insert job => c.startInsert txn job
  | .delete location => c.startDelete txn location
  | .deleteFrom table location => c.startDeleteFrom txn table location
  | .scan table =>
    match c.table table with
    | .error e => (c, .finished (.error e))
    | .ok _ => c.walkOn txn ⟨.start table, none, []⟩
  | .draw cursor count => c.walkOn txn ⟨cursor, some count, []⟩

end Cache

end PageCache
