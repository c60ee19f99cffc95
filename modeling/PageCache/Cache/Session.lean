-- Sessions: a cache with the calls that have not finished. A transaction has at most one
-- such call. When locks come free the waiting calls go on, one at a time, until none of
-- them can. A session with a limit for waits lets each wait run out at once.
import PageCache.Cache.Call
import PageCache.Cache.Ending

namespace PageCache

/-- A call that waits for a page, and the iterator that it is for, if it is for one. -/
structure WaitingCall where
  page : PageId
  stage : Stage
  iterator : Option String

/-- A cursor of a transaction. -/
structure Iterator where
  txn : TransactionId
  cursor : Cursor
deriving DecidableEq

/-- A cache, the calls that wait, and the iterators by name. -/
structure Session where
  cache : Cache
  calls : FinMap TransactionId WaitingCall
  iterators : FinMap String Iterator
  patient : Bool

/-- What a user of the session is told at once. -/
inductive Answer where
  /-- The transaction or the iterator has an unfinished call; nothing was done. -/
  | busy
  | waiting
  | finished (outcome : Outcome)

/-- Why a session or a table cannot be set up. -/
inductive SetupFault where
  /-- A page needs at least one byte. -/
  | emptyPages
  /-- The places for the pages of the cache cannot be set aside. -/
  | hugeCapacity
  | store (e : StoreError)
deriving DecidableEq

namespace Session

/-- A session on an empty cache. -/
def new (config : Config) (log : Option WriteLog) : Session :=
  ⟨.new config log, .empty, .empty, config.lockWaitMs.isNone⟩

/-- A session on an empty cache, if the places for its pages can be set aside. -/
def start? (config : Config) (log : Option WriteLog) : Except SetupFault Session :=
  if config.capacity ≤ Config.maxCapacity then .ok (new config log) else .error .hugeCapacity

/-- Adds a table on a file, and appends a number of empty pages to it. -/
def addTable (s : Session) (setup : TableSetup) (file : SparseFile) (pages : Nat) :
    Except SetupFault Session :=
  match TableFile.open? file setup with
  | none => .error .emptyPages
  | some file =>
    match (file.allocateMany pages).bind s.cache.addTable with
    | .ok cache => .ok { s with cache }
    | .error e => .error (.store e)

/-- A new session on the files of the tables, with another page size if one is given.
Nothing is written first: what was only in memory is gone. -/
def reopen (s : Session) (config : Config) (log : Option WriteLog) (setups : List TableSetup)
    (pageSize : Option Nat) : Except SetupFault Session :=
  setups.foldlM (fun fresh setup =>
    match s.cache.table setup.table with
    | .error e => .error (.store e)
    | .ok old =>
      fresh.addTable { setup with pageSize := pageSize.getD setup.pageSize } old.disk.file 0)
    (new config log)

/-- The transaction has an unfinished call. -/
def isBusy (s : Session) (txn : TransactionId) : Bool := s.calls.contains txn

/-- The iterator has an unfinished call. -/
def isIteratorBusy (s : Session) (name : String) : Bool :=
  s.calls.values.any (·.iterator = some name)

/-- The iterator stands where the outcome of its call has left it. -/
def moveIterator (s : Session) (txn : TransactionId) (name : Option String)
    (outcome : Outcome) : Session :=
  match name, outcome with
  | some name, .ok (.drawn cursor _ _) =>
    { s with iterators := s.iterators.insert name ⟨txn, cursor⟩ }
  | _, _ => s

/-- Enters how far a call of a transaction has come. -/
def enter (s : Session) (txn : TransactionId) (name : Option String)
    (result : Cache × Progress) : Session × Answer :=
  match result with
  | (cache, .finished outcome) =>
    ({ s with cache, calls := s.calls.erase txn }.moveIterator txn name outcome, .finished outcome)
  | (cache, .waiting page stage) =>
    ({ s with cache, calls := s.calls.insert txn ⟨page, stage, name⟩ }, .waiting)

/-- Looks at the waiting call of a transaction again. If its lock is granted now, it goes
on; else it goes on waiting. -/
def resume (s : Session) (txn : TransactionId) : Session × Answer :=
  match s.calls.get? txn with
  | none => (s, .waiting)
  | some call =>
    match s.cache.locks.recheck txn with
    | (locks, none) => ({ s with cache := { s.cache with locks } }, .waiting)
    | (locks, some _) =>
      let (c, result) := Cache.bring { s.cache with locks } call.page
      s.enter txn call.iterator (c.proceed txn call.page call.stage result)

/-- Ends the wait of a transaction's call: it goes on with a failure, unless the lock can
be granted in the last moment. -/
def expire (s : Session) (txn : TransactionId) : Session × Answer :=
  match s.calls.get? txn with
  | none => (s, .waiting)
  | some call =>
    match s.cache.locks.expire txn with
    | (locks, some (_, true)) =>
      let (c, result) := Cache.bring { s.cache with locks } call.page
      s.enter txn call.iterator (c.proceed txn call.page call.stage result)
    | (locks, _) =>
      let c := { s.cache with locks }
      s.enter txn call.iterator
        (c.proceed txn call.page call.stage (.error (.waitTimeout txn call.page)))

/-- Starts an operation of a transaction, for an iterator if one is named. -/
def submit (s : Session) (txn : TransactionId) (name : Option String) (op : Operation) :
    Session × Answer :=
  if s.isBusy txn then (s, .busy)
  else
    match s.enter txn name (s.cache.start txn op) with
    | (s, .waiting) => if s.patient then (s, .waiting) else s.expire txn
    | result => result

/-- Lets waiting calls go on, in at most `limit` steps, as long as one of them can: the
calls that finished, with their outcomes. -/
def settle : (limit : Nat) → Session → Session × List (TransactionId × Outcome)
  | 0, s => (s, [])
  | limit + 1, s =>
    match s.cache.locks.nextGrantable with
    | none => (s, [])
    | some txn =>
      match s.resume txn with
      | (s, .finished outcome) =>
        let (s, others) := settle limit s
        (s, (txn, outcome) :: others)
      | (s, _) => settle limit s

/-- The number of pages of all tables. -/
def pageTotal (s : Session) : Nat :=
  s.cache.tables.values.foldl (fun n f => n + f.pageCount.toNat) 0

/-- Lets waiting calls go on until none of them can. Each step brings one call to a further
page, and each call appends at most one page. -/
def settleAll (s : Session) : Session × List (TransactionId × Outcome) :=
  settle (s.calls.size * (s.pageTotal + s.calls.size + 3)) s

/-- Applies an action on the cache that does not wait. -/
def act {α : Type} (s : Session) (f : Cache → Cache × α) : Session × α :=
  let (cache, a) := f s.cache
  ({ s with cache }, a)

/-- The entries that the log has accepted since they were last taken. -/
def takeLog (s : Session) : Session × List LogEntry :=
  match s.cache.log with
  | none => (s, [])
  | some log =>
    let (log, entries) := log.drain
    ({ s with cache := { s.cache with log := some log } }, entries)

/-- Opens an iterator before the first record of a table. -/
def openIterator (s : Session) (txn : TransactionId) (name : String) (table : TableId) :
    Session × Answer :=
  if s.isIteratorBusy name then (s, .busy)
  else
    match s.cache.table table with
    | .error e => (s, .finished (.error e))
    | .ok _ =>
      ({ s with iterators := s.iterators.insert name ⟨txn, .start table⟩ }, .finished (.ok .done))

/-- Puts an iterator back before the first record. -/
def rewindIterator (s : Session) (name : String) : Session × Answer :=
  if s.isIteratorBusy name then (s, .busy)
  else
    match s.iterators.get? name with
    | none => (s, .finished (.ok .done))
    | some i =>
      ({ s with iterators := s.iterators.insert name ⟨i.txn, .start i.cursor.table⟩ },
        .finished (.ok .done))

end Session

end PageCache
