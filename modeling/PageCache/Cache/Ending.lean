-- How a transaction ends, and how pages get back to their files. A commit writes the
-- changed pages that the transaction holds, an abort reads them again; both then give
-- all locks back. A commit that fails keeps the locks, so that it can be aborted.
import PageCache.Cache.Basic

namespace PageCache

namespace Cache

/-- Tells the log, if there is one, that a page is about to be written. -/
def tellLog (c : Cache) (txn : TransactionId) (p : HeapPage) : Cache × Except StoreError Unit :=
  match c.log with
  | none => (c, .ok ())
  | some log =>
    match p.beforeImage with
    | .error e => (c, .error e)
    | .ok before =>
      let (log, answer) := log.tell ⟨txn, before, p⟩
      ({ c with log := some log }, answer)

/-- Writes a page to its file: the log comes first, then the file; then the page is clean
and its snapshot is what was written. -/
def writeBack (c : Cache) (txn : TransactionId) (p : HeapPage) : Cache × Except StoreError Unit :=
  match c.table p.id.table with
  | .error e => (c, .error e)
  | .ok file =>
    match c.tellLog txn p with
    | (c, .error e) => (c, .error e)
    | (c, .ok ()) =>
      match file.write p with
      | .error e => (c, .error e)
      | .ok file => ((c.setTable file).amend p.markClean.snapshot, .ok ())

/-- Writes those of the pages back that are resident and changed, for a transaction. The
first failure ends it. -/
def writeBackAll (txn : TransactionId) : List PageId → Cache → Cache × Except StoreError Unit
  | [], c => (c, .ok ())
  | page :: rest, c =>
    match c.residentPage page with
    | none => writeBackAll txn rest c
    | some p =>
      if p.dirty.isNone then writeBackAll txn rest c
      else
        match c.writeBack txn p with
        | (c, .error e) => (c, .error e)
        | (c, .ok ()) => writeBackAll txn rest c

/-- Gives all locks of a transaction back. -/
def releaseAll (c : Cache) (txn : TransactionId) : Cache :=
  { c with locks := c.locks.releaseAll txn }

/-- Writes what the transaction changed, then gives its locks back. -/
def commit (c : Cache) (txn : TransactionId) : Cache × Except StoreError Unit :=
  match writeBackAll txn (c.heldPages txn) c with
  | (c, .error e) => (c, .error e)
  | (c, .ok ()) => (c.releaseAll txn, .ok ())

/-- Reads those of the pages again that are resident and changed. A page that cannot be
read is dropped; the first failure is kept, and the other pages follow all the same. -/
def reloadAll : List PageId → Option StoreError → Cache → Cache × Option StoreError
  | [], first, c => (c, first)
  | page :: rest, first, c =>
    match c.residentPage page with
    | none => reloadAll rest first c
    | some p =>
      if p.dirty.isNone then reloadAll rest first c
      else
        match c.readPage page.table page with
        | (c, .ok fresh) => reloadAll rest first (c.amend fresh)
        | (c, .error e) => reloadAll rest (first.or (some e)) (c.discard page)

/-- Undoes what the transaction changed, then gives its locks back, whatever failed. -/
def abort (c : Cache) (txn : TransactionId) : Cache × Except StoreError Unit :=
  let (c, first) := reloadAll (c.heldPages txn) none c
  (c.releaseAll txn, match first with
    | none => .ok ()
    | some e => .error e)

/-- Commits or aborts. -/
def complete (c : Cache) (txn : TransactionId) (commits : Bool) : Cache × Except StoreError Unit :=
  if commits then c.commit txn else c.abort txn

/-- Writes a resident page back if it is changed, for the transaction that changed it. -/
def flush (c : Cache) (page : PageId) : Cache × Except StoreError Unit :=
  match c.residentPage page with
  | none => (c, .ok ())
  | some p =>
    match p.dirty with
    | none => (c, .ok ())
    | some txn => c.writeBack txn p

/-- Flushes pages up to the first failure. -/
def flushList : List PageId → Cache → Cache × Except StoreError Unit
  | [], c => (c, .ok ())
  | page :: rest, c =>
    match c.flush page with
    | (c, .error e) => (c, .error e)
    | (c, .ok ()) => flushList rest c

/-- Flushes all resident pages. -/
def flushAll (c : Cache) : Cache × Except StoreError Unit := flushList c.resident.keys c

end Cache

end PageCache
