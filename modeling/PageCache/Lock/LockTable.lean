-- The lock table: the locks of all pages, the pages that each transaction holds, and the
-- graph of waits. A request is granted at once, or waits in the queue of its page, or is
-- refused because it would deadlock. A waiting request is looked at again when something
-- was released; it may also give up.
import PageCache.Lock.WaitGraph

namespace PageCache

/-- Locks, holdings and waits. Idle locks and transactions without pages are not listed. -/
structure LockTable where
  locks : FinMap PageId PageLock
  held : FinMap TransactionId (List PageId)
  waits : WaitGraph
deriving DecidableEq

/-- What became of a request for a lock. A waiting one knows whether it was entered into
the graph of waits, so that it can be taken back. -/
inductive Attempt where
  | granted
  | refused
  | waiting (entered : Bool)
deriving DecidableEq, Repr

namespace LockTable

/-- Nothing is locked. -/
def empty : LockTable := ⟨.empty, .empty, .empty⟩

instance : Inhabited LockTable := ⟨empty⟩

/-- The lock of a page; a page that is not listed is free. -/
def lockOf (t : LockTable) (page : PageId) : PageLock := (t.locks.get? page).getD .free

/-- How a transaction holds a page. -/
def heldMode (t : LockTable) (txn : TransactionId) (page : PageId) : Option Access :=
  (t.lockOf page).heldBy txn

/-- The transaction holds the page. -/
def holds (t : LockTable) (txn : TransactionId) (page : PageId) : Bool :=
  (t.heldMode txn page).isSome

/-- The pages that a transaction holds. -/
def heldPages (t : LockTable) (txn : TransactionId) : List PageId := (t.held.get? txn).getD []

/-- The pages that a transaction holds, and how. -/
def holdings (t : LockTable) (txn : TransactionId) : List (PageId × Option Access) :=
  (t.heldPages txn).map fun page => (page, t.heldMode txn page)

/-- How a page is held at the moment. -/
def pageMode (t : LockTable) (page : PageId) : Option Access := (t.lockOf page).mode

/-- The number of requests that wait. -/
def pendingCount (t : LockTable) : Nat := (t.locks.values.flatMap (·.queue)).length

/-- Puts a lock back. An idle lock is not listed. -/
def store (t : LockTable) (page : PageId) (l : PageLock) : LockTable :=
  { t with locks := if l.isIdle then t.locks.erase page else t.locks.insert page l }

/-- Sets the pages that a transaction holds. Without pages it is not listed. -/
def setHeld (t : LockTable) (txn : TransactionId) (pages : List PageId) : LockTable :=
  { t with held := if pages.isEmpty then t.held.erase txn else t.held.insert txn pages }

/-- Grants an access. -/
def grant (t : LockTable) (txn : TransactionId) (page : PageId) (access : Access) : LockTable :=
  let pages := t.heldPages txn
  (t.store page ((t.lockOf page).grant txn access)).setHeld txn
    (if page ∈ pages then pages else pages ++ [page])

/-- Looks at a request: grants it if that is possible now, else puts it into the queue of
its page. The answer says whether it was granted. -/
def tryGrant (t : LockTable) (txn : TransactionId) (page : PageId) (access : Access) :
    LockTable × Bool :=
  let l := t.lockOf page
  if l.canGrant txn access then (t.grant txn page access, true)
  else (t.store page (l.enqueue txn access), false)

/-- A new request. What the transaction holds already is granted without further ado. -/
def acquire (t : LockTable) (txn : TransactionId) (page : PageId) (access : Access) :
    LockTable × Attempt :=
  if (t.heldMode txn page).any (·.covers access) then (t, .granted)
  else
    let (waits, verdict) := t.waits.request txn page access
    let t := { t with waits }
    if verdict = .refused then (t, .refused)
    else
      match t.tryGrant txn page access with
      | (t, true) => (t, .granted)
      | (t, false) => (t, .waiting (verdict = .added))

/-- The time of a waiting request is over. If it can be granted just now it is; else it
leaves the queue and, if it was entered there, the graph. -/
def giveUp (t : LockTable) (txn : TransactionId) (page : PageId) (access : Access)
    (entered : Bool) : LockTable × Bool :=
  let l := t.lockOf page
  if l.canGrant txn access then (t.grant txn page access, true)
  else
    let t := t.store page (l.dequeue txn)
    ({ t with waits := if entered then t.waits.withdraw txn page else t.waits }, false)

/-- Takes a transaction's lock on one page away. -/
def release (t : LockTable) (txn : TransactionId) (page : PageId) : LockTable :=
  let t := t.store page ((t.lockOf page).release txn).1
  let t := { t with waits := t.waits.release txn page }
  t.setHeld txn ((t.heldPages txn).filter (· ≠ page))

/-- Takes all locks of a transaction away, and all its requests out of the graph. -/
def releaseAll (t : LockTable) (txn : TransactionId) : LockTable :=
  let t := (t.heldPages txn).foldl (fun t page => t.release txn page) t
  { t with waits := t.waits.forget txn }

end LockTable

end PageCache
