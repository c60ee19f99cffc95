-- The lock of one page: who reads, who writes, and who waits. Waiting requests stand in
-- a queue, and none is granted before an incompatible one that stands ahead of it.
import PageCache.Access
import PageCache.Ids

namespace PageCache

/-- A transaction that asks for an access. -/
structure LockRequest where
  txn : TransactionId
  access : Access
deriving DecidableEq, Repr

/-- The lock of a page. -/
structure PageLock where
  readers : List TransactionId
  writer : Option TransactionId
  queue : List LockRequest
deriving DecidableEq, Repr

namespace PageLock

/-- A lock that nobody holds or waits for. -/
def free : PageLock := ⟨[], none, []⟩

instance : Inhabited PageLock := ⟨free⟩

/-- How the page is held at the moment. -/
def mode (l : PageLock) : Option Access :=
  if l.writer.isSome then some .readWrite
  else if l.readers.isEmpty then none
  else some .readOnly

/-- Nobody holds the page. -/
def isFree (l : PageLock) : Bool := l.mode.isNone

/-- Nobody holds the page or waits for it. -/
def isIdle (l : PageLock) : Bool := l.isFree && l.queue.isEmpty

/-- The number of writers, none or one. -/
def writerCount (l : PageLock) : Nat := if l.writer.isSome then 1 else 0

/-- How a transaction holds the page. -/
def heldBy (l : PageLock) (txn : TransactionId) : Option Access :=
  if l.writer = some txn then some .readWrite
  else if txn ∈ l.readers then some .readOnly
  else none

/-- No other transaction holds the page in a way that excludes the access. -/
def holdersAllow (l : PageLock) (txn : TransactionId) (access : Access) : Bool :=
  l.writer.all (· = txn) && (access = .readOnly || l.readers.all (· = txn))

/-- The requests that stand ahead of a transaction: all of them if it is not in the queue. -/
def ahead (l : PageLock) (txn : TransactionId) : List LockRequest :=
  l.queue.takeWhile (·.txn ≠ txn)

/-- The access can be granted now: the holders allow it, and so do the requests ahead. -/
def canGrant (l : PageLock) (txn : TransactionId) (access : Access) : Bool :=
  l.holdersAllow txn access && (l.ahead txn).all (·.access.compatible access)

/-- Puts a request at the end of the queue, unless the transaction waits there already. -/
def enqueue (l : PageLock) (txn : TransactionId) (access : Access) : PageLock :=
  if l.queue.any (·.txn = txn) then l else { l with queue := l.queue ++ [⟨txn, access⟩] }

/-- Takes a transaction out of the queue. -/
def dequeue (l : PageLock) (txn : TransactionId) : PageLock :=
  { l with queue := l.queue.filter (·.txn ≠ txn) }

/-- Gives a transaction the access and takes it out of the queue. Nothing is checked. A
reader that becomes the writer is no reader any more. -/
def grant (l : PageLock) (txn : TransactionId) (access : Access) : PageLock :=
  let l := l.dequeue txn
  match access with
  | .readOnly => if txn ∈ l.readers then l else { l with readers := l.readers ++ [txn] }
  | .readWrite => { l with readers := l.readers.filter (· ≠ txn), writer := some txn }

/-- Grants a request if that is possible now, else puts it into the queue. -/
def request (l : PageLock) (txn : TransactionId) (access : Access) : PageLock × Bool :=
  if l.canGrant txn access then (l.grant txn access, true) else (l.enqueue txn access, false)

/-- Takes away what a transaction holds, its writing first: what it was. -/
def release (l : PageLock) (txn : TransactionId) : PageLock × Option Access :=
  if l.writer = some txn then ({ l with writer := none }, some .readWrite)
  else if txn ∈ l.readers then
    ({ l with readers := l.readers.filter (· ≠ txn) }, some .readOnly)
  else (l, none)

end PageLock

end PageCache
