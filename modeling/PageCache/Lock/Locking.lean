-- Locking with requests that wait. A transaction has at most one request that waits. A
-- waiting request is looked at again, one at a time, or gives up.
import PageCache.Lock.LockTable
import PageCache.StoreError

namespace PageCache

/-- A request that waits for its lock. -/
structure PendingLock where
  page : PageId
  access : Access
  entered : Bool
deriving DecidableEq, Repr

/-- The lock table and the requests that wait, at most one for each transaction. -/
structure Locking where
  table : LockTable
  pending : FinMap TransactionId PendingLock
deriving DecidableEq

/-- The answer to a request for a lock. -/
inductive LockAnswer where
  | granted
  | refused
  | waiting
deriving DecidableEq, Repr

/-- The answer to a request of a transaction that may have another one waiting, with a
limit for the wait or without one. -/
inductive RequestAnswer where
  /-- Another request of the transaction waits; nothing was done. -/
  | busy
  | granted
  | waiting
  | failed (e : StoreError)
deriving DecidableEq, Repr

namespace Locking

/-- Nothing is locked and nobody waits. -/
def empty : Locking := ⟨.empty, .empty⟩

instance : Inhabited Locking := ⟨empty⟩

/-- The transaction has a request that waits. -/
def isWaiting (s : Locking) (txn : TransactionId) : Bool := s.pending.contains txn

/-- A new request of a transaction that has none waiting. -/
def acquire (s : Locking) (txn : TransactionId) (page : PageId) (access : Access) :
    Locking × LockAnswer :=
  match s.table.acquire txn page access with
  | (table, .granted) => ({ s with table }, .granted)
  | (table, .refused) => ({ s with table }, .refused)
  | (table, .waiting entered) =>
    (⟨table, s.pending.insert txn ⟨page, access, entered⟩⟩, .waiting)

/-- Looks at the waiting request of a transaction again: what it asks for, if it was
granted now. -/
def recheck (s : Locking) (txn : TransactionId) : Locking × Option PendingLock :=
  match s.pending.get? txn with
  | none => (s, none)
  | some p =>
    match s.table.tryGrant txn p.page p.access with
    | (table, true) => (⟨table, s.pending.erase txn⟩, some p)
    | (table, false) => ({ s with table }, none)

/-- Ends the wait of a transaction: its request, and whether it was granted in the last
moment. -/
def expire (s : Locking) (txn : TransactionId) : Locking × Option (PendingLock × Bool) :=
  match s.pending.get? txn with
  | none => (s, none)
  | some p =>
    match s.table.giveUp txn p.page p.access p.entered with
    | (table, granted) => (⟨table, s.pending.erase txn⟩, some (p, granted))

/-- A request of a transaction. If it has to wait and is not patient, its wait is over at
once. -/
def request (s : Locking) (patient : Bool) (txn : TransactionId) (page : PageId)
    (access : Access) : Locking × RequestAnswer :=
  if s.isWaiting txn then (s, .busy)
  else
    match s.acquire txn page access with
    | (s, .granted) => (s, .granted)
    | (s, .refused) => (s, .failed (.wouldDeadlock txn page))
    | (s, .waiting) =>
      if patient then (s, .waiting)
      else
        match s.expire txn with
        | (s, some (_, true)) => (s, .granted)
        | (s, _) => (s, .failed (.waitTimeout txn page))

/-- Takes a transaction's lock on one page away. -/
def release (s : Locking) (txn : TransactionId) (page : PageId) : Locking :=
  { s with table := s.table.release txn page }

/-- Takes all locks of a transaction away. A request of it that waits goes on waiting. -/
def releaseAll (s : Locking) (txn : TransactionId) : Locking :=
  { s with table := s.table.releaseAll txn }

/-- The waiting request can be granted now. -/
def isGrantable (s : Locking) (txn : TransactionId) (p : PendingLock) : Bool :=
  (s.table.lockOf p.page).canGrant txn p.access

/-- The first transaction whose waiting request can be granted now. -/
def nextGrantable (s : Locking) : Option TransactionId :=
  (s.pending.entries.find? fun (txn, p) => s.isGrantable txn p).map Prod.fst

/-- Grants waiting requests, at most `limit` of them, as long as one can be granted: the
transactions that were granted theirs, in order. -/
def settle : (limit : Nat) → Locking → Locking × List TransactionId
  | 0, s => (s, [])
  | limit + 1, s =>
    match s.nextGrantable with
    | none => (s, [])
    | some txn =>
      let (s, granted) := settle limit (s.recheck txn).1
      (s, txn :: granted)

/-- Grants all waiting requests that can be granted. -/
def settleAll (s : Locking) : Locking × List TransactionId := settle s.pending.size s

end Locking

end PageCache
