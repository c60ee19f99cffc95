-- The write log is told of each page before the page is written to its file. It may
-- refuse, and then the page is not written.
import PageCache.Page.HeapPage

namespace PageCache

/-- What the log is told: who writes, the page as of its last snapshot, the page now. -/
structure LogEntry where
  txn : TransactionId
  before : HeapPage
  after : HeapPage
deriving DecidableEq

/-- A log: all that it was told, oldest first, and how it decides about an entry, knowing
what it was told before. -/
structure WriteLog where
  told : List LogEntry
  accepted : List LogEntry
  refusal : List LogEntry → LogEntry → Option StoreError

namespace WriteLog

/-- A log that accepts everything. -/
def accepting : WriteLog := ⟨[], [], fun _ _ => none⟩

instance : Inhabited WriteLog := ⟨WriteLog.accepting⟩

/-- The log with another way to decide. -/
def decide (l : WriteLog) (refusal : List LogEntry → LogEntry → Option StoreError) : WriteLog :=
  { l with refusal }

/-- Tells the log of a write. -/
def tell (l : WriteLog) (entry : LogEntry) : WriteLog × Except StoreError Unit :=
  match l.refusal l.told entry with
  | some e => ({ l with told := l.told ++ [entry] }, .error e)
  | none => ({ l with told := l.told ++ [entry], accepted := l.accepted ++ [entry] }, .ok ())

/-- Takes the accepted entries out of the log. -/
def drain (l : WriteLog) : WriteLog × List LogEntry := ({ l with accepted := [] }, l.accepted)

end WriteLog

end PageCache
