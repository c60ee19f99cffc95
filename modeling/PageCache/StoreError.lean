-- What can go wrong in the store, and how it is said. Two of the causes end the
-- transaction that met them: it has to be aborted.
import PageCache.Ids

namespace PageCache

/-- Why the bytes of a page cannot be read as a page. -/
inductive Corruption where
  | wrongLength (expected got : Nat)
  | unreadableSlot (slot : Nat)
  | described (reason : String)
deriving DecidableEq, Repr

/-- The text of a reason. -/
def Corruption.label : Corruption → String
  | .wrongLength expected got => s!"expected {expected} bytes, got {got}"
  | .unreadableSlot slot => s!"undecodable tuple in slot {slot}"
  | .described reason => reason

/-- The causes of failure. -/
inductive StoreError where
  | io (reason : String)
  | requestLost (reason : String)
  /-- A request to a disk that could not be carried out to its end. -/
  | brokenOff
  | wouldDeadlock (txn : TransactionId) (page : PageId)
  | waitTimeout (txn : TransactionId) (page : PageId)
  | cacheFull (capacity : Nat)
  | pageFull (page : PageId)
  | schemaMismatch (page : PageId)
  | notOnPage (location : RecordId) (page : PageId)
  | slotEmpty (page : PageId) (slot : UInt16)
  | noLocation
  | corruptPage (page : PageId) (reason : Corruption)
  | pageOutOfRange (page : PageId) (pageCount : UInt32)
  | unknownTable (table : TableId)
  | duplicateTable (table : TableId)
deriving DecidableEq, Repr

namespace StoreError

/-- The message of a failure. -/
def message : StoreError → String
  | .io reason => s!"I/O error: {reason}"
  | .requestLost reason => s!"Disk scheduler error: {reason}"
  | .brokenOff => "A request to the disk broke off"
  | .wouldDeadlock txn page =>
    s!"{txn.label} aborted: granting its request on {page.label} would deadlock"
  | .waitTimeout txn page => s!"{txn.label} gave up waiting for the lock on {page.label}"
  | .cacheFull capacity =>
    s!"Buffer pool is full: none of its {capacity} resident pages can be evicted"
  | .pageFull page => s!"Page {page.label} is full"
  | .schemaMismatch page => s!"Tuple schema does not match the schema of {page.label}"
  | .notOnPage location page => s!"Tuple at {location.label} is not stored on {page.label}"
  | .slotEmpty page slot => s!"Slot {slot.toNat} of {page.label} is already empty"
  | .noLocation => "Tuple has no record id"
  | .corruptPage page reason => s!"Corrupt page {page.label}: {reason.label}"
  | .pageOutOfRange page pageCount =>
    s!"Page {page.label} is beyond the end of a {pageCount.toNat}-page file"
  | .unknownTable table => s!"Table {table.label} not found"
  | .duplicateTable table => s!"Table {table.label} already exists"

/-- The failure ends its transaction: a lock would deadlock or was not granted in time. -/
def endsTransaction : StoreError → Bool
  | .wouldDeadlock .. => true
  | .waitTimeout .. => true
  | _ => false

end StoreError

end PageCache
