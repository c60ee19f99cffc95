-- The names of things: tables, pages, places of records, transactions. A page is
-- known by its table and its number, a record by its page and its slot.

namespace PageCache

/-- The number of a table. -/
structure TableId where
  val : UInt32
deriving DecidableEq, Repr, Ord, Inhabited

/-- A page: the table it belongs to and its number there. Pages are ordered by table,
then by number. -/
structure PageId where
  table : TableId
  number : UInt32
deriving DecidableEq, Repr, Ord, Inhabited

/-- The place of a record: a page and a slot of it. -/
structure RecordId where
  page : PageId
  slot : UInt16
deriving DecidableEq, Repr, Inhabited

/-- The number of a transaction. -/
structure TransactionId where
  val : UInt64
deriving DecidableEq, Repr, Ord, Inhabited

/-- The text of a table's number. -/
def TableId.label (t : TableId) : String := s!"TableId({t.val.toNat})"

/-- The text of a page: table and number. -/
def PageId.label (p : PageId) : String := s!"PageId({p.table.val.toNat}:{p.number.toNat})"

/-- The text of a place: the page, then the slot. -/
def RecordId.label (r : RecordId) : String := s!"{r.page.label}#{r.slot.toNat}"

/-- The text of a transaction. -/
def TransactionId.label (t : TransactionId) : String := s!"Txn({t.val.toNat})"

end PageCache
