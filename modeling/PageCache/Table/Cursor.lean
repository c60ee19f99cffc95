-- Cursors: the state of a walk through the records of a table, page by page. A failure
-- to get a page ends the walk until it is rewound, so no page is passed over in silence.
import PageCache.Page.HeapPage

namespace PageCache

/-- A place in a table: the next page to get, and the records of the last one that were
not handed out yet. -/
structure Cursor where
  table : TableId
  nextPage : UInt32
  buffer : List Record
  failed : Bool
deriving DecidableEq

/-- A cursor before the first record of a table. -/
def Cursor.start (table : TableId) : Cursor := ⟨table, 0, [], false⟩

/-- What a cursor hands out: a record, or the failure that ended the walk. -/
abbrev Item := Except StoreError Record

/-- A request to a cursor: how many items are wanted, all of them up to the end or the
first failure if no number is given, and the items handed out so far. -/
structure Draw where
  cursor : Cursor
  wanted : Option Nat
  items : List Item

namespace Draw

/-- All items that were wanted are there. -/
def isFull (d : Draw) : Bool := d.wanted.any (· ≤ d.items.length)

/-- Hands out records from the buffer, as many as are wanted. -/
def serve (d : Draw) : Draw :=
  let share := match d.wanted with
    | none => d.cursor.buffer.length
    | some n => n - d.items.length
  { d with
    cursor := { d.cursor with buffer := d.cursor.buffer.drop share }
    items := d.items ++ (d.cursor.buffer.take share).map .ok }

/-- The page that has to be got next. -/
def page (d : Draw) : PageId := ⟨d.cursor.table, d.cursor.nextPage⟩

/-- Goes on to the page behind the next one. -/
def advance (d : Draw) : Draw :=
  { d with cursor := { d.cursor with nextPage := d.cursor.nextPage + 1 } }

/-- Takes in the records of a page. -/
def receive (d : Draw) (p : HeapPage) : Draw :=
  { d with cursor := { d.cursor with buffer := p.records } }

/-- Hands out a failure and ends the walk. -/
def fail (d : Draw) (e : StoreError) : Draw :=
  { d with cursor := { d.cursor with failed := true }, items := d.items ++ [.error e] }

end Draw

end PageCache
