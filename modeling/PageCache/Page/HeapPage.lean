-- Heap pages: a page is an array of slots, each empty or with the values of one record.
-- A new record goes to the lowest empty slot. A page also knows which transaction has
-- changed it, and the bytes it had at its last snapshot.
import PageCache.Bytes.BigEndian
import PageCache.Page.Geometry
import PageCache.Row.Record
import PageCache.StoreError

namespace PageCache

/-- The content of an occupied slot: one value for each column. -/
abbrev Row := List Value

/-- A page of a table in memory. -/
structure HeapPage where
  id : PageId
  schema : Schema
  size : Nat
  slots : Array (Option Row)
  /-- The bits behind the one of the last slot, in the last byte of the header. They have
  no meaning and stay as they were read. -/
  spare : List Bool
  /-- The transaction that has changed the page since it was last written. -/
  dirty : Option TransactionId
  /-- The bytes of the page at its last snapshot. -/
  before : Bytes
deriving DecidableEq

namespace HeapPage

/-- The number of slots. -/
def slotCount (p : HeapPage) : Nat := p.slots.size

/-- The number of empty slots. -/
def freeCount (p : HeapPage) : Nat := p.slots.countP Option.isNone

/-- The place of a slot. -/
def locate (p : HeapPage) (slot : Nat) : RecordId := ⟨p.id, UInt16.ofNat slot⟩

/-- The slot holds a record. -/
def isUsed (p : HeapPage) (slot : Nat) : Bool := (p.slots[slot]?.join).isSome

/-- The record in a slot, with its place. -/
def recordAt (p : HeapPage) (slot : Nat) : Option Record :=
  p.slots[slot]?.join.map fun row => ⟨p.schema, row, some (p.locate slot)⟩

/-- All records, in the order of their slots. -/
def records (p : HeapPage) : List Record := (List.range p.slotCount).filterMap p.recordAt

/-- The record has the page's schema and fits it. -/
def accepts (p : HeapPage) (r : Record) : Bool := r.schema = p.schema && r.fits

/-- Stores a record in the lowest empty slot. The record must have the page's schema and
fit it; where it was stored before does not matter. -/
def insert (p : HeapPage) (r : Record) : Except StoreError (HeapPage × RecordId) :=
  if !p.accepts r then .error (.schemaMismatch p.id)
  else
    match p.slots.findIdx? Option.isNone with
    | none => .error (.pageFull p.id)
    | some slot =>
      .ok ({ p with slots := p.slots.setIfInBounds slot (some r.values) }, p.locate slot)

/-- Empties the slot at a place. -/
def delete (p : HeapPage) (location : Option RecordId) : Except StoreError HeapPage :=
  match location with
  | none => .error .noLocation
  | some place =>
    let slot := place.slot.toNat
    if place.page ≠ p.id || p.slotCount ≤ slot then .error (.notOnPage place p.id)
    else if !p.isUsed slot then .error (.slotEmpty p.id place.slot)
    else .ok { p with slots := p.slots.setIfInBounds slot none }

/-- Notes that a transaction has changed the page. -/
def markDirty (p : HeapPage) (txn : TransactionId) : HeapPage := { p with dirty := some txn }

/-- Notes that the page is as it was last written. -/
def markClean (p : HeapPage) : HeapPage := { p with dirty := none }

/-- Stores copies of a record until one is refused: the number of copies, and the refusal.
A record that the page accepts fills all empty slots. -/
def fill (p : HeapPage) (r : Record) : HeapPage × Nat × StoreError :=
  if !p.accepts r then (p, 0, .schemaMismatch p.id)
  else ({ p with slots := p.slots.map (·.or (some r.values)) }, p.freeCount, .pageFull p.id)

end HeapPage

end PageCache
