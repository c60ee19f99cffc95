-- Pages as they stand in memory. A page has two stores: the bytes of its bitmap, as they stand
-- at the head of its file page, and beside them the records, each of which knows its place.
-- Room is looked for among the records, a single slot is looked up in the bitmap, and whatever
-- fills or empties a slot writes both.
import PageCache.Page.Image

namespace PageCache

/-- A page of a table in memory, with its bitmap beside its records. -/
structure BitmapPage where
  id : PageId
  schema : Schema
  size : Nat
  /-- A bit for each slot, and the bits behind them that no slot has. -/
  bitmap : Bytes
  slots : Array (Option Record)
  /-- The transaction that has changed the page since it was last written. -/
  dirty : Option TransactionId
  /-- The bytes of the page at its last snapshot. -/
  before : Bytes
deriving DecidableEq

namespace BitmapPage

/-! ## Reading -/

/-- The number of slots. -/
def slotCount (p : BitmapPage) : Nat := p.slots.size

/-- The number of empty slots. -/
def freeCount (p : BitmapPage) : Nat := p.slots.countP Option.isNone

/-- The place of a slot. -/
def locate (p : BitmapPage) (slot : Nat) : RecordId := ⟨p.id, UInt16.ofNat slot⟩

/-- The bitmap says that the slot holds a record. -/
def isUsed (p : BitmapPage) (slot : Nat) : Bool := slot < p.slotCount && p.bitmap.bit slot

/-- The record in a slot. -/
def recordAt (p : BitmapPage) (slot : Nat) : Option Record := p.slots[slot]?.join

/-- All records, in the order of their slots. -/
def records (p : BitmapPage) : List Record := p.slots.toList.filterMap fun slot => slot

/-- The record has the page's schema and fits it. -/
def accepts (p : BitmapPage) (r : Record) : Bool := r.schema = p.schema && r.fits

/-! ## Changes -/

/-- Stores a record in the lowest slot without one, and tells its place. -/
def insert (p : BitmapPage) (r : Record) : BitmapPage × Except StoreError RecordId :=
  if !p.accepts r then (p, .error (.schemaMismatch p.id))
  else
    match p.slots.findIdx? Option.isNone with
    | none => (p, .error (.pageFull p.id))
    | some slot =>
      let stored := { r with location := some (p.locate slot) }
      ({ p with
          bitmap := p.bitmap.setBit slot true
          slots := p.slots.setIfInBounds slot (some stored) },
        .ok (p.locate slot))

/-- Empties the slot at a place, if the bitmap says that it is used. -/
def delete (p : BitmapPage) (location : Option RecordId) : BitmapPage × Except StoreError Unit :=
  match location with
  | none => (p, .error .noLocation)
  | some place =>
    let slot := place.slot.toNat
    if place.page ≠ p.id || p.slotCount ≤ slot then (p, .error (.notOnPage place p.id))
    else if !p.isUsed slot then (p, .error (.slotEmpty p.id place.slot))
    else
      ({ p with
          bitmap := p.bitmap.setBit slot false
          slots := p.slots.setIfInBounds slot none },
        .ok ())

/-- Notes that a transaction has changed the page. -/
def markDirty (p : BitmapPage) (txn : TransactionId) : BitmapPage := { p with dirty := some txn }

/-- Notes that the page is as it was last written. -/
def markClean (p : BitmapPage) : BitmapPage := { p with dirty := none }

/-! ## Bytes -/

/-- The bytes of one slot. A record that cannot be written leaves zeros. -/
def slotBytes (p : BitmapPage) : Option Record → Bytes
  | some r => r.encode.getD (Bytes.zeros p.schema.width)
  | none => Bytes.zeros p.schema.width

/-- The bytes of a page: the bitmap, the slots, zeros. -/
def image (p : BitmapPage) : Bytes :=
  let used := p.bitmap ++ p.slots.toList.flatMap p.slotBytes
  used ++ Bytes.zeros (p.size - used.length)

/-- Reads `left` more slots from the bytes behind the bitmap. The record of a slot whose bit is
set is read and told its place. The error is the number of the first one that cannot be read. -/
def readSlots (id : PageId) (schema : Schema) (bitmap body : Bytes) :
    (left : Nat) → Array (Option Record) → Except Nat (Array (Option Record))
  | 0, read => .ok read
  | left + 1, read =>
    let slot := read.size
    if bitmap.bit slot then
      match (Record.decode schema ((body.drop (slot * schema.width)).take schema.width)).1 with
      | some r =>
        let stored := { r with location := some ⟨id, UInt16.ofNat slot⟩ }
        readSlots id schema bitmap body left (read.push (some stored))
      | none => .error slot
    else readSlots id schema bitmap body left (read.push none)

/-- The page with the given bytes, clean, with these bytes as its snapshot. The bitmap is taken
over as it is. -/
def ofImage (id : PageId) (schema : Schema) (size : Nat) (data : Bytes) :
    Except StoreError BitmapPage :=
  if data.length ≠ size then .error (.corruptPage id (.wrongLength size data.length))
  else
    let header := Geometry.header size schema.width
    let bitmap := data.take header
    match readSlots id schema bitmap (data.drop header) (Geometry.slots size schema.width) #[] with
    | .error slot => .error (.corruptPage id (.unreadableSlot slot))
    | .ok slots => .ok ⟨id, schema, size, bitmap, slots, none, data⟩

/-- The page as it was at its last snapshot. -/
def beforeImage (p : BitmapPage) : Except StoreError BitmapPage :=
  ofImage p.id p.schema p.size p.before

/-- Takes a snapshot: from now on the page was like this before. -/
def snapshot (p : BitmapPage) : BitmapPage := { p with before := p.image }

end BitmapPage

end PageCache
