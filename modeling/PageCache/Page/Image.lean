-- The bytes of a heap page: a header with one bit for each slot, the slots one after the
-- other, zeros up to the size of the page. Empty slots are written as zeros. Any bytes
-- of the right number are a page, except where an occupied slot cannot be read.
import PageCache.Bytes.Bits
import PageCache.Page.HeapPage

namespace PageCache

namespace HeapPage

/-- The bytes of one slot. -/
def slotBytes (p : HeapPage) : Option Row → Bytes
  | some row => ((⟨p.schema, row, none⟩ : Record).encode).getD (Bytes.zeros p.schema.width)
  | none => Bytes.zeros p.schema.width

/-- The bits of the header: which slots are occupied, then the spare bits. -/
def headerBits (p : HeapPage) : List Bool := p.slots.toList.map Option.isSome ++ p.spare

/-- The bytes of a page. -/
def image (p : HeapPage) : Bytes :=
  let used := Bytes.packBits p.headerBits ++ p.slots.toList.flatMap p.slotBytes
  used ++ Bytes.zeros (p.size - used.length)

/-- Reads a slot whose bit is set. -/
def readRow (schema : Schema) (field : Bytes) : Option Row :=
  (Record.decodeFields schema.types field).1

/-- Reads one slot for each bit from the bytes behind the header. The error is the number
of the first slot that is occupied and cannot be read. -/
def readSlots (schema : Schema) (bits : List Bool) (body : Bytes) :
    Except Nat (Array (Option Row)) :=
  go bits body #[]
where
  /-- Reads the slots that are left, behind those read already. -/
  go : List Bool → Bytes → Array (Option Row) → Except Nat (Array (Option Row))
    | [], _, read => .ok read
    | false :: bits, body, read => go bits (body.drop schema.width) (read.push none)
    | true :: bits, body, read =>
      match readRow schema (body.take schema.width) with
      | some row => go bits (body.drop schema.width) (read.push (some row))
      | none => .error read.size

/-- The page with the given bytes, clean, with these bytes as its snapshot. -/
def ofImage (id : PageId) (schema : Schema) (size : Nat) (data : Bytes) :
    Except StoreError HeapPage :=
  if data.length ≠ size then .error (.corruptPage id (.wrongLength size data.length))
  else
    let count := Geometry.slots size schema.width
    let header := Geometry.header size schema.width
    let bits := Bytes.unpackBits (data.take header)
    match readSlots schema (bits.take count) (data.drop header) with
    | .error slot => .error (.corruptPage id (.unreadableSlot slot))
    | .ok slots => .ok ⟨id, schema, size, slots, bits.drop count, none, data⟩

/-- The page as it was at its last snapshot. -/
def beforeImage (p : HeapPage) : Except StoreError HeapPage :=
  ofImage p.id p.schema p.size p.before

/-- Takes a snapshot: from now on the page was like this before. -/
def snapshot (p : HeapPage) : HeapPage := { p with before := p.image }

end HeapPage

end PageCache
