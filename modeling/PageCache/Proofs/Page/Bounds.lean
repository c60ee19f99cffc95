-- Reading a page with a look at every index before it is used: the bytes of a field, the bits of
-- the header, the ranges of the slots. None of them is ever outside of the bytes that are read, so
-- this gives what reading without the looks does.
import PageCache.Proofs.Page.Bitmap

namespace PageCache

/-! ## Bytes at places -/

namespace Bytes

variable {bs : Bytes} {i n start stop : Nat}

/-- The bytes from `start` up to `stop`. There is nothing where the string ends before. -/
def slice? (bs : Bytes) (start stop : Nat) : Option Bytes :=
  if start ≤ stop ∧ stop ≤ bs.length then some ((bs.drop start).take (stop - start)) else none

/-- The first bytes and the others. There is nothing where the string has fewer. -/
def split? (bs : Bytes) (n : Nat) : Option (Bytes × Bytes) :=
  if n ≤ bs.length then some (bs.take n, bs.drop n) else none

/-- The bit `i`. There is nothing where its byte is not there. -/
def bit? (bs : Bytes) (i : Nat) : Option Bool :=
  bs[i / 8]?.map fun b => (b >>> UInt8.ofNat (i % 8)) &&& 1 == 1

theorem slice?_of_le (hstart : start ≤ stop) (hstop : stop ≤ bs.length) :
    bs.slice? start stop = some ((bs.drop start).take (stop - start)) := by
  rw [slice?, if_pos ⟨hstart, hstop⟩]

theorem split?_of_le (h : n ≤ bs.length) : bs.split? n = some (bs.take n, bs.drop n) := by
  rw [split?, if_pos h]

theorem bit?_of_lt (h : i < 8 * bs.length) : bs.bit? i = some (bs.bit i) := by
  have hlt : i / 8 < bs.length := by omega
  simp [bit?, bit, hlt]

end Bytes

/-! ## Fields -/

namespace Value

variable {type : ColumnType} {input : Bytes} {width : Nat}

/-- The number in front of an input, and the others of its bytes. -/
def number? (width : Nat) (input : Bytes) : Option (Nat × Bytes) :=
  (input.split? width).map fun (bs, rest) => (Bytes.bigEndian bs, rest)

/-- Reads a field with a look at every index. -/
def decodeChecked (type : ColumnType) (input : Bytes) : Option (Option Value × Bytes) :=
  if input.length < type.size then some (none, input)
  else
    match type with
    | .boolean => do
      let (n, rest) ← number? 1 input
      return (some (.boolean (n ≠ 0)), rest)
    | .smallInt => do
      let (n, rest) ← number? 2 input
      return (some (.smallInt (UInt16.ofNat n).toInt16), rest)
    | .integer => do
      let (n, rest) ← number? 4 input
      return (some (.integer (UInt32.ofNat n).toInt32), rest)
    | .bigInt => do
      let (n, rest) ← number? 8 input
      return (some (.bigInt (UInt64.ofNat n).toInt64), rest)
    | .double => do
      let (n, rest) ← number? 8 input
      return (some (.double ⟨UInt64.ofNat n⟩), rest)
    | .varChar limit => do
      let (length, rest) ← number? 2 input
      if length > limit.toNat then return (none, rest)
      let (room, rest) ← rest.split? limit.toNat
      return ((ofUtf8? (room.take length)).map .text, rest)

theorem number?_of_le (h : width ≤ input.length) :
    number? width input = some (number width input, input.drop width) := by
  rw [number?, Bytes.split?_of_le h]
  rfl

/-- A field that is there is read within its bytes. -/
theorem decodeChecked_eq (type : ColumnType) (input : Bytes) :
    decodeChecked type input = some (decode type input) := by
  unfold decodeChecked decode
  split
  · rfl
  · rename_i hlen
    cases type with
    | varChar limit =>
      simp only [ColumnType.size, Nat.not_lt] at hlen
      have hroom : limit.toNat ≤ (input.drop 2).length := by
        rw [List.length_drop]
        omega
      simp only [decodeText, number?_of_le (Nat.le_trans (Nat.le_add_right 2 _) hlen),
        Option.bind_eq_bind, Option.bind_some, Bytes.split?_of_le hroom]
      split
      · rfl
      · rename_i hlimit
        rw [List.take_take, Nat.min_eq_left (Nat.not_lt.1 hlimit)]
        rfl
    | _ =>
      simp only [ColumnType.size, Nat.not_lt] at hlen
      simp [number?_of_le hlen]

end Value

/-! ## Records -/

namespace Record

/-- Reads fields with a look at every index. -/
def decodeFieldsChecked : List ColumnType → Bytes → Option (Option (List Value) × Bytes)
  | [], input => some (some [], input)
  | t :: types, input => do
    match ← Value.decodeChecked t input with
    | (none, rest) => return (none, rest)
    | (some v, rest) =>
      match ← decodeFieldsChecked types rest with
      | (none, rest) => return (none, rest)
      | (some vs, rest) => return (some (v :: vs), rest)

theorem decodeFieldsChecked_eq (types : List ColumnType) (input : Bytes) :
    decodeFieldsChecked types input = some (decodeFields types input) := by
  induction types generalizing input with
  | nil => rfl
  | cons t types ih =>
    unfold decodeFieldsChecked decodeFields
    rw [Value.decodeChecked_eq]
    rcases Value.decode t input with ⟨_ | v, rest⟩
    · rfl
    · rcases hothers : decodeFields types rest with ⟨_ | vs, last⟩ <;> simp [ih, hothers]

end Record

/-! ## Pages -/

namespace HeapPage

variable {schema : Schema} {data header : Bytes} {bits : List Bool} {read : Array (Option Row)}
  {left slot : Nat}

/-- Reads the slots from `slot` on, as many as are left: its bit is looked up in the header and
its range in the bytes of the page. -/
def readSlotsChecked (schema : Schema) (data header : Bytes) :
    (left slot : Nat) → Array (Option Row) → Option (Except Nat (Array (Option Row)))
  | 0, _, read => some (.ok read)
  | left + 1, slot, read => do
    if ← header.bit? slot then
      let start := header.length + slot * schema.width
      let field ← data.slice? start (start + schema.width)
      match ← Record.decodeFieldsChecked schema.types field with
      | (some row, _) => readSlotsChecked schema data header left (slot + 1) (read.push (some row))
      | (none, _) => return .error slot
    else readSlotsChecked schema data header left (slot + 1) (read.push none)

/-- The page with the given bytes, read with a look at every index. There is nothing where one of
them is outside of the bytes. -/
def ofImageChecked (id : PageId) (schema : Schema) (size : Nat) (data : Bytes) :
    Option (Except StoreError HeapPage) :=
  if data.length ≠ size then some (.error (.corruptPage id (.wrongLength size data.length)))
  else do
    let header ← data.slice? 0 (Geometry.header size schema.width)
    let count := Geometry.slots size schema.width
    match ← readSlotsChecked schema data header count 0 #[] with
    | .error slot => return .error (.corruptPage id (.unreadableSlot slot))
    | .ok slots =>
      return .ok ⟨id, schema, size, slots, (Bytes.unpackBits header).drop count, none, data⟩

/-- Slot by slot, the bits and ranges that are looked up are those that reading along the bytes
comes to. -/
theorem readSlotsChecked_eq (hbits : ∀ i < bits.length, header.bit? i = bits[i]?)
    (hroom : header.length + bits.length * schema.width ≤ data.length)
    (hleft : slot + left = bits.length) (hread : read.size = slot) :
    readSlotsChecked schema data header left slot read =
      some (readSlots.go schema (bits.drop slot)
        (data.drop (header.length + slot * schema.width)) read) := by
  induction left generalizing slot read with
  | zero =>
    rw [List.drop_eq_nil_of_le (by omega)]
    rfl
  | succ left ih =>
    have hslot : slot < bits.length := by omega
    have hfit : (slot + 1) * schema.width ≤ bits.length * schema.width :=
      Nat.mul_le_mul_right _ hslot
    rw [Nat.succ_mul] at hfit
    have hfield := @Bytes.slice?_of_le data _ _
      (Nat.le_add_right (header.length + slot * schema.width) schema.width) (by omega)
    have hnext (more : Option Row) := @ih (read.push more) (slot + 1) (by omega)
      (by rw [Array.size_push, hread])
    have hahead : header.length + (slot + 1) * schema.width =
        header.length + slot * schema.width + schema.width := by rw [Nat.succ_mul]; omega
    unfold readSlotsChecked
    rw [List.drop_eq_getElem_cons hslot, hbits slot hslot, List.getElem?_eq_getElem hslot]
    cases bits[slot] with
    | false => simp [readSlots.go, hnext, hahead, List.drop_drop]
    | true =>
      rw [Nat.add_sub_cancel_left] at hfield
      simp only [Option.bind_eq_bind, Option.bind_some, if_true, hfield,
        Record.decodeFieldsChecked_eq, readSlots.go, readRow]
      rcases Record.decodeFields schema.types
        ((data.drop (header.length + slot * schema.width)).take schema.width) with ⟨_ | row, rest⟩
      · simp [hread]
      · simp [hnext, hahead, List.drop_drop]

/-- Reading a page looks at places within its bytes only. -/
theorem ofImageChecked_eq (id : PageId) (schema : Schema) (size : Nat) (data : Bytes) :
    ofImageChecked id schema size data = some (ofImage id schema size data) := by
  unfold ofImageChecked ofImage
  split
  · rfl
  · rename_i hlen
    rw [ne_eq, Decidable.not_not] at hlen
    have hfit := @Geometry.header_add_slots_le size schema.width
    have hle := @Geometry.slots_le_header size schema.width
    have hheader := @length_header schema size data hlen
    have hcount := @length_slotBits schema size data hlen
    dsimp only
    generalize Geometry.header size schema.width = header at *
    generalize Geometry.slots size schema.width = count at *
    have hbits : ∀ i < ((Bytes.unpackBits (data.take header)).take count).length,
        Bytes.bit? (data.take header) i =
          ((Bytes.unpackBits (data.take header)).take count)[i]? := by
      intro i hi
      rw [hcount] at hi
      have hin : i < 8 * (data.take header).length := by omega
      rw [Bytes.bit?_of_lt hin, List.getElem?_take_of_lt hi, Bytes.unpackBits_getElem? hin]
    have hslots : readSlotsChecked schema data (data.take header) count 0 #[] = _ :=
      readSlotsChecked_eq hbits (by rw [hheader, hcount, hlen]; exact hfit)
        (by rw [hcount]; omega) rfl
    rw [Bytes.slice?_of_le (Nat.zero_le _) (by omega)]
    simp only [List.drop_zero, Nat.sub_zero, Option.bind_eq_bind, Option.bind_some, hslots]
    rw [readSlots, hheader, Nat.zero_mul, Nat.add_zero]
    rcases readSlots.go schema ((Bytes.unpackBits (data.take header)).take count)
      (data.drop header) #[] with slot | slots <;> rfl

end HeapPage

end PageCache
