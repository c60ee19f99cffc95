-- Records are written field by field to the end of a buffer, after a look at all of their values:
-- one that does not fit leaves nothing behind. One that fits takes the width of its schema and is
-- read back from there, whatever follows it. So records of one schema are known from their bytes.
import PageCache.Proofs.Row.Codec

namespace PageCache

namespace Value

variable {v : Value} {type : ColumnType} {buffer : Bytes}

/-- A value belongs into a column: it is of the column's type, and a text has no more bytes than
the column takes. -/
inductive Belongs : Value → ColumnType → Prop
  | boolean (b : Bool) : Belongs (.boolean b) .boolean
  | smallInt (n : Int16) : Belongs (.smallInt n) .smallInt
  | integer (n : Int32) : Belongs (.integer n) .integer
  | bigInt (n : Int64) : Belongs (.bigInt n) .bigInt
  | double (d : Double) : Belongs (.double d) .double
  | text {s : String} {limit : UInt16} :
    (utf8 s).length ≤ limit.toNat → Belongs (.text s) (.varChar limit)

theorem fits_iff : v.fits type = true ↔ v.Belongs type := by
  constructor
  · intro h
    cases v <;> cases type <;> simp only [fits, Bool.false_eq_true] at h
    case text.varChar => exact .text (by simpa using h)
    all_goals constructor
  · rintro (_ | _ | _ | _ | _ | hlen) <;> simp [fits]
    exact hlen

/-- Appends the field of a value that fits: whether it does, and the buffer. -/
def write (v : Value) (type : ColumnType) (buffer : Bytes) : Bool × Bytes :=
  match v.encode type with
  | some field => (true, buffer ++ field)
  | none => (false, buffer)

theorem write_of_fits (h : v.fits type = true) :
    v.write type buffer = (true, buffer ++ v.bytes type) := by
  simp [write, encode, h]

end Value

namespace Record

variable {types : List ColumnType} {row row' values : List Value} {r : Record}
  {buffer rest : Bytes}

/-- Each value of a record belongs into its column. -/
def IsFitting (r : Record) : Prop :=
  ∀ (i : Nat) t v, r.schema.types[i]? = some t → r.values[i]? = some v → v.Belongs t

theorem fits_iff : r.fits = true ↔ r.IsFitting := by
  simp only [fits, List.all_eq_true, IsFitting]
  constructor
  · intro h i t v ht hv
    have hmem : (t, v) ∈ r.schema.types.zip r.values :=
      List.mem_of_getElem? (List.getElem?_zip_eq_some.2 ⟨ht, hv⟩)
    exact Value.fits_iff.1 (h _ hmem)
  · rintro h ⟨t, v⟩ hmem
    obtain ⟨i, hi⟩ := List.mem_iff_getElem?.1 hmem
    obtain ⟨ht, hv⟩ := List.getElem?_zip_eq_some.1 hi
    exact Value.fits_iff.2 (h i t v ht hv)

/-! ## Writing to a buffer -/

/-- Appends one field after the other, up to the first value that does not fit. -/
def writeFields : List ColumnType → List Value → Bytes → Bool × Bytes
  | t :: types, v :: values, buffer =>
    match v.write t buffer with
    | (true, buffer) => writeFields types values buffer
    | (false, buffer) => (false, buffer)
  | _, _, buffer => (true, buffer)

/-- Appends the fields of a record if all of its values fit: whether they do, and the buffer. -/
def write (r : Record) (buffer : Bytes) : Bool × Bytes :=
  if r.fits then writeFields r.schema.types r.values buffer else (false, buffer)

/-- Where all values fit, the fields are written to the last one. -/
theorem writeFields_of_fits (h : ∀ x ∈ types.zip values, x.2.fits x.1 = true) :
    writeFields types values buffer = (true, buffer ++ fieldBytes types values) := by
  induction types generalizing values buffer with
  | nil => simp [writeFields, fieldBytes]
  | cons t types ih =>
    cases values with
    | nil => simp [writeFields, fieldBytes]
    | cons v values =>
      simp only [List.zip_cons_cons, List.mem_cons, forall_eq_or_imp] at h
      obtain ⟨hfirst, hothers⟩ := h
      simp [writeFields, Value.write_of_fits hfirst, ih hothers, fieldBytes]

/-- Writing appends the bytes of a record, if it has any. -/
theorem write_eq (r : Record) (buffer : Bytes) :
    r.write buffer = (r.encode.isSome, buffer ++ r.encode.getD []) := by
  unfold write encode
  split
  · rename_i hfits
    rw [writeFields_of_fits (by simpa [fits] using hfits)]
    rfl
  · simp

/-! ## Reading back -/

theorem encode_of_fits (h : r.fits = true) :
    r.encode = some (fieldBytes r.schema.types r.values) := by
  rw [encode, if_pos h]

theorem length_fieldBytes_of_fits (whole : r.IsWhole) (h : r.fits = true) :
    (fieldBytes r.schema.types r.values).length = r.schema.width := by
  rw [length_fieldBytes ((rowFits_iff r).2 ⟨whole, h⟩), Schema.width_eq]

/-- A record that fits is read back from its bytes, and nothing behind them is read. -/
theorem decode_fieldBytes (whole : r.IsWhole) (h : r.fits = true) :
    decode r.schema (fieldBytes r.schema.types r.values ++ rest) =
      (some { r with location := none }, rest) := by
  unfold decode
  rw [decodeFields_fieldBytes ((rowFits_iff r).2 ⟨whole, h⟩)]
  rfl

/-- Rows that fit are known from their bytes. -/
theorem RowFits.eq_of_fieldBytes (h : RowFits types row) (h' : RowFits types row')
    (heq : fieldBytes types row = fieldBytes types row') : row = row' := by
  have hread : decodeFields types (fieldBytes types row ++ []) = (some row, []) :=
    decodeFields_fieldBytes h
  rw [heq, decodeFields_fieldBytes h'] at hread
  simpa using hread.symm

/-! ## The law -/

/-- A record whose values belong into their columns is written in the width of its schema,
whatever the buffer holds, and is read back bit for bit, whatever follows it. Any other record
leaves the buffer as it is. Two such records of one schema that have the same bytes have the same
values. -/
theorem written_whole_or_not_at_all (r : Record) (whole : r.IsWhole) :
    (r.IsFitting → ∃ field, r.encode = some field ∧ field.length = r.schema.width ∧
      (∀ buffer, r.write buffer = (true, buffer ++ field)) ∧
      ∀ rest, decode r.schema (field ++ rest) = (some { r with location := none }, rest)) ∧
    (¬ r.IsFitting → r.encode = none ∧ ∀ buffer, r.write buffer = (false, buffer)) ∧
    (∀ r' : Record, r'.IsWhole → r'.schema = r.schema → r.IsFitting → r'.IsFitting →
      r'.encode = r.encode → r'.values = r.values) := by
  simp only [← fits_iff]
  refine ⟨?_, ?_, ?_⟩
  · intro h
    have hencode := encode_of_fits h
    refine ⟨_, hencode, length_fieldBytes_of_fits whole h, ?_, ?_⟩
    · intro buffer
      simp [write_eq, hencode]
    · intro rest
      exact decode_fieldBytes whole h
  · intro h
    have hencode : r.encode = none := by simp [encode, h]
    refine ⟨hencode, ?_⟩
    intro buffer
    simp [write_eq, hencode]
  · intro r' whole' hschema h h' heq
    rw [encode_of_fits h, encode_of_fits h', hschema, Option.some.injEq] at heq
    have hrow := (rowFits_iff r).2 ⟨whole, h⟩
    have hrow' := (rowFits_iff r').2 ⟨whole', h'⟩
    rw [hschema] at hrow'
    exact hrow'.eq_of_fieldBytes hrow heq

/-- A measurement: the least integer there is, a NaN that is not the usual one, and a text of two
bytes that are one letter. -/
def measurement : Record where
  schema := ⟨[⟨"at", .bigInt⟩, ⟨"value", .double⟩, ⟨"unit", .varChar 3⟩]⟩
  values := [.bigInt (-9223372036854775808), .double ⟨0x7ff0000000000001⟩, .text "é"]
  location := none

/-- With a unit of three letters, in four bytes, the measurement is not written at all. -/
theorem measurement_written_whole_or_not_at_all :
    measurement.IsWhole ∧ measurement.IsFitting ∧
      measurement.encode =
        some [128, 0, 0, 0, 0, 0, 0, 0, 127, 240, 0, 0, 0, 0, 0, 1, 0, 2, 195, 169, 0] ∧
      (∀ rest, decode measurement.schema
        ([128, 0, 0, 0, 0, 0, 0, 0, 127, 240, 0, 0, 0, 0, 0, 1, 0, 2, 195, 169, 0] ++ rest) =
          (some measurement, rest)) ∧
      { measurement with values := [.bigInt 0, .double ⟨0⟩, .text "mér"] }.write [9] =
        (false, [9]) := by
  have hwhole : measurement.IsWhole := by decide
  have hfitting : measurement.IsFitting := fits_iff.1 (by decide +kernel)
  have hbytes : measurement.encode =
      some [128, 0, 0, 0, 0, 0, 0, 0, 127, 240, 0, 0, 0, 0, 0, 1, 0, 2, 195, 169, 0] := by
    decide +kernel
  obtain ⟨field, hfield, -, -, hread⟩ :=
    (written_whole_or_not_at_all measurement hwhole).1 hfitting
  obtain rfl : field = _ := Option.some.inj (hfield.symm.trans hbytes)
  refine ⟨hwhole, hfitting, hbytes, hread, ?_⟩
  have hlong : ¬ { measurement with
      values := [.bigInt 0, .double ⟨0⟩, .text "mér"] }.IsFitting := by
    rw [← fits_iff]
    decide +kernel
  exact ((written_whole_or_not_at_all { measurement with
    values := [.bigInt 0, .double ⟨0⟩, .text "mér"] } (by decide)).2.1 hlong).2 [9]

/-- Without the look at all values first, the fields before the one that does not fit would
stay in the buffer. -/
example : writeFields measurement.schema.types [.bigInt 1, .text "m", .text "m"] [9] =
    (false, [9, 0, 0, 0, 0, 0, 0, 0, 1]) := by decide +kernel

end Record

end PageCache
