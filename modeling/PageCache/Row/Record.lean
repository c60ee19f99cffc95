-- Records: a value for each column of a schema, and the place where the record is
-- stored, if it is. A record that fits its schema is written in exactly the schema's
-- width; one that does not is not written at all.
import PageCache.Ids
import PageCache.Row.Schema
import PageCache.Row.Value

namespace PageCache

/-- A record of a table. -/
structure Record where
  schema : Schema
  values : List Value
  location : Option RecordId
deriving DecidableEq, Inhabited

namespace Record

/-- A record that is not stored anywhere. It needs one value for each column. -/
def ofValues? (schema : Schema) (values : List Value) : Option Record :=
  if values.length = schema.columns.length then some ⟨schema, values, none⟩ else none

/-- The value of the column with a name. -/
def get? (r : Record) (name : String) : Option Value :=
  (r.schema.find? name).bind (r.values[·]?)

/-- Each value fits its column. -/
def fits (r : Record) : Bool := (r.schema.types.zip r.values).all fun (t, v) => v.fits t

/-- Equality of records: of schemas and values, wherever they are stored. -/
def equal (a b : Record) : Bool :=
  a.schema = b.schema && a.values.length = b.values.length &&
    (a.values.zip b.values).all fun (v, w) => v.equal w

/-- The fields of values in columns that they fit. -/
def fieldBytes (types : List ColumnType) (values : List Value) : Bytes :=
  (types.zip values).flatMap fun (t, v) => v.bytes t

/-- The bytes of a record, all of them or none. -/
def encode (r : Record) : Option Bytes :=
  if r.fits then some (fieldBytes r.schema.types r.values) else none

/-- Reads a field for each type and stops at the first one that cannot be read. -/
def decodeFields : List ColumnType → Bytes → Option (List Value) × Bytes
  | [], input => (some [], input)
  | t :: types, input =>
    match Value.decode t input with
    | (none, rest) => (none, rest)
    | (some v, rest) =>
      match decodeFields types rest with
      | (none, rest) => (none, rest)
      | (some vs, rest) => (some (v :: vs), rest)

/-- Reads a record from the front of the input: the record, if all fields can be read, and
the rest of the input. -/
def decode (schema : Schema) (input : Bytes) : Option Record × Bytes :=
  match decodeFields schema.types input with
  | (values, rest) => (values.map (⟨schema, ·, none⟩), rest)

/-- The text of a record: its values with tabs between them. -/
def label (r : Record) : String := "\t".intercalate (r.values.map Value.label)

end Record

end PageCache
