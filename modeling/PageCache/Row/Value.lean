-- Values and their bytes. A value that fits its column is written in exactly the width
-- of the column; reading a field gives a value that fits, or fails and says how much of
-- the input it has used up.
import PageCache.Bytes.BigEndian
import PageCache.Decimal.Shortest
import PageCache.Row.ColumnType

namespace PageCache

/-- A value of a field. -/
inductive Value where
  | boolean (b : Bool)
  | smallInt (n : Int16)
  | integer (n : Int32)
  | bigInt (n : Int64)
  | double (d : Double)
  | text (s : String)
deriving DecidableEq, Inhabited

namespace Value

/-- The text of a value; texts stand in single quotes as they are. -/
def label : Value → String
  | .boolean b => if b then "true" else "false"
  | .smallInt n => toString n.toInt
  | .integer n => toString n.toInt
  | .bigInt n => toString n.toInt
  | .double d => d.text
  | .text s => "'" ++ s ++ "'"

/-- Equality of values: of one kind and equal, where doubles are compared as numbers. -/
def equal : Value → Value → Bool
  | .double a, .double b => a.equal b
  | a, b => a = b

/-- The bytes of a text. -/
def utf8 (s : String) : Bytes := s.toByteArray.data.toList

/-- The text with the given bytes, if they are well-formed UTF-8. -/
def ofUtf8? (bs : Bytes) : Option String := String.fromUTF8? ⟨bs.toArray⟩

/-- The value is of the column's type and within its limit. -/
def fits : Value → ColumnType → Bool
  | .boolean _, .boolean => true
  | .smallInt _, .smallInt => true
  | .integer _, .integer => true
  | .bigInt _, .bigInt => true
  | .double _, .double => true
  | .text s, .varChar n => (utf8 s).length ≤ n.toNat
  | _, _ => false

/-- The bytes of a value in a column that it fits. Numbers are written with the most
significant byte first, texts as their length, their bytes and zeros up to the limit. -/
def bytes : Value → ColumnType → Bytes
  | .boolean b, _ => [if b then 1 else 0]
  | .smallInt n, _ => Bytes.ofNat 2 n.toUInt16.toNat
  | .integer n, _ => Bytes.ofNat 4 n.toUInt32.toNat
  | .bigInt n, _ => Bytes.ofNat 8 n.toUInt64.toNat
  | .double d, _ => Bytes.ofNat 8 d.bits.toNat
  | .text s, type =>
    let content := utf8 s
    Bytes.ofNat 2 content.length ++ content ++ Bytes.zeros (type.size - 2 - content.length)

/-- The field of a value, if it fits the column. -/
def encode (v : Value) (type : ColumnType) : Option Bytes :=
  if v.fits type then some (v.bytes type) else none

/-- The number in the first `width` bytes of the input. -/
def number (width : Nat) (input : Bytes) : Nat := Bytes.bigEndian (input.take width)

/-- Reads a text field of limit `n` from an input that is long enough: two bytes of
length, then `n` bytes of which the first ones are the text. -/
def decodeText (limit : Nat) (input : Bytes) : Option Value × Bytes :=
  let length := number 2 input
  let rest := input.drop 2
  if length > limit then (none, rest)
  else ((ofUtf8? (rest.take length)).map .text, rest.drop limit)

/-- Reads a field from the front of the input: the value, if there is one, and the rest of
the input. An input that is too short is left as it is; a length above the limit costs
its two bytes, and a text that is not well-formed the whole field. -/
def decode (type : ColumnType) (input : Bytes) : Option Value × Bytes :=
  if input.length < type.size then (none, input)
  else
    match type with
    | .boolean => (some (.boolean (number 1 input ≠ 0)), input.drop 1)
    | .smallInt => (some (.smallInt (UInt16.ofNat (number 2 input)).toInt16), input.drop 2)
    | .integer => (some (.integer (UInt32.ofNat (number 4 input)).toInt32), input.drop 4)
    | .bigInt => (some (.bigInt (UInt64.ofNat (number 8 input)).toInt64), input.drop 8)
    | .double => (some (.double ⟨UInt64.ofNat (number 8 input)⟩), input.drop 8)
    | .varChar n => decodeText n.toNat input

end Value

end PageCache
