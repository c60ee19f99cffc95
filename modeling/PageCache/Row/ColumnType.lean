-- The types of columns. Each type has one width in bytes, the same for all its values.

namespace PageCache

/-- The type of a column. A `varChar n` holds texts of at most `n` bytes. -/
inductive ColumnType where
  | boolean
  | smallInt
  | integer
  | bigInt
  | double
  | varChar (limit : UInt16)
deriving DecidableEq, Repr, Inhabited

namespace ColumnType

/-- The width of a field in bytes. A text field starts with two bytes for its length. -/
def size : ColumnType → Nat
  | .boolean => 1
  | .smallInt => 2
  | .integer => 4
  | .bigInt => 8
  | .double => 8
  | .varChar n => 2 + n.toNat

/-- The name of a type. -/
def label : ColumnType → String
  | .boolean => "BOOLEAN"
  | .smallInt => "SMALLINT"
  | .integer => "INTEGER"
  | .bigInt => "BIGINT"
  | .double => "DOUBLE"
  | .varChar n => s!"VARCHAR({n.toNat})"

end ColumnType

end PageCache
