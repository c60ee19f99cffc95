-- Schemas: the columns of a table, in order. A record of the table has the columns'
-- widths one after the other.
import PageCache.Row.ColumnType

namespace PageCache

/-- A column: its name and its type. -/
structure Column where
  name : String
  type : ColumnType
deriving DecidableEq, Repr, Inhabited

/-- The columns of a table. Names may repeat. -/
structure Schema where
  columns : List Column
deriving DecidableEq, Repr, Inhabited

namespace Schema

/-- The width of a record in bytes. -/
def width (s : Schema) : Nat := s.columns.foldr (fun c n => c.type.size + n) 0

/-- The types of the columns. -/
def types (s : Schema) : List ColumnType := s.columns.map Column.type

/-- The place of the column with a name; of several columns with one name, the last. -/
def find? (s : Schema) (name : String) : Option Nat :=
  (s.columns.reverse.findIdx? (·.name = name)).map (s.columns.length - 1 - ·)

/-- The text of a schema. -/
def label (s : Schema) : String :=
  ", ".intercalate (s.columns.map fun c => s!"{c.type.label}({c.name})")

end Schema

end PageCache
