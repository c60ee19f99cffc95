-- Drafts: records whose values are given one by one, in order or by name.
import PageCache.Row.Record

namespace PageCache

/-- A record in the making: the values given so far, and the next position. -/
structure Draft where
  schema : Schema
  values : List (Option Value)
  next : Nat
deriving DecidableEq

namespace Draft

/-- A draft without values. -/
def start (schema : Schema) : Draft :=
  ⟨schema, List.replicate schema.columns.length none, 0⟩

/-- Gives the value of the next position; past the last column nothing happens. -/
def push (d : Draft) (v : Value) : Draft :=
  if d.next < d.values.length then
    { d with values := d.values.set d.next (some v), next := d.next + 1 }
  else d

/-- Gives the value of the column with a name, if there is one. The next position stays. -/
def set (d : Draft) (name : String) (v : Value) : Draft :=
  match d.schema.find? name with
  | some i => { d with values := d.values.set i (some v) }
  | none => d

/-- The record, once every column has a value. -/
def record? (d : Draft) : Option Record :=
  if d.values.all Option.isSome then Record.ofValues? d.schema (d.values.filterMap id) else none

end Draft

end PageCache
