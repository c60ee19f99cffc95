-- The two ways to use a page. Readers may share a page; a writer has it alone.

namespace PageCache

/-- What a transaction may do with a page that it has locked. -/
inductive Access where
  | readOnly
  | readWrite
deriving DecidableEq, Repr, Inhabited

namespace Access

/-- Holding `a` is enough for a request of `b`. -/
def covers (a b : Access) : Bool := a = .readWrite || a = b

/-- Two transactions may hold `a` and `b` on one page at once: only two readers may. -/
def compatible (a b : Access) : Bool := a = .readOnly && b = .readOnly

/-- The text of an access. -/
def label : Access → String
  | .readOnly => "READ_ONLY"
  | .readWrite => "READ_WRITE"

end Access

end PageCache
