-- How a cache is set up, and the page size for tables that name none.

namespace PageCache

/-- The settings of a cache. The limit for a wait is in milliseconds; without one a
transaction waits as long as it takes. -/
structure Config where
  capacity : Nat
  lruK : Nat
  lockWaitMs : Option Nat
deriving DecidableEq, Repr

/-- Fifty pages, two uses, no limit. -/
def Config.standard : Config := ⟨50, 2, none⟩

instance : Inhabited Config := ⟨Config.standard⟩

/-- The largest capacity of a cache. The places of the pages are set aside in one piece: a
power of two of cells with 17 bytes each, of which seven in eight may be used. With one page
more they would take 2 ^ 63 bytes and could not be held. -/
def Config.maxCapacity : Nat := 7 <<< 55

namespace PageSize

/-- The page size of tables that name none. -/
def standard : Nat := 4096

/-- A page size that was asked for. A page has at least one byte. -/
def choose? (size : Nat) : Option Nat := if size = 0 then none else some size

end PageSize

end PageCache
