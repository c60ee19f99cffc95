-- How a page is divided: one bit for each slot in front, then the slots. The number of
-- slots is the largest for which bits and slots fit into the page.

namespace PageCache

namespace Geometry

/-- Slots have numbers of 16 bits, so a page has at most this many. -/
def maxSlots : Nat := 65536

/-- The number of slots of `width` bytes on a page: each takes its width and one bit. -/
def slots (pageSize width : Nat) : Nat := min (pageSize * 8 / (width * 8 + 1)) maxSlots

/-- The bytes that hold the bits of the slots. -/
def header (pageSize width : Nat) : Nat := (slots pageSize width + 7) / 8

/-- The slots and the bytes of the header, if the bits of the page and of a slot can be
counted in words of 64 bits. -/
def measure? (pageSize width : Nat) : Option (Nat × Nat) :=
  if pageSize * 8 < UInt64.size ∧ width * 8 < UInt64.size then
    some (slots pageSize width, header pageSize width)
  else none

end Geometry

end PageCache
