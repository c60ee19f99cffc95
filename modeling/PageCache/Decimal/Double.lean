-- Floating-point numbers of 64 bits, kept as their bits: a number keeps its sign of
-- zero and a not-a-number its payload.

namespace PageCache

/-- A binary floating-point number of 64 bits: sign, 11 bits of exponent, 52 of fraction. -/
structure Double where
  bits : UInt64
deriving DecidableEq, Repr, Inhabited

namespace Double

/-- The sign bit is set. -/
def isNegative (d : Double) : Bool := d.bits.toNat >>> 63 = 1

/-- The eleven bits of the exponent. -/
def exponentField (d : Double) : Nat := (d.bits.toNat >>> 52) % 2048

/-- The low 52 bits. -/
def fractionField (d : Double) : Nat := d.bits.toNat % (1 <<< 52)

/-- Neither finite nor infinite. -/
def isNaN (d : Double) : Bool := d.exponentField = 2047 && d.fractionField ≠ 0

/-- One of the two infinities. -/
def isInfinite (d : Double) : Bool := d.exponentField = 2047 && d.fractionField = 0

/-- One of the two zeros. -/
def isZero (d : Double) : Bool := d.exponentField = 0 && d.fractionField = 0

/-- Equality of numbers: a not-a-number equals nothing, and the two zeros are equal. -/
def equal (a b : Double) : Bool :=
  !a.isNaN && !b.isNaN && (a = b || (a.isZero && b.isZero))

/-- The whole number `m` of a finite double of size `m * 2 ^ (e - 1075)`, where `e` is its
exponent field, at least 1. -/
def significand (d : Double) : Nat :=
  if d.exponentField = 0 then d.fractionField else (1 <<< 52) + d.fractionField

/-- The exponent field of the binary grid on which a finite double stands. -/
def gridField (d : Double) : Nat := max 1 d.exponentField

end Double

end PageCache
