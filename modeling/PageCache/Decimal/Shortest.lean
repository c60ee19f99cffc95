-- The shortest decimal text of a double: the fewest digits that read back as the same
-- number, of these the nearest one. The text is always positional, never with an
-- exponent.
import PageCache.Decimal.Double

namespace PageCache

namespace Decimal

/-- The real numbers that read as one double, all over one denominator: from `low` to
`high`, the ends included or not, with the double itself at `mid`. -/
structure Interval where
  low : Nat
  mid : Nat
  high : Nat
  denominator : Nat
  closed : Bool
deriving DecidableEq, Repr

/-- The interval around a finite double other than zero. Its ends lie half way to the
neighbours; below a power of two the neighbours are twice as dense. An end reads as the
even neighbour. -/
def Interval.around (d : Double) : Interval :=
  let m := d.significand
  let below := if d.fractionField = 0 ∧ d.exponentField > 1 then 1 else 2
  let up := 1 <<< (d.gridField - 1077)
  ⟨(4 * m - below) * up, 4 * m * up, (4 * m + 2) * up, 1 <<< (1077 - d.gridField), m % 2 = 0⟩

/-- A whole number of units `1 / scale` lies in the interval. -/
def Interval.holds (i : Interval) (digits unit scale : Nat) : Bool :=
  let x := digits * unit * i.denominator
  if i.closed then i.low * scale ≤ x && x ≤ i.high * scale
  else i.low * scale < x && x < i.high * scale

/-- A decimal `digits * 10 ^ exponent`. -/
structure Number where
  digits : Nat
  exponent : Int
deriving DecidableEq, Repr

/-- The points of the grid of `10 ^ exponent` next to the middle, if one of them lies in
the interval: the nearer one if both do, and of two equally near ones the upper. -/
def Interval.onGrid (i : Interval) (exponent : Int) : Option Number :=
  let unit := Nat.pow 10 exponent.toNat
  let scale := Nat.pow 10 (-exponent).toNat
  let size := unit * i.denominator
  let lower := i.mid * scale / size
  let offset := i.mid * scale % size
  match i.holds lower unit scale, i.holds (lower + 1) unit scale with
  | true, true => some ⟨if 2 * offset < size then lower else lower + 1, exponent⟩
  | true, false => some ⟨lower, exponent⟩
  | false, true => some ⟨lower + 1, exponent⟩
  | false, false => none

/-- The point on the coarsest grid that has one, looking at `fuel` grids from
`10 ^ exponent` downwards. The coarsest grid gives the fewest digits. -/
def Interval.coarsest (i : Interval) : (fuel : Nat) → (exponent : Int) → Number
  | 0, exponent => ⟨0, exponent⟩
  | fuel + 1, exponent =>
    match i.onGrid exponent with
    | some n => n
    | none => i.coarsest fuel (exponent - 1)

/-- The shortest decimal of a finite double other than zero. No power of ten above
`10 ^ 309` and no grid below `10 ^ -343` is ever needed. -/
def shortest (d : Double) : Number :=
  let i := Interval.around d
  let whole := (Nat.repr (i.mid / i.denominator)).length
  i.coarsest (whole + 344) whole

/-- Writes a decimal out in full, without an exponent. -/
def Number.positional (n : Number) : String :=
  let text := Nat.repr n.digits
  let places := (-n.exponent).toNat
  if n.exponent ≥ 0 then text ++ String.ofList (List.replicate n.exponent.toNat '0')
  else if text.length > places then
    String.ofList (text.toList.take (text.length - places)) ++ "." ++
      String.ofList (text.toList.drop (text.length - places))
  else "0." ++ String.ofList (List.replicate (places - text.length) '0') ++ text

end Decimal

/-- The text of a double: the shortest decimal that reads back as the same number. -/
def Double.text (d : Double) : String :=
  if d.isNaN then "NaN"
  else
    let sign := if d.isNegative then "-" else ""
    if d.isInfinite then sign ++ "inf"
    else if d.isZero then sign ++ "0"
    else sign ++ (Decimal.shortest d).positional

end PageCache
