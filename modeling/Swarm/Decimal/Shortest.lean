import Swarm.Decimal.Binary

/-!
# Shortest decimal text of a double-precision number

The text has the fewest significant digits that still read back as the number
and, among those, the digits nearest to it; an exact tie goes up. It is always
positional: there is no exponent, whole numbers have no point, and a number
below one has a zero before the point.
-/

namespace Swarm.Decimal

namespace Shortest

/-- A decimal number `digits * 10 ^ exponent`. -/
structure Scaled where
  /-- The significant digits. -/
  digits : Nat
  /-- The power of ten. -/
  exponent : Int
  deriving DecidableEq, Repr

/-- The numbers that read back as a significand times a power of two, in quarters of that
power: the ends belong to it exactly if the significand is even. -/
structure Interval where
  /-- The lower end. -/
  low : Nat
  /-- The number itself. -/
  middle : Nat
  /-- The upper end. -/
  high : Nat
  /-- Whether the ends belong to the interval. -/
  closed : Bool

/-- The interval of a significand; the gap below is half as wide at the start of a range of
equally spaced numbers. -/
def Interval.of (significand : Nat) (exponent : Int) : Interval where
  low :=
    if significand = Nat.pow 2 52 ∧ Format.double.leastExponent < exponent then
      4 * significand - 1
    else 4 * significand - 2
  middle := 4 * significand
  high := 4 * significand + 2
  closed := significand % 2 = 0

/-- Whether `point / unit` lies in the interval. -/
def Interval.contains (interval : Interval) (point unit : Nat) : Bool :=
  if interval.closed then interval.low * unit ≤ point && point ≤ interval.high * unit
  else interval.low * unit < point && point < interval.high * unit

/-- The point of a decimal grid that reads back as the number and is nearest to it. A point
of the grid counts for `step / unit` quarters. -/
def Interval.onGrid? (interval : Interval) (step unit : Nat) : Option Nat :=
  let below := interval.middle * unit / step
  let down := interval.contains (below * step) unit
  let up := interval.contains ((below + 1) * step) unit
  let nearerDown := 2 * (interval.middle * unit) < (2 * below + 1) * step
  if down && (nearerDown || !up) then some below
  else if up then some (below + 1)
  else none

/-- The least power of ten above a positive number, by its exponent. -/
def magnitude (significand : Nat) (exponent : Int) : Int :=
  let whole := scaleQuotient 2 exponent significand 1
  let guess : Int := ((Nat.log2 whole.1 : Int) - Nat.log2 whole.2) * 30103 / 100000
  let above (e : Int) : Bool :=
    let scaled := scaleQuotient 10 (-e) whole.1 whole.2
    scaled.1 < scaled.2
  if above (guess - 1) then guess - 1
  else if above guess then guess
  else if above (guess + 1) then guess + 1
  else guess + 2

/-- Search the grids of `count`, `count + 1`, … digits, up to `more` beyond the first. -/
def search (interval : Interval) (exponent : Int) (top : Int) (count : Nat) : Nat → Scaled
  | 0 => ⟨0, 0⟩
  | more + 1 =>
    let grid := top - count
    let unit := scaleQuotient 2 (exponent - 2) 1 1
    let ten := scaleQuotient 10 grid 1 1
    match interval.onGrid? (ten.1 * unit.2) (unit.1 * ten.2) with
    | some 10 => ⟨1, grid + 1⟩
    | some digits => ⟨digits, grid⟩
    | none => search interval exponent top (count + 1) more

/-- The shortest decimal number that reads back as `significand * 2 ^ exponent`. -/
def decimal (significand : Nat) (exponent : Int) : Scaled :=
  if significand = 0 then ⟨0, 0⟩
  else search (Interval.of significand exponent) exponent (magnitude significand exponent) 1 17

/-- A string of zeros. -/
def zeros (count : Nat) : String := "".pushn '0' count

/-- A decimal number written out in full. -/
def Scaled.text (d : Scaled) : String :=
  let digits := toString d.digits
  if 0 ≤ d.exponent then digits ++ zeros d.exponent.toNat
  else
    let places := (-d.exponent).toNat
    if digits.length ≤ places then "0." ++ zeros (places - digits.length) ++ digits
    else
      let whole := digits.length - places
      String.ofList (digits.toList.take whole) ++ "." ++ String.ofList (digits.toList.drop whole)

end Shortest

/-- The shortest text of a number. -/
def Binary.shortest : Binary → String
  | .nan => "NaN"
  | .infinite negative => if negative then "-inf" else "inf"
  | .finite negative significand exponent =>
    (if negative then "-" else "") ++ (Shortest.decimal significand exponent).text

end Swarm.Decimal
