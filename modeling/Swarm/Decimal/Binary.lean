/-!
# Binary floating-point numbers as exact values

A finite number is a natural significand times a power of two, with a sign. A
format fixes the width of the significand and of the exponent; rounding a
quotient of natural numbers into a format takes the nearest number of the
format, and of two equally near ones the one with the even significand.
-/

namespace Swarm.Decimal

/-- A floating-point number taken apart. -/
inductive Binary where
  /-- Not a number. -/
  | nan
  /-- An infinity of the given sign. -/
  | infinite (negative : Bool)
  /-- The number `significand * 2 ^ exponent` with the given sign. -/
  | finite (negative : Bool) (significand : Nat) (exponent : Int)
  deriving DecidableEq, Repr

/-- The layout of a binary interchange format: below the sign stand the exponent field
and then the fraction field. -/
structure Format where
  /-- Width of the fraction field. -/
  fractionBits : Nat
  /-- Width of the exponent field. -/
  exponentBits : Nat
  deriving DecidableEq, Repr

namespace Format

/-- Single precision. -/
def single : Format := ⟨23, 8⟩

/-- Double precision. -/
def double : Format := ⟨52, 11⟩

/-- The exponent of the least significant bit of the least positive number. -/
def leastExponent (f : Format) : Int := 2 - (Nat.pow 2 (f.exponentBits - 1) : Nat) - f.fractionBits

/-- The fields of an infinity, without its sign. -/
def infinity (f : Format) : Nat := (Nat.pow 2 f.exponentBits - 1) * Nat.pow 2 f.fractionBits

/-- The sign bit. -/
def signBit (f : Format) : Nat := Nat.pow 2 (f.exponentBits + f.fractionBits)

/-- Take the bits of a number apart. -/
def unpack (f : Format) (bits : Nat) : Binary :=
  let negative := decide (f.signBit ≤ bits % (2 * f.signBit))
  let fraction := bits % Nat.pow 2 f.fractionBits
  let exponent := bits / Nat.pow 2 f.fractionBits % Nat.pow 2 f.exponentBits
  if exponent = Nat.pow 2 f.exponentBits - 1 then
    if fraction = 0 then .infinite negative else .nan
  else if exponent = 0 then
    .finite negative fraction f.leastExponent
  else
    .finite negative (Nat.pow 2 f.fractionBits + fraction) (f.leastExponent + (exponent - 1))

end Format

/-- The natural number nearest to a quotient; a half goes to the even neighbour. -/
def roundQuotient (numerator denominator : Nat) : Nat :=
  let quotient := numerator / denominator
  let twice := 2 * (numerator % denominator)
  if twice < denominator then quotient
  else if denominator < twice then quotient + 1
  else quotient + quotient % 2

/-- A quotient of natural numbers multiplied by a power of `base`, again as a quotient. -/
def scaleQuotient (base : Nat) (exponent : Int) (numerator denominator : Nat) : Nat × Nat :=
  if 0 ≤ exponent then (numerator * Nat.pow base exponent.toNat, denominator)
  else (numerator, denominator * Nat.pow base (-exponent).toNat)

/-- The fields, without a sign, of the number of the format nearest to a quotient; what is
too large becomes an infinity. -/
def Format.nearest (f : Format) (numerator denominator : Nat) : Nat :=
  if numerator = 0 then 0
  else
    let precision := f.fractionBits + 1
    let guess : Int := (Nat.log2 numerator : Int) - Nat.log2 denominator - precision
    let wide := scaleQuotient 2 (-guess) numerator denominator
    let exact := if Nat.pow 2 precision * wide.2 ≤ wide.1 then guess + 1 else guess
    let exponent := max exact f.leastExponent
    let scaled := scaleQuotient 2 (-exponent) numerator denominator
    let steps := (exponent - f.leastExponent).toNat
    min (steps * Nat.pow 2 f.fractionBits + roundQuotient scaled.1 scaled.2) f.infinity

/-- The double-precision number nearest to `numerator / denominator`, with a sign. -/
def nearestDouble (negative : Bool) (numerator denominator : Nat) : Float :=
  let fields := Format.double.nearest numerator denominator
  Float.ofBits (UInt64.ofNat (if negative then Format.double.signBit + fields else fields))

end Swarm.Decimal
