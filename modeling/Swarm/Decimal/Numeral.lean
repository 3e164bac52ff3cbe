import Swarm.Decimal.Binary

/-!
# Reading numbers

A whole number is an optional sign and decimal digits. A real number is an
optional sign, then digits with an optional point and an optional exponent, or
one of the words for infinity and not-a-number in any case of letters; it reads
as the nearest number of its format.
-/

namespace Swarm.Decimal

/-- The number that a string of decimal digits stands for; there must be one at least. -/
def digitsValue? (digits : List Char) : Option Nat :=
  if digits.isEmpty || !digits.all Char.isDigit then none
  else some (digits.foldl (fun n c => 10 * n + (c.toNat - '0'.toNat)) 0)

/-- Split off a sign; the flag tells whether it is a minus. -/
def splitSign : List Char → Bool × List Char
  | '-' :: rest => (true, rest)
  | '+' :: rest => (false, rest)
  | rest => (false, rest)

/-- The whole number that the text stands for. -/
def readInt? (text : String) : Option Int :=
  let (negative, digits) := splitSign text.toList
  (digitsValue? digits).map fun n => if negative then -(n : Int) else n

/-- Text of a real number without its sign, taken apart. -/
inductive Numeral where
  /-- A word for not-a-number. -/
  | nan
  /-- A word for infinity. -/
  | infinity
  /-- The number `digits * 10 ^ exponent`. -/
  | decimal (digits : Nat) (exponent : Int)
  deriving DecidableEq, Repr

/-- The exponent after a numeral's digits: nothing, or the letter and a whole number. -/
def readExponent? : List Char → Option Int
  | [] => some 0
  | c :: rest =>
    if c = 'e' || c = 'E' then
      let (negative, digits) := splitSign rest
      (digitsValue? digits).map fun n => if negative then -(n : Int) else n
    else none

/-- Digits with an optional point and an optional exponent; one digit at least stands before
or after the point. -/
def readDecimal? (text : List Char) : Option Numeral :=
  let whole := text.takeWhile Char.isDigit
  let afterWhole := text.dropWhile Char.isDigit
  let (fraction, rest) := match afterWhole with
    | '.' :: tail => (tail.takeWhile Char.isDigit, tail.dropWhile Char.isDigit)
    | tail => ([], tail)
  match digitsValue? (whole ++ fraction), readExponent? rest with
  | some digits, some exponent => some (.decimal digits (exponent - fraction.length))
  | _, _ => none

/-- The numeral that the text without its sign stands for. -/
def readNumeral? (text : List Char) : Option Numeral :=
  let lower := String.ofList (text.map Char.toLower)
  if lower = "nan" then some .nan
  else if lower = "inf" || lower = "infinity" then some .infinity
  else readDecimal? text

/-- The fields of the number of the format nearest to a decimal number. Decimal numbers far
outside the range of the format are told apart by their number of digits. -/
def Format.nearestDecimal (f : Format) (digits : Nat) (exponent : Int) : Nat :=
  let size : Int := exponent + (toString digits).length
  let bound : Int := Nat.pow 2 f.exponentBits
  if digits = 0 then 0
  else if bound < size then f.infinity
  else if size < -bound then 0
  else
    let scaled := scaleQuotient 10 exponent digits 1
    f.nearest scaled.1 scaled.2

/-- The single-precision number that the text stands for. -/
def readSingle? (text : String) : Option Float32 :=
  let (negative, rest) := splitSign text.toList
  (readNumeral? rest).map fun numeral =>
    let fields := match numeral with
      | .nan => Format.single.infinity + Nat.pow 2 22
      | .infinity => Format.single.infinity
      | .decimal digits exponent => Format.single.nearestDecimal digits exponent
    Float32.ofBits (UInt32.ofNat (if negative then Format.single.signBit + fields else fields))

end Swarm.Decimal
