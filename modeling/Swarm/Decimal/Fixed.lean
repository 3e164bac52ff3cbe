import Swarm.Decimal.Binary

/-!
# Decimal text with a fixed number of places

The exact value is rounded to the given places, a half to the even neighbour;
the sign of a negative number stays even when all digits are zero.
-/

namespace Swarm.Decimal

/-- Digits with a point before the last `places` of them. -/
def pointed (places digits : Nat) : String :=
  let fraction := toString (digits % Nat.pow 10 places)
  let zeros := "".pushn '0' (places - fraction.length)
  toString (digits / Nat.pow 10 places) ++ "." ++ zeros ++ fraction

/-- The text of a number with `places` digits after the point. -/
def Binary.fixed (places : Nat) : Binary → String
  | .nan => "NaN"
  | .infinite negative => if negative then "-inf" else "inf"
  | .finite negative significand exponent =>
    let scaled := scaleQuotient 2 exponent (significand * Nat.pow 10 places) 1
    (if negative then "-" else "") ++ pointed places (roundQuotient scaled.1 scaled.2)

end Swarm.Decimal
