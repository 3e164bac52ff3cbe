import Swarm.Decimal.Binary

/-!
# Exact floating-point remainder

The remainder of a division that is cut off toward zero. It is exact, has the
sign of the dividend, and is not a number for an infinite dividend or a zero
divisor.
-/

namespace Swarm.Decimal

/-- The value that is not a number. -/
def notANumber : Float := Float.ofBits 0x7FF8000000000000

/-- The remainder of dividing `a` by `b`. -/
def remainder (a b : Float) : Float :=
  match Format.double.unpack a.toBits.toNat, Format.double.unpack b.toBits.toNat with
  | .finite negative m e, .finite _ n d =>
    if n = 0 then notANumber
    else
      let unit := min e d
      let rest := m * Nat.pow 2 (e - unit).toNat % (n * Nat.pow 2 (d - unit).toNat)
      let scaled := scaleQuotient 2 unit rest 1
      nearestDouble negative scaled.1 scaled.2
  | .finite .., .infinite _ => a
  | _, _ => notANumber

end Swarm.Decimal
