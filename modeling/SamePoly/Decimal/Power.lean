/-
  Powers of ten.

  `powerOfTen` multiplies: the bits of the exponent are read from the lowest one, and the
  power for a negative exponent is the inverse of the one for its absolute value.
-/
import SamePoly.Scalar

namespace SamePoly.Decimal

variable {R : Type} [Scalar R]

/-- `product · base ^ exponent`.  The base is squared no further than the exponent
    needs. -/
def powerFrom (product base : R) (exponent : Nat) : R :=
  let next := if exponent % 2 = 1 then product * base else product
  if exponent / 2 = 0 then next else powerFrom next (base * base) (exponent / 2)
termination_by exponent
decreasing_by omega

/-- Ten to an integer exponent. -/
def powerOfTen (exponent : Int) : R :=
  let power := powerFrom 1 (Scalar.ofNat 10) exponent.natAbs
  if exponent < 0 then 1 / power else power

end SamePoly.Decimal
