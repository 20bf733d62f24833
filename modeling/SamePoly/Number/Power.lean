/-
  Powers of complex numbers.

  * `Number.powNat`, `Number.powInt`: powers with an integer exponent, by repeated
    squaring.
  * `Number.power?`: the power of the numeric grammar.  It stays on the real line
    whenever the result is real, multiplies when the exponent is an integer, and
    goes through the logarithm otherwise; zero has no negative and no complex powers.
-/
import SamePoly.Number

namespace SamePoly.Number

variable {R : Type} [Scalar R]

/-- `product · base ^ exponent`, squaring the base before each further bit of the
    exponent is read. -/
def powBits (product base : Number R) (exponent : Nat) : Number R :=
  if h : exponent ≤ 1 then product
  else
    let square := base * base
    powBits (if exponent / 2 % 2 == 1 then product * square else product) square (exponent / 2)
termination_by exponent
decreasing_by omega

/-- A power with a natural exponent.  The base is squared until the exponent is odd. -/
def powNat (base : Number R) (exponent : Nat) : Number R :=
  if exponent = 0 then 1
  else if exponent % 2 = 0 then powNat (base * base) (exponent / 2)
  else powBits base base exponent
termination_by exponent
decreasing_by omega

/-- A power with an integer exponent; a negative one raises the inverse. -/
def powInt (base : Number R) : Int → Number R
  | .ofNat exponent => base.powNat exponent
  | .negSucc exponent => base.inverse.powNat (exponent + 1)

/-- The largest exponent that is reached by multiplication. -/
def maxMultiplied : R := Scalar.ofNat 2147483647

/-- A power, undefined for zero to a negative or complex exponent. -/
def power? (base exponent : Number R) : Option (Number R) :=
  if base.isZero then
    if !exponent.isReal || Scalar.less exponent.re 0 then none
    else if Scalar.isZero exponent.re then some 1
    else some 0
  else if exponent.isReal && base.isReal &&
      (Scalar.less 0 base.re || Scalar.isIntegral exponent.re) then
    some (ofReal (Scalar.pow base.re exponent.re))
  else if exponent.isReal && Scalar.isIntegral exponent.re &&
      Scalar.atMost (Scalar.abs exponent.re) maxMultiplied then
    some (base.powInt (Scalar.toInt exponent.re))
  else
    let (re, im) := Scalar.transcendentalPower base.re base.im exponent.re exponent.im
    some ⟨re, im⟩

end SamePoly.Number
