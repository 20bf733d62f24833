/-
  Exact fractions as scalars.

  With these scalars sums, differences, products, quotients and powers with an
  integer exponent are exact, so the value of an expression depends on nothing
  but its structure.  Other powers have no exact value and answer zero.

  * `Scalar.Exact.pow`: a fraction to an integer exponent.
  * `Scalar.Exact.pointPower`: a point of the plane to an integer exponent, for the
    exponents that are too large to multiply step by step.
-/
import SamePoly.Scalar

namespace SamePoly

namespace Scalar.Exact

/-- `digits · 10 ^ (-places)`. -/
def ofDecimal (digits places : Nat) : Rat := mkRat digits (Nat.pow 10 places)

/-- The same fraction. -/
def same (x y : Rat) : Bool := x.num == y.num && x.den == y.den

/-- The nearest integer, a half going away from zero. -/
def round (x : Rat) : Rat :=
  let up (y : Rat) : Rat := Rat.ofInt (y.add (mkRat 1 2)).floor
  if x.num < 0 then (up x.neg).neg else up x

/-- A base to an integer exponent; zero when the exponent is no integer. -/
def pow (base exponent : Rat) : Rat :=
  if exponent.den == 1 then base.zpow exponent.num else Rat.ofInt 0

/-- The square of the distance from the origin. -/
def squaredDistance (re im : Rat) : Rat := (re.mul re).add (im.mul im)

/-- The point `(re, im)` of the plane to a natural exponent. -/
def pointPowerNat (re im : Rat) : Nat → Rat × Rat
  | 0 => (Rat.ofInt 1, Rat.ofInt 0)
  | n + 1 =>
    let (x, y) := pointPowerNat re im n
    ((x.mul re).sub (y.mul im), (x.mul im).add (y.mul re))

/-- The point `(re, im)` of the plane to an integer exponent; zero when the exponent is no
    integer. -/
def pointPower (re im exponentRe exponentIm : Rat) : Rat × Rat :=
  if exponentIm.num == 0 && exponentRe.den == 1 then
    match exponentRe.num with
    | .ofNat n => pointPowerNat re im n
    | .negSucc n =>
      let size := squaredDistance re im
      pointPowerNat (re.div size) (im.neg.div size) (n + 1)
  else (Rat.ofInt 0, Rat.ofInt 0)

/-- A fraction as `n` or `n/d`. -/
def text (x : Rat) : List Char :=
  let numerator := (toString x.num).toList
  if x.den == 1 then numerator else numerator ++ '/' :: (toString x.den).toList

end Scalar.Exact

open Scalar.Exact in
instance : Scalar Rat where
  zero := Rat.ofInt 0
  one := Rat.ofInt 1
  add := Rat.add
  sub := Rat.sub
  mul := Rat.mul
  div := Rat.div
  neg := Rat.neg
  same := same
  less x y := x.blt y
  atMost x y := !y.blt x
  isFinite _ := true
  ofDecimal := ofDecimal
  abs x := if x.num < 0 then x.neg else x
  round := round
  toInt x := x.floor
  pow := pow
  nearer re im bound := decide (0 ≤ bound.num) && (squaredDistance re im).blt (bound.mul bound)
  within re im bound := decide (0 ≤ bound.num) && !(bound.mul bound).blt (squaredDistance re im)
  transcendentalPower := pointPower
  text := text
  detailedText := text

end SamePoly
