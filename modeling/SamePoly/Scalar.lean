/-
  The real numbers of an expression.

  Everything from the numeric grammar to the comparison of two polynomials is
  written for one class of real numbers, `Scalar`, so that the same program runs
  on double precision numbers (`Scalar.Double`) and on exact fractions
  (`Scalar.Exact`), where only the structure of an expression decides its value.

  * `Scalar`: arithmetic, numeric comparison, literals, rounding, real powers,
    the size of a point of the plane, and two ways of writing a number.
  * `Scalar.isIntegral`: numbers without a fractional part.
  * `Scalar.signedText`: the text of a number with its sign always in front.
-/

namespace SamePoly

/-- Real numbers as expressions compute with them. -/
class Scalar (R : Type) extends Zero R, One R, Add R, Sub R, Mul R, Div R, Neg R where
  /-- Numeric equality. -/
  same : R → R → Bool
  /-- Numeric order, strict. -/
  less : R → R → Bool
  /-- Numeric order. -/
  atMost : R → R → Bool
  /-- Neither infinite nor undefined. -/
  isFinite : R → Bool
  /-- The number nearest to `digits · 10 ^ (-places)`. -/
  ofDecimal (digits places : Nat) : R
  /-- Absolute value. -/
  abs : R → R
  /-- The nearest integer, a half going away from zero. -/
  round : R → R
  /-- An integral number as an integer. -/
  toInt : R → Int
  /-- A real base to a real exponent. -/
  pow : R → R → R
  /-- The point `(re, im)` is nearer to the origin than `bound`. -/
  nearer (re im bound : R) : Bool
  /-- The point `(re, im)` is at most `bound` away from the origin. -/
  within (re im bound : R) : Bool
  /-- The point `(re, im)` to a complex exponent, by logarithm and exponential. -/
  transcendentalPower (re im exponentRe exponentIm : R) : R × R
  /-- The text of a number. -/
  text : R → List Char
  /-- The text of a number in the log. -/
  detailedText : R → List Char

namespace Scalar

variable {R : Type} [Scalar R]

/-- Numerically zero, whatever the sign of the zero. -/
def isZero (x : R) : Bool := same x 0

/-- A finite number without a fractional part. -/
def isIntegral (x : R) : Bool := isFinite x && same (round x) x

/-- A whole number. -/
def ofNat (n : Nat) : R := ofDecimal n 0

/-- The text of a number with a `+` in front of everything that is neither
    negative nor undefined. -/
def signedText (x : R) : List Char :=
  match text x with
  | '-' :: digits => '-' :: digits
  | digits => if same x x then '+' :: digits else digits

/-- Slack allowed when an exponent must be a real integer. -/
def integerTolerance : R := ofDecimal 1 15

/-- Denominators nearer to zero than this count as zero. -/
def denominatorTolerance : R := ofDecimal 1 10

end Scalar

end SamePoly
