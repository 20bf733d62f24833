/-
  Comparison of polynomials.

  Two polynomials are compared shape by shape: each shape has to occur on both sides, with
  coefficients that differ by at most a tolerance.

  * `Comparison`: the kinds of comparison and their tolerance.
  * `Polynomial.equalsWithin`, `Polynomial.equalsExact`, `Polynomial.compare`.
-/
import SamePoly.Polynomial.Basic
import SamePoly.Decimal.Power

namespace SamePoly

/-- How two polynomials are compared. -/
inductive Comparison (R : Type) where
  /-- Coefficients have to be equal. -/
  | exact
  /-- Coefficients may differ by at most this much. -/
  | epsilon (tolerance : R)

namespace Comparison

variable {R : Type} [Scalar R]

/-- The tolerance when no comparison is asked for. -/
def defaultTolerance : R := Scalar.ofDecimal 1 6

/-- The comparison when none is asked for. -/
def default : Comparison R := .epsilon defaultTolerance

/-- Comparison up to a number of decimal digits.  The negation wraps around: that of the least
    integer of 32 bits is itself. -/
def ofDecimalDigits (digits : Int32) : Comparison R :=
  .epsilon (Decimal.powerOfTen (-digits).toInt)

/-- The greatest difference of coefficients that counts as equal. -/
def tolerance : Comparison R → R
  | .exact => 0
  | .epsilon tolerance => tolerance

end Comparison

namespace Polynomial

/-- Every monomial of one polynomial has a counterpart of the same shape in another whose
    coefficient is close. -/
def containedIn {K : Type} [ZeroTest K] (close : K → K → Bool) (p q : Polynomial K) : Bool :=
  p.monomials.all fun own =>
    own.isZero ||
      match q.find? own.shape with
      | some other => close other.coefficient own.coefficient
      | none => false

/-- Both polynomials have the same shapes with close coefficients. -/
def agree {K : Type} [ZeroTest K] (close : K → K → Bool) (p q : Polynomial K) : Bool :=
  p.containedIn close q && q.containedIn close p

variable {R : Type} [Scalar R]

/-- The coefficients of all shapes differ by at most `tolerance`. -/
def equalsWithin (tolerance : R) (p q : Polynomial (Number R)) : Bool :=
  agree (fun z w => (z - w).within tolerance) p q

/-- The coefficients of all shapes are equal. -/
def equalsExact (p q : Polynomial (Number R)) : Bool := equalsWithin 0 p q

/-- The verdict of a comparison. -/
def compare (comparison : Comparison R) (p q : Polynomial (Number R)) : Bool :=
  equalsWithin comparison.tolerance p q

end Polynomial

end SamePoly
