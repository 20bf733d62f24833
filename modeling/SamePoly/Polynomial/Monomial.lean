/-
  Monomials.

  * `Monomial`: a coefficient times a shape.
  * `Monomial.new`: a monomial whose shape goes if the coefficient is zero, so that all
    zero monomials have the shape of a constant.
  * `Monomial.mul`: the product of two monomials.
-/
import SamePoly.Polynomial.Shape
import SamePoly.Number

namespace SamePoly

/-- Coefficients that can be told from zero. -/
class ZeroTest (K : Type) where
  /-- Numerically zero. -/
  isZero : K → Bool

instance {R : Type} [Scalar R] : ZeroTest (Number R) := ⟨Number.isZero⟩

/-- A coefficient times a product of powers of variables. -/
structure Monomial (K : Type) where
  coefficient : K
  shape : Shape
deriving DecidableEq

namespace Monomial

variable {K : Type}

/-- The coefficient is zero. -/
def isZero [ZeroTest K] (m : Monomial K) : Bool := ZeroTest.isZero m.coefficient

/-- The monomial of a coefficient and a shape; a zero coefficient has no variables. -/
def new [ZeroTest K] (coefficient : K) (shape : Shape) : Monomial K :=
  ⟨coefficient, if ZeroTest.isZero coefficient then .one else shape⟩

/-- A monomial without variables. -/
def constant (value : K) : Monomial K := ⟨value, .one⟩

/-- The zero monomial. -/
def zero [Zero K] : Monomial K := constant 0

/-- The monomial one. -/
def one [One K] : Monomial K := constant 1

/-- Both monomials have the same variables with the same exponents. -/
def sameShape (m n : Monomial K) : Bool := decide (m.shape = n.shape)

/-- The product of two monomials. -/
def mul [Zero K] [Mul K] [ZeroTest K] (m n : Monomial K) : Monomial K :=
  let coefficient := m.coefficient * n.coefficient
  if ZeroTest.isZero coefficient then zero else new coefficient (m.shape.mul n.shape)

end Monomial

end SamePoly
