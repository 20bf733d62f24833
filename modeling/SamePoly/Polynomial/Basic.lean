/-
  Polynomials.

  A polynomial is a list of monomials in the order in which their shapes came up.  Its
  operations keep the shapes distinct and store no zero monomial, so the zero polynomial is
  the empty list.

  * `Polynomial.absorb`: one more monomial.
  * `Polynomial.add`, `Polynomial.multiply` and their variants for a single monomial.
  * `Polynomial.coefficient`: the coefficient of a shape, by which polynomials are read.
-/
import SamePoly.Polynomial.Monomial

namespace SamePoly

/-- A sum of monomials, in the order in which their shapes came up. -/
structure Polynomial (K : Type) where
  monomials : List (Monomial K)
deriving DecidableEq

namespace Polynomial

variable {K : Type}

/-- The zero polynomial. -/
def zero : Polynomial K := ⟨[]⟩

/-- No monomials are left. -/
def isZero (p : Polynomial K) : Bool := p.monomials.isEmpty

/-- The first monomial of a shape. -/
def find? (p : Polynomial K) (s : Shape) : Option (Monomial K) :=
  p.monomials.find? fun m => decide (m.shape = s)

/-- The coefficient of a shape; zero if the shape does not occur. -/
def coefficient [Zero K] (p : Polynomial K) (s : Shape) : K :=
  match p.find? s with
  | some m => m.coefficient
  | none => 0

variable [Add K] [ZeroTest K]

/-- Adds a monomial to the one of the same shape, which goes if the sum is zero; a monomial
    of a new shape goes to the end unless it is zero. -/
def absorbInto (m : Monomial K) : List (Monomial K) → List (Monomial K)
  | [] => if m.isZero then [] else [m]
  | known :: rest =>
    if known.sameShape m then
      let merged := Monomial.new (known.coefficient + m.coefficient) m.shape
      if merged.isZero then rest else merged :: rest
    else known :: absorbInto m rest

/-- A polynomial plus a monomial. -/
def absorb (p : Polynomial K) (m : Monomial K) : Polynomial K := ⟨absorbInto m p.monomials⟩

/-- The polynomial of a single monomial. -/
def ofMonomial (m : Monomial K) : Polynomial K := zero.absorb m

/-- The sum of monomials, added up from left to right. -/
def ofMonomials (ms : List (Monomial K)) : Polynomial K := ms.foldl absorb zero

/-- The sum of two polynomials. -/
def add (p q : Polynomial K) : Polynomial K := q.monomials.foldl absorb p

variable [Zero K] [Mul K]

/-- The product of a polynomial and a monomial. -/
def multiplyMonomial (p : Polynomial K) (m : Monomial K) : Polynomial K :=
  ofMonomials (p.monomials.map fun own => own.mul m)

/-- The product of two polynomials: all products of two monomials, added up. -/
def multiply (p q : Polynomial K) : Polynomial K :=
  ofMonomials (p.monomials.flatMap fun own => q.monomials.map fun other => other.mul own)

end Polynomial

end SamePoly
