/-
  Monomials and polynomials as one kind of term.

  Products of monomials stay monomials as long as they can.

  * `Term.add`, `Term.mul`: sum and product of terms.
  * `Term.compose`: powers by repeated squaring.
  * `Term.toPolynomial`: a term as a polynomial.
-/
import SamePoly.Polynomial.Basic

namespace SamePoly

/-- A monomial or a polynomial. -/
inductive Term (K : Type) where
  | monomial (m : Monomial K)
  | polynomial (p : Polynomial K)
deriving DecidableEq

namespace Term

variable {K : Type}

/-- The term one. -/
def one [One K] : Term K := .monomial .one

variable [Add K] [ZeroTest K]

/-- A term as a polynomial. -/
def toPolynomial : Term K → Polynomial K
  | .monomial m => .ofMonomial m
  | .polynomial p => p

/-- The sum of two monomials: a monomial if their shapes agree. -/
def addMonomials (m n : Monomial K) : Term K :=
  if m.sameShape n then .monomial (.new (m.coefficient + n.coefficient) m.shape)
  else .polynomial ((Polynomial.ofMonomial m).absorb n)

/-- The sum of two terms. -/
def add : Term K → Term K → Term K
  | .monomial m, .monomial n => addMonomials m n
  | .polynomial p, .monomial n => .polynomial (p.absorb n)
  | .monomial m, .polynomial q => .polynomial (q.absorb m)
  | .polynomial p, .polynomial q => .polynomial (p.add q)

/-- The sum of terms from left to right, if there are any. -/
def sum? : List (Term K) → Option (Term K)
  | [] => none
  | t :: rest => some (rest.foldl add t)

variable [Zero K] [Mul K]

/-- The product of two terms. -/
def mul : Term K → Term K → Term K
  | .monomial m, .monomial n => .monomial (m.mul n)
  | .polynomial p, .monomial n => .polynomial (p.multiplyMonomial n)
  | .monomial m, .polynomial q => .polynomial (q.multiplyMonomial m)
  | .polynomial p, .polynomial q => .polynomial (p.multiply q)

/-- The product of terms from left to right, if there are any. -/
def product? : List (Term K) → Option (Term K)
  | [] => none
  | t :: rest => some (rest.foldl mul t)

/-- `power` times `square ^ exponent`, where no power stands for the empty product.  The
    square is taken no further than the exponent needs. -/
def composeFrom (power : Option (Term K)) (square : Term K) (exponent : Nat) : Option (Term K) :=
  if exponent = 0 then power
  else
    let next :=
      if exponent % 2 = 1 then
        match power with
        | some power => some (power.mul square)
        | none => some square
      else power
    if exponent / 2 = 0 then next
    else composeFrom next (square.mul square) (exponent / 2)
termination_by exponent
decreasing_by omega

/-- A power with a natural exponent, by repeated squaring. -/
def compose [One K] (t : Term K) (exponent : Nat) : Term K :=
  match composeFrom none t exponent with
  | some power => power
  | none => .one

end Term

end SamePoly
