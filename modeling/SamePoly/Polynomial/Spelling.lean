/-
  The spelling of polynomials.

  Monomials are joined by ` + ` and ` - `.  The coefficients 1 and -1 are not written in
  front of a variable, and a coefficient that is not real stands in brackets.

  * `Monomial.text`, `Polynomial.text`, `Term.text`.
-/
import SamePoly.Polynomial.Term

namespace SamePoly

variable {R : Type} [Scalar R]

/-- A coefficient in front of a variable. -/
def Monomial.coefficientText (coefficient : Number R) : List Char :=
  if coefficient.same (.ofReal (-1)) then ['-']
  else if coefficient.same 1 then []
  else if coefficient.isReal then coefficient.text
  else '(' :: coefficient.text ++ [')']

/-- The spelling of a monomial: `x^2`, `-x`, `2.5xy`, `(1+2i)x`, `3`. -/
def Monomial.text (m : Monomial (Number R)) : List Char :=
  if m.shape.powers.isEmpty then m.coefficient.text
  else coefficientText m.coefficient ++ m.shape.text

/-- A monomial behind another one, with the sign that joins them. -/
def Polynomial.joinedText (m : Monomial (Number R)) : List Char :=
  if m.coefficient.isReal && Scalar.less m.coefficient.re 0 then
    ' ' :: '-' :: ' ' :: Monomial.text ⟨-m.coefficient, m.shape⟩
  else ' ' :: '+' :: ' ' :: m.text

/-- The spelling of a polynomial. -/
def Polynomial.text (p : Polynomial (Number R)) : List Char :=
  match p.monomials with
  | [] => ['0']
  | m :: rest => m.text ++ rest.flatMap joinedText

/-- The spelling of a term. -/
def Term.text : Term (Number R) → List Char
  | .monomial m => m.text
  | .polynomial p => p.text

end SamePoly
