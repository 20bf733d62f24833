/-
  The value of a factor with its exponent.

  A factor without variables is a number; one with variables is a base that is raised to a
  positive integer.

  * `Factor`: what a factor contributes to a product.
  * `FactorFault`: why a factor contributes nothing.
  * `evaluateFactor`: the contribution of a factor with its exponent.
-/
import SamePoly.Exponent
import SamePoly.Polynomial.Shape

namespace SamePoly

/-- What a factor contributes to a product. -/
inductive Factor (R : Type) where
  /-- A number. -/
  | numeric (value : Number R)
  /-- A symbolic base raised to a positive integer. -/
  | symbolic (text : List Char) (exponent : Nat)
deriving DecidableEq

/-- Why a factor contributes nothing. -/
inductive FactorFault where
  /-- The exponent has no value. -/
  | exponent (text : List Char) (cause : EvalError)
  /-- The factor is no numeric expression. -/
  | malformed (text : List Char)
  /-- The power is not part of a polynomial. -/
  | violation (kind : Violation.Kind) (text raisedTo : List Char)
deriving DecidableEq, Repr

namespace FactorFault

/-- The fault lies in the text and not in its meaning. -/
def isSyntactic : FactorFault → Bool
  | .exponent _ _ => true
  | .malformed _ => true
  | .violation _ _ _ => false

/-- The message about a faulty factor. -/
def message : FactorFault → String
  | .exponent text _ => "Failed evaluating exponent: " ++ String.ofList text ++ "."
  | .malformed text => "Failed evaluating lexeme: " ++ String.ofList text ++ "."
  | .violation kind text raisedTo =>
    kind.name ++ " found: " ++ String.ofList text ++ " was raised to " ++
      String.ofList raisedTo ++ "."

end FactorFault

variable {R : Type} [Scalar R]

/-- A numeric factor raised to an exponent. -/
def numericFactor (text : List Char) (exponent : Number R) : Except FactorFault (Factor R) :=
  match (evaluate text : Except EvalError (Number R)) with
  | .error (.malformed _) => .error (.malformed text)
  | .error (.divisionByZero _) => .error (.violation .divisionByZero text exponent.text)
  | .ok base =>
    match base.power? exponent with
    | none => .error (.violation .divisionByZero text exponent.text)
    | some power =>
      if power.isFinite then .ok (.numeric power)
      else .error (.violation .numericOverflow text exponent.text)

/-- A symbolic factor raised to an exponent; to the power of zero it is one. -/
def symbolicFactor (text : List Char) (exponent : Number R) : Except FactorFault (Factor R) :=
  match exponent.exponent? with
  | .error kind => .error (.violation kind text exponent.text)
  | .ok rounded =>
    if Scalar.isZero rounded then .ok (.numeric 1)
    else if Scalar.less (Scalar.ofNat maxExponent) rounded then
      .error (.violation .exponentOverflow text exponent.text)
    else .ok (.symbolic text (Scalar.toInt rounded).toNat)

/-- A factor whose sign has been completed and whose leading `/` has been moved into the
    exponent. -/
def prepareFactor (factor : List Char) (exponent : Exponent) : List Char × Exponent :=
  match factor with
  | ['+'] => (['+', '1'], exponent)
  | ['-'] => (['-', '1'], exponent)
  | '/' :: rest => (rest, .negated exponent)
  | _ => (factor, exponent)

/-- The contribution of a factor with its exponent. -/
def evaluateFactor (factor : List Char) (exponent : Exponent) : Except FactorFault (Factor R) :=
  let (text, exponent) := prepareFactor factor exponent
  if exponent.hasVariable then
    .error (.violation
      (if hasVariable text then .powerAndExponentFunction else .exponentFunction)
      text exponent.text)
  else
    match (exponent.evaluate : Except EvalError (Number R)) with
    | .error cause => .error (.exponent exponent.text cause)
    | .ok value =>
      if hasVariable text then symbolicFactor text value else numericFactor text value

end SamePoly
