/-
  Why an expression is rejected.

  * `PolyError`: all reasons, each with what it has to tell.
  * `PolyError.isSyntactic`: the text is at fault, or what it means.
  * `PolyError.message`, `PolyError.report`: the wording.
-/
import SamePoly.Malformed
import SamePoly.Violation.Site
import SamePoly.Factor

namespace SamePoly

/-- The greatest depth of nested brackets. -/
def maxNestingDepth : Nat := 256

/-- The piece of normalized text that a factor belongs to. -/
inductive Place where
  | lexeme (text : List Char)
  | monomial (text : List Char)
deriving DecidableEq, Repr

/-- A place at the head of a message. -/
def Place.heading : Place → String
  | .lexeme text => "Error in lexeme: " ++ String.ofList text ++ "."
  | .monomial text => "Error in monomial " ++ String.ofList text ++ "."

/-- Why an expression is rejected. -/
inductive PolyError where
  /-- Nothing but white space. -/
  | empty
  /-- The text is no expression. -/
  | malformed (reason : Malformed)
  /-- The brackets of the text are nested too deeply. -/
  | nested (depth : Nat)
  /-- An operator whose operands make no polynomial. -/
  | violation (reason : Violation)
  /-- The groups of the text are nested too deeply. -/
  | levels
  /-- A term of a sum is the sum itself, so it never comes to an end. -/
  | endless
  /-- A factor that contributes nothing. -/
  | factor (place : Place) (fault : FactorFault)
  /-- A factor of a monomial that is neither a number nor a variable. -/
  | unexpectedFactor (monomial factor : List Char)
  /-- A product without factors. -/
  | noFactor (lexeme : List Char)
  /-- The exponent of a variable is too large to be stored. -/
  | exponentOverflow (monomial : List Char) (variableName : Char)
  /-- A coefficient outside the range of the numbers. -/
  | coefficientOverflow (text : List Char)
deriving DecidableEq, Repr

namespace PolyError

/-- The text is at fault, and not what it means. -/
def isSyntactic : PolyError → Bool
  | .empty | .malformed _ | .nested _ | .levels | .endless | .unexpectedFactor _ _
  | .noFactor _ => true
  | .factor _ fault => fault.isSyntactic
  | .violation _ | .exponentOverflow _ _ | .coefficientOverflow _ => false

/-- The message about a rejected expression. -/
def message : PolyError → String
  | .empty => "Empty expression."
  | .malformed reason => reason.message
  | .nested depth =>
    "Brackets nested " ++ toString depth ++ " deep, at most " ++ toString maxNestingDepth ++
      " allowed."
  | .violation reason => reason.message
  | .levels => "Expression nested deeper than " ++ toString maxNestingDepth ++ " levels."
  | .endless => "Expression without end."
  | .factor place fault => place.heading ++ " " ++ fault.message
  | .unexpectedFactor monomial name =>
    (Place.monomial monomial).heading ++ " Unexpected factor: " ++ String.ofList name ++ "."
  | .noFactor lexeme => (Place.lexeme lexeme).heading ++ " Nothing to evaluate."
  | .exponentOverflow monomial name =>
    (Place.monomial monomial).heading ++ " " ++ Violation.Kind.exponentOverflow.name ++
      " found: " ++ name.toString ++ " was raised past " ++ toString maxExponent ++ "."
  | .coefficientOverflow text =>
    Violation.Kind.numericOverflow.name ++ " found: coefficients of " ++ String.ofList text ++
      " leave the floating point range."

/-- The message with the kind of the error in front. -/
def report (e : PolyError) : String :=
  (if e.isSyntactic then "Syntax error: " else "Value error: ") ++ e.message

end PolyError

end SamePoly
