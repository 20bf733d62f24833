/-
  The log of a run.

  `Event` is what can be told about a run; `Event.line` is its line in the log.  A message
  of several lines is indented behind the first one, and control characters are left out.
-/
import SamePoly.Trace
import SamePoly.Text.Control
import SamePoly.Polynomial.Comparison

namespace SamePoly.Command

/-- The name under which the program reports. -/
def programName : String := "polyeq"

/-- A step of a run that the log tells about. -/
inductive Event (R : Type) where
  /-- A stage of parsing an expression. -/
  | parse (event : ParseEvent R)
  /-- An expression is parsed. -/
  | expression (number : Nat) (polynomial : Polynomial (Number R))
  /-- The polynomials are about to be compared. -/
  | comparing (comparison : Comparison R)

namespace Event

variable {R : Type} [Scalar R]

/-- The part of the program that an event comes from. -/
def target : Event R → String
  | .parse (.malformed _ _) | .parse (.violation _ _) => programName ++ "::validation"
  | .parse (.normalized _ _) | .parse (.compiled _ _) => programName ++ "::parser"
  | .expression _ _ | .comparing _ => programName

/-- A comparison in the log. -/
def comparisonText : Comparison R → String
  | .exact => "Exact"
  | .epsilon tolerance => "Epsilon(" ++ String.ofList (Scalar.detailedText tolerance) ++ ")"

/-- An event in words. -/
def message : Event R → String
  | .parse event => event.message
  | .expression number polynomial =>
    "expression " ++ toString number ++ ": " ++ String.ofList polynomial.text
  | .comparing comparison => "comparing with " ++ comparisonText comparison

/-- A text whose further lines are indented by four spaces. -/
def indented (text : String) : String :=
  String.ofList (text.toList.flatMap fun c => if c == '\n' then "\n    ".toList else [c])

/-- The line of an event in the log. -/
def line (event : Event R) : String :=
  let text := "[DEBUG " ++ event.target ++ "] " ++ indented event.message ++ "\n"
  String.ofList (withoutControls text.toList)

end Event

end SamePoly.Command
