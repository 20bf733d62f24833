/-
  Malformed expressions.

  Four checks run over the text as it was given: brackets, numbers, symbols, operators.
  `malformed?` is the finding of the first one that fails.
-/
import SamePoly.Malformed.Brackets
import SamePoly.Malformed.Numbers
import SamePoly.Malformed.Operators

namespace SamePoly

/-- Why a text is no expression. -/
inductive Malformed where
  | unbalancedBrackets (fault : BracketFault)
  | incorrectNumbers (found : List Fragment)
  | unexpectedSymbols (found : List Fragment)
  | incorrectOperators (found : List Fragment)
deriving DecidableEq, Repr

/-- The message about a malformed text. -/
def Malformed.message : Malformed → String
  | .unbalancedBrackets fault => "Unbalanced brackets: " ++ fault.description ++ "."
  | .incorrectNumbers found => "Incorrect numbers: " ++ Fragment.list found ++ "."
  | .unexpectedSymbols found => "Unexpected symbols: " ++ Fragment.list found ++ "."
  | .incorrectOperators found => "Incorrect operator sequence: " ++ Fragment.list found ++ "."

/-- The finding of the first check that fails. -/
def malformed? (text : List Char) : Option Malformed :=
  match checkBrackets text with
  | some fault => some (.unbalancedBrackets fault)
  | none =>
    if !(incorrectNumbers text).isEmpty then some (.incorrectNumbers (incorrectNumbers text))
    else if !(unexpectedSymbols text).isEmpty then
      some (.unexpectedSymbols (unexpectedSymbols text))
    else if !(incorrectOperators text).isEmpty then
      some (.incorrectOperators (incorrectOperators text))
    else none

end SamePoly
