/-
  Symbols that have no place in an expression.

  `unexpectedSymbols` finds everything but lowercase letters, digits, separators, operators,
  brackets and spaces.
-/
import SamePoly.Malformed.Fragment
import SamePoly.Text.Symbol

namespace SamePoly

/-- A symbol of an operator. -/
def isOperator (c : Char) : Bool :=
  c == '+' || c == '-' || c == '*' || c == ':' || c == '/' || c == '^'

/-- A symbol that may stand in an expression. -/
def isExpected (c : Char) : Bool :=
  c.isLower || c.isDigit || isOperator c || isSeparator c || c == '(' || c == ')' || c == ' '

/-- A symbol that may not stand in an expression. -/
def unexpectedSymbol? : Recogniser := fun _ text =>
  match text with
  | [] => none
  | c :: _ => if isExpected c then none else some 1

/-- All symbols of a text that may not stand in an expression. -/
def unexpectedSymbols (text : List Char) : List Fragment := fragments unexpectedSymbol? text

end SamePoly
