/-
  The symbols of an expression.

  * `imaginaryUnit`: the letter `i`, which is never a variable.
  * `isVariable`: the other lowercase letters.
  * `isNumeric`: the symbols a numeric operand is made of.
-/

namespace SamePoly

/-- The letter reserved for the imaginary unit. -/
def imaginaryUnit : Char := 'i'

/-- A variable: a lowercase letter other than the imaginary unit. -/
def isVariable (c : Char) : Bool := c.isLower && c != imaginaryUnit

/-- A text in which a variable occurs. -/
def hasVariable (text : List Char) : Bool := text.any isVariable

/-- A decimal separator. -/
def isSeparator (c : Char) : Bool := c == '.' || c == ','

/-- A symbol inside a numeric operand: a digit, a separator, the imaginary unit or a
    space. -/
def isNumeric (c : Char) : Bool :=
  c.isDigit || isSeparator c || c == imaginaryUnit || c == ' '

/-- A symbol inside a literal of normalized text. -/
def isLiteral (c : Char) : Bool := c.isDigit || c == '.'

end SamePoly
