/-
  Operators without operands.

  `incorrectOperators` finds operators at the ends of the text, next to each other or next
  to the wrong side of a bracket, and empty brackets.  A sign may start an expression or a
  bracket group, and `**` is one operator.
-/
import SamePoly.Malformed.Symbols

namespace SamePoly

/-- An operator that needs an operand before it. -/
def isBinary (c : Char) : Bool := c == '*' || c == ':' || c == '/' || c == '^'

/-- An operator other than a multiplication sign. -/
def isOperatorButTimes (c : Char) : Bool := isOperator c && c != '*'

/-- One symbol that satisfies `first`, any spaces, and one that satisfies `second`. -/
def twoSymbols? (first second : Char → Bool) (text : List Char) : Option Nat :=
  match text with
  | [] => none
  | c :: rest =>
    if first c then
      match rest.dropWhile (· == ' ') with
      | [] => none
      | d :: _ => if second d then some ((rest.takeWhile (· == ' ')).length + 2) else none
    else none

/-- An operator in front of everything else. -/
def leadingOperator? : Recogniser := fun atStart text =>
  if atStart then
    match text.dropWhile (· == ' ') with
    | [] => none
    | c :: _ => if isBinary c then some ((text.takeWhile (· == ' ')).length + 1) else none
  else none

/-- An operator behind everything else. -/
def trailingOperator? : Recogniser := fun _ text =>
  match text with
  | [] => none
  | c :: rest =>
    if isOperator c && (rest.dropWhile (· == ' ')).isEmpty then some (rest.length + 1) else none

/-- An operator in front of `**`. -/
def operatorBeforePower? : Recogniser := fun _ text =>
  match text with
  | [] => none
  | c :: rest =>
    if isOperator c then
      match rest.dropWhile (· == ' ') with
      | '*' :: '*' :: _ => some ((rest.takeWhile (· == ' ')).length + 3)
      | _ => none
    else none

/-- An operator behind `**`. -/
def operatorBehindPower? : Recogniser := fun _ text =>
  match text with
  | '*' :: '*' :: rest => (twoSymbols? (· == '*') isOperator ('*' :: rest)).map (· + 1)
  | _ => none

/-- The first of the recognisers that accepts. -/
def incorrectOperator? : Recogniser := fun atStart text =>
  (leadingOperator? atStart text).or <|
  (trailingOperator? atStart text).or <|
  (twoSymbols? isOperator isOperatorButTimes text).or <|
  (twoSymbols? isOperatorButTimes isOperator text).or <|
  (operatorBeforePower? atStart text).or <|
  (operatorBehindPower? atStart text).or <|
  (twoSymbols? (· == '(') isBinary text).or <|
  (twoSymbols? isBinary (· == ')') text).or <|
  twoSymbols? (· == '(') (· == ')') text

/-- All pieces of a text with an operator or a bracket out of place. -/
def incorrectOperators (text : List Char) : List Fragment :=
  fragments incorrectOperator? text

end SamePoly
