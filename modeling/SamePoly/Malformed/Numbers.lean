/-
  Misplaced decimal separators.

  A separator belongs between two digits, and a number has at most one.
  `incorrectNumbers` finds the pieces of a text where a separator stands elsewhere.
-/
import SamePoly.Malformed.Fragment
import SamePoly.Text.Symbol

namespace SamePoly

/-- A digit or a space. -/
def isDigitOrSpace (c : Char) : Bool := c.isDigit || c == ' '

/-- Spaces, a separator, and digits and spaces behind it. -/
def spacedSeparator? (text : List Char) : Option Nat :=
  match text.dropWhile (· == ' ') with
  | [] => none
  | c :: rest =>
    if isSeparator c then
      some ((text.takeWhile (· == ' ')).length + 1 + (rest.takeWhile isDigitOrSpace).length)
    else none

/-- A separator without a digit before it: something else stands there, or the text
    starts. -/
def missingWhole? : Recogniser := fun atStart text =>
  let behindSymbol :=
    match text with
    | [] => none
    | c :: rest => if c.isDigit then none else (spacedSeparator? rest).map (· + 1)
  behindSymbol.or (if atStart then spacedSeparator? text else none)

/-- Digits and spaces, a separator, and the text behind it. -/
def upToSeparator? (text : List Char) : Option (Nat × List Char) :=
  match text.dropWhile isDigitOrSpace with
  | [] => none
  | c :: rest =>
    if isSeparator c then some ((text.takeWhile isDigitOrSpace).length + 1, rest) else none

/-- A separator without a digit behind it: something else follows, or the text ends. -/
def missingFraction? : Recogniser := fun _ text =>
  (upToSeparator? text).bind fun (length, rest) =>
    let spaces := (rest.takeWhile (· == ' ')).length
    match rest.dropWhile (· == ' ') with
    | [] => some (length + spaces)
    | c :: _ =>
      if !c.isDigit then some (length + spaces + 1)
      else if spaces == 0 then none
      else some (length + spaces)

/-- Two separators with nothing but digits and spaces between them. -/
def doubledSeparator? : Recogniser := fun _ text =>
  (upToSeparator? text).bind fun (first, rest) =>
    (upToSeparator? rest).map fun (second, last) =>
      first + second + (last.takeWhile isDigitOrSpace).length

/-- A piece with a misplaced separator. -/
def incorrectNumber? : Recogniser := fun atStart text =>
  (missingWhole? atStart text).or <|
    (missingFraction? atStart text).or (doubledSeparator? atStart text)

/-- All pieces of a text with a misplaced separator. -/
def incorrectNumbers (text : List Char) : List Fragment := fragments incorrectNumber? text

end SamePoly
