/-
  Expressions from lines of input.

  Input is read line by line.  Every line is trimmed, blank ones are skipped, and reading
  stops as soon as there are enough expressions, so what follows does not matter.

  * `lines`: the lines of a byte sequence.
  * `decode?`: a line as text.
  * `collectExpressions`: the expressions found, and whether reading failed on the way.
-/
import SamePoly.Text.Blank

namespace SamePoly

/-- The bytes of a line, given backwards, without a carriage return at its end. -/
def endedLine (line : List UInt8) : List UInt8 :=
  match line with
  | [] => []
  | b :: rest => if b == 13 then rest.reverse else (b :: rest).reverse

/-- The lines of a byte sequence; `line` holds the bytes of the current line so far,
    backwards. -/
def linesFrom (line : List UInt8) : List UInt8 → List (List UInt8)
  | [] => if line.isEmpty then [] else [line.reverse]
  | b :: rest =>
    if b == 10 then endedLine line :: linesFrom [] rest else linesFrom (b :: line) rest

/-- The lines of a byte sequence: each ends in a line feed, which may have a carriage return
    before it; neither belongs to the line.  The last line may lack both. -/
def lines (bytes : List UInt8) : List (List UInt8) := linesFrom [] bytes

/-- The text that bytes encode in UTF-8. -/
def decode? (bytes : List UInt8) : Option (List Char) :=
  (String.fromUTF8? ⟨bytes.toArray⟩).map String.toList

/-- What came of reading expressions. -/
structure Collected where
  expressions : List (List Char)
  /-- Whether all lines that had to be read were UTF-8. -/
  readable : Bool

/-- Adds the trimmed lines that are not blank to the expressions until there are `count`. -/
def collectLines (count : Nat) : (expressions : List (List Char)) → List (List UInt8) → Collected
  | expressions, [] => ⟨expressions, true⟩
  | expressions, line :: rest =>
    if Nat.ble count expressions.length then ⟨expressions, true⟩
    else
      match decode? line with
      | none => ⟨expressions, false⟩
      | some text =>
        if (trim text).isEmpty then collectLines count expressions rest
        else collectLines count (expressions ++ [trim text]) rest

/-- Tops up a list of expressions from the lines of a byte sequence. -/
def collectExpressions (bytes : List UInt8) (expressions : List (List Char)) (count : Nat) :
    Collected :=
  collectLines count expressions (lines bytes)

end SamePoly
