/-
  Sums of normalized text.

  * `splitSum`: the terms between the signs outside all brackets.
  * `isSum`: a sign stands outside all brackets behind the first symbol.
  * `isMonomial`: no sum, and no letter inside brackets.
-/
import SamePoly.Text.Symbol
import SamePoly.Text.Alphabetic
import SamePoly.Brackets

namespace SamePoly

/-- Puts a finished term in front of the others unless it is empty. -/
def consTerm (term : List Char) (terms : List (List Char)) : List (List Char) :=
  if term.isEmpty then terms else term :: terms

/-- The terms of a text; `term` holds the symbols of the current term so far, backwards,
    and `depth` counts the brackets open around it. -/
def splitSumFrom (depth : Nat) (term : List Char) : List Char → List (List Char)
  | [] => consTerm term.reverse []
  | c :: rest =>
    if c == '(' then splitSumFrom (depth + 1) (c :: term) rest
    else if c == ')' then splitSumFrom (depth - 1) (c :: term) rest
    else if c == '+' && depth == 0 then consTerm term.reverse (splitSumFrom 0 [] rest)
    else if c == '-' && depth == 0 then consTerm term.reverse (splitSumFrom 0 [c] rest)
    else splitSumFrom depth (c :: term) rest

/-- The terms between the signs outside all brackets, from left to right.  A minus stays
    with the term behind it, a plus goes, and empty terms are left out. -/
def splitSum (text : List Char) : List (List Char) := splitSumFrom 0 [] text

/-- A sign at depth zero, the text starting at depth `depth`. -/
def signOutside (depth : Int) : List Char → Bool
  | [] => false
  | c :: rest =>
    if c == '(' then signOutside (depth + 1) rest
    else if c == ')' then signOutside (depth - 1) rest
    else if (c == '+' || c == '-') && depth == 0 then true
    else signOutside depth rest

/-- A sign stands outside all brackets behind the first symbol. -/
def isSum : List Char → Bool
  | [] => false
  | c :: rest => signOutside (if c == '(' then 1 else if c == ')' then -1 else 0) rest

/-- A letter other than the imaginary unit inside brackets, the text starting at depth
    `depth`. -/
def letterInside (depth : Int) : List Char → Bool
  | [] => false
  | c :: rest =>
    if c == '(' then letterInside (depth + 1) rest
    else if c == ')' then letterInside (depth - 1) rest
    else if decide (0 < depth) && c != imaginaryUnit && isAlphabetic c then true
    else letterInside depth rest

/-- No sum, and every letter stands outside all brackets. -/
def isMonomial (text : List Char) : Bool := !letterInside 0 text && !isSum text

end SamePoly
