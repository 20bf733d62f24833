/-
  Balanced brackets.

  `checkBrackets` reports the first closing bracket that closes nothing, or else the first
  opening bracket that is never closed.
-/

namespace SamePoly

/-- Why the brackets of a text are not balanced. -/
inductive BracketFault where
  /-- The closing bracket at this position closes nothing. -/
  | noOpening (position : Nat)
  /-- The opening bracket at this position is never closed. -/
  | noEnclosing (position : Nat)
deriving DecidableEq, Repr

/-- A bracket fault in messages. -/
def BracketFault.description : BracketFault → String
  | .noOpening position =>
    "no opening bracket for bracket at position " ++ toString position
  | .noEnclosing position =>
    "no enclosing bracket for bracket at position " ++ toString position

/-- Checks a text that starts at `position`; `opened` holds the positions of the brackets
    opened before it and not closed, the last one first. -/
def checkBracketsFrom : (position : Nat) → (opened : List Nat) → List Char → Option BracketFault
  | _, opened, [] => opened.getLast?.map .noEnclosing
  | position, opened, c :: rest =>
    if c == '(' then checkBracketsFrom (position + 1) (position :: opened) rest
    else if c == ')' then
      match opened with
      | [] => some (.noOpening position)
      | _ :: opened => checkBracketsFrom (position + 1) opened rest
    else checkBracketsFrom (position + 1) opened rest

/-- The first fault in the brackets of a text. -/
def checkBrackets (text : List Char) : Option BracketFault := checkBracketsFrom 0 [] text

end SamePoly
