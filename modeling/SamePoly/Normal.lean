/-
  Normalized text.

  Normalized text has no spaces, one spelling for every operator, no multiplication sign
  next to anything but a digit, and brackets around every base and exponent:
  `x ** 2 + 3,5 : y` becomes `(x)^(2)+3.5/y`.

  * `respell`: spaces go, and each operator and separator gets its one spelling.
  * `dropTimesAfter`, `dropTimesBefore`: multiplication signs go where they say nothing.
  * `wrapBases`, `wrapExponents`: brackets around what stands next to `^`.
  * `normalize`: all of these in order.
-/
import SamePoly.Text.Symbol

namespace SamePoly

/-- One spelling for each separator and operator of a single character. -/
def respellChar (c : Char) : Char :=
  if c == ',' then '.' else if c == ':' then '/' else c

/-- `^` in place of every `**`. -/
def respellPowers : List Char → List Char
  | '*' :: '*' :: rest => '^' :: respellPowers rest
  | c :: rest => c :: respellPowers rest
  | [] => []

/-- Text without spaces, with one spelling for each separator and operator. -/
def respell (text : List Char) : List Char :=
  (respellPowers (text.filter (· != ' '))).map respellChar

/-- Drops each `*` right behind a symbol that is no digit.  A symbol whose `*` was dropped
    is not looked at again. -/
def dropTimesAfter : List Char → List Char
  | c :: '*' :: rest =>
    if c.isDigit then c :: dropTimesAfter ('*' :: rest) else c :: dropTimesAfter rest
  | c :: rest => c :: dropTimesAfter rest
  | [] => []

/-- Drops each `*` right before a symbol that is no digit. -/
def dropTimesBefore : List Char → List Char
  | '*' :: c :: rest =>
    if c.isDigit then '*' :: dropTimesBefore (c :: rest) else c :: dropTimesBefore rest
  | c :: rest => c :: dropTimesBefore rest
  | [] => []

/-- Puts brackets around each literal and each letter right before a `^`. -/
def wrapBases (text : List Char) : List Char :=
  match text with
  | [] => []
  | c :: rest =>
    if isLiteral c then
      let literal := c :: rest.takeWhile isLiteral
      have : (rest.dropWhile isLiteral).length ≤ rest.length := (List.dropWhile_sublist _).length_le
      match _h : rest.dropWhile isLiteral with
      | '^' :: after => '(' :: literal ++ ')' :: '^' :: wrapBases after
      | after => literal ++ wrapBases after
    else
      match rest with
      | '^' :: after => if c.isLower then '(' :: c :: ')' :: '^' :: wrapBases after
        else c :: wrapBases ('^' :: after)
      | after => c :: wrapBases after
termination_by text.length
decreasing_by all_goals (simp_all only [List.length_cons]; omega)

/-- Puts brackets around each literal and each letter right behind a `^`. -/
def wrapExponents (text : List Char) : List Char :=
  match text with
  | '^' :: c :: rest =>
    if isLiteral c then
      have : (rest.dropWhile isLiteral).length ≤ rest.length := (List.dropWhile_sublist _).length_le
      '^' :: '(' :: c :: rest.takeWhile isLiteral ++ ')' :: wrapExponents (rest.dropWhile isLiteral)
    else if c.isLower then '^' :: '(' :: c :: ')' :: wrapExponents rest
    else '^' :: wrapExponents (c :: rest)
  | c :: rest => c :: wrapExponents rest
  | [] => []
termination_by text.length
decreasing_by all_goals (simp_all only [List.length_cons]; omega)

/-- The normalized form of a text. -/
def normalize (text : List Char) : List Char :=
  wrapExponents (wrapBases (dropTimesBefore (dropTimesAfter (respell text))))

end SamePoly
