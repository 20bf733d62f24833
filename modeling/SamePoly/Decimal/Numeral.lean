/-
  Reading a number as it is given on the command line.

  A number is an optional sign followed by `inf`, `infinity` or `nan` in letters of
  either case, or by decimal digits with an optional point and an optional power of
  ten.  At least one digit stands before or after the point.
-/

namespace SamePoly.Decimal

/-- What the text of a number says, apart from its sign. -/
inductive Numeral where
  /-- An unbounded number. -/
  | infinite
  /-- No number at all. -/
  | undefined
  /-- The number `digits · 10 ^ exponent`. -/
  | finite (digits : Nat) (exponent : Int)
deriving DecidableEq, Repr

namespace Numeral

/-- The number that a run of digits stands for. -/
def digitsValue (digits : List Char) : Nat := Nat.ofDigitChars 10 digits 0

/-- An optional sign; `true` for minus. -/
def splitSign : List Char → Bool × List Char
  | '-' :: rest => (true, rest)
  | '+' :: rest => (false, rest)
  | rest => (false, rest)

/-- The power of ten after the digits: nothing, or `e` and a signed integer. -/
def exponent? : List Char → Option Int
  | [] => some 0
  | 'e' :: rest | 'E' :: rest =>
    let (negative, digits) := splitSign rest
    if digits.isEmpty || !digits.all Char.isDigit then none
    else if negative then some (-(digitsValue digits : Int)) else some (digitsValue digits)
  | _ :: _ => none

/-- A number without a sign. -/
def unsigned? (text : List Char) : Option Numeral :=
  let lower := text.map Char.toLower
  if lower == "inf".toList || lower == "infinity".toList then some .infinite
  else if lower == "nan".toList then some .undefined
  else
    let whole := text.takeWhile Char.isDigit
    let afterWhole := text.dropWhile Char.isDigit
    let (fraction, rest) :=
      match afterWhole with
      | '.' :: rest => (rest.takeWhile Char.isDigit, rest.dropWhile Char.isDigit)
      | rest => ([], rest)
    if whole.isEmpty && fraction.isEmpty then none
    else
      (exponent? rest).map fun power =>
        .finite (digitsValue (whole ++ fraction)) (power - fraction.length)

/-- A number with its sign; `true` for minus. -/
def read? (text : List Char) : Option (Bool × Numeral) :=
  let (negative, rest) := splitSign text
  (unsigned? rest).map fun numeral => (negative, numeral)

end Numeral

end SamePoly.Decimal
