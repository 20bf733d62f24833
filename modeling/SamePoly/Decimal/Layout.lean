/-
  Written forms of a decimal number.

  * `positional`: all digits in place and no exponent.
  * `scientific`: one digit before the point, then the power of ten.
  * `positionalWithPoint`: as `positional`, but a whole number ends in `.0`.
-/
import SamePoly.Decimal.Shortest

namespace SamePoly.Decimal

/-- The digits of a number in base ten. -/
def digitChars (n : Nat) : List Char := Nat.toDigits 10 n

/-- How many places the decimal point stands to the right of the first digit's
    left edge. -/
def pointPosition (d : Decimal) : Int := d.exponent + (digitChars d.digits).length

/-- All digits in place: `1500`, `0.25`. -/
def positional (d : Decimal) : List Char :=
  let digits := digitChars d.digits
  match d.exponent with
  | .ofNat zeros => digits ++ List.replicate zeros '0'
  | .negSucc _ =>
    match d.pointPosition with
    | .ofNat 0 => '0' :: '.' :: digits
    | .ofNat whole => digits.take whole ++ '.' :: digits.drop whole
    | .negSucc zeros => '0' :: '.' :: List.replicate (zeros + 1) '0' ++ digits

/-- As `positional`, but a whole number keeps one digit after the point: `1500.0`. -/
def positionalWithPoint (d : Decimal) : List Char :=
  match d.exponent with
  | .ofNat _ => d.positional ++ ['.', '0']
  | .negSucc _ => d.positional

/-- One digit before the point, then the power of ten: `1.5e3`. -/
def scientific (d : Decimal) : List Char :=
  let power := (toString (d.pointPosition - 1)).toList
  match digitChars d.digits with
  | [] => []
  | [digit] => digit :: 'e' :: power
  | digit :: rest => digit :: '.' :: rest ++ 'e' :: power

end SamePoly.Decimal
