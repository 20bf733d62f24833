/-
  Exponents of factors before they are evaluated.

  Equal factors of a product are merged and their exponents collected as a sum; a division
  in front of a factor negates its exponent.  The text of every summand is kept, so a
  broken exponent is reported as it was written.

  * `Exponent`: a text, a sum of exponents, or a negated exponent.
  * `Exponent.accumulate`: one more summand.
  * `Exponent.evaluate`: the value, summand by summand.
  * `Exponent.text`: the spelling.
-/
import SamePoly.Arithmetic.Value
import SamePoly.Text.Symbol

namespace SamePoly

/-- An exponent that is not evaluated yet. -/
inductive Exponent where
  | literal (text : List Char)
  | sum (summands : List Exponent)
  | negated (inner : Exponent)

namespace Exponent

/-- The exponent of a factor that stands alone. -/
def one : Exponent := .literal ['1']

/-- An exponent with one more summand.  Only an outermost sum grows; anything else becomes
    the first of two summands. -/
def accumulate (e other : Exponent) : Exponent :=
  match e with
  | .sum summands => .sum (summands ++ [other])
  | single => .sum [single, other]

mutual

/-- A variable occurs in the exponent. -/
def hasVariable : Exponent → Bool
  | .literal text => SamePoly.hasVariable text
  | .sum summands => anyHasVariable summands
  | .negated inner => inner.hasVariable

/-- A variable occurs in one of the exponents. -/
def anyHasVariable : List Exponent → Bool
  | [] => false
  | e :: rest => e.hasVariable || anyHasVariable rest

end

mutual

/-- The value of an exponent; of several broken summands the first one is reported. -/
def evaluate {R : Type} [Scalar R] : Exponent → Except EvalError (Number R)
  | .literal text => SamePoly.evaluate text
  | .sum summands => addAll 0 summands
  | .negated inner => do
    let value ← inner.evaluate
    return -value

/-- The values of exponents added to a total from left to right. -/
def addAll {R : Type} [Scalar R] (total : Number R) : List Exponent → Except EvalError (Number R)
  | [] => .ok total
  | e :: rest => do
    let value ← e.evaluate
    addAll (total + value) rest

end

mutual

/-- The spelling of an exponent. -/
def text : Exponent → List Char
  | .literal text => text
  | .sum summands => joined summands
  | .negated inner => '-' :: '(' :: inner.text ++ [')']

/-- The spellings of exponents with `+` between them. -/
def joined : List Exponent → List Char
  | [] => []
  | [e] => e.text
  | e :: rest => e.text ++ '+' :: joined rest

end

end Exponent

end SamePoly
