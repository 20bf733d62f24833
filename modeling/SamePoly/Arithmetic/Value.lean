/-
  The value of a numeric expression.

  * `Sum.value?` and its companions: the value of a tree, computed from left to right;
    nothing if a step divides by zero.
  * `evaluate`: the value of a text, or the reason why it has none.
-/
import SamePoly.Arithmetic.Reader
import SamePoly.Number.Power

namespace SamePoly.Arithmetic

variable {R : Type} [Scalar R]

/-- The real number that a literal stands for. -/
def Literal.value (l : Literal) : R :=
  Scalar.ofDecimal (Nat.ofDigitChars 10 l.digits 0) l.places

mutual

/-- The value of a sum. -/
def Sum.value? : Sum → Option (Number R)
  | .single p => p.value?
  | .plus s p => do
    let total ← s.value?
    let operand ← p.value?
    return total + operand
  | .minus s p => do
    let total ← s.value?
    let operand ← p.value?
    return total - operand

/-- The value of a product. -/
def Product.value? : Product → Option (Number R)
  | .single u => u.value?
  | .times p u => do
    let product ← p.value?
    let operand ← u.value?
    return product * operand
  | .over p u => do
    let product ← p.value?
    let operand ← u.value?
    product.divide? operand
  | .beside p q => do
    let product ← p.value?
    let operand ← q.value?
    return product * operand

/-- The value of a signed power: an odd number of minus signs negates it. -/
def Unary.value? : Unary → Option (Number R)
  | .signed signs p => do
    let value ← p.value?
    return if Sign.negative signs then -value else value

/-- The value of a power. -/
def Power.value? : Power → Option (Number R)
  | .plain b => b.value?
  | .raised b e => do
    let base ← b.value?
    let exponent ← e.value?
    base.power? exponent

/-- The value of a literal or a bracketed sum. -/
def Primary.value? : Primary → Option (Number R)
  | .number l => some (.ofReal l.value)
  | .imaginary none => some ⟨0, 1⟩
  | .imaginary (some l) => some ⟨0, l.value⟩
  | .group s => s.value?

end

end SamePoly.Arithmetic

namespace SamePoly

/-- Why a numeric expression has no value.  Both reasons carry the whole expression. -/
inductive EvalError where
  /-- The text is no numeric expression. -/
  | malformed (text : List Char)
  /-- A step divides by zero. -/
  | divisionByZero (text : List Char)
deriving DecidableEq, Repr

/-- The message of a failed evaluation. -/
def EvalError.message : EvalError → String
  | .malformed text => "Failed evaluating: " ++ String.ofList text ++ "."
  | .divisionByZero text => "Division by zero in: " ++ String.ofList text ++ "."

/-- The value of a numeric expression. -/
def evaluate {R : Type} [Scalar R] (text : List Char) : Except EvalError (Number R) :=
  match Arithmetic.Sum.read? text with
  | none => .error (.malformed text)
  | some sum =>
    match (sum.value? : Option (Number R)) with
    | none => .error (.divisionByZero text)
    | some value => .ok value

end SamePoly
