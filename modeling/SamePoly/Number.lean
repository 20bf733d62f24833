/-
  Complex numbers, the coefficients and values of expressions.

  * `Number`: a real and an imaginary part, with the usual arithmetic.
  * `Number.divide?`: division that refuses a zero divisor and stays on the real
    line when both operands are on it.
  * `Number.text`: `2`, `-0.5`, `2i`, `1+2i`.
  * `Number.exponent?`: the non-negative integer that a symbolic base may be
    raised to, or the reason why there is none.
-/
import SamePoly.Scalar
import SamePoly.Violation.Kind

namespace SamePoly

/-- A complex number `re + im · i`. -/
structure Number (R : Type) where
  re : R
  im : R
deriving DecidableEq, Repr

namespace Number

variable {R : Type} [Scalar R]

/-! ## Arithmetic -/

/-- A real number. -/
def ofReal (x : R) : Number R := ⟨x, 0⟩

instance : Zero (Number R) := ⟨ofReal 0⟩
instance : One (Number R) := ⟨ofReal 1⟩
instance : Add (Number R) := ⟨fun z w => ⟨z.re + w.re, z.im + w.im⟩⟩
instance : Sub (Number R) := ⟨fun z w => ⟨z.re - w.re, z.im - w.im⟩⟩
instance : Neg (Number R) := ⟨fun z => ⟨-z.re, -z.im⟩⟩

instance : Mul (Number R) :=
  ⟨fun z w => ⟨z.re * w.re - z.im * w.im, z.re * w.im + z.im * w.re⟩⟩

/-- The square of the absolute value. -/
def squaredSize (z : Number R) : R := z.re * z.re + z.im * z.im

instance : Div (Number R) :=
  ⟨fun z w =>
    ⟨(z.re * w.re + z.im * w.im) / w.squaredSize, (z.im * w.re - z.re * w.im) / w.squaredSize⟩⟩

/-- One divided by a number. -/
def inverse (z : Number R) : Number R := ⟨z.re / z.squaredSize, -z.im / z.squaredSize⟩

/-! ## Tests -/

/-- Both parts are numerically zero. -/
def isZero (z : Number R) : Bool := Scalar.isZero z.re && Scalar.isZero z.im

/-- The imaginary part is numerically zero. -/
def isReal (z : Number R) : Bool := Scalar.isZero z.im

/-- Both parts are finite. -/
def isFinite (z : Number R) : Bool := Scalar.isFinite z.re && Scalar.isFinite z.im

/-- Both parts are numerically equal. -/
def same (z w : Number R) : Bool := Scalar.same z.re w.re && Scalar.same z.im w.im

/-- The absolute value is less than `bound`. -/
def nearer (z : Number R) (bound : R) : Bool := Scalar.nearer z.re z.im bound

/-- The absolute value is at most `bound`. -/
def within (z : Number R) (bound : R) : Bool := Scalar.within z.re z.im bound

/-! ## Division -/

/-- The quotient, refused for a zero divisor.  Two real operands have a real
    quotient. -/
def divide? (z w : Number R) : Option (Number R) :=
  if w.isZero then none
  else if z.isReal && w.isReal then some (ofReal (z.re / w.re))
  else some (z / w)

/-! ## Text -/

/-- The text of a number: the parts that are not zero, the imaginary one followed
    by `i`. -/
def text (z : Number R) : List Char :=
  if z.isReal then Scalar.text z.re
  else if Scalar.isZero z.re then Scalar.text z.im ++ ['i']
  else Scalar.text z.re ++ Scalar.signedText z.im ++ ['i']

/-! ## Exponents of symbolic bases -/

/-- The non-negative integer that a number is, up to rounding errors. -/
def exponent? (z : Number R) : Except Violation.Kind R :=
  let rounded := Scalar.round z.re
  if Scalar.atMost Scalar.integerTolerance (Scalar.abs z.im) then .error .complexExponentFunction
  else if !Scalar.isFinite z.re ||
      Scalar.atMost Scalar.integerTolerance (Scalar.abs (z.re - rounded)) then
    .error .irrationalFunction
  else if Scalar.less rounded 0 then .error .rationalFunction
  else .ok rounded

end Number

end SamePoly
