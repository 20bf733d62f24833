/-
  The ways in which a well-formed expression fails to be a polynomial.
-/

namespace SamePoly.Violation

/-- Why an expression is no polynomial. -/
inductive Kind where
  /-- A symbolic denominator, or a negative exponent of a symbolic base. -/
  | rationalFunction
  /-- A denominator that is zero. -/
  | divisionByZero
  /-- A variable in the exponent of a number. -/
  | exponentFunction
  /-- A variable both in the base and in the exponent. -/
  | powerAndExponentFunction
  /-- An exponent of a symbolic base that is not real. -/
  | complexExponentFunction
  /-- A fractional exponent of a symbolic base. -/
  | irrationalFunction
  /-- An exponent too large to be stored. -/
  | exponentOverflow
  /-- A coefficient outside the range of the numbers. -/
  | numericOverflow
deriving DecidableEq, Repr

/-- The name of a kind in messages. -/
def Kind.name : Kind → String
  | .rationalFunction => "Rational function"
  | .divisionByZero => "Division by zero"
  | .exponentFunction => "Exponent function"
  | .powerAndExponentFunction => "Power and exponent function"
  | .complexExponentFunction => "Complex exponent function"
  | .irrationalFunction => "Irrational function"
  | .exponentOverflow => "Exponent overflow"
  | .numericOverflow => "Numeric overflow"

end SamePoly.Violation
