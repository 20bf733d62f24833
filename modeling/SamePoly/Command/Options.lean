/-
  The options of a run.

  * `Options`: what a run is asked for.
  * `Options.expressions`: the expressions among the options.
  * `Options.comparison`: the comparison that the options choose.
-/
import SamePoly.Polynomial.Comparison

namespace SamePoly.Command

/-- What a run is asked for. -/
structure Options (R : Type) where
  first : Option (List Char) := none
  second : Option (List Char) := none
  epsilon : Option R := none
  decimal : Option Int32 := none
  exact : Bool := false
  specific : Bool := false
  file : Option (List Char) := none
  verbose : Bool := false

namespace Options

variable {R : Type}

/-- The expressions among the options. -/
def expressions (options : Options R) : List (List Char) :=
  options.first.toList ++ options.second.toList

/-- The comparison that the options choose. -/
def comparison [Scalar R] (options : Options R) : Comparison R :=
  if options.exact then .exact
  else
    match options.decimal, options.epsilon with
    | some digits, _ => .ofDecimalDigits digits
    | none, some tolerance => .epsilon tolerance
    | none, none => .default

end Options

end SamePoly.Command
