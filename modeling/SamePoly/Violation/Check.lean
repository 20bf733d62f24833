/-
  Expressions that are no polynomials.

  The check looks at each division and each power together with the operands next to it.  A
  denominator has to be a number that is not zero; an exponent has to be a number, and a
  non-negative integer if the base has a variable.  Operands that are no numeric expressions
  by themselves are left to later stages.

  * `checkDivision`, `checkPower`: the leftmost faulty division and power.
  * `violation?`: the first finding of both.
-/
import SamePoly.Violation.Site
import SamePoly.Normal
import SamePoly.Arithmetic.Value

namespace SamePoly

variable (R : Type) [Scalar R]

/-- A test whether a denominator shorter than the text is the zero polynomial. -/
abbrev VanishingTest (text : List Char) : Type :=
  (denominator : List Char) → denominator.length < text.length → Bool

/-- What is wrong with a division. -/
def divisionFault? {text : List Char} (vanishes : VanishingTest text) (site : Site text) :
    Option Violation.Kind :=
  if hasVariable site.right then
    if vanishes site.right site.length_right_lt then some .divisionByZero
    else some .rationalFunction
  else
    match (evaluate (normalize site.right) : Except EvalError (Number R)) with
    | .error _ => none
    | .ok denominator =>
      if denominator.nearer Scalar.denominatorTolerance then some .divisionByZero else none

/-- A real number below zero. -/
def isNegativeReal (z : Number R) : Bool :=
  Scalar.less (Scalar.abs z.im) Scalar.integerTolerance && Scalar.less z.re 0

/-- What is wrong with a power. -/
def powerFault? {text : List Char} (site : Site text) : Option Violation.Kind :=
  if hasVariable site.right then
    if hasVariable site.left then some .powerAndExponentFunction else some .exponentFunction
  else
    match (evaluate (normalize site.right) : Except EvalError (Number R)) with
    | .error _ => none
    | .ok exponent =>
      if hasVariable site.left then
        match exponent.exponent? with
        | .error kind => some kind
        | .ok _ => none
      else
        match (evaluate (normalize site.left) : Except EvalError (Number R)) with
        | .error _ => none
        | .ok base =>
          if base.nearer Scalar.integerTolerance && isNegativeReal R exponent then
            some .divisionByZero
          else none

/-- The leftmost division by a symbolic or vanishing denominator. -/
def checkDivision (text : List Char) (vanishes : VanishingTest text) : Option Violation :=
  (divisionSites text).findSome? fun site => (divisionFault? R vanishes site).map site.violation

/-- The leftmost power whose exponent does not fit its base. -/
def checkPower (text : List Char) : Option Violation :=
  (powerSites text).findSome? fun site => (powerFault? R site).map site.violation

/-- The first violation of a text; divisions come before powers. -/
def violation? (text : List Char) (vanishes : VanishingTest text) : Option Violation :=
  match checkDivision R text vanishes with
  | some violation => some violation
  | none => checkPower R text

/-- A faultless denominator has no variable and is not zero. -/
theorem divisionFault?_eq_none_iff {R : Type} [Scalar R] {text : List Char}
    {vanishes : VanishingTest text} {site : Site text} :
    divisionFault? R vanishes site = none ↔
      hasVariable site.right = false ∧
        ∀ z : Number R, evaluate (normalize site.right) = .ok z →
          z.nearer Scalar.denominatorTolerance = false := by
  rw [divisionFault?]
  cases hasVariable site.right with
  | true => cases vanishes site.right site.length_right_lt <;> simp
  | false =>
    cases (evaluate (normalize site.right) : Except EvalError (Number R)) with
    | error e => simp
    | ok z => simp

/-- There is no violation exactly where no operator is at fault. -/
theorem violation?_eq_none_iff {R : Type} [Scalar R] {text : List Char}
    {vanishes : VanishingTest text} :
    violation? R text vanishes = none ↔
      (∀ site ∈ divisionSites text, divisionFault? R vanishes site = none) ∧
        ∀ site ∈ powerSites text, powerFault? R site = none := by
  have divisions : checkDivision R text vanishes = none ↔
      ∀ site ∈ divisionSites text, divisionFault? R vanishes site = none := by
    simp only [checkDivision, List.findSome?_eq_none_iff, Option.map_eq_none_iff]
  have powers : checkPower R text = none ↔ ∀ site ∈ powerSites text, powerFault? R site = none := by
    simp only [checkPower, List.findSome?_eq_none_iff, Option.map_eq_none_iff]
  rw [← divisions, ← powers, violation?]
  cases checkDivision R text vanishes with
  | some violation => simp
  | none => exact (and_iff_right rfl).symm

end SamePoly
