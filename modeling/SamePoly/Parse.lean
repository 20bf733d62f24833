/-
  From text to polynomials.

  A text is checked, normalized and compiled.  The check of a symbolic denominator parses
  the denominator itself, which is shorter than the text.

  * `validateBy`, `validate`: all checks of a text.
  * `compile`: the polynomial of a text that has passed them.
  * `parse`: the polynomial of a text, or why it has none.
-/
import SamePoly.Compile
import SamePoly.Violation.Check
import SamePoly.Text.Blank

namespace SamePoly

variable (R : Type) [Scalar R]

/-- All checks of a text, in order: malformed text, brackets nested too deeply, expressions
    that are no polynomials. -/
def validateBy (text : List Char) (vanishes : VanishingTest text) : Except PolyError Unit :=
  match malformed? text with
  | some reason => .error (.malformed reason)
  | none =>
    if maxNestingDepth < nestingDepth text then .error (.nested (nestingDepth text))
    else
      match violation? R text vanishes with
      | some reason => .error (.violation reason)
      | none => .ok ()

/-- All coefficients are finite. -/
def Polynomial.isFinite {R : Type} [Scalar R] (p : Polynomial (Number R)) : Bool :=
  p.monomials.all fun m => m.coefficient.isFinite

/-- The polynomial of a text that has passed all checks. -/
def compile (text : List Char) : Except PolyError (Polynomial (Number R)) := do
  let term ← compileSum R (normalize text) 0
  let polynomial := term.toPolynomial
  if polynomial.isFinite then return polynomial else throw (.coefficientOverflow text)

/-- The polynomial of a text, or why it has none. -/
def parse (text : List Char) : Except PolyError (Polynomial (Number R)) := do
  if isBlankText text then throw .empty
  validateBy R text fun denominator _ =>
    match parse denominator with
    | .ok polynomial => polynomial.isZero
    | .error _ => false
  compile R text
termination_by text.length

/-- A denominator that is the zero polynomial. -/
def vanishes (denominator : List Char) : Bool :=
  match parse R denominator with
  | .ok polynomial => polynomial.isZero
  | .error _ => false

/-- All checks of a text. -/
def validate (text : List Char) : Except PolyError Unit :=
  validateBy R text fun denominator _ => vanishes R denominator

/-- Parsing checks the text and then compiles it. -/
theorem parse_eq (text : List Char) :
    parse R text =
      if isBlankText text then .error .empty
      else (validate R text).bind fun _ => compile R text := by
  rw [parse]
  simp only [validate, vanishes]
  split <;> rfl

/-- A text passes all checks if it is well formed, not nested too deeply and without violations. -/
theorem validate_eq_ok_iff {R : Type} [Scalar R] {text : List Char} :
    validate R text = .ok () ↔
      malformed? text = none ∧ nestingDepth text ≤ maxNestingDepth ∧
        violation? R text (fun denominator _ => vanishes R denominator) = none := by
  rw [validate, validateBy]
  cases malformed? text with
  | some reason => simp
  | none =>
    by_cases deep : maxNestingDepth < nestingDepth text
    · simp [deep, Nat.not_le_of_lt deep]
    · cases violation? R text (fun denominator _ => vanishes R denominator) with
      | some reason => simp [deep]
      | none => simp [deep, Nat.le_of_not_lt deep]

/-- A text has a polynomial if it is not blank, passes all checks and can be compiled. -/
theorem parse_eq_ok_iff {R : Type} [Scalar R] {text : List Char} {p : Polynomial (Number R)} :
    parse R text = .ok p ↔
      isBlankText text = false ∧ validate R text = .ok () ∧ compile R text = .ok p := by
  rw [parse_eq]
  cases isBlankText text with
  | true => simp
  | false =>
    cases validate R text with
    | error e => simp [Except.bind]
    | ok _ => simp [Except.bind]

end SamePoly
