/-
  From normalized text to terms.

  A sum is split into its terms and a product into its factors; what stands inside brackets
  is compiled in the same way, one level deeper.

  * `compileMonomial`: a product of numbers and variables.
  * `compileSum`, `compileProduct`: sums and products of everything else.
-/
import SamePoly.Error
import SamePoly.Factors
import SamePoly.Summands
import SamePoly.Polynomial.Term

namespace SamePoly

variable (R : Type) [Scalar R]

/-! ## Monomials -/

/-- A text with brackets around every variable. -/
def wrapVariables (text : List Char) : List Char :=
  text.flatMap fun c => if isVariable c then ['(', c, ')'] else [c]

/-- Multiplies the coefficient and the variables found so far by one more factor of a
    monomial. -/
def multiplyFactor (text : List Char) (found : Number R × Shape)
    (factor : List Char × Exponent) : Except PolyError (Number R × Shape) :=
  match (evaluateFactor factor.1 factor.2 : Except FactorFault (Factor R)) with
  | .error fault => .error (.factor (.monomial text) fault)
  | .ok (.numeric value) => .ok (found.1 * value, found.2)
  | .ok (.symbolic [name] exponent) =>
    if isVariable name then
      if Nat.blt maxExponent (found.2.exponent name + exponent) then
        .error (.exponentOverflow text name)
      else .ok (found.1, found.2.raise name exponent)
    else .error (.unexpectedFactor text [name])
  | .ok (.symbolic name _) => .error (.unexpectedFactor text name)

/-- The monomial of a text whose variables all stand outside brackets. -/
def compileMonomial (text : List Char) : Except PolyError (Monomial (Number R)) :=
  match (splitComposition (wrapVariables text)).foldlM (multiplyFactor R text) (1, .one) with
  | .error e => .error e
  | .ok (coefficient, shape) => .ok (.new coefficient shape)

/-! ## Sums and products -/

mutual

/-- The term of a text. -/
def compileSum (text : List Char) (depth : Nat) : Except PolyError (Term (Number R)) :=
  if maxNestingDepth < depth then .error .levels
  else if isSum text then compileTerms text depth
  else compileProduct text depth
termination_by (maxNestingDepth + 1 - depth, text.length, 2)

/-- The sum of the terms of a text.  A term that is no shorter than the text is the text itself
    and would be cut into terms again and again; balanced brackets have none. -/
def compileTerms (text : List Char) (depth : Nat) : Except PolyError (Term (Number R)) := do
  let terms ← (splitSum text).mapM fun term =>
    if isMonomial term then (compileMonomial R term).map .monomial
    else if _h : term.length < text.length then compileProduct term depth
    else .error .endless
  return (Term.sum? terms).getD (.monomial .zero)
termination_by (maxNestingDepth + 1 - depth, text.length, 0)

/-- The term of a text that is no sum. -/
def compileProduct (text : List Char) (depth : Nat) : Except PolyError (Term (Number R)) :=
  if _h : maxNestingDepth < depth then .error .levels
  else if isMonomial text then (compileMonomial R text).map .monomial
  else if isSum text then compileTerms text depth
  else do
    let factors ← (splitComposition text).mapM fun (factor, exponent) =>
      match (evaluateFactor factor exponent : Except FactorFault (Factor R)) with
      | .error fault => .error (.factor (.lexeme text) fault)
      | .ok (.numeric value) => .ok (.monomial (.constant value))
      | .ok (.symbolic base exponent) =>
        if isMonomial base then
          (compileMonomial R base).map fun m => (Term.monomial m).compose exponent
        else (compileSum base (depth + 1)).map fun t => t.compose exponent
    match Term.product? factors with
    | some product => .ok product
    | none => .error (.noFactor text)
termination_by (maxNestingDepth + 1 - depth, text.length, 1)

end

end SamePoly
