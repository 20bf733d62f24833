/-
  Operators and their operands in the text as it was given.

  * `Site`: an operator with the text before and after it.
  * `divisionSites`, `powerSites`: all divisions and all powers of a text, from left to right.
  * `Violation`: why the expression at a site is no polynomial.
-/
import SamePoly.Operand
import SamePoly.Violation.Kind

namespace SamePoly

/-- Why a well-formed expression is no polynomial. -/
structure Violation where
  kind : Violation.Kind
  /-- The operator together with both operands, as written. -/
  fragment : List Char
  /-- The character position of the operator. -/
  position : Nat
deriving DecidableEq, Repr

/-- The message about a violation. -/
def Violation.message (v : Violation) : String :=
  v.kind.name ++ " found: " ++ String.ofList v.fragment ++ " at " ++ toString v.position ++
    " position."

/-- An operator in a text. -/
structure Site (text : List Char) where
  before : List Char
  operator : List Char
  after : List Char
  whole : before ++ operator ++ after = text
  nonempty : operator ≠ []

namespace Site

variable {text : List Char}

/-- The operand before the operator. -/
def left (site : Site text) : List Char := operandBefore site.before

/-- The operand after the operator. -/
def right (site : Site text) : List Char := operandAfter site.after

/-- The operator with both operands. -/
def fragment (site : Site text) : List Char := site.left ++ site.operator ++ site.right

/-- The violation of a given kind at a site. -/
def violation (site : Site text) (kind : Violation.Kind) : Violation :=
  ⟨kind, site.fragment, site.before.length⟩

/-- An operand is shorter than the text. -/
theorem length_right_lt (site : Site text) : site.right.length < text.length := by
  have h := congrArg List.length site.whole
  have := List.length_pos_iff.2 site.nonempty
  have : site.right.length ≤ site.after.length := length_operandAfter_le site.after
  simp only [List.length_append] at h
  omega

end Site

/-- The divisions in the rest of a text, whose part before the rest is given backwards. -/
def divisionSitesFrom {text : List Char} (before : List Char) :
    (after : List Char) → before.reverse ++ after = text → List (Site text)
  | [], _ => []
  | c :: rest, whole =>
    have next : (c :: before).reverse ++ rest = text := by simpa using whole
    if c == '/' || c == ':' then
      ⟨before.reverse, [c], rest, by simpa using whole, by simp⟩ ::
        divisionSitesFrom (c :: before) rest next
    else divisionSitesFrom (c :: before) rest next

/-- The divisions of a text. -/
def divisionSites (text : List Char) : List (Site text) := divisionSitesFrom [] text rfl

/-- The powers in the rest of a text, whose part before the rest is given backwards. -/
def powerSitesFrom {text : List Char} (before : List Char) :
    (after : List Char) → before.reverse ++ after = text → List (Site text)
  | '*' :: '*' :: rest, whole =>
    ⟨before.reverse, ['*', '*'], rest, by simpa using whole, by simp⟩ ::
      powerSitesFrom ('*' :: '*' :: before) rest (by simpa using whole)
  | c :: rest, whole =>
    have next : (c :: before).reverse ++ rest = text := by simpa using whole
    if c == '^' then
      ⟨before.reverse, [c], rest, by simpa using whole, by simp⟩ ::
        powerSitesFrom (c :: before) rest next
    else powerSitesFrom (c :: before) rest next
  | [], _ => []

/-- The powers of a text. -/
def powerSites (text : List Char) : List (Site text) := powerSitesFrom [] text rfl

end SamePoly
