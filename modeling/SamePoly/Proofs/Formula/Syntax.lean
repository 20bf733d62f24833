/-
  Formulas and the polynomials they denote.

  A formula is built from decimal literals, the imaginary unit and variables by sums,
  differences, negations, products, quotients and powers.  It is spelled with every operand in
  brackets of its own; spaces, separators and the choice of operator signs are free.

  * `Formula`: the syntax tree.
  * `Formula.denote`: the polynomial that a formula denotes.
  * `Formula.degree`: an upper bound for the degree, read off the tree.
  * `Formula.Proper`: denominators are numbers that do not count as zero.
  * `Formula.Spelled`: the texts of a formula.
-/
import SamePoly.Proofs.Meaning
import SamePoly.Arithmetic.Value
import SamePoly.Text.Symbol

namespace SamePoly

/-! ## Trees -/

/-- Decimal digits, at least one. -/
structure Numeral where
  digits : List Char
  nonempty : digits ≠ []
  decimal : ∀ c ∈ digits, c.isDigit = true

/-- The number that digits stand for. -/
def Numeral.value (n : Numeral) : ℕ := Nat.ofDigitChars 10 n.digits 0

/-- A formula without operators. -/
inductive Atom where
  | decimal (whole : Numeral) (fraction : Option Numeral)
  | unit
  | letter (name : Char) (isName : isVariable name = true)

/-- The operators with two operands. -/
inductive Operation where
  | sum
  | difference
  | product
  | quotient

/-- The syntax tree of a formula. -/
inductive Formula where
  | atom (a : Atom)
  | negation (f : Formula)
  | binary (o : Operation) (f g : Formula)
  | power (f : Formula) (exponent : Numeral)

/-! ## Meaning -/

/-- The literal of digits with or without digits behind a point. -/
def Atom.literal (whole : Numeral) (fraction : Option Numeral) : Arithmetic.Literal :=
  ⟨whole.digits, fraction.map Numeral.digits⟩

/-- The number that a decimal literal stands for. -/
def Atom.decimalValue (whole : Numeral) (fraction : Option Numeral) : ℚ :=
  Nat.ofDigitChars 10 (Atom.literal whole fraction).digits 0 /
    10 ^ (Atom.literal whole fraction).places

/-- The polynomial that an atom denotes. -/
noncomputable def Atom.denote : Atom → MvPolynomial Char (Number ℚ)
  | .decimal whole fraction => MvPolynomial.C (.ofReal (decimalValue whole fraction))
  | .unit => MvPolynomial.C ⟨0, 1⟩
  | .letter name _ => MvPolynomial.X name

namespace Formula

/-- The polynomial that a formula denotes; a denominator counts as the number that it is. -/
noncomputable def denote : Formula → MvPolynomial Char (Number ℚ)
  | .atom a => a.denote
  | .negation f => -f.denote
  | .binary .sum f g => f.denote + g.denote
  | .binary .difference f g => f.denote - g.denote
  | .binary .product f g => f.denote * g.denote
  | .binary .quotient f g =>
    f.denote * MvPolynomial.C (MvPolynomial.constantCoeff g.denote)⁻¹
  | .power f n => f.denote ^ n.value

/-- The degree that the tree shows: a letter has degree one, products add, sums take the
    greater degree, and a power multiplies. -/
def degree : Formula → ℕ
  | .atom (.letter _ _) => 1
  | .atom _ => 0
  | .negation f => f.degree
  | .binary .sum f g => max f.degree g.degree
  | .binary .difference f g => max f.degree g.degree
  | .binary .product f g => f.degree + g.degree
  | .binary .quotient f g => f.degree + g.degree
  | .power f n => f.degree * max n.value 1

/-- No letters occur. -/
def isNumeric : Formula → Bool
  | .atom (.letter _ _) => false
  | .atom _ => true
  | .negation f => f.isNumeric
  | .binary _ f g => f.isNumeric && g.isNumeric
  | .power f _ => f.isNumeric

end Formula

/-- The modulus of a number is at least `bound`. -/
def Number.AtLeast (bound : ℚ) (z : Number ℚ) : Prop := bound ^ 2 ≤ z.re ^ 2 + z.im ^ 2

/-- Every denominator is a number whose modulus is at least 1e-10. -/
def Formula.Proper : Formula → Prop
  | .atom _ => True
  | .negation f => f.Proper
  | .binary .quotient f g =>
    f.Proper ∧ g.Proper ∧ g.isNumeric = true ∧
      Number.AtLeast (1 / 10 ^ 10) (MvPolynomial.constantCoeff g.denote)
  | .binary _ f g => f.Proper ∧ g.Proper
  | .power f _ => f.Proper

/-! ## Spelling -/

/-- The spellings of an atom: a literal may have a point or a comma. -/
def Atom.spellings : Atom → List (List Char)
  | .decimal whole none => [whole.digits]
  | .decimal whole (some fraction) =>
    [whole.digits ++ '.' :: fraction.digits, whole.digits ++ ',' :: fraction.digits]
  | .unit => [['i']]
  | .letter name _ => [[name]]

/-- The signs of an operator. -/
def Operation.spellings : Operation → List (List Char)
  | .sum => [['+']]
  | .difference => [['-']]
  | .product => [['*'], []]
  | .quotient => [['/'], [':']]

/-- The signs of a power. -/
def powerSpellings : List (List Char) := [['^'], ['*', '*']]

/-- Nothing but spaces. -/
def Spaces (text : List Char) : Prop := ∀ c ∈ text, c = ' '

/-- A text in brackets. -/
def bracketed (text : List Char) : List Char := '(' :: (text ++ [')'])

/-- Two operands in brackets with a sign between them, and spaces around everything. -/
def joined (before left sign right after s t : List Char) : List Char :=
  before ++ bracketed s ++ left ++ sign ++ right ++ bracketed t ++ after

/-- The texts of a formula: every operand in its own brackets, any number of spaces between the
    tokens. -/
inductive Formula.Spelled : Formula → List Char → Prop
  | atom {a : Atom} {before sign after : List Char} (hsign : sign ∈ a.spellings) :
      Spaces before → Spaces after → Spelled (.atom a) (before ++ sign ++ after)
  | negation {f : Formula} {s before middle after : List Char} :
      Spelled f s → Spaces before → Spaces middle → Spaces after →
      Spelled (.negation f) (before ++ '-' :: middle ++ bracketed s ++ after)
  | binary {o : Operation} {f g : Formula} {s t before left sign right after : List Char}
      (hsign : sign ∈ o.spellings) :
      Spelled f s → Spelled g t → Spaces before → Spaces left → Spaces right → Spaces after →
      Spelled (.binary o f g) (joined before left sign right after s t)
  | power {f : Formula} {n : Numeral} {s t before left sign right after : List Char}
      (hsign : sign ∈ powerSpellings) :
      Spelled f s → Spelled (.atom (.decimal n none)) t →
      Spaces before → Spaces left → Spaces right → Spaces after →
      Spelled (.power f n) (joined before left sign right after s t)

namespace Formula.Spelled

/-- A letter is a spelling of itself. -/
theorem letter {name : Char} (isName : isVariable name = true) :
    Spelled (.atom (.letter name isName)) [name] :=
  @atom _ [] [name] [] (List.mem_singleton_self _) nofun nofun

/-- Digits are a spelling of their number. -/
theorem digits (n : Numeral) : Spelled (.atom (.decimal n none)) n.digits := by
  have spelled := @atom (.decimal n none) [] n.digits [] (List.mem_singleton_self _) nofun nofun
  rwa [List.nil_append, List.append_nil] at spelled

/-- A power without spaces. -/
theorem raised {f : Formula} {s : List Char} (h : Spelled f s) (n : Numeral) :
    Spelled (.power f n) (bracketed s ++ '^' :: bracketed n.digits) := by
  have spelled := @power f n s n.digits [] [] ['^'] [] [] (List.mem_cons_self ..) h (digits n)
    nofun nofun nofun nofun
  rwa [joined, List.nil_append, List.append_nil, List.append_nil, List.append_nil,
    List.append_assoc, List.singleton_append] at spelled

end Formula.Spelled

end SamePoly
