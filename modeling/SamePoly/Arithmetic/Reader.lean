/-
  Reading numeric expressions.

  Every level of the grammar takes the longest piece at the start of a token list.  The
  next token always decides how to go on, so nothing is ever read twice.  The rest
  that a level leaves is shorter than what it was given, which bounds the recursion.

  * `Sum.ofTokens?`: a token list as a sum.
  * `Sum.read?`: a text as a sum.
-/
import SamePoly.Arithmetic.Tree

namespace SamePoly.Arithmetic

/-- What is left of a token list after a piece was taken from it. -/
abbrev Rest (tokens : List Token) : Type := { rest : List Token // rest.length < tokens.length }

/-- What is left of a token list after any number of pieces. -/
abbrev Remainder (tokens : List Token) : Type :=
  { rest : List Token // rest.length ≤ tokens.length }

/-- The signs at the start of a token list, and the rest. -/
def takeSigns : (tokens : List Token) → List Sign × Remainder tokens
  | .plus :: rest =>
    let (signs, ⟨last, h⟩) := takeSigns rest
    (.plus :: signs, ⟨last, Nat.le_succ_of_le h⟩)
  | .minus :: rest =>
    let (signs, ⟨last, h⟩) := takeSigns rest
    (.minus :: signs, ⟨last, Nat.le_succ_of_le h⟩)
  | rest => ([], ⟨rest, Nat.le_refl _⟩)

mutual

/-- A sum at the start of a token list. -/
def readSum? (tokens : List Token) : Option (Sum × Rest tokens) :=
  match readProduct? tokens with
  | none => none
  | some (p, ⟨rest, h⟩) =>
    match readSummands? (.single p) rest with
    | none => none
    | some (s, ⟨last, h'⟩) => some (s, ⟨last, Nat.lt_of_le_of_lt h' h⟩)
termination_by (tokens.length, 5)

/-- Further summands of a sum. -/
def readSummands? (s : Sum) (tokens : List Token) : Option (Sum × Remainder tokens) :=
  match tokens with
  | .plus :: tail =>
    match readProduct? tail with
    | none => none
    | some (p, ⟨rest, h⟩) =>
      match readSummands? (.plus s p) rest with
      | none => none
      | some (s', ⟨last, h'⟩) => some (s', ⟨last, by simp only [List.length_cons]; omega⟩)
  | .minus :: tail =>
    match readProduct? tail with
    | none => none
    | some (p, ⟨rest, h⟩) =>
      match readSummands? (.minus s p) rest with
      | none => none
      | some (s', ⟨last, h'⟩) => some (s', ⟨last, by simp only [List.length_cons]; omega⟩)
  | rest => some (s, ⟨rest, Nat.le_refl _⟩)
termination_by (tokens.length, 0)

/-- A product at the start of a token list. -/
def readProduct? (tokens : List Token) : Option (Product × Rest tokens) :=
  match readUnary? tokens with
  | none => none
  | some (u, ⟨rest, h⟩) =>
    match readFactors? (.single u) rest with
    | none => none
    | some (p, ⟨last, h'⟩) => some (p, ⟨last, Nat.lt_of_le_of_lt h' h⟩)
termination_by (tokens.length, 4)

/-- Further factors of a product. -/
def readFactors? (p : Product) (tokens : List Token) : Option (Product × Remainder tokens) :=
  match tokens with
  | .times :: tail =>
    match readUnary? tail with
    | none => none
    | some (u, ⟨rest, h⟩) =>
      match readFactors? (.times p u) rest with
      | none => none
      | some (p', ⟨last, h'⟩) => some (p', ⟨last, by simp only [List.length_cons]; omega⟩)
  | .over :: tail =>
    match readUnary? tail with
    | none => none
    | some (u, ⟨rest, h⟩) =>
      match readFactors? (.over p u) rest with
      | none => none
      | some (p', ⟨last, h'⟩) => some (p', ⟨last, by simp only [List.length_cons]; omega⟩)
  | .number l :: tail =>
    match readPower? (.number l :: tail) with
    | none => none
    | some (q, ⟨rest, h⟩) =>
      match readFactors? (.beside p q) rest with
      | none => none
      | some (p', ⟨last, h'⟩) => some (p', ⟨last, Nat.le_trans h' (Nat.le_of_lt h)⟩)
  | .imaginary l :: tail =>
    match readPower? (.imaginary l :: tail) with
    | none => none
    | some (q, ⟨rest, h⟩) =>
      match readFactors? (.beside p q) rest with
      | none => none
      | some (p', ⟨last, h'⟩) => some (p', ⟨last, Nat.le_trans h' (Nat.le_of_lt h)⟩)
  | .opening :: tail =>
    match readPower? (.opening :: tail) with
    | none => none
    | some (q, ⟨rest, h⟩) =>
      match readFactors? (.beside p q) rest with
      | none => none
      | some (p', ⟨last, h'⟩) => some (p', ⟨last, Nat.le_trans h' (Nat.le_of_lt h)⟩)
  | rest => some (p, ⟨rest, Nat.le_refl _⟩)
termination_by (tokens.length, 3)

/-- A signed power at the start of a token list. -/
def readUnary? (tokens : List Token) : Option (Unary × Rest tokens) :=
  let (signs, ⟨tail, h⟩) := takeSigns tokens
  match readPower? tail with
  | none => none
  | some (q, ⟨rest, h'⟩) => some (.signed signs q, ⟨rest, Nat.lt_of_lt_of_le h' h⟩)
termination_by (tokens.length, 3)
decreasing_by
  rcases Nat.lt_or_eq_of_le h with shorter | same
  · exact Prod.Lex.left _ _ shorter
  · rw [same]
    exact Prod.Lex.right _ (by decide)

/-- A power at the start of a token list. -/
def readPower? (tokens : List Token) : Option (Power × Rest tokens) :=
  match readPrimary? tokens with
  | none => none
  | some (b, ⟨.power :: tail, h⟩) =>
    have shorter : tail.length < tokens.length := Nat.lt_of_succ_lt h
    match readUnary? tail with
    | none => none
    | some (e, ⟨rest, h'⟩) => some (.raised b e, ⟨rest, Nat.lt_trans h' shorter⟩)
  | some (b, rest) => some (.plain b, rest)
termination_by (tokens.length, 2)

/-- A literal or a bracketed sum at the start of a token list. -/
def readPrimary? (tokens : List Token) : Option (Primary × Rest tokens) :=
  match tokens with
  | .number l :: rest => some (.number l, ⟨rest, Nat.lt_succ_self _⟩)
  | .imaginary l :: rest => some (.imaginary l, ⟨rest, Nat.lt_succ_self _⟩)
  | .opening :: tail =>
    match readSum? tail with
    | some (s, ⟨.closing :: rest, h⟩) =>
      some (.group s, ⟨rest, by simp only [List.length_cons] at h ⊢; omega⟩)
    | _ => none
  | _ => none
termination_by (tokens.length, 1)

end

/-- A token list as a sum. -/
def Sum.ofTokens? (tokens : List Token) : Option Sum :=
  match readSum? tokens with
  | some (s, ⟨[], _⟩) => some s
  | _ => none

/-- A text as a sum. -/
def Sum.read? (text : List Char) : Option Sum := (Token.scan? text).bind Sum.ofTokens?

end SamePoly.Arithmetic
