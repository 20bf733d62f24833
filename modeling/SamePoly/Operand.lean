/-
  Operands in the text as it was given.

  The operand on either side of an operator is a bracket group, one variable, or a run of
  numeric symbols, together with the spaces between it and the operator.

  * `operandBefore`: the operand at the end of a text.
  * `operandAfter`: the operand at the start of a text.
  * `operandStart`, `operandEnd`: the same by place.
-/
import SamePoly.Brackets
import SamePoly.Text.Symbol

namespace SamePoly

/-- The operand at the end of a text.  A closing bracket without an opening one takes the
    whole text. -/
def operandBefore (before : List Char) : List Char :=
  let spaces := before.reverse.takeWhile (· == ' ')
  match before.reverse.dropWhile (· == ' ') with
  | [] => before
  | ')' :: rest =>
    match groupBefore? rest with
    | some (inside, _) => '(' :: inside.reverse ++ ')' :: spaces
    | none => before
  | c :: rest =>
    if isVariable c then c :: spaces
    else ((c :: rest).takeWhile isNumeric).reverse ++ spaces

/-- The operand at the start of a text.  A group in front of a power operator goes on to
    the end of the power. -/
def operandAfter (after : List Char) : List Char :=
  let spaces := after.takeWhile (· == ' ')
  match after.dropWhile (· == ' ') with
  | [] => after
  | '(' :: rest =>
    match groupBeforePower? 0 rest with
    | some (inside, _) => spaces ++ '(' :: inside ++ [')']
    | none => after
  | c :: rest =>
    if isVariable c then spaces ++ [c]
    else spaces ++ (c :: rest).takeWhile isNumeric

/-- The part of a list before its end that does not satisfy a test, and the end. -/
theorem reverse_dropWhile_append (p : Char → Bool) (text : List Char) :
    (text.reverse.dropWhile p).reverse ++ (text.reverse.takeWhile p).reverse = text := by
  rw [← List.reverse_append, List.takeWhile_append_dropWhile, List.reverse_reverse]

/-- The operand after an operator is a part of the text after it. -/
theorem operandAfter_append (after : List Char) :
    ∃ rest, operandAfter after ++ rest = after := by
  have split := List.takeWhile_append_dropWhile (p := (· == ' ')) (l := after)
  unfold operandAfter
  dsimp only
  split
  · exact ⟨[], List.append_nil _⟩
  · rename_i rest dropped
    split
    · rename_i inside last found
      refine ⟨last, ?_⟩
      have := groupBeforePower?_append found
      rw [dropped] at split
      simpa [this] using split
    · exact ⟨[], List.append_nil _⟩
  · rename_i c rest _ dropped
    rw [dropped] at split
    split
    · exact ⟨rest, by simpa using split⟩
    · refine ⟨(c :: rest).dropWhile isNumeric, ?_⟩
      rw [List.append_assoc, List.takeWhile_append_dropWhile, split]

/-- The operand after an operator is no longer than the text after it. -/
theorem length_operandAfter_le (after : List Char) :
    (operandAfter after).length ≤ after.length := by
  obtain ⟨rest, h⟩ := operandAfter_append after
  have := congrArg List.length h
  rw [List.length_append] at this
  omega

/-- The place where the operand before an operator starts.  A place inside a character
    has no operand before it. -/
def operandStart (text : List Char) (operator : Nat) : Nat :=
  match cut operator text with
  | (before, []) => utf8Length before - utf8Length (operandBefore before)
  | (before, _ :: _) =>
    if utf8Length before == operator then operator - utf8Length (operandBefore before)
    else operator

/-- The place where the operand after an operator ends.  A place inside a character has
    no operand after it. -/
def operandEnd (text : List Char) (after : Nat) : Nat :=
  match cut after text with
  | (before, []) => utf8Length before
  | (before, rest) =>
    if utf8Length before == after then after + utf8Length (operandAfter rest) else after

end SamePoly
