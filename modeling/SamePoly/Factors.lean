/-
  Products of normalized text.

  A product is cut into bracket groups with their exponents and the stretches of text
  between them.  Equal factors are merged where the first one stands.

  * `tower`: the exponent behind a `^`, bracket groups and literals linked by `^`.
  * `splitComposition`: the factors of a product, each with its exponent.
-/
import SamePoly.Brackets
import SamePoly.Exponent

namespace SamePoly

/-! ## Towers of exponents -/

/-- A link of a tower behind a `^`, and the rest: a bracket group, or as many literal
    symbols as there are.  A bracket that is never closed takes the rest of the text. -/
def link : List Char → List Char × List Char
  | '(' :: rest =>
    match group? rest with
    | some (inside, after) => ('(' :: inside ++ [')'], after)
    | none => ('(' :: rest, [])
  | text => (text.takeWhile isLiteral, text.dropWhile isLiteral)

/-- The first link of a tower, and the rest.  Its first symbol may be anything. -/
def firstLink : List Char → List Char × List Char
  | [] => ([], [])
  | '(' :: rest => link ('(' :: rest)
  | c :: rest => (c :: rest.takeWhile isLiteral, rest.dropWhile isLiteral)

/-- A link and the rest make up the text. -/
theorem link_append (text : List Char) : (link text).1 ++ (link text).2 = text := by
  unfold link
  split
  · split
    · rename_i found
      simpa using splitAtMatch_append found
    · simp
  · exact List.takeWhile_append_dropWhile

/-- The first link and the rest make up the text. -/
theorem firstLink_append (text : List Char) : (firstLink text).1 ++ (firstLink text).2 = text := by
  unfold firstLink
  split
  · rfl
  · exact link_append _
  · simp

/-- What a link leaves is no longer than the text. -/
theorem length_link_le (text : List Char) : (link text).2.length ≤ text.length := by
  have h := congrArg List.length (link_append text)
  rw [List.length_append] at h
  omega

/-- The further links of a tower, each behind a `^`, and the rest.  A `^` belongs to the
    tower only if something stands behind it. -/
def links (text : List Char) : List Char × List Char :=
  match text with
  | '^' :: c :: rest =>
    have := length_link_le (c :: rest)
    let (more, last) := links (link (c :: rest)).2
    ('^' :: (link (c :: rest)).1 ++ more, last)
  | last => ([], last)
termination_by text.length
decreasing_by simp only [List.length_cons] at *; omega

/-- The exponent at the start of a text, and the rest. -/
def tower (text : List Char) : List Char × List Char :=
  let (more, last) := links (firstLink text).2
  ((firstLink text).1 ++ more, last)

/-- The links and the rest make up the text. -/
theorem links_append (text : List Char) : (links text).1 ++ (links text).2 = text := by
  induction hn : text.length using Nat.strongRecOn generalizing text with
  | ind n ih =>
    unfold links
    split
    · rename_i c rest
      have shorter := length_link_le (c :: rest)
      have := ih (link (c :: rest)).2.length (by simp only [List.length_cons] at *; omega) _ rfl
      simp only [List.cons_append, List.append_assoc]
      rw [this, link_append]
    · rfl

/-- A tower and the rest make up the text. -/
theorem tower_append (text : List Char) : (tower text).1 ++ (tower text).2 = text := by
  simp only [tower, List.append_assoc]
  rw [links_append, firstLink_append]

/-! ## Factors -/

/-- The factors of a product, each with its exponent, in the order of their first
    occurrence. -/
abbrev Factors : Type := List (List Char × Exponent)

/-- Adds a factor at the end, or its exponent to the one that the same factor has already.
    An empty factor is left out. -/
def Factors.push (factors : Factors) (factor : List Char) (exponent : Exponent) : Factors :=
  if factor.isEmpty then factors else go factors
where
  /-- Looks for the factor from the front. -/
  go : Factors → Factors
    | [] => [(factor, exponent)]
    | (known, accumulated) :: rest =>
      if known == factor then (known, accumulated.accumulate exponent) :: rest
      else (known, accumulated) :: go rest

/-- A stretch of text in front of a group, given backwards, without the operator that joins
    it to the group. -/
def withoutOperator : List Char → List Char
  | '*' :: rest => rest.reverse
  | '/' :: rest => rest.reverse
  | stretch => stretch.reverse

/-- Adds the factors of a text.  `stretch` holds the symbols since the last group,
    backwards; `divided` says that a `/` of the stretch stands right before the text, and
    `raised` that a `^` does. -/
def splitCompositionFrom (factors : Factors) (stretch : List Char) (divided raised : Bool)
    (text : List Char) : Factors :=
  match text with
  | [] => factors.push stretch.reverse .one
  | c :: rest =>
    if c == '/' then splitCompositionFrom factors (c :: stretch) true false rest
    else if c == '(' && !raised then
      let flushed := factors.push (withoutOperator stretch) .one
      match found : group? rest with
      | none => flushed.push (stretch.reverse ++ c :: rest) .one
      | some (inside, '^' :: after) =>
        let exponent := (tower after).1
        have : (tower after).2.length < (c :: rest).length := by
          have h := congrArg List.length (tower_append after)
          have h' := congrArg List.length (splitAtMatch_append found)
          simp only [List.length_append, List.length_cons] at h h' ⊢
          omega
        splitCompositionFrom
          (flushed.push inside
            (if divided then .negated (.literal exponent) else .literal exponent))
          [] false (exponent.getLast? == some '^') (tower after).2
      | some (inside, after) =>
        have : after.length < (c :: rest).length := by
          have h' := congrArg List.length (splitAtMatch_append found)
          simp only [List.length_append, List.length_cons] at h' ⊢
          omega
        splitCompositionFrom (flushed.push inside (if divided then .negated .one else .one))
          [] false false after
    else splitCompositionFrom factors (c :: stretch) false (c == '^') rest
termination_by text.length
decreasing_by all_goals (simp only [List.length_cons] at *; omega)

/-- The factors of a product, each with its exponent.  A bracket group that does not stand
    behind a `^` is a factor with the tower behind it as its exponent, negated behind a
    `/`; a stretch of text between such groups is another factor. -/
def splitComposition (text : List Char) : Factors := splitCompositionFrom [] [] false false text

end SamePoly
