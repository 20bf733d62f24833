/-
  Tokens of numeric expressions.

  * `Literal`: decimal digits with an optional point, as in `12`, `2.`, `2.5`, `.5`.
  * `Token`: literals, the imaginary unit, operators and brackets.
  * `Token.next?`: the longest token at the start of a text.
  * `Token.scan?`: all tokens of a text.
  * `Token.text`: the spelling of a token.
-/

namespace SamePoly.Arithmetic

/-- A decimal literal as it is spelled. -/
structure Literal where
  /-- The digits before the point. -/
  whole : List Char
  /-- The digits after the point, if there is a point. -/
  fraction : Option (List Char)
deriving DecidableEq, Repr

namespace Literal

/-- All digits of a literal. -/
def digits (l : Literal) : List Char := l.whole ++ l.fraction.getD []

/-- The number of digits after the point. -/
def places (l : Literal) : Nat := (l.fraction.getD []).length

/-- The spelling of a literal. -/
def text (l : Literal) : List Char :=
  match l.fraction with
  | none => l.whole
  | some fraction => l.whole ++ '.' :: fraction

/-- Made of digits, at least one of them. -/
def Valid (l : Literal) : Prop := (∀ c ∈ l.digits, c.isDigit = true) ∧ l.digits ≠ []

/-- The longest literal at the start of a text, and the rest. -/
def read? (text : List Char) : Option (Literal × List Char) :=
  let whole := text.takeWhile Char.isDigit
  match text.dropWhile Char.isDigit with
  | '.' :: rest =>
    let fraction := rest.takeWhile Char.isDigit
    if whole.isEmpty && fraction.isEmpty then none
    else some (⟨whole, some fraction⟩, rest.dropWhile Char.isDigit)
  | rest => if whole.isEmpty then none else some (⟨whole, none⟩, rest)

/-- A literal and the rest make up the text. -/
theorem text_append_of_read? {text rest : List Char} {l : Literal}
    (h : read? text = some (l, rest)) : l.text ++ rest = text := by
  have split := List.takeWhile_append_dropWhile (p := Char.isDigit) (l := text)
  unfold read? at h
  split at h
  · rename_i tail hd
    have tailSplit := List.takeWhile_append_dropWhile (p := Char.isDigit) (l := tail)
    dsimp only at h
    split at h
    · simp at h
    · simp only [Option.some.injEq, Prod.mk.injEq] at h
      obtain ⟨rfl, rfl⟩ := h
      simp only [Literal.text, List.append_assoc, List.cons_append]
      rw [tailSplit, ← hd, split]
  · dsimp only at h
    split at h
    · simp at h
    · simp only [Option.some.injEq, Prod.mk.injEq] at h
      obtain ⟨rfl, rfl⟩ := h
      exact split

/-- What is read as a literal is a valid one. -/
theorem valid_of_read? {text rest : List Char} {l : Literal}
    (h : read? text = some (l, rest)) : l.Valid := by
  have all : ∀ (t : List Char), ∀ c ∈ t.takeWhile Char.isDigit, c.isDigit = true := by
    intro t
    induction t with
    | nil => simp
    | cons a t ih =>
      intro c hc
      rw [List.takeWhile_cons] at hc
      split at hc
      · rcases List.mem_cons.1 hc with rfl | hc
        · assumption
        · exact ih c hc
      · simp at hc
  unfold read? at h
  split at h
  · dsimp only at h
    split at h
    · simp at h
    · rename_i nonempty
      simp only [Option.some.injEq, Prod.mk.injEq] at h
      obtain ⟨rfl, -⟩ := h
      refine ⟨fun c hc => ?_, fun he => nonempty ?_⟩
      · simp only [digits, Option.getD_some, List.mem_append] at hc
        exact hc.elim (all _ c) (all _ c)
      · simpa [digits] using he
  · dsimp only at h
    split at h
    · simp at h
    · rename_i nonempty
      simp only [Option.some.injEq, Prod.mk.injEq] at h
      obtain ⟨rfl, -⟩ := h
      refine ⟨fun c hc => ?_, fun he => nonempty ?_⟩
      · simp only [digits, Option.getD_none, List.append_nil] at hc
        exact all _ c hc
      · simpa [digits] using he

/-- A literal is not empty. -/
theorem text_length_pos {l : Literal} (h : l.Valid) : 0 < l.text.length := by
  unfold text
  split
  · rename_i none
    have := h.2
    simp only [digits, none, Option.getD_none, List.append_nil] at this
    exact List.length_pos_iff.2 this
  · simp only [List.length_append, List.length_cons]
    omega

/-- Reading a literal makes the text shorter. -/
theorem length_lt_of_read? {text rest : List Char} {l : Literal}
    (h : read? text = some (l, rest)) : rest.length < text.length := by
  have := text_length_pos (valid_of_read? h)
  rw [← text_append_of_read? h, List.length_append]
  omega

end Literal

/-- A token of a numeric expression. -/
inductive Token where
  /-- A real literal. -/
  | number (l : Literal)
  /-- The imaginary unit, with a literal directly before it or without. -/
  | imaginary (l : Option Literal)
  | plus
  | minus
  | times
  | over
  | power
  | opening
  | closing
deriving DecidableEq, Repr

namespace Token

/-- The spelling of a token. -/
def text : Token → List Char
  | .number l => l.text
  | .imaginary none => ['i']
  | .imaginary (some l) => l.text ++ ['i']
  | .plus => ['+']
  | .minus => ['-']
  | .times => ['*']
  | .over => ['/']
  | .power => ['^']
  | .opening => ['(']
  | .closing => [')']

/-- A token that starts with a digit or a point. -/
def literal? (text : List Char) : Option (Token × List Char) :=
  match Literal.read? text with
  | none => none
  | some (l, 'i' :: rest) => some (.imaginary (some l), rest)
  | some (l, rest) => some (.number l, rest)

/-- The longest token at the start of a text, and the rest. -/
def next? : List Char → Option (Token × List Char)
  | 'i' :: rest => some (.imaginary none, rest)
  | '+' :: rest => some (.plus, rest)
  | '-' :: rest => some (.minus, rest)
  | '*' :: rest => some (.times, rest)
  | '/' :: rest => some (.over, rest)
  | '^' :: rest => some (.power, rest)
  | '(' :: rest => some (.opening, rest)
  | ')' :: rest => some (.closing, rest)
  | text => literal? text

/-- A token and the rest make up the text. -/
theorem text_append_of_literal? {text rest : List Char} {t : Token}
    (h : literal? text = some (t, rest)) : t.text ++ rest = text := by
  unfold literal? at h
  split at h
  · simp at h
  · rename_i read
    simp only [Option.some.injEq, Prod.mk.injEq] at h
    obtain ⟨rfl, rfl⟩ := h
    simpa [Token.text] using Literal.text_append_of_read? read
  · rename_i read
    simp only [Option.some.injEq, Prod.mk.injEq] at h
    obtain ⟨rfl, rfl⟩ := h
    exact Literal.text_append_of_read? read

/-- A token and the rest make up the text. -/
theorem text_append_of_next? {text rest : List Char} {t : Token}
    (h : next? text = some (t, rest)) : t.text ++ rest = text := by
  unfold next? at h
  split at h
  case h_9 => exact text_append_of_literal? h
  all_goals
    simp only [Option.some.injEq, Prod.mk.injEq] at h
    obtain ⟨rfl, rfl⟩ := h
    rfl

/-- Reading a token that starts with a digit or a point makes the text shorter. -/
theorem length_lt_of_literal? {text rest : List Char} {t : Token}
    (h : literal? text = some (t, rest)) : rest.length < text.length := by
  unfold literal? at h
  split at h
  · simp at h
  · rename_i read
    have := Literal.length_lt_of_read? read
    simp only [Option.some.injEq, Prod.mk.injEq] at h
    obtain ⟨-, rfl⟩ := h
    simp only [List.length_cons] at this
    omega
  · rename_i read
    have := Literal.length_lt_of_read? read
    simp only [Option.some.injEq, Prod.mk.injEq] at h
    obtain ⟨-, rfl⟩ := h
    exact this

/-- Reading a token makes the text shorter. -/
theorem length_lt_of_next? {text rest : List Char} {t : Token}
    (h : next? text = some (t, rest)) : rest.length < text.length := by
  unfold next? at h
  split at h
  case h_9 => exact length_lt_of_literal? h
  all_goals
    simp only [Option.some.injEq, Prod.mk.injEq] at h
    obtain ⟨-, rfl⟩ := h
    simp

/-- All tokens of a text, or nothing if it is not made of tokens. -/
def scan? (text : List Char) : Option (List Token) :=
  if text.isEmpty then some []
  else
    match h : next? text with
    | none => none
    | some (token, rest) =>
      have := length_lt_of_next? h
      (scan? rest).map (token :: ·)
termination_by text.length

/-- The spelling of a list of tokens. -/
def spelling (tokens : List Token) : List Char := tokens.flatMap text

/-- A text is the spelling of its tokens. -/
theorem spelling_of_scan? {text : List Char} {tokens : List Token}
    (h : scan? text = some tokens) : spelling tokens = text := by
  induction hn : text.length using Nat.strongRecOn generalizing text tokens with
  | ind n ih =>
    unfold scan? at h
    split at h
    · rename_i empty
      simp only [Option.some.injEq] at h
      subst h
      simpa [spelling] using empty.symm
    · split at h
      · simp at h
      · rename_i token rest next
        obtain ⟨tail, scanned, rfl⟩ := Option.map_eq_some_iff.1 h
        have shorter := length_lt_of_next? next
        have := ih rest.length (by omega) scanned rfl
        simp only [spelling, List.flatMap_cons] at this ⊢
        rw [this, text_append_of_next? next]

end Token

end SamePoly.Arithmetic
