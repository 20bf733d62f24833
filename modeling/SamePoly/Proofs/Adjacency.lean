/-
  Which symbols stand side by side in normalized text.

  Normalized text of a well-formed expression is described by the pairs of symbols that stand
  side by side in it.  The description passes on to every part that is cut out between two
  literals.

  * `Kind`, `kind`: what a symbol is good for.
  * `Kind.follows`: which kinds stand right behind each other.
  * `Sound`: text of known symbols, any two neighbours of which may be neighbours.
  * `Sound.cut`: a part of sound text is sound.
-/
import SamePoly.Proofs.WellFormed

namespace SamePoly

theorem neighbours_of_isChain {R : Char → Char → Prop} {c : Char} {after : List Char}
    (before : List Char) (h : (before ++ c :: after).IsChain R) :
    (∀ b ∈ before.getLast?, R b c) ∧ ∀ d ∈ after.head?, R c d := by
  rw [List.isChain_append, List.isChain_cons] at h
  exact ⟨fun b hb => h.2.2 b hb c rfl, h.2.1.1⟩

/-! ## Kinds of symbols -/

/-- What a symbol of normalized text is good for. -/
inductive Kind where
  | digit
  | point
  | letter
  | opening
  | closing
  | sign
  | star
  | slash
  | caret
  | other
deriving DecidableEq

/-- The kind of a symbol. -/
def kind (c : Char) : Kind :=
  if c.isDigit then .digit
  else if c.isLower then .letter
  else if c = '.' then .point
  else if c = '(' then .opening
  else if c = ')' then .closing
  else if c = '+' ∨ c = '-' then .sign
  else if c = '*' then .star
  else if c = '/' then .slash
  else if c = '^' then .caret
  else .other

namespace Kind

/-- An operand starts. -/
def startsOperand : Kind → Bool
  | digit | letter | opening => true
  | _ => false

/-- An operator, which has an operand behind it. -/
def isOperator : Kind → Bool
  | sign | star | slash | caret => true
  | _ => false

/-- The second kind stands right behind the first one, given what stands behind a `*` and behind
    a `^`.  A closing bracket behind a sign is no mistake that the checks find. -/
def leadsTo (behindStar behindCaret : Kind → Bool) : Kind → Kind → Bool
  | opening, next => next.startsOperand || next == sign
  | sign, next => next.startsOperand || next == closing
  | star, next => behindStar next
  | slash, next => next.startsOperand
  | caret, next => behindCaret next
  | point, next => next == digit
  | digit, next => next != other
  | letter, next => next != point && next != other
  | closing, next => next != point && next != other
  | other, _ => false

/-- The second kind stands right behind the first one in normalized text.  A `^` behind a `^` is
    no mistake that the checks find either. -/
def follows (first next : Kind) : Bool :=
  leadsTo startsOperand (fun k => k.startsOperand || k == caret) first next &&
    !(next == caret && (first == digit || first == letter))

end Kind

theorem kind_eq_digit_iff {c : Char} : kind c = .digit ↔ c.isDigit = true := by
  unfold kind
  split_ifs <;> simp_all

theorem isLower_eq_false_of_isDigit {c : Char} (h : c.isDigit = true) : c.isLower = false := by
  have range := toNat_of_isDigit h
  rw [← Bool.not_eq_true]
  intro hl
  have := toNat_of_isLower hl
  omega

theorem kind_eq_letter_iff {c : Char} : kind c = .letter ↔ c.isLower = true := by
  unfold kind
  split_ifs with hd <;> simp_all [isLower_eq_false_of_isDigit]

theorem kind_eq_point_iff {c : Char} : kind c = .point ↔ c = '.' := by
  constructor
  · unfold kind
    split_ifs <;> simp_all
  · rintro rfl
    rfl

theorem kind_eq_opening_iff {c : Char} : kind c = .opening ↔ c = '(' := by
  constructor
  · unfold kind
    split_ifs <;> simp_all
  · rintro rfl
    rfl

theorem kind_eq_closing_iff {c : Char} : kind c = .closing ↔ c = ')' := by
  constructor
  · unfold kind
    split_ifs <;> simp_all
  · rintro rfl
    rfl

theorem kind_eq_sign_iff {c : Char} : kind c = .sign ↔ c = '+' ∨ c = '-' := by
  constructor
  · unfold kind
    split_ifs <;> simp_all
  · rintro (rfl | rfl) <;> rfl

theorem kind_eq_star_iff {c : Char} : kind c = .star ↔ c = '*' := by
  constructor
  · unfold kind
    split_ifs <;> simp_all
  · rintro rfl
    rfl

theorem kind_eq_slash_iff {c : Char} : kind c = .slash ↔ c = '/' := by
  constructor
  · unfold kind
    split_ifs <;> simp_all
  · rintro rfl
    rfl

theorem kind_eq_caret_iff {c : Char} : kind c = .caret ↔ c = '^' := by
  constructor
  · unfold kind
    split_ifs <;> simp_all
  · rintro rfl
    rfl

theorem isLiteral_iff {c : Char} : isLiteral c = true ↔ kind c = .digit ∨ kind c = .point := by
  rw [isLiteral, Bool.or_eq_true, beq_iff_eq, kind_eq_digit_iff, kind_eq_point_iff]

theorem head?_dropWhile_isLiteral (text : List Char) :
    ∀ e ∈ (text.dropWhile isLiteral).head?, isLiteral e = false := by
  intro e he
  have := List.head?_dropWhile_not isLiteral text
  rw [Option.mem_def.1 he] at this
  simpa using this

/-! ## Sound text -/

/-- A symbol may stand right behind another one. -/
def Follows (c d : Char) : Prop := (kind c).follows (kind d) = true

/-- Only digits stand behind a point. -/
theorem Follows.isDigit {d : Char} (h : Follows '.' d) : d.isDigit = true := by
  have digit : (kind d == .digit && !(kind d == .caret && false)) = true := h
  rw [Bool.and_eq_true, beq_iff_eq] at digit
  exact kind_eq_digit_iff.1 digit.1

/-- Operands and signs stand behind an opening bracket. -/
theorem Follows.of_opening {d : Char} (h : Follows '(' d) :
    (kind d).startsOperand = true ∨ kind d = .sign := by
  have first : (((kind d).startsOperand || kind d == .sign) && !(kind d == .caret && false)) = true :=
    h
  rw [Bool.and_eq_true, Bool.or_eq_true, beq_iff_eq] at first
  exact first.1

theorem getLast?_ne_of_append {before rest : List Char} {c : Char}
    (h : (before ++ rest).getLast? ≠ some c) : rest.getLast? ≠ some c := by
  cases rest with
  | nil => exact nofun
  | cons d rest => rwa [List.getLast?_append_of_ne_nil _ (List.cons_ne_nil _ _)] at h

theorem getLast?_append_ne {before rest : List Char} {c : Char} (h : before.getLast? ≠ some c)
    (hr : rest.getLast? ≠ some c) : (before ++ rest).getLast? ≠ some c := by
  cases rest with
  | nil => rwa [List.append_nil]
  | cons d rest => rwa [List.getLast?_append_of_ne_nil _ (List.cons_ne_nil _ _)]

/-- Text of known symbols in which only neighbours stand side by side and which does not break
    off behind a point. -/
structure Sound (text : List Char) : Prop where
  known : ∀ c ∈ text, kind c ≠ .other
  adjacent : text.IsChain Follows
  ends : text.getLast? ≠ some '.'

namespace Sound

variable {text before rest : List Char} {c d : Char}

/-- The part of a text behind a place. -/
theorem of_append (h : Sound (before ++ rest)) : Sound rest :=
  ⟨fun c hc => h.known c (List.mem_append_right _ hc), h.adjacent.right_of_append,
    getLast?_ne_of_append h.ends⟩

theorem tail (h : Sound (c :: rest)) : Sound rest :=
  of_append (show Sound ([c] ++ rest) from h)

theorem follows (h : Sound (before ++ c :: d :: rest)) : Follows c d :=
  (List.isChain_cons_cons.1 h.of_append.adjacent).1

/-- **A part of sound text that is cut out in front of anything but a digit is sound.** -/
theorem cut (h : Sound (text ++ rest)) (hr : ∀ d ∈ rest.head?, d.isDigit = false) : Sound text := by
  refine ⟨fun c hc => h.known c (List.mem_append_left _ hc), h.adjacent.left_of_append, ?_⟩
  intro hlast
  cases rest with
  | nil =>
    rw [List.append_nil] at h
    exact h.ends hlast
  | cons d rest =>
    have neighbours : Follows '.' d := (List.isChain_append.1 h.adjacent).2.2 _ hlast d rfl
    have digit := neighbours.isDigit
    rw [hr d rfl] at digit
    cases digit

/-- So is a part that ends with anything but a point. -/
theorem cut_of_getLast? (h : Sound (text ++ rest)) (hlast : text.getLast? ≠ some '.') :
    Sound text :=
  ⟨fun c hc => h.known c (List.mem_append_left _ hc), h.adjacent.left_of_append, hlast⟩

/-- So is a part up to the end of a literal. -/
theorem cut_takeWhile (before : List Char) (h : Sound (before ++ text)) : Sound (before ++ text.takeWhile isLiteral) := by
  rw [← List.takeWhile_append_dropWhile (p := isLiteral) (l := text), ← List.append_assoc] at h
  refine h.cut fun d hd => ?_
  have literal := head?_dropWhile_isLiteral text d hd
  rw [isLiteral, Bool.or_eq_false_iff] at literal
  exact literal.1

end Sound

/-- Sound text that stands in brackets: an operand or a sign comes first, and no `^` last. -/
structure Enclosed (text : List Char) : Prop where
  sound : Sound text
  starts : ∃ c ∈ text.head?, (kind c).startsOperand = true ∨ kind c = .sign
  ends : text.getLast? ≠ some '^'

/-- The text in brackets of sound text. -/
theorem Sound.enclosed {text rest : List Char} (h : Sound ('(' :: (text ++ ')' :: rest))) :
    Enclosed text := by
  refine ⟨h.tail.cut (by rintro d ⟨⟩; rfl), ?_, fun hlast => ?_⟩
  · cases text with
    | nil =>
      have link : Follows '(' ')' := (List.isChain_cons_cons.1 h.adjacent).1
      cases link
    | cons c text => exact ⟨c, rfl, (List.isChain_cons_cons.1 h.adjacent).1.of_opening⟩
  · have link : Follows '^' ')' := (List.isChain_append.1 h.tail.adjacent).2.2 _ hlast ')' rfl
    cases link

theorem Enclosed.ne_nil {text : List Char} (h : Enclosed text) : text ≠ [] := by
  rintro rfl
  obtain ⟨c, hc, -⟩ := h.starts
  cases hc

end SamePoly
