/-
  Which sound texts are numeric expressions.

  A sound text without variables is a numeric expression unless it was cut out carelessly: the
  brackets match, an operand comes first, and every operator has an operand behind it.

  * `acceptsText`: the pass over the tokens of a text, symbol by symbol.
  * `exists_scan?`: sound text without variables is made of tokens.
  * `Readable`: the condition on the text.
  * `isSome_read?_iff`: **sound text without variables is read exactly when it is readable**.
-/
import SamePoly.Proofs.Acceptance
import SamePoly.Proofs.Adjacency
import SamePoly.Arithmetic.Value

namespace SamePoly

open Arithmetic

variable {text rest run : List Char} {c d : Char} {depth : ℕ} {wants : Bool}

/-! ## Symbol by symbol -/

/-- The symbols of an expression from left to right: `depth` brackets are open, and `wants` says
    that an operand has to follow. -/
def acceptsText (depth : ℕ) (wants : Bool) : List Char → Bool
  | [] => !wants && depth == 0
  | c :: text =>
    match kind c with
    | .digit | .point | .letter => acceptsText depth false text
    | .sign => acceptsText depth true text
    | .star | .slash | .caret => !wants && acceptsText depth true text
    | .opening => acceptsText (depth + 1) true text
    | .closing =>
      match depth with
      | 0 => false
      | depth + 1 => !wants && acceptsText depth false text
    | .other => false

theorem acceptsText_operand (hc : kind c = .digit ∨ kind c = .point ∨ kind c = .letter) :
    acceptsText depth wants (c :: text) = acceptsText depth false text := by
  rw [acceptsText.eq_def]
  rcases hc with hc | hc | hc <;> (dsimp only; rw [hc])

theorem acceptsText_sign (hc : kind c = .sign) :
    acceptsText depth wants (c :: text) = acceptsText depth true text := by
  rw [acceptsText.eq_def]
  dsimp only
  rw [hc]

theorem acceptsText_binary (hc : kind c = .star ∨ kind c = .slash ∨ kind c = .caret) :
    acceptsText depth wants (c :: text) = (!wants && acceptsText depth true text) := by
  rw [acceptsText.eq_def]
  rcases hc with hc | hc | hc <;> (dsimp only; rw [hc])

theorem acceptsText_opening :
    acceptsText depth wants ('(' :: text) = acceptsText (depth + 1) true text := rfl

theorem acceptsText_closing :
    acceptsText (depth + 1) wants (')' :: text) = (!wants && acceptsText depth false text) := rfl

/-- The symbols of a literal or a letter are an operand. -/
theorem acceptsText_run (hr : ∀ c ∈ run, kind c = .digit ∨ kind c = .point ∨ kind c = .letter)
    (hne : run ≠ []) : acceptsText depth wants (run ++ text) = acceptsText depth false text := by
  induction run generalizing wants with
  | nil => exact absurd rfl hne
  | cons c run ih =>
    rw [List.cons_append, acceptsText_operand (hr c List.mem_cons_self)]
    cases run with
    | nil => rfl
    | cons d run => exact ih (fun e he => hr e (List.mem_cons_of_mem _ he)) (List.cons_ne_nil _ _)

theorem acceptsText_literal {l : Literal} (hl : l.Valid) :
    acceptsText depth wants (l.text ++ text) = acceptsText depth false text := by
  refine acceptsText_run (fun c hc => ?_) (List.length_pos_iff.1 (Literal.text_length_pos hl))
  exact (isLiteral_iff.1 (Literal.isLiteral_of_mem_text hl hc)).imp_right .inl

/-- The pass over the symbols is the pass over the tokens. -/
theorem acceptsText_spelling {ts : List Token} (valid : ∀ t ∈ ts, t.Valid) :
    acceptsText depth wants (Token.spelling ts) = accepts depth wants ts := by
  have unit (text : List Char) :
      acceptsText depth wants ('i' :: text) = acceptsText depth false text := rfl
  induction ts generalizing depth wants with
  | nil => rfl
  | cons t ts ih =>
    have rest {depth : ℕ} {wants : Bool} :
        acceptsText depth wants (Token.spelling ts) = accepts depth wants ts :=
      ih (fun u hu => valid u (List.mem_cons_of_mem _ hu)) fun text => rfl
    have ht := valid t List.mem_cons_self
    rw [Token.spelling, List.flatMap_cons, ← Token.spelling]
    cases t with
    | number l =>
      have hl : l.Valid := ht
      rw [Token.text, acceptsText_literal hl, rest, accepts]
    | imaginary l =>
      cases l with
      | none => exact rest
      | some l =>
        have hl : l.Valid := ht
        rw [Token.text, List.append_assoc, acceptsText_literal hl, accepts]
        exact rest
    | closing =>
      cases depth with
      | zero => rfl
      | succ depth => exact congrArg (!wants && ·) rest
    | opening => exact rest
    | plus => exact rest
    | minus => exact rest
    | _ => exact congrArg (!wants && ·) rest

/-! ## Tokens of sound text -/

/-- A literal starts at every literal symbol of sound text. -/
theorem exists_read? (sound : Sound (c :: text)) (hc : isLiteral c = true) :
    ∃ l rest, Literal.read? (c :: text) = some (l, rest) := by
  rw [Literal.read?]
  dsimp only
  by_cases digit : c.isDigit = true
  · have whole : ((c :: text).takeWhile Char.isDigit).isEmpty = false := by
      rw [List.takeWhile_cons_of_pos digit]
      rfl
    split
    · rw [whole, Bool.false_and, if_neg Bool.false_ne_true]
      exact ⟨_, _, rfl⟩
    · rw [whole, if_neg Bool.false_ne_true]
      exact ⟨_, _, rfl⟩
  · have point : c = '.' := by
      rw [isLiteral, Bool.or_eq_true, beq_iff_eq] at hc
      exact hc.resolve_left digit
    obtain ⟨d, tail, rfl⟩ : ∃ d tail, text = d :: tail := by
      cases text with
      | nil => exact absurd (congrArg some point) sound.ends
      | cons d tail => exact ⟨d, tail, rfl⟩
    have neighbours : Follows c d := (List.isChain_cons_cons.1 sound.adjacent).1
    rw [point] at neighbours
    have digit : d.isDigit = true := neighbours.isDigit
    have fraction : ((d :: tail).takeWhile Char.isDigit).isEmpty = false := by
      rw [List.takeWhile_cons_of_pos digit]
      rfl
    rw [point, List.dropWhile_cons_of_neg (by decide)]
    show ∃ l rest, (if (('.' :: d :: tail).takeWhile Char.isDigit).isEmpty &&
      ((d :: tail).takeWhile Char.isDigit).isEmpty then none else some _) = some (l, rest)
    rw [fraction, Bool.and_false, if_neg Bool.false_ne_true]
    exact ⟨_, _, rfl⟩

/-- A token starts at every place of sound text without variables. -/
theorem exists_next? (sound : Sound (c :: text)) (hc : isVariable c = false) :
    ∃ t rest, Token.next? (c :: text) = some (t, rest) ∧ t.Valid := by
  have known := sound.known c List.mem_cons_self
  by_cases literal : isLiteral c = true
  · obtain ⟨l, rest, read⟩ := exists_read? sound literal
    have valid : l.Valid := Literal.valid_of_read? read
    rw [Token.next?_of_literal literal, Token.literal?, read]
    split
    · rename_i heq
      cases heq
    · rename_i heq
      cases heq
      exact ⟨_, _, rfl, valid⟩
    · rename_i heq
      cases heq
      exact ⟨_, _, rfl, valid⟩
  · rw [isLiteral_iff, not_or] at literal
    cases hk : kind c with
    | digit => exact absurd hk literal.1
    | point => exact absurd hk literal.2
    | letter =>
      have unit : c = 'i' := by
        rw [isVariable, kind_eq_letter_iff.1 hk, Bool.true_and, bne_eq_false_iff_eq] at hc
        exact hc
      exact ⟨.imaginary none, text, by rw [unit]; rfl, trivial⟩
    | opening => exact ⟨.opening, text, by rw [kind_eq_opening_iff.1 hk]; rfl, trivial⟩
    | closing => exact ⟨.closing, text, by rw [kind_eq_closing_iff.1 hk]; rfl, trivial⟩
    | sign =>
      rcases kind_eq_sign_iff.1 hk with rfl | rfl
      · exact ⟨.plus, text, rfl, trivial⟩
      · exact ⟨.minus, text, rfl, trivial⟩
    | star => exact ⟨.times, text, by rw [kind_eq_star_iff.1 hk]; rfl, trivial⟩
    | slash => exact ⟨.over, text, by rw [kind_eq_slash_iff.1 hk]; rfl, trivial⟩
    | caret => exact ⟨.power, text, by rw [kind_eq_caret_iff.1 hk]; rfl, trivial⟩
    | other => exact absurd hk known

/-- **Sound text without variables is made of tokens.** -/
theorem exists_scan? (sound : Sound text) (numeric : hasVariable text = false) :
    ∃ ts, Token.scan? text = some ts ∧ ∀ t ∈ ts, t.Valid := by
  induction hn : text.length using Nat.strongRecOn generalizing text with
  | ind n ih =>
    cases text with
    | nil => exact ⟨[], Token.scan?_nil, fun t ht => (nomatch ht)⟩
    | cons c text =>
      have symbols := List.any_eq_false.1 numeric
      have hc : isVariable c = false := Bool.eq_false_iff.2 (symbols c List.mem_cons_self)
      obtain ⟨t, rest, next, valid⟩ := exists_next? sound hc
      have whole := Token.text_append_of_next? next
      have shorter := Token.length_lt_of_next? next
      rw [← whole] at sound numeric
      have numericRest : hasVariable rest = false := by
        rw [hasVariable, List.any_append, Bool.or_eq_false_iff] at numeric
        exact numeric.2
      obtain ⟨ts, scanned, valids⟩ := ih rest.length (by omega) sound.of_append numericRest rfl
      refine ⟨t :: ts, ?_, ?_⟩
      · rw [Token.scan?_of_next? next, scanned]
        rfl
      · rintro u hu
        rcases List.mem_cons.1 hu with rfl | hu
        · exact valid
        · exact valids u hu

/-! ## Readable text -/

/-- An operator behind which an operand stands. -/
def FindsOperand (c d : Char) : Prop := (kind c).isOperator = true → (kind d).startsOperand = true

/-- The brackets of a text match, an operand comes first, and every operator has an operand
    behind it. -/
structure Readable (text : List Char) : Prop where
  balanced : Balanced text
  starts : ∃ c ∈ text.head?, isBinary c = false
  operands : text.IsChain FindsOperand
  ends : ∀ c ∈ text.getLast?, (kind c).isOperator = false

theorem acceptsText_other (hc : kind c = .other) : acceptsText depth wants (c :: text) = false := by
  rw [acceptsText.eq_def]
  dsimp only
  rw [hc]

/-- What the pass does at a symbol. -/
theorem acceptsText_cases (h : acceptsText depth wants (c :: text) = true) :
    ((kind c).isOperator = false ∧ ∃ depth' wants', acceptsText depth' wants' text = true) ∨
      ((kind c).isOperator = true ∧ acceptsText depth true text = true) := by
  cases hk : kind c with
  | digit => exact .inl ⟨rfl, depth, false, (acceptsText_operand (.inl hk)).symm.trans h⟩
  | point => exact .inl ⟨rfl, depth, false, (acceptsText_operand (.inr (.inl hk))).symm.trans h⟩
  | letter => exact .inl ⟨rfl, depth, false, (acceptsText_operand (.inr (.inr hk))).symm.trans h⟩
  | opening =>
    rw [kind_eq_opening_iff.1 hk] at h
    exact .inl ⟨rfl, depth + 1, true, h⟩
  | closing =>
    rw [kind_eq_closing_iff.1 hk] at h
    cases depth with
    | zero => cases h
    | succ depth =>
      rw [acceptsText_closing, Bool.and_eq_true] at h
      exact .inl ⟨rfl, depth, false, h.2⟩
  | sign => exact .inr ⟨rfl, (acceptsText_sign hk).symm.trans h⟩
  | star =>
    rw [acceptsText_binary (.inl hk), Bool.and_eq_true] at h
    exact .inr ⟨rfl, h.2⟩
  | slash =>
    rw [acceptsText_binary (.inr (.inl hk)), Bool.and_eq_true] at h
    exact .inr ⟨rfl, h.2⟩
  | caret =>
    rw [acceptsText_binary (.inr (.inr hk)), Bool.and_eq_true] at h
    exact .inr ⟨rfl, h.2⟩
  | other =>
    rw [acceptsText_other hk] at h
    cases h

/-- Where the pass wants an operand no other operator than a sign follows and no bracket
    closes. -/
theorem kind_of_acceptsText (h : acceptsText depth true (c :: text) = true) :
    kind c = .sign ∨ (kind c).startsOperand = true ∨ kind c = .point := by
  cases hk : kind c with
  | digit => exact .inr (.inl rfl)
  | letter => exact .inr (.inl rfl)
  | opening => exact .inr (.inl rfl)
  | point => exact .inr (.inr rfl)
  | sign => exact .inl rfl
  | closing =>
    rw [kind_eq_closing_iff.1 hk] at h
    cases depth <;> cases h
  | star => rw [acceptsText_binary (.inl hk)] at h; cases h
  | slash => rw [acceptsText_binary (.inr (.inl hk))] at h; cases h
  | caret => rw [acceptsText_binary (.inr (.inr hk))] at h; cases h
  | other =>
    rw [acceptsText_other hk] at h
    cases h

/-- Neighbours of an operator. -/
theorem Kind.startsOperand_of_follows {j k : Kind} (follows : j.follows k = true)
    (operator : j.isOperator = true) (hk : k = .sign ∨ k.startsOperand = true ∨ k = .point) :
    k.startsOperand = true := by
  rcases hk with rfl | hk | rfl
  · revert operator follows
    cases j <;> decide
  · exact hk
  · revert operator follows
    cases j <;> decide

/-- Accepted text does not end in an operator. -/
theorem ends_of_acceptsText (h : acceptsText depth wants text = true) :
    ∀ c ∈ text.getLast?, (kind c).isOperator = false := by
  induction text generalizing depth wants with
  | nil => exact fun c hc => (nomatch hc)
  | cons c text ih =>
    cases text with
    | nil =>
      rintro d ⟨⟩
      rcases acceptsText_cases h with ⟨operator, -⟩ | ⟨-, next⟩
      · exact operator
      · cases next
    | cons d text =>
      rcases acceptsText_cases h with ⟨-, depth', wants', next⟩ | ⟨-, next⟩
      · exact ih next
      · exact ih next

/-- Every operator of accepted text has an operand behind it. -/
theorem operands_of_acceptsText (sound : Sound text) (h : acceptsText depth wants text = true) :
    text.IsChain FindsOperand := by
  induction text generalizing depth wants with
  | nil => exact .nil
  | cons c text ih =>
    have step := acceptsText_cases h
    have operands : text.IsChain FindsOperand := by
      rcases step with ⟨-, depth', wants', next⟩ | ⟨-, next⟩
      · exact ih sound.tail next
      · exact ih sound.tail next
    cases text with
    | nil => exact List.isChain_singleton _
    | cons d text =>
      refine List.isChain_cons_cons.2 ⟨fun operator => ?_, operands⟩
      rcases step with ⟨none, -⟩ | ⟨-, next⟩
      · rw [none] at operator
        cases operator
      · exact Kind.startsOperand_of_follows (List.isChain_cons_cons.1 sound.adjacent).1 operator
          (kind_of_acceptsText next)

/-- The brackets of accepted text match. -/
theorem checkBracketsFrom_of_acceptsText {opened : List ℕ} {position : ℕ}
    (h : acceptsText opened.length wants text = true) :
    checkBracketsFrom position opened text = none := by
  induction text generalizing position opened wants with
  | nil =>
    cases opened with
    | nil => rfl
    | cons place opened =>
      rw [acceptsText, Bool.and_eq_true, beq_iff_eq] at h
      cases h.2
  | cons c text ih =>
    by_cases hopen : c = '('
    · rw [hopen] at h ⊢
      rw [checkBracketsFrom_opening]
      exact ih h
    · by_cases hclose : c = ')'
      · rw [hclose] at h ⊢
        cases opened with
        | nil => cases h
        | cons place opened =>
          rw [List.length_cons, acceptsText_closing, Bool.and_eq_true] at h
          rw [checkBracketsFrom_closing]
          exact ih h.2
      · rw [checkBracketsFrom_symbol hopen hclose]
        have next : ∃ wants', acceptsText opened.length wants' text = true := by
          cases hk : kind c with
          | opening => exact absurd (kind_eq_opening_iff.1 hk) hopen
          | closing => exact absurd (kind_eq_closing_iff.1 hk) hclose
          | digit => exact ⟨false, (acceptsText_operand (.inl hk)).symm.trans h⟩
          | point => exact ⟨false, (acceptsText_operand (.inr (.inl hk))).symm.trans h⟩
          | letter => exact ⟨false, (acceptsText_operand (.inr (.inr hk))).symm.trans h⟩
          | other =>
            rw [acceptsText_other hk] at h
            cases h
          | _ =>
            rcases acceptsText_cases h with ⟨operator, -⟩ | ⟨-, next⟩
            · rw [hk] at operator
              cases operator
            · exact ⟨true, next⟩
        obtain ⟨wants', next⟩ := next
        exact ih next

theorem isBinary_iff (hc : kind c ≠ .other) :
    isBinary c = true ↔ kind c = .star ∨ kind c = .slash ∨ kind c = .caret := by
  rw [isBinary, Bool.or_eq_true, Bool.or_eq_true, Bool.or_eq_true, beq_iff_eq, beq_iff_eq,
    beq_iff_eq, beq_iff_eq, kind_eq_star_iff, kind_eq_slash_iff, kind_eq_caret_iff]
  constructor
  · rintro (((rfl | rfl) | rfl) | rfl)
    · exact .inl rfl
    · exact absurd rfl hc
    · exact .inr (.inl rfl)
    · exact .inr (.inr rfl)
  · rintro (rfl | rfl | rfl)
    · exact .inl (.inl (.inl rfl))
    · exact .inl (.inr rfl)
    · exact .inr rfl

theorem isBinary_of_startsOperand (h : (kind c).startsOperand = true) : isBinary c = false := by
  have known : kind c ≠ .other := fun hk => by rw [hk] at h; cases h
  rw [← Bool.not_eq_true, isBinary_iff known]
  rintro (hk | hk | hk) <;> (rw [hk] at h; cases h)

theorem isBinary_of_follows_opening (h : Follows '(' d) : isBinary d = false := by
  rcases h.of_opening with operand | sign
  · exact isBinary_of_startsOperand operand
  · rcases kind_eq_sign_iff.1 sign with rfl | rfl <;> rfl

/-- A symbol that is no bracket makes the pass want an operand if it is an operator. -/
theorem acceptsText_symbol (hopen : c ≠ '(') (hclose : c ≠ ')') (hk : kind c ≠ .other)
    (starts : wants = true → isBinary c = false) :
    acceptsText depth wants (c :: text) = acceptsText depth (kind c).isOperator text := by
  have binary (h : kind c = .star ∨ kind c = .slash ∨ kind c = .caret) :
      acceptsText depth wants (c :: text) = acceptsText depth true text := by
    rw [acceptsText_binary h]
    cases wants with
    | false => rfl
    | true =>
      have := (isBinary_iff hk).2 h
      rw [starts rfl] at this
      cases this
  cases h : kind c with
  | digit => exact acceptsText_operand (.inl h)
  | point => exact acceptsText_operand (.inr (.inl h))
  | letter => exact acceptsText_operand (.inr (.inr h))
  | opening => exact absurd (kind_eq_opening_iff.1 h) hopen
  | closing => exact absurd (kind_eq_closing_iff.1 h) hclose
  | sign => exact acceptsText_sign h
  | star => exact binary (.inl h)
  | slash => exact binary (.inr (.inl h))
  | caret => exact binary (.inr (.inr h))
  | other => exact absurd h hk

/-- **Balanced text takes the pass from one operand to the next** if every operator in it has an
    operand behind it. -/
theorem acceptsText_append (balanced : Balanced text) (known : ∀ c ∈ text, kind c ≠ .other)
    (adjacent : (text ++ rest).IsChain Follows) (operands : (text ++ rest).IsChain FindsOperand)
    (starts : wants = true → ∃ c ∈ text.head?, isBinary c = false)
    (ends : ∀ c ∈ text.getLast?, (kind c).isOperator = false) :
    acceptsText depth wants (text ++ rest) = acceptsText depth (wants && text.isEmpty) rest := by
  induction balanced generalizing rest depth wants with
  | nil => rw [List.nil_append, List.isEmpty_nil, Bool.and_true]
  | @symbol c tail hopen hclose _ ih =>
    have symbol : wants = true → isBinary c = false := by
      intro h
      obtain ⟨d, ⟨⟩, hd⟩ := starts h
      exact hd
    rw [List.cons_append] at adjacent operands ⊢
    rw [acceptsText_symbol hopen hclose (known c List.mem_cons_self) symbol, List.isEmpty_cons,
      Bool.and_false]
    cases tail with
    | nil => rw [List.nil_append, ends c rfl]
    | cons d tail =>
      have behind := (List.isChain_cons_cons.1 operands).1
      rw [ih (fun e he => known e (List.mem_cons_of_mem _ he)) adjacent.tail operands.tail
        (fun operator => ⟨d, rfl, isBinary_of_startsOperand (behind operator)⟩) ends,
        List.isEmpty_cons, Bool.and_false]
  | @group inside tail _ _ ihInside ih =>
    have whole : '(' :: (inside ++ ')' :: tail) ++ rest = '(' :: (inside ++ ')' :: (tail ++ rest)) := by
      rw [List.cons_append, List.append_assoc, List.cons_append]
    rw [whole] at adjacent operands ⊢
    obtain ⟨d, hd, first⟩ : ∃ d ∈ inside.head?, isBinary d = false := by
      cases inside with
      | nil => cases (List.isChain_cons_cons.1 adjacent).1
      | cons d inside => exact ⟨d, rfl, isBinary_of_follows_opening (List.isChain_cons_cons.1 adjacent).1⟩
    have nonempty : inside.isEmpty = false := by
      cases inside with
      | nil => cases hd
      | cons d inside => rfl
    have last : ∀ c ∈ inside.getLast?, (kind c).isOperator = false := by
      intro c hc
      have before := (List.isChain_append.1 operands.tail).2.2 c hc ')' rfl
      rw [← Bool.not_eq_true]
      exact fun operator => by cases before operator
    have closed : acceptsText depth wants ('(' :: (inside ++ ')' :: (tail ++ rest))) =
        acceptsText depth false (tail ++ rest) := by
      rw [acceptsText_opening, ihInside (fun e he => known e (by simp [he])) adjacent.tail
        operands.tail (fun _ => ⟨d, hd, first⟩) last, nonempty]
      rfl
    have behind {R : Char → Char → Prop} (h : ('(' :: (inside ++ ')' :: (tail ++ rest))).IsChain R) :
        (tail ++ rest).IsChain R := h.tail.right_of_append.tail
    have lastTail : ∀ c ∈ tail.getLast?, (kind c).isOperator = false := by
      intro c hc
      have nonempty : tail ≠ [] := by
        rintro rfl
        cases hc
      have split : '(' :: (inside ++ ')' :: tail) = ('(' :: inside ++ [')']) ++ tail := by simp
      refine ends c ?_
      rwa [split, List.getLast?_append_of_ne_nil _ nonempty]
    rw [closed, ih (fun e he => known e (by simp [he])) (behind adjacent) (behind operands)
      (fun h => absurd h Bool.false_ne_true) lastTail, List.isEmpty_cons, Bool.and_false]
    rfl

/-- **Sound text is accepted exactly when it is readable.** -/
theorem acceptsText_iff (sound : Sound text) : acceptsText 0 true text = true ↔ Readable text := by
  constructor
  · intro h
    refine ⟨checkBrackets_eq_none_iff.1 (checkBracketsFrom_of_acceptsText h), ?_,
      operands_of_acceptsText sound h, ends_of_acceptsText h⟩
    cases text with
    | nil => cases h
    | cons c text =>
      refine ⟨c, rfl, ?_⟩
      rw [← Bool.not_eq_true, isBinary_iff (sound.known c List.mem_cons_self)]
      rintro (hk | hk | hk) <;>
        (rcases kind_of_acceptsText h with h | h | h <;> rw [hk] at h <;> cases h)
  · intro readable
    have adjacent := sound.adjacent
    have operands := readable.operands
    rw [← List.append_nil text] at adjacent operands
    have accepted : acceptsText 0 true (text ++ []) = acceptsText 0 (true && text.isEmpty) [] :=
      acceptsText_append readable.balanced sound.known adjacent operands (fun _ => readable.starts)
        readable.ends
    obtain ⟨c, hc, -⟩ := readable.starts
    cases text with
    | nil => cases hc
    | cons d text => rwa [List.append_nil] at accepted

/-- **Sound text without variables is read exactly when it is readable.** -/
theorem isSome_read?_iff (sound : Sound text) (numeric : hasVariable text = false) :
    (Sum.read? text).isSome ↔ Readable text := by
  obtain ⟨ts, scanned, valid⟩ := exists_scan? sound numeric
  rw [Sum.read?, scanned, Option.bind_some, ofTokens?_isSome_iff, ← acceptsText_iff sound,
    ← Token.spelling_of_scan? scanned, acceptsText_spelling valid]

/-! ## Text that is read -/

/-- Text that is read is accepted. -/
theorem acceptsText_of_read? (h : (Sum.read? text).isSome) : acceptsText 0 true text = true := by
  obtain ⟨s, hs⟩ := Option.isSome_iff_exists.1 h
  obtain ⟨ts, scanned, read⟩ := Option.bind_eq_some_iff.1 hs
  rw [← Token.spelling_of_scan? scanned,
    acceptsText_spelling (Token.scan?_eq_some_iff.1 scanned).1.valid]
  exact ofTokens?_isSome_iff.1 (Option.isSome_iff_exists.2 ⟨s, read⟩)

/-- The brackets of text that is read match. -/
theorem balanced_of_read? (h : (Sum.read? text).isSome) : Balanced text :=
  checkBrackets_eq_none_iff.1 (checkBracketsFrom_of_acceptsText (acceptsText_of_read? h))

/-- Text that is read does not end in a power operator. -/
theorem getLast?_ne_of_read? (h : (Sum.read? text).isSome) : text.getLast? ≠ some '^' := fun last =>
  absurd (ends_of_acceptsText (acceptsText_of_read? h) '^' last) (by decide)

end SamePoly
