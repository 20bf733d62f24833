/-
  Normalization keeps the value of numeric text.

  On tidy tokens every step of the normalization rewrites the text token by token, and by a harmless
  rule, so that the normalized text is that of a tree with the same value.

  * `respell_spelling`, `dropTimesAfter_spelling`, `dropTimesBefore_spelling`, `wrapBases_spelling`,
    `wrapExponents_spelling`: the steps one by one.
  * `normalize_spelling`: the normalized text of tidy tokens.
  * `evaluate_normalize`: **normalization keeps the value of numeric text**, as long as no operator
    that it works on stands next to a literal with an imaginary unit.
  * `evaluate_normalize_half`: the value is not kept where a unit is multiplied with a literal.
-/
import SamePoly.Proofs.Tidy
import SamePoly.Proofs.Evaluation
import SamePoly.Proofs.Formula.Normal
import SamePoly.Proofs.Nesting

namespace SamePoly

open Arithmetic

namespace Arithmetic

/-! ## The symbols of a token -/

namespace Token

variable {t u : Token} {ts : List Token} {c : Char}

/-- The symbols of a token: those of a literal, the unit, or a symbol of its own. -/
theorem mem_text (ht : t.Valid) (hc : c ∈ t.text) :
    isLiteral c = true ∨ c = 'i' ∨ t.isAtom = false ∧ t.text = [c] := by
  match t, ht with
  | .number l, ht => exact .inl (Literal.isLiteral_of_mem_text ht hc)
  | .imaginary none, _ => exact .inr (.inl (List.mem_singleton.1 hc))
  | .imaginary (some l), ht =>
    rcases List.mem_append.1 hc with hc | hc
    · exact .inl (Literal.isLiteral_of_mem_text ht hc)
    · exact .inr (.inl (List.mem_singleton.1 hc))
  | .plus, _ | .minus, _ | .times, _ | .over, _ | .power, _ | .opening, _ | .closing, _ =>
    exact .inr (.inr ⟨rfl, congrArg ([·]) (List.mem_singleton.1 hc).symm⟩)

theorem spelling_bracketed (t : Token) :
    spelling [.opening, t, .closing] = '(' :: (t.text ++ [')']) := by
  simp [text]

theorem exists_cons (ht : t.Valid) : ∃ c text, t.text = c :: text := by
  match t, ht with
  | .number l, ht =>
    obtain ⟨c, text, h, -⟩ := literal_text_eq_cons ht
    exact ⟨c, text, h⟩
  | .imaginary (some l), ht =>
    obtain ⟨c, rest, h, -⟩ := literal_text_eq_cons ht
    exact ⟨c, rest ++ ['i'], by simp [text, h]⟩
  | .imaginary none, _ | .plus, _ | .minus, _ | .times, _ | .over, _ | .power, _ | .opening, _
  | .closing, _ => exact ⟨_, _, rfl⟩

/-- The symbol of a token that is no atom occurs in no other token. -/
theorem ne_of_mem_text {s : Token} {d : Char} (hs : s.isAtom = false) (hd : s.text = [d])
    (ht : t.Valid) (h : t ≠ s) (hc : c ∈ t.text) : c ≠ d := by
  rintro rfl
  have noLiteral : isLiteral c = false ∧ c ≠ 'i' := by
    cases s <;> first | cases hs; done | (cases hd; decide)
  rcases mem_text ht hc with hc | hc | ⟨atom, hc⟩
  · rw [noLiteral.1] at hc
    cases hc
  · exact noLiteral.2 hc
  · refine h ?_
    rw [← hd] at hc
    cases t <;> first | cases atom; done | (cases s <;> first | cases hs; done | rfl | cases hc)

theorem ne_star_of_mem_text (ht : t.Valid) (h : t ≠ .times) (hc : c ∈ t.text) : c ≠ '*' :=
  ne_of_mem_text (s := .times) rfl rfl ht h hc

/-- The symbols of a token have one spelling. -/
theorem respellChar_of_mem_text (ht : t.Valid) (hc : c ∈ t.text) : c ≠ ' ' ∧ respellChar c = c := by
  have literal {c : Char} (h : isLiteral c = true) : c ≠ ' ' ∧ respellChar c = c := by
    rcases Bool.or_eq_true_iff.1 h with digit | point
    · obtain ⟨space, -, same⟩ := respellChar_of_isDigit digit
      exact ⟨space, same⟩
    · rw [beq_iff_eq.1 point]
      decide
  rcases mem_text ht hc with hc | rfl | ⟨atom, hc⟩
  · exact literal hc
  · decide
  · match t, atom with
    | .plus, _ | .minus, _ | .times, _ | .over, _ | .power, _ | .opening, _ | .closing, _ =>
      cases hc
      decide

/-- The first symbol of a list of tokens is that of a token which is no atom only if the first
    token is. -/
theorem head?_spelling_ne {s : Token} {d : Char} (hs : s.isAtom = false) (hd : s.text = [d])
    (valid : ∀ t ∈ ts, t.Valid) (h : ∀ u ∈ ts.head?, u ≠ s) : (spelling ts).head? ≠ some d := by
  cases ts with
  | nil => nofun
  | cons u ts =>
    have hu := valid u List.mem_cons_self
    obtain ⟨c, text, htext⟩ := exists_cons hu
    have := ne_of_mem_text hs hd hu (h u rfl) (c := c) (by simp [htext])
    simpa [spelling_cons, htext] using this

end Token

end Arithmetic

/-! ## The steps of the normalization -/

open Token

variable {ts : List Token}

/-- A step that leaves the symbols of a text as they are leaves the text as it is. -/
theorem append_of_cons {step : List Char → List Char} {text rest : List Char}
    (h : ∀ c ∈ text, ∀ rest, step (c :: rest) = c :: step rest) :
    step (text ++ rest) = text ++ step rest := by
  induction text with
  | nil => rfl
  | cons c text ih =>
    rw [List.cons_append, h c List.mem_cons_self, ih fun d hd => h d (List.mem_cons_of_mem c hd),
      List.cons_append]

theorem respell_star {c : Char} (hc : c ≠ '*') (hspace : c ≠ ' ') (rest : List Char) :
    respell ('*' :: c :: rest) = '*' :: respell (c :: rest) := by
  simp [respell, respellPowers, hc, hspace, respellChar]

/-- The text of tokens has no spaces and one spelling for every operator. -/
theorem respell_spelling (h : Tidy ts) : respell (spelling ts) = spelling ts := by
  induction ts with
  | nil => rfl
  | cons t ts ih =>
    have ht := h.valid t List.mem_cons_self
    rw [spelling_cons]
    by_cases times : t = .times
    · subst times
      cases ts with
      | nil => rfl
      | cons u ts =>
        have hu := h.valid u (by simp)
        have apart : u ≠ .times := h.fits_head.ne_times
        obtain ⟨c, text, htext⟩ := exists_cons hu
        have hc : c ∈ u.text := by simp [htext]
        have next := ih h.tail
        rw [spelling_cons, htext, List.cons_append] at next ⊢
        have noBlank := (respellChar_of_mem_text hu hc).1
        exact (respell_star (ne_star_of_mem_text hu apart hc) noBlank _).trans
          (congrArg ('*' :: ·) next)
    · rw [respell_append, ih h.tail]
      intro c hc
      obtain ⟨space, same⟩ := respellChar_of_mem_text ht hc
      exact ⟨space, ne_star_of_mem_text ht times hc, same⟩

/-! ### Multiplication signs -/

namespace Arithmetic

/-- A token that ends in a digit. -/
def Token.endsInDigit : Token → Bool
  | .number _ => true
  | _ => false

/-- A token that starts with a digit. -/
def Token.startsWithDigit : Token → Bool
  | .number _ | .imaginary (some _) => true
  | _ => false

/-- A multiplication sign stays behind a digit. -/
def behindDigit (before _behind : Option Token) : Bool := before.all Token.endsInDigit

/-- A multiplication sign stays in front of a digit. -/
def beforeDigit (_before behind : Option Token) : Bool := behind.all Token.startsWithDigit

/-- A multiplication sign stays between digits. -/
def betweenDigits (before behind : Option Token) : Bool :=
  behindDigit before behind && beforeDigit before behind

end Arithmetic

section Times

variable {t u : Token} {l : Literal} {rest : List Char}

theorem Arithmetic.Literal.text_ne_nil (hl : l.Valid) : l.text ≠ [] :=
  List.ne_nil_of_length_pos (Literal.text_length_pos hl)

theorem exists_last_digit (hl : l.Valid) (full : (Token.number l).Full) :
    ∃ front d, l.text = front ++ [d] ∧ d.isDigit = true := by
  have last {digits : List Char} (hd : ∀ c ∈ digits, c.isDigit = true) (hne : digits ≠ []) :
      ∃ front d, digits = front ++ [d] ∧ d.isDigit = true := by
    rcases List.eq_nil_or_concat digits with rfl | ⟨front, d, rfl⟩
    · exact absurd rfl hne
    · exact ⟨front, d, List.concat_eq_append, hd d (by simp)⟩
  obtain ⟨whole, fraction⟩ := l
  cases fraction with
  | none => exact last (fun c => Literal.isDigit_of_mem_whole hl) full.1
  | some f =>
    obtain ⟨front, d, rfl, digit⟩ := last (fun c => Literal.isDigit_of_mem_fraction hl rfl)
      fun hf => full.2 (congrArg some hf)
    exact ⟨whole ++ '.' :: front, d, by simp [Literal.text], digit⟩

theorem exists_first_digit (ht : t.Valid) (full : t.Full) (starts : t.startsWithDigit = true) :
    ∃ d rest, t.text = d :: rest ∧ d.isDigit = true := by
  have first {l : Literal} (hl : l.Valid) (hne : l.whole ≠ []) :
      ∃ d rest, l.text = d :: rest ∧ d.isDigit = true := by
    obtain ⟨whole, fraction⟩ := l
    cases whole with
    | nil => exact absurd rfl hne
    | cons d whole =>
      have digit := Literal.isDigit_of_mem_whole hl (c := d) List.mem_cons_self
      cases fraction with
      | none => exact ⟨d, whole, rfl, digit⟩
      | some f => exact ⟨d, whole ++ '.' :: f, rfl, digit⟩
  match t, ht, full with
  | .number l, ht, full => exact first ht full.1
  | .imaginary (some l), ht, full =>
    obtain ⟨d, rest, h, digit⟩ := first ht full
    exact ⟨d, rest ++ ['i'], by simp [Token.text, h], digit⟩

theorem dropTimesAfter_text (ht : t.Valid) (hr : rest.head? ≠ some '*') :
    dropTimesAfter (t.text ++ rest) = t.text ++ dropTimesAfter rest := by
  by_cases times : t = .times
  · subst times
    exact dropTimesAfter_cons hr
  · exact dropTimesAfter_append (fun c => ne_star_of_mem_text ht times) hr

theorem dropTimesAfter_kept (ht : t.Valid) (full : t.Full) (ends : t.endsInDigit = true) :
    dropTimesAfter (t.text ++ '*' :: rest) = t.text ++ dropTimesAfter ('*' :: rest) := by
  match t, ht, full with
  | .number l, hl, full =>
    obtain ⟨front, d, htext, digit⟩ := exists_last_digit hl full
    have symbols : ∀ c ∈ front ++ [d], c ≠ '*' := fun c hc =>
      ne_star_of_mem_text (t := .number l) hl nofun (by rwa [Token.text, htext])
    rw [Token.text, htext, List.append_assoc, List.singleton_append, dropTimesAfter_append,
      dropTimesAfter, if_pos digit, List.append_assoc, List.singleton_append]
    · exact fun c hc => symbols c (by simp [hc])
    · simpa using symbols d (by simp)

theorem dropTimesAfter_gone (ht : t.Valid) (times : t ≠ .times) (ends : t.endsInDigit = false) :
    dropTimesAfter (t.text ++ '*' :: rest) = t.text ++ dropTimesAfter rest := by
  obtain ⟨front, c, htext, digit⟩ := exists_last (t := t) (by rintro l rfl; cases ends)
  have symbols : ∀ d ∈ front ++ [c], d ≠ '*' := fun d hd =>
    ne_star_of_mem_text ht times (htext ▸ hd)
  rw [htext, List.append_assoc, List.singleton_append, dropTimesAfter_append,
    dropTimesAfter_times digit, List.append_assoc, List.singleton_append]
  · exact fun d hd => symbols d (by simp [hd])
  · simpa using symbols c (by simp)

/-- The first step drops multiplication signs behind other symbols than digits. -/
theorem dropTimesAfter_cons_spelling (h : Tidy (t :: ts)) :
    dropTimesAfter (t.text ++ spelling ts) =
      t.text ++ spelling ((Rule.drop behindDigit).apply (some t) ts none) := by
  have ht := h.valid t List.mem_cons_self
  induction ts generalizing t with
  | nil => exact dropTimesAfter_text ht nofun
  | cons u ts ih =>
    have hu := h.tail.valid u List.mem_cons_self
    have next := ih h.tail hu
    by_cases times : u = .times
    · subst times
      have fits := h.fits_head
      have notTimes : t ≠ .times := by
        rintro rfl
        exact fits.ne_times rfl
      -- Behind the sign stands no other one, so that the step goes on behind it.
      have behind : dropTimesAfter (spelling ts) =
          spelling ((Rule.drop behindDigit).apply (some .times) ts none) := by
        have apart := head?_spelling_ne (s := .times) rfl rfl h.tail.tail.valid fun v hv => by
          cases ts with
          | nil => cases hv
          | cons w ts =>
            cases hv
            exact h.tail.fits_head.ne_times
        rw [dropTimesAfter_text hu apart] at next
        exact List.append_cancel_left next
      rw [spelling_cons, Rule.apply, Rule.drop, behindDigit, Option.all_some]
      by_cases ends : t.endsInDigit = true
      · rw [if_neg (by simp [ends])]
        exact (dropTimesAfter_kept ht (h.full t List.mem_cons_self) ends).trans
          (congrArg (t.text ++ ·) next)
      · rw [if_pos (by simpa using ends), List.nil_append, ← behind]
        exact dropTimesAfter_gone ht notTimes (Bool.eq_false_iff.2 ends)
    · have apart := head?_spelling_ne (s := .times) rfl rfl h.tail.valid fun v hv => by
        cases hv
        exact times
      rw [dropTimesAfter_text ht apart, Rule.apply_drop_cons times, spelling_cons, spelling_cons,
        next]

theorem dropTimesAfter_spelling (h : Tidy ts) :
    dropTimesAfter (spelling ts) = spelling ((Rule.drop behindDigit).apply none ts none) := by
  cases ts with
  | nil => rfl
  | cons t ts =>
    have stays : Rule.drop behindDigit none t (ts.head?.or none) = [t] :=
      if_neg fun h => nomatch h.2
    rw [Rule.apply, stays, spelling_cons, dropTimesAfter_cons_spelling h]
    rfl

theorem dropTimesBefore_text (ht : t.Valid) (times : t ≠ .times) (rest : List Char) :
    dropTimesBefore (t.text ++ rest) = t.text ++ dropTimesBefore rest :=
  append_of_cons fun _ hc => dropTimesBefore_cons (ne_star_of_mem_text ht times hc)

/-- A primary that does not start with a digit is one symbol. -/
theorem exists_symbol_of_not_digit (primary : t.isPrimary = true)
    (starts : t.startsWithDigit = false) : ∃ c, t.text = [c] ∧ c.isDigit = false := by
  match t, primary, starts with
  | .opening, _, _ => exact ⟨'(', rfl, rfl⟩
  | .imaginary none, _, _ => exact ⟨'i', rfl, rfl⟩

/-- The second step drops multiplication signs in front of other symbols than digits. -/
theorem dropTimesBefore_spelling (h : Tidy ts) (before : Option Token) :
    dropTimesBefore (spelling ts) =
      spelling ((Rule.drop beforeDigit).apply before ts none) := by
  induction ts generalizing before with
  | nil => rfl
  | cons t ts ih =>
    have ht := h.valid t List.mem_cons_self
    have next := ih h.tail (some t)
    by_cases times : t = .times
    · subst times
      cases ts with
      | nil => rfl
      | cons u ts =>
        have fits := h.fits_head
        have hu := h.tail.valid u List.mem_cons_self
        rw [spelling_cons, Rule.apply, Rule.drop, beforeDigit]
        by_cases starts : u.startsWithDigit = true
        · obtain ⟨d, text, htext, digit⟩ :=
            exists_first_digit hu (h.tail.full u List.mem_cons_self) starts
          rw [if_neg (by simp [starts]), List.singleton_append, spelling_cons .times, ← next,
            spelling_cons, htext]
          exact if_pos digit
        · have primary := fits.operand (.inl rfl)
          obtain ⟨c, htext, digit⟩ :=
            exists_symbol_of_not_digit primary (Bool.eq_false_iff.2 starts)
          have hc := ne_star_of_mem_text hu fits.ne_times (c := c) (by simp [htext])
          rw [if_pos (by simp [starts]), List.nil_append, ← next, spelling_cons, htext,
            List.singleton_append, dropTimesBefore_cons hc]
          exact if_neg (by simp [digit])
    · rw [spelling_cons, dropTimesBefore_text ht times, Rule.apply_drop_cons times, spelling_cons,
        next]

/-- Both steps together drop multiplication signs unless they stand between digits. -/
theorem drop_drop (h : ts.IsChain TimesFits) (before before' : Option Token) :
    (Rule.drop beforeDigit).apply before' ((Rule.drop behindDigit).apply before ts none) none =
      (Rule.drop betweenDigits).apply before ts none := by
  induction ts generalizing before before' with
  | nil => rfl
  | cons t ts ih =>
    by_cases times : t = .times
    · subst times
      have head : ((Rule.drop behindDigit).apply (some .times) ts none).head? = ts.head? := by
        cases ts with
        | nil => rfl
        | cons u ts =>
          have apart : u ≠ .times := by
            rintro rfl
            cases (List.isChain_cons_cons.1 h).1 rfl
          rw [Rule.apply_drop_cons apart]
          rfl
      rw [Rule.apply, Rule.apply, Option.or_none]
      by_cases ends : behindDigit before ts.head? = true
      · have kept : Rule.drop behindDigit before .times ts.head? = [.times] := by
          simp [Rule.drop, ends]
        have both : Rule.drop betweenDigits before .times ts.head? =
            Rule.drop beforeDigit before' .times ts.head? := by
          simp [Rule.drop, betweenDigits, ends, beforeDigit]
        rw [kept, List.singleton_append, Rule.apply, head, Option.or_none, ih h.tail, both]
      · have gone : Rule.drop behindDigit before .times ts.head? = [] := by
          simp [Rule.drop, ends]
        have both : Rule.drop betweenDigits before .times ts.head? = [] := by
          simp [Rule.drop, betweenDigits, ends]
        rw [gone, both, List.nil_append, List.nil_append, ih h.tail]
    · rw [Rule.apply_drop_cons times, Rule.apply_drop_cons times, Rule.apply_drop_cons times,
        ih h.tail]

end Times

/-! ### Brackets -/

namespace Arithmetic

/-- A base stands in front of a power. -/
def beforePower (_before behind : Option Token) : Bool := behind == some .power

/-- An exponent stands behind a power. -/
def behindPower (before _behind : Option Token) : Bool := before == some .power

end Arithmetic

section Wrap

variable {t u : Token} {l : Literal} {c : Char} {run rest : List Char}

/-- A symbol outside of literals stays unless it is a letter in front of `^`. -/
theorem wrapBases_cons (literal : isLiteral c = false)
    (h : c.isLower = true → rest.head? ≠ some '^') :
    wrapBases (c :: rest) = c :: wrapBases rest := by
  rw [wrapBases.eq_def]
  dsimp only
  rw [if_neg (by simp [literal])]
  split
  · rename_i after
    rw [if_neg]
    intro lower
    exact h lower rfl
  · rfl

theorem wrapBases_letter (literal : isLiteral c = false) (letter : c.isLower = true) :
    wrapBases (c :: '^' :: rest) = '(' :: c :: ')' :: wrapBases ('^' :: rest) := by
  rw [wrapBases_cons (c := '^') rfl nofun, wrapBases.eq_def]
  dsimp only
  rw [if_neg (by simp [literal])]
  exact if_pos letter

theorem wrapBases_run (literal : ∀ c ∈ run, isLiteral c = true) (hne : run ≠ [])
    (ends : Ends isLiteral rest) (h : rest.head? ≠ some '^') :
    wrapBases (run ++ rest) = run ++ wrapBases rest := by
  cases run with
  | nil => exact absurd rfl hne
  | cons c run =>
    obtain ⟨hc, hrun⟩ := List.forall_mem_cons.1 literal
    rw [List.cons_append, wrapBases.eq_def]
    dsimp only
    rw [if_pos hc]
    split
    · rename_i after hafter
      rw [dropWhile_run hrun ends] at hafter
      rw [hafter] at h
      exact absurd rfl h
    · rw [takeWhile_run hrun ends, dropWhile_run hrun ends]

theorem wrapBases_run_power (literal : ∀ c ∈ run, isLiteral c = true) (hne : run ≠ []) :
    wrapBases (run ++ '^' :: rest) = '(' :: (run ++ ')' :: wrapBases ('^' :: rest)) := by
  have ends : Ends isLiteral ('^' :: rest) := .cons rfl
  cases run with
  | nil => exact absurd rfl hne
  | cons c run =>
    obtain ⟨hc, hrun⟩ := List.forall_mem_cons.1 literal
    rw [wrapBases_cons (c := '^') rfl nofun, List.cons_append, wrapBases.eq_def]
    dsimp only
    rw [if_pos hc]
    split
    · rename_i after hafter
      rw [dropWhile_run hrun ends] at hafter
      cases hafter
      rw [takeWhile_run hrun ends]
      rfl
    · rename_i hafter
      exact absurd (dropWhile_run hrun ends) (hafter rest)

theorem wrapExponents_run (literal : ∀ c ∈ run, isLiteral c = true) (hne : run ≠ [])
    (ends : Ends isLiteral rest) :
    wrapExponents ('^' :: (run ++ rest)) = '^' :: '(' :: (run ++ ')' :: wrapExponents rest) := by
  cases run with
  | nil => exact absurd rfl hne
  | cons c run =>
    obtain ⟨hc, hrun⟩ := List.forall_mem_cons.1 literal
    rw [List.cons_append, wrapExponents, if_pos hc, takeWhile_run hrun ends,
      dropWhile_run hrun ends]
    rfl

theorem wrapExponents_nil : wrapExponents [] = [] := by
  rw [wrapExponents]

theorem wrapExponents_bracket :
    wrapExponents ('^' :: '(' :: rest) = '^' :: wrapExponents ('(' :: rest) := by
  rw [wrapExponents]
  rfl

/-- The tokens behind a number start with a symbol of their own. -/
theorem ends_spelling (h : Tidy (t :: ts)) (number : t.endsInDigit = true) :
    Ends isLiteral (spelling ts) := by
  cases ts with
  | nil => exact .nil
  | cons u ts =>
    match t, number with
    | .number l, _ =>
      have apart : u.isAtom = false := h.fits_head.apart
      match u, apart with
      | .plus, _ | .minus, _ | .times, _ | .over, _ | .power, _ | .opening, _ | .closing, _ =>
        exact .cons rfl

/-- A token stays as it is, unless it is an atom in front of a power. -/
theorem wrapBases_text (h : Tidy (t :: ts)) (hp : t.isAtom = true → ts.head? ≠ some .power) :
    wrapBases (t.text ++ spelling ts) = t.text ++ wrapBases (spelling ts) := by
  have caret (atom : t.isAtom = true) : (spelling ts).head? ≠ some '^' :=
    head?_spelling_ne (s := .power) rfl rfl h.tail.valid fun u hu hpower => hp atom (hpower ▸ hu)
  have ht := h.valid t List.mem_cons_self
  cases t with
  | number l =>
    exact wrapBases_run (fun c => Literal.isLiteral_of_mem_text ht) (Literal.text_ne_nil ht)
      (ends_spelling h rfl) (caret rfl)
  | imaginary part =>
    cases part with
    | none => exact wrapBases_cons rfl fun _ => caret rfl
    | some l =>
      have noCaret : ('i' :: spelling ts).head? ≠ some '^' := by
        rintro ⟨⟩
      have run :
          wrapBases (l.text ++ 'i' :: spelling ts) = l.text ++ wrapBases ('i' :: spelling ts) :=
        wrapBases_run (fun c => Literal.isLiteral_of_mem_text ht) (Literal.text_ne_nil ht)
          (.cons rfl) noCaret
      rw [Token.text, List.append_assoc, List.append_assoc, List.singleton_append, run,
        wrapBases_cons rfl fun _ => caret rfl]
      rfl
  | _ => exact wrapBases_cons rfl fun atom => absurd atom (by decide)

theorem wrapBases_atom (h : Tidy (t :: .power :: ts)) (atom : t.isAtom = true) :
    wrapBases (t.text ++ '^' :: rest) = '(' :: (t.text ++ ')' :: wrapBases ('^' :: rest)) := by
  have ht := h.valid t List.mem_cons_self
  match t, atom, ht with
  | .number l, _, hl =>
    exact wrapBases_run_power (fun c => Literal.isLiteral_of_mem_text hl) (Literal.text_ne_nil hl)
  | .imaginary none, _, _ => exact wrapBases_letter rfl rfl
  | .imaginary (some l), _, _ => exact absurd rfl (h.fits_head.base l rfl)

/-- The third step puts brackets around bases. -/
theorem wrapBases_spelling (h : Tidy ts) (before : Option Token) :
    wrapBases (spelling ts) = spelling ((Rule.wrap beforePower).apply before ts none) := by
  induction ts generalizing before with
  | nil =>
    rw [spelling_nil, wrapBases]
    rfl
  | cons t ts ih =>
    have next := ih h.tail (some t)
    rw [spelling_cons, Rule.apply, Rule.wrap, Option.or_none]
    by_cases base : t.isAtom = true ∧ beforePower before ts.head? = true
    · obtain ⟨ts, rfl⟩ : ∃ us, ts = .power :: us := by
        cases ts with
        | nil => cases base.2
        | cons u ts => exact ⟨ts, by simpa [beforePower] using base.2⟩
      rw [if_pos base, spelling_append, ← next, spelling_bracketed, List.cons_append,
        List.append_assoc]
      exact wrapBases_atom h base.1
    · rw [if_neg base, List.singleton_append, spelling_cons, ← next]
      exact wrapBases_text h fun atom hp => base ⟨atom, by simp [beforePower, hp]⟩

theorem wrapExponents_text (ht : t.Valid) (power : t ≠ .power) (rest : List Char) :
    wrapExponents (t.text ++ rest) = t.text ++ wrapExponents rest := by
  have symbols (c : Char) (hc : c ∈ t.text) : c ≠ '^' :=
    ne_of_mem_text (s := .power) rfl rfl ht power hc
  exact append_of_cons fun c hc => wrapExponents_cons (symbols c hc)

theorem wrapExponents_atom (h : Tidy (.power :: u :: ts)) (atom : u.isAtom = true) :
    wrapExponents ('^' :: (u.text ++ spelling ts)) =
      '^' :: '(' :: (u.text ++ ')' :: wrapExponents (spelling ts)) := by
  have hu := h.tail.valid u List.mem_cons_self
  match u, atom, hu with
  | .number l, _, hl =>
    exact wrapExponents_run (fun c => Literal.isLiteral_of_mem_text hl) (Literal.text_ne_nil hl)
      (ends_spelling h.tail rfl)
  | .imaginary none, _, _ =>
    rw [Token.text, List.singleton_append, wrapExponents]
    rfl
  | .imaginary (some l), _, _ =>
    exact absurd rfl (h.fits_head.exponent l rfl)

/-- The last step puts brackets around exponents. -/
theorem wrapExponents_cons_spelling (h : Tidy (t :: ts)) :
    wrapExponents (t.text ++ spelling ts) =
      t.text ++ spelling ((Rule.wrap behindPower).apply (some t) ts none) := by
  have ht := h.valid t List.mem_cons_self
  induction ts generalizing t with
  | nil =>
    by_cases power : t = .power
    · subst power
      simp [Token.text, Rule.apply, wrapExponents]
    · have kept := wrapExponents_text ht power []
      rwa [wrapExponents_nil] at kept
  | cons u ts ih =>
    have hu := h.tail.valid u List.mem_cons_self
    have next := ih h.tail hu
    rw [spelling_cons, Rule.apply, Rule.wrap, Option.or_none]
    by_cases exponent : u.isAtom = true ∧ behindPower (some t) ts.head? = true
    · obtain rfl : t = .power := by simpa [behindPower] using exponent.2
      have noPower : u ≠ .power := by
        rintro rfl
        cases exponent.1
      rw [wrapExponents_text hu noPower] at next
      rw [if_pos exponent, spelling_append, ← List.append_cancel_left next, spelling_bracketed,
        List.cons_append, List.append_assoc]
      exact wrapExponents_atom h exponent.1
    · rw [if_neg exponent, List.singleton_append, spelling_cons, ← next]
      by_cases power : t = .power
      · subst power
        have primary := h.fits_head.operand (.inr rfl)
        have group : u = .opening := by
          cases u with
          | number _ | imaginary _ => exact absurd ⟨rfl, rfl⟩ exponent
          | opening => rfl
          | _ => cases primary
        subst group
        exact wrapExponents_bracket
      · exact wrapExponents_text ht power _

theorem wrapExponents_spelling (h : Tidy ts) :
    wrapExponents (spelling ts) = spelling ((Rule.wrap behindPower).apply none ts none) := by
  cases ts with
  | nil =>
    rw [spelling_nil, wrapExponents]
    rfl
  | cons t ts =>
    have stays : Rule.wrap behindPower none t (ts.head?.or none) = [t] :=
      if_neg (by rintro ⟨-, power⟩; cases power)
    rw [Rule.apply, stays, spelling_cons, wrapExponents_cons_spelling h]
    rfl

end Wrap

/-! ## The value of normalized text -/

namespace Arithmetic

/-- Tokens without the multiplication signs that say nothing, and with brackets around bases and
    exponents. -/
def normalTokens (ts : List Token) : List Token :=
  (Rule.wrap behindPower).apply none
    ((Rule.wrap beforePower).apply none ((Rule.drop betweenDigits).apply none ts none) none) none

variable {ts : List Token} {t u : Token}

/-- Behind a multiplication sign stands a primary. -/
theorem Token.Tidy.primary_behind_times (h : Tidy ts) (around : [t, .times, u] <:+: ts) :
    u.isPrimary = true := by
  have chain := List.IsChain.infix h.fits around
  exact (List.isChain_cons_cons.1 chain.tail).1.operand (.inl rfl)

/-- What stands around a multiplication sign fits unless both are atoms. -/
theorem Token.Tidy.fits_around (h : Tidy ts) (around : [t, .times, u] <:+: ts)
    (apart : Apart t u) : Fits t u := by
  have chain := List.IsChain.infix h.fits around
  have left := (List.isChain_cons_cons.1 chain).1
  have primary := h.primary_behind_times around
  refine ⟨apart, fun _ => primary, ?_, ?_⟩
  · rintro l - rfl
    cases primary
  · rintro l rfl
    cases left.operand (.inr rfl)

theorem Token.Tidy.drop_behindDigit (h : Tidy ts) :
    Tidy ((Rule.drop behindDigit).apply none ts none) := by
  refine h.drop fun t u around gone => h.fits_around around ?_
  cases t with
  | number l => cases gone
  | _ => trivial

theorem Token.Tidy.drop_betweenDigits (h : Tidy ts)
    (factor : ∀ l, ¬ [.number l, .times, .imaginary none] <:+: ts) :
    Tidy ((Rule.drop betweenDigits).apply none ts none) := by
  refine h.drop fun t u around gone => h.fits_around around ?_
  have primary := h.primary_behind_times around
  match t, u, primary with
  | .number l, .number m, _ | .number l, .imaginary (some m), _ => cases gone
  | .number l, .imaginary none, _ => exact absurd around (factor l)
  | .number l, .opening, _ => rfl
  | .imaginary _, _, _ | .plus, _, _ | .minus, _, _ | .times, _, _ | .over, _, _ | .power, _, _
  | .opening, _, _ | .closing, _, _ => trivial

end Arithmetic

/-- The normalized text of tidy tokens is the text of tidy tokens. -/
theorem normalize_spelling (h : Tidy ts)
    (factor : ∀ l, ¬ [.number l, .times, .imaginary none] <:+: ts) :
    normalize (spelling ts) = spelling (normalTokens ts) := by
  rw [normalize, respell_spelling h, dropTimesAfter_spelling h,
    dropTimesBefore_spelling h.drop_behindDigit none, drop_drop h.timesFits,
    wrapBases_spelling (h.drop_betweenDigits factor) none,
    wrapExponents_spelling (h.drop_betweenDigits factor).wrap]
  rfl

section Value

variable {R : Type} [Scalar R] {text : List Char} {z : Number R}

/-- Normalizing the text of a tidy tree gives the text of a tree with the same value. -/
theorem exists_normalize_eq {s : Sum} (h : Tidy s.tokens)
    (factor : ∀ l, ¬ [.number l, .times, .imaginary none] <:+: s.tokens) :
    ∃ s' : Sum, Lexed s'.tokens ∧ s'.text = normalize s.text ∧
      (s'.value? : Option (Number R)) = s.value? := by
  have dropped := h.drop_betweenDigits factor
  obtain ⟨s₁, value₁, tokens₁⟩ := Sum.exists_apply (R := R) (Rule.harmless_drop betweenDigits) s
    h.timesFits none none
  obtain ⟨s₂, value₂, tokens₂⟩ := Sum.exists_apply (R := R) (Rule.harmless_wrap beforePower) s₁
    (tokens₁ ▸ dropped.timesFits) none none
  rw [tokens₁] at tokens₂
  obtain ⟨s₃, value₃, tokens₃⟩ := Sum.exists_apply (R := R) (Rule.harmless_wrap behindPower) s₂
    (tokens₂ ▸ dropped.wrap.timesFits) none none
  rw [tokens₂] at tokens₃
  refine ⟨s₃, ?_, ?_, value₃.trans (value₂.trans value₁)⟩
  · rw [tokens₃]
    exact dropped.wrap.wrap.lexed
  · rw [Sum.text, Sum.text, tokens₃, normalize_spelling h factor]
    rfl

/-- **Normalization keeps the value of numeric text**, if the imaginary unit fits: the value is
    computed by the same steps. -/
theorem evaluate_normalize (wf : malformed? text = none) (scanned : scan? text = some ts)
    (unit : UnitFits ts) (value : evaluate text = .ok z) : evaluate (normalize text) = .ok z := by
  obtain ⟨lexed, rfl⟩ := scan?_eq_some_iff.1 scanned
  cases read : Sum.ofTokens? ts with
  | none =>
    rw [evaluate, Sum.read?, scanned, Option.bind_some, read] at value
    cases value
  | some s =>
    obtain rfl := Sum.tokens_of_ofTokens? read
    have tidy := tidy_of_wellFormed (malformed?_eq_none_iff.1 wf) lexed unit
    obtain ⟨s', lexed', text, same⟩ := exists_normalize_eq (R := R) tidy unit.factor
    have result := Sum.evaluate_text (R := R) lexed'
    rw [show spelling s.tokens = s.text from rfl, Sum.evaluate_text lexed] at value
    cases hs : (s.value? : Option (Number R)) with
    | none =>
      rw [hs] at value
      cases value
    | some w =>
      rw [hs] at value
      rw [text, same, hs] at result
      exact result.trans value

end Value

/-- A multiplication sign that goes behind a bracket, with a unit that belongs to its literal. -/
theorem evaluate_normalize_complex :
    evaluate (R := ℚ) (normalize "(1+2i)*2".toList) = .ok ⟨2, 4⟩ := by
  let one : Literal := ⟨['1'], none⟩
  let two : Literal := ⟨['2'], none⟩
  let inside : Sum := .plus (.single (.single (.signed [] (.plain (.number one)))))
    (.single (.signed [] (.plain (.imaginary (some two)))))
  let tree : Sum := .single (.times (.single (.signed [] (.plain (.group inside))))
    (.signed [] (.plain (.number two))))
  have lexed : Lexed tree.tokens := by decide
  have scanned : scan? "(1+2i)*2".toList = some tree.tokens :=
    scan?_eq_some_iff.2 ⟨lexed, rfl⟩
  have unit : UnitFits tree.tokens := by
    constructor
    · exact fun l h => absurd (h.subset (by simp)) (by decide : Token.power ∉ tree.tokens)
    · exact fun l h => absurd (h.subset (by simp)) (by decide : Token.power ∉ tree.tokens)
    · exact fun l h => absurd (h.subset (by simp)) (by decide : Token.imaginary none ∉ tree.tokens)
  have value : (tree.value? : Option (Number ℚ)) = some ⟨2, 4⟩ := by decide +kernel
  have evaluated := Sum.evaluate_text (R := ℚ) lexed
  rw [value] at evaluated
  exact evaluate_normalize (by decide +kernel) scanned unit evaluated

/-- A multiplication sign in front of the unit goes as well, and the unit then belongs to the
    literal that it was multiplied with: a half of the unit becomes one divided by two units. -/
theorem evaluate_normalize_half :
    malformed? "1/2*i".toList = none ∧ evaluate (R := ℚ) "1/2*i".toList = .ok ⟨0, 1 / 2⟩ ∧
      evaluate (R := ℚ) (normalize "1/2*i".toList) = .ok ⟨0, -1 / 2⟩ := by
  let one : Unary := .signed [] (.plain (.number ⟨['1'], none⟩))
  let two : Literal := ⟨['2'], none⟩
  let before : Sum := .single (.times (.over (.single one) (.signed [] (.plain (.number two))))
    (.signed [] (.plain (.imaginary none))))
  let behind : Sum := .single (.over (.single one) (.signed [] (.plain (.imaginary (some two)))))
  have valueBefore : (before.value? : Option (Number ℚ)) = some ⟨0, 1 / 2⟩ := by decide +kernel
  have valueBehind : (behind.value? : Option (Number ℚ)) = some ⟨0, -1 / 2⟩ := by decide +kernel
  have evaluatedBefore := Sum.evaluate_text (R := ℚ) (by decide : Lexed before.tokens)
  have evaluatedBehind := Sum.evaluate_text (R := ℚ) (by decide : Lexed behind.tokens)
  rw [valueBefore] at evaluatedBefore
  rw [valueBehind] at evaluatedBehind
  have normal : normalize "1/2*i".toList = behind.text := by decide +kernel
  rw [normal]
  exact ⟨by decide +kernel, evaluatedBefore, evaluatedBehind⟩

end SamePoly
