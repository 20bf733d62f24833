/-
  Spellings of formulas pass all checks.

  In a spelling every sign stands in front of an operand in brackets, every separator between
  two digits, and every exponent is a natural number.

  * `Formula.depth`: how deeply the brackets of a formula are nested.
  * `Fits`: the conditions of all checks on a symbol and what follows it.
  * `Formula.Spelled.everywhere_fits`: the conditions hold everywhere in a spelling.
  * `Formula.Spelled.validate`: **a spelling whose brackets are not nested too deeply passes all
    checks**.
-/
import SamePoly.Parse
import SamePoly.Proofs.Formula.Value
import SamePoly.Proofs.WellFormed

namespace SamePoly

/-! ## Spaces -/

theorem Spaces.takeWhile {spaces rest : List Char} (h : Spaces spaces)
    (hr : Ends (· == ' ') rest) : (spaces ++ rest).takeWhile (· == ' ') = spaces :=
  takeWhile_run (fun c hc => beq_iff_eq.2 (h c hc)) hr

theorem Spaces.dropWhile {spaces : List Char} (h : Spaces spaces) (rest : List Char) :
    (spaces ++ rest).dropWhile (· == ' ') = rest.dropWhile (· == ' ') :=
  List.dropWhile_append_of_pos fun c hc => beq_iff_eq.2 (h c hc)

theorem ahead_spaces {spaces : List Char} (h : Spaces spaces) (rest : List Char) :
    ahead (spaces ++ rest) = ahead rest := by
  rw [ahead, h.dropWhile, ahead]

theorem Spaces.balanced {spaces : List Char} (h : Spaces spaces) : Balanced spaces :=
  .of_forall fun c hc => by rw [h c hc]; decide

theorem startsPower_closed {spaces rest : List Char} (h : Spaces spaces) (hr : Closed rest) :
    startsPower (spaces ++ rest) = false := by
  rw [startsPower, h.dropWhile]
  rcases hr with rfl | ⟨after, rfl⟩ <;> rfl

/-! ## Symbols -/

/-- The symbols that atoms are spelled with. -/
theorem Atom.symbol_of_mem {a : Atom} {sign : List Char} (h : sign ∈ a.spellings) {c : Char}
    (hc : c ∈ sign) : c.isDigit = true ∨ isSeparator c = true ∨ c.isLower = true := by
  cases a with
  | decimal whole fraction =>
    cases fraction with
    | none =>
      rw [List.mem_singleton.1 h] at hc
      exact Or.inl (whole.decimal c hc)
    | some fraction =>
      rcases List.mem_cons.1 h with rfl | h
      · rcases List.mem_append.1 hc with hc | hc
        · exact Or.inl (whole.decimal c hc)
        · rcases List.mem_cons.1 hc with rfl | hc
          · exact Or.inr (Or.inl rfl)
          · exact Or.inl (fraction.decimal c hc)
      · rw [List.mem_singleton.1 h] at hc
        rcases List.mem_append.1 hc with hc | hc
        · exact Or.inl (whole.decimal c hc)
        · rcases List.mem_cons.1 hc with rfl | hc
          · exact Or.inr (Or.inl rfl)
          · exact Or.inl (fraction.decimal c hc)
  | unit =>
    rw [List.mem_singleton.1 h] at hc
    rw [List.mem_singleton.1 hc]
    exact Or.inr (Or.inr rfl)
  | letter name isName =>
    rw [List.mem_singleton.1 h] at hc
    rw [List.mem_singleton.1 hc]
    exact Or.inr (Or.inr (Bool.and_eq_true_iff.1 isName).1)

/-- A digit, a separator or a letter is neither a bracket nor an operator. -/
theorem ne_of_atomSymbol {c d : Char} (hc : c.isDigit = true ∨ isSeparator c = true ∨ c.isLower = true)
    (hd : d.isDigit = false ∧ isSeparator d = false ∧ d.isLower = false) : c ≠ d := by
  rintro rfl
  rcases hc with hc | hc | hc
  · rw [hd.1] at hc
    cases hc
  · rw [hd.2.1] at hc
    cases hc
  · rw [hd.2.2] at hc
    cases hc

theorem Atom.balanced {a : Atom} {sign : List Char} (h : sign ∈ a.spellings) : Balanced sign :=
  .of_forall fun _ hc => ⟨ne_of_atomSymbol (symbol_of_mem h hc) (by decide),
    ne_of_atomSymbol (symbol_of_mem h hc) (by decide)⟩

/-- All signs between two operands. -/
def signs : List (List Char) := [['+'], ['-'], ['*'], [], ['/'], [':'], ['^'], ['*', '*']]

theorem Operation.mem_signs {o : Operation} {sign : List Char} (h : sign ∈ o.spellings) :
    sign ∈ signs := by
  have sub : o.spellings ⊆ signs := by
    cases o <;> decide
  exact sub h

theorem mem_signs_of_power {sign : List Char} (h : sign ∈ powerSpellings) : sign ∈ signs := by
  have sub : powerSpellings ⊆ signs := by decide
  exact sub h

theorem isOperator_of_mem_sign {sign : List Char} (h : sign ∈ signs) {c : Char} (hc : c ∈ sign) :
    isOperator c = true := by
  have all : ∀ sign ∈ signs, ∀ c ∈ sign, isOperator c = true := by simp [signs, isOperator]
  exact all sign h c hc

/-! ## Brackets -/

theorem Balanced.bracketed {s : List Char} (h : Balanced s) : Balanced (bracketed s) := h.single_group

theorem Balanced.of_sign {sign : List Char} (h : sign ∈ signs) : Balanced sign := by
  refine .of_forall fun c hc => ?_
  rcases isOperator_cases (isOperator_of_mem_sign h hc) with rfl | rfl | rfl | rfl | rfl | rfl <;>
    decide

theorem Balanced.joined {before left sign right after s t : List Char} (hsign : sign ∈ signs)
    (hs : Balanced s) (ht : Balanced t) (hbefore : Spaces before) (hleft : Spaces left)
    (hright : Spaces right) (hafter : Spaces after) :
    Balanced (joined before left sign right after s t) :=
  (((((hbefore.balanced.append hs.bracketed).append hleft.balanced).append (.of_sign hsign)).append
    hright.balanced).append ht.bracketed).append hafter.balanced

theorem Formula.Spelled.balanced {f : Formula} {s : List Char} (h : f.Spelled s) : Balanced s := by
  induction h with
  | atom hsign hbefore hafter =>
    exact (hbefore.balanced.append (Atom.balanced hsign)).append hafter.balanced
  | negation _ hbefore hmiddle hafter ih =>
    have minus := Balanced.symbol (c := '-') (by decide) (by decide) hmiddle.balanced
    exact ((hbefore.balanced.append minus).append ih.bracketed).append hafter.balanced
  | binary hsign _ _ hbefore hleft hright hafter ihf ihg =>
    exact .joined (Operation.mem_signs hsign) ihf ihg hbefore hleft hright hafter
  | power hsign _ _ hbefore hleft hright hafter ihf ihn =>
    exact .joined (mem_signs_of_power hsign) ihf ihn hbefore hleft hright hafter

/-- How deeply the brackets of a formula are nested. -/
def Formula.depth : Formula → ℕ
  | .atom _ => 0
  | .negation f => f.depth + 1
  | .binary _ f g => max f.depth g.depth + 1
  | .power f _ => f.depth + 1

theorem nestingDepth_eq_zero {text : List Char} (h : ∀ c ∈ text, c ≠ '(' ∧ c ≠ ')') :
    nestingDepth text = 0 := by
  induction text with
  | nil => rfl
  | cons c text ih =>
    obtain ⟨hopen, hclose⟩ := h c List.mem_cons_self
    rw [nestingDepth, deepest_symbol hopen hclose]
    exact ih fun d hd => h d (List.mem_cons_of_mem _ hd)

theorem Spaces.nestingDepth {spaces : List Char} (h : Spaces spaces) :
    SamePoly.nestingDepth spaces = 0 :=
  nestingDepth_eq_zero fun c hc => by rw [h c hc]; decide

theorem nestingDepth_bracketed {s : List Char} (h : Balanced s) :
    nestingDepth (bracketed s) = nestingDepth s + 1 := by
  rw [bracketed, h.nestingDepth_group]
  exact max_eq_left (Nat.zero_le _)

theorem nestingDepth_joined {before left sign right after s t : List Char} (hsign : sign ∈ signs)
    (hs : Balanced s) (ht : Balanced t) (hbefore : Spaces before) (hleft : Spaces left)
    (hright : Spaces right) (hafter : Spaces after) :
    nestingDepth (joined before left sign right after s t) =
      max (nestingDepth s) (nestingDepth t) + 1 := by
  have sign0 : nestingDepth sign = 0 := by
    refine nestingDepth_eq_zero fun c hc => ?_
    rcases isOperator_cases (isOperator_of_mem_sign hsign hc) with rfl | rfl | rfl | rfl | rfl | rfl <;>
      decide
  simp only [joined, List.append_assoc]
  rw [hbefore.balanced.nestingDepth_append, hs.bracketed.nestingDepth_append,
    hleft.balanced.nestingDepth_append, (Balanced.of_sign hsign).nestingDepth_append,
    hright.balanced.nestingDepth_append, ht.bracketed.nestingDepth_append, hbefore.nestingDepth,
    hleft.nestingDepth, sign0, hright.nestingDepth, hafter.nestingDepth, nestingDepth_bracketed hs,
    nestingDepth_bracketed ht]
  omega

/-- The nesting depth of a text is that of the formula. -/
theorem Formula.Spelled.nestingDepth {f : Formula} {s : List Char} (h : f.Spelled s) :
    SamePoly.nestingDepth s = f.depth := by
  induction h with
  | atom hsign hbefore hafter =>
    refine nestingDepth_eq_zero fun c hc => ?_
    rcases List.mem_append.1 hc with hc | hc
    · rcases List.mem_append.1 hc with hc | hc
      · rw [hbefore c hc]
        decide
      · have symbol := Atom.symbol_of_mem hsign hc
        exact ⟨ne_of_atomSymbol symbol (by decide), ne_of_atomSymbol symbol (by decide)⟩
    · rw [hafter c hc]
      decide
  | @negation f s before middle after hs hbefore hmiddle hafter ih =>
    have minus (rest : List Char) :
        SamePoly.nestingDepth ('-' :: rest) = SamePoly.nestingDepth rest :=
      deepest_symbol (by decide) (by decide) 0 rest
    simp only [List.append_assoc, List.cons_append]
    rw [hbefore.balanced.nestingDepth_append, minus, hmiddle.balanced.nestingDepth_append, hs.balanced.bracketed.nestingDepth_append,
      hbefore.nestingDepth, hmiddle.nestingDepth, hafter.nestingDepth,
      nestingDepth_bracketed hs.balanced, ih, Formula.depth]
    omega
  | binary hsign hs ht hbefore hleft hright hafter ihf ihg =>
    rw [nestingDepth_joined (Operation.mem_signs hsign) hs.balanced ht.balanced hbefore hleft hright
      hafter, ihf, ihg, Formula.depth]
  | power hsign hs ht hbefore hleft hright hafter ihf ihn =>
    rw [nestingDepth_joined (mem_signs_of_power hsign) hs.balanced ht.balanced hbefore hleft hright
      hafter, ihf, ihn, Formula.depth, Formula.depth, max_eq_left (Nat.zero_le _)]

/-! ## Places -/

/-- A denominator in brackets: a number that does not count as zero. -/
def DivisorAhead (rest : List Char) : Prop :=
  ∃ (g : Formula) (t spaces after : List Char), rest = spaces ++ (bracketed t ++ after) ∧
    Spaces spaces ∧ g.Spelled t ∧ g.isNumeric = true ∧ g.Proper ∧
    g.value.AtLeast (1 / 10 ^ 10) ∧ startsPower after = false

/-- An exponent in brackets: a natural number. -/
def ExponentAhead (rest : List Char) : Prop :=
  ∃ (n : Numeral) (t spaces after : List Char), rest = spaces ++ (bracketed t ++ after) ∧
    Spaces spaces ∧ (Formula.atom (.decimal n none)).Spelled t ∧ startsPower after = false

/-- The conditions of all checks on a symbol and what follows it. -/
structure Fits (c : Char) (rest : List Char) : Prop where
  separator : SeparatorFits c rest
  operator : OperatorFits c rest
  division : c = '/' ∨ c = ':' → DivisorAhead rest
  caret : c = '^' → ExponentAhead rest
  stars : c = '*' → ∀ r, rest = '*' :: r → ExponentAhead r

/-- No separator comes next. -/
def NoSeparatorAhead (rest : List Char) : Prop := ∀ d, ahead rest = some d → isSeparator d = false

theorem NoSeparatorAhead.spaces {spaces rest : List Char} (h : Spaces spaces)
    (hr : NoSeparatorAhead rest) : NoSeparatorAhead (spaces ++ rest) := by
  intro d hd
  rw [ahead_spaces h] at hd
  exact hr d hd

theorem NoSeparatorAhead.cons {c : Char} (hc : c ≠ ' ') (hs : isSeparator c = false)
    (rest : List Char) : NoSeparatorAhead (c :: rest) := by
  intro d hd
  rw [ahead_cons hc] at hd
  cases hd
  exact hs

theorem NoSeparatorAhead.closed {rest : List Char} (h : Closed rest) : NoSeparatorAhead rest := by
  rcases h with rfl | ⟨after, rfl⟩
  · exact fun d hd => (nomatch hd)
  · exact .cons (by decide) (by decide) after

/-- A symbol that is no operator and opens nothing only has to fit the separators. -/
theorem Fits.of_separatorFits {c : Char} {rest : List Char} (hop : isOperator c = false)
    (hopen : c ≠ '(') (h : SeparatorFits c rest) : Fits c rest := by
  have notOperator {d : Char} (hd : isOperator d = true) : c ≠ d := by
    rintro rfl
    rw [hop] at hd
    cases hd
  have notBinary : isBinary c = false := by
    rw [← Bool.not_eq_true]
    intro hb
    have : isOperator c = true := by
      simp only [isBinary, Bool.or_eq_true, beq_iff_eq, or_assoc] at hb
      rcases hb with rfl | rfl | rfl | rfl <;> decide
    rw [hop] at this
    cases this
  have notBut : isOperatorButTimes c = false := by rw [isOperatorButTimes, hop, Bool.false_and]
  refine ⟨h, ⟨fun h => ?_, fun h => ?_, fun h => ?_, fun h => ?_, fun h => absurd h hopen,
    fun h => ?_⟩, fun h => ?_, fun h => ?_, fun h => ?_⟩
  · rw [hop] at h
    cases h
  · rw [notBut] at h
    cases h
  · exact absurd h (notOperator (by decide))
  · exact absurd h (notOperator (by decide))
  · rw [notBinary] at h
    cases h
  · rcases h with h | h
    · exact absurd h (notOperator (by decide))
    · exact absurd h (notOperator (by decide))
  · exact absurd h (notOperator (by decide))
  · exact absurd h (notOperator (by decide))

theorem SeparatorFits.of_not_separator {c : Char} {rest : List Char} (hsep : isSeparator c = false)
    (hr : c.isDigit = false → NoSeparatorAhead rest) : SeparatorFits c rest := by
  refine ⟨hr, fun h => ?_, fun h => ?_⟩
  · rw [hsep] at h
    cases h
  · rw [hsep] at h
    cases h

/-- A symbol that opens nothing and needs nothing behind it. -/
theorem Fits.plain {c : Char} {rest : List Char} (hop : isOperator c = false) (hopen : c ≠ '(')
    (hsep : isSeparator c = false) (hr : c.isDigit = false → NoSeparatorAhead rest) :
    Fits c rest := .of_separatorFits hop hopen (.of_not_separator hsep hr)

/-- Symbols that need nothing behind them but may stand in front of a separator only if they
    are digits. -/
theorem everywhere_plain {text rest : List Char}
    (h : ∀ c ∈ text, isOperator c = false ∧ c ≠ '(' ∧ isSeparator c = false)
    (hahead : NoSeparatorAhead rest) (hr : Everywhere Fits rest) :
    Everywhere Fits (text ++ rest) := by
  suffices NoSeparatorAhead (text ++ rest) ∧ Everywhere Fits (text ++ rest) from this.2
  induction text with
  | nil => exact ⟨hahead, hr⟩
  | cons c text ih =>
    obtain ⟨hop, hopen, hsep⟩ := h c List.mem_cons_self
    obtain ⟨htail, htext⟩ := ih fun d hd => h d (List.mem_cons_of_mem _ hd)
    refine ⟨?_, .plain hop hopen hsep fun _ => htail, htext⟩
    by_cases hc : c = ' '
    · subst hc
      exact htail
    · exact .cons hc hsep _

theorem everywhere_spaces {spaces rest : List Char} (h : Spaces spaces)
    (hahead : NoSeparatorAhead rest) (hr : Everywhere Fits rest) :
    Everywhere Fits (spaces ++ rest) :=
  everywhere_plain (fun c hc => by rw [h c hc]; decide) hahead hr

theorem digit_spec {c : Char} (h : c.isDigit = true) :
    isOperator c = false ∧ c ≠ '(' ∧ isSeparator c = false ∧ c ≠ ' ' := by
  refine ⟨?_, ?_, ?_, ?_⟩
  · rw [← Bool.not_eq_true]
    intro hop
    rcases isOperator_cases hop with rfl | rfl | rfl | rfl | rfl | rfl <;> cases h
  · rintro rfl
    cases h
  · rw [← Bool.not_eq_true, isSeparator, Bool.or_eq_true, beq_iff_eq, beq_iff_eq]
    rintro (rfl | rfl) <;> cases h
  · rintro rfl
    cases h

theorem lower_spec {c : Char} (h : c.isLower = true) :
    isOperator c = false ∧ c ≠ '(' ∧ isSeparator c = false ∧ c ≠ ' ' := by
  refine ⟨?_, ?_, ?_, ?_⟩
  · rw [← Bool.not_eq_true]
    intro hop
    rcases isOperator_cases hop with rfl | rfl | rfl | rfl | rfl | rfl <;> cases h
  · rintro rfl
    cases h
  · rw [← Bool.not_eq_true, isSeparator, Bool.or_eq_true, beq_iff_eq, beq_iff_eq]
    rintro (rfl | rfl) <;> cases h
  · rintro rfl
    cases h

/-- Digits may stand in front of anything. -/
theorem everywhere_digits {digits rest : List Char} (h : ∀ c ∈ digits, c.isDigit = true)
    (hr : Everywhere Fits rest) : Everywhere Fits (digits ++ rest) := by
  induction digits with
  | nil => exact hr
  | cons c digits ih =>
    have hc := h c List.mem_cons_self
    obtain ⟨hop, hopen, hsep, -⟩ := digit_spec hc
    refine ⟨.plain hop hopen hsep fun hd => ?_, ih fun d hd => h d (List.mem_cons_of_mem _ hd)⟩
    rw [hc] at hd
    cases hd

/-- A separator in front of digits behind which no separator stands. -/
theorem Fits.separator_digits {c : Char} (hc : isSeparator c = true) (n : Numeral)
    {rest : List Char} (hr : Ends isSeparator (rest.dropWhile isDigitOrSpace)) :
    Fits c (n.digits ++ rest) := by
  obtain ⟨d, digits, hdigits⟩ := List.exists_cons_of_ne_nil n.nonempty
  have hd : d.isDigit = true := n.decimal d (hdigits ▸ List.mem_cons_self)
  obtain ⟨-, -, hsep, hspace⟩ := digit_spec hd
  have drop : (n.digits ++ rest).dropWhile isDigitOrSpace = rest.dropWhile isDigitOrSpace :=
    List.dropWhile_append_of_pos fun e he => by rw [isDigitOrSpace, n.decimal e he, Bool.true_or]
  have symbol : isOperator c = false ∧ c ≠ '(' := by
    rw [isSeparator, Bool.or_eq_true, beq_iff_eq, beq_iff_eq] at hc
    rcases hc with rfl | rfl <;> decide
  refine .of_separatorFits symbol.1 symbol.2 ⟨fun _ => ?_, fun _ => ?_, fun _ => ?_⟩
  · rw [hdigits]
    exact NoSeparatorAhead.cons hspace hsep _
  · exact ⟨d, digits ++ rest, by rw [hdigits, List.cons_append], hd⟩
  · rw [drop]
    exact hr

/-- An atom may stand in brackets or alone. -/
theorem Atom.everywhere_fits {a : Atom} {sign after rest : List Char} (hsign : sign ∈ a.spellings)
    (hafter : Spaces after) (hclosed : Closed rest) (hr : Everywhere Fits rest) :
    Everywhere Fits (sign ++ (after ++ rest)) := by
  have hahead : NoSeparatorAhead (after ++ rest) := .spaces hafter (.closed hclosed)
  have htail : Everywhere Fits (after ++ rest) := everywhere_spaces hafter (.closed hclosed) hr
  have hends : Ends isSeparator ((after ++ rest).dropWhile isDigitOrSpace) := by
    rw [List.dropWhile_append_of_pos fun c hc => by rw [hafter c hc]; decide]
    rcases hclosed with rfl | ⟨after, rfl⟩
    · exact .nil
    · exact .cons (by decide)
  have letter {c : Char} (hc : c.isLower = true) : Everywhere Fits (c :: (after ++ rest)) := by
    obtain ⟨hop, hopen, hsep, -⟩ := lower_spec hc
    exact ⟨.plain hop hopen hsep fun _ => hahead, htail⟩
  cases a with
  | decimal whole fraction =>
    cases fraction with
    | none =>
      rw [List.mem_singleton.1 hsign]
      exact everywhere_digits whole.decimal htail
    | some fraction =>
      have point {c : Char} (hc : isSeparator c = true) :
          Everywhere Fits (whole.digits ++ c :: (fraction.digits ++ (after ++ rest))) :=
        everywhere_digits whole.decimal
          ⟨.separator_digits hc fraction hends, everywhere_digits fraction.decimal htail⟩
      rcases List.mem_cons.1 hsign with rfl | hsign
      · rw [List.append_assoc, List.cons_append]
        exact point rfl
      · rw [List.mem_singleton.1 hsign, List.append_assoc, List.cons_append]
        exact point rfl
  | unit =>
    rw [List.mem_singleton.1 hsign]
    exact letter rfl
  | letter name isName =>
    rw [List.mem_singleton.1 hsign]
    exact letter (Bool.and_eq_true_iff.1 isName).1

/-- A symbol that an expression can start with. -/
def Starts (c : Char) : Prop := isSeparator c = false ∧ isBinary c = false ∧ c ≠ ')'

theorem Starts.of_digit {c : Char} (h : c.isDigit = true) : Starts c := by
  obtain ⟨hop, -, hsep, -⟩ := digit_spec h
  refine ⟨hsep, ?_, ?_⟩
  · rw [← Bool.not_eq_true]
    intro hb
    simp only [isBinary, Bool.or_eq_true, beq_iff_eq, or_assoc] at hb
    rcases hb with rfl | rfl | rfl | rfl <;> cases h
  · rintro rfl
    cases h

theorem Starts.of_lower {c : Char} (h : c.isLower = true) : Starts c := by
  obtain ⟨hop, -, hsep, -⟩ := lower_spec h
  refine ⟨hsep, ?_, ?_⟩
  · rw [← Bool.not_eq_true]
    intro hb
    simp only [isBinary, Bool.or_eq_true, beq_iff_eq, or_assoc] at hb
    rcases hb with rfl | rfl | rfl | rfl <;> cases h
  · rintro rfl
    cases h

theorem Atom.starts {a : Atom} {sign : List Char} (h : sign ∈ a.spellings) (rest : List Char) :
    ∃ d, ahead (sign ++ rest) = some d ∧ Starts d := by
  have digits (n : Numeral) (rest : List Char) :
      ∃ d, ahead (n.digits ++ rest) = some d ∧ Starts d := by
    obtain ⟨d, digits, hdigits⟩ := List.exists_cons_of_ne_nil n.nonempty
    have hd : d.isDigit = true := n.decimal d (hdigits ▸ List.mem_cons_self)
    refine ⟨d, ?_, .of_digit hd⟩
    rw [hdigits, List.cons_append, ahead_cons (digit_spec hd).2.2.2]
  cases a with
  | decimal whole fraction =>
    cases fraction with
    | none =>
      rw [List.mem_singleton.1 h]
      exact digits whole rest
    | some fraction =>
      rcases List.mem_cons.1 h with rfl | h
      · rw [List.append_assoc]
        exact digits whole _
      · rw [List.mem_singleton.1 h, List.append_assoc]
        exact digits whole _
  | unit =>
    rw [List.mem_singleton.1 h]
    exact ⟨'i', rfl, .of_lower rfl⟩
  | letter name isName =>
    have hname : name.isLower = true := (Bool.and_eq_true_iff.1 isName).1
    rw [List.mem_singleton.1 h]
    exact ⟨name, ahead_cons (lower_spec hname).2.2.2 _, .of_lower hname⟩

/-- What a spelling starts with. -/
theorem Formula.Spelled.starts {f : Formula} {s : List Char} (h : f.Spelled s) (rest : List Char) :
    ∃ d, ahead (s ++ rest) = some d ∧ Starts d := by
  have opening : Starts '(' := ⟨rfl, rfl, by decide⟩
  cases h with
  | atom hsign hbefore _ =>
    rw [List.append_assoc, List.append_assoc, ahead_spaces hbefore]
    exact Atom.starts hsign _
  | negation _ hbefore _ _ =>
    simp only [List.append_assoc, List.cons_append]
    rw [ahead_spaces hbefore]
    exact ⟨'-', rfl, rfl, rfl, by decide⟩
  | binary _ _ _ hbefore _ _ _ =>
    simp only [joined, List.append_assoc]
    rw [ahead_spaces hbefore]
    exact ⟨'(', rfl, opening⟩
  | power _ _ _ hbefore _ _ _ =>
    simp only [joined, List.append_assoc]
    rw [ahead_spaces hbefore]
    exact ⟨'(', rfl, opening⟩

theorem Fits.opening {rest : List Char} {d : Char} (hd : ahead rest = some d) (h : Starts d) :
    Fits '(' rest := by
  have separator : SeparatorFits '(' rest := by
    refine .of_not_separator rfl fun _ e he => ?_
    rw [hd] at he
    cases he
    exact h.1
  refine ⟨separator, ⟨fun h => (nomatch h), fun h => (nomatch h), fun h => absurd h (by decide),
    fun h => absurd h (by decide), fun _ e he => ?_, fun h => (nomatch h)⟩,
    fun h => ?_, fun h => absurd h (by decide), fun h => absurd h (by decide)⟩
  · rw [hd] at he
    cases he
    exact h.2
  · rcases h with h | h <;> exact absurd h (by decide)

theorem Fits.closing {rest : List Char} (h : NoSeparatorAhead rest) : Fits ')' rest :=
  .plain rfl (by decide) rfl fun _ => h

/-- Brackets around a spelling. -/
theorem everywhere_bracketed {f : Formula} {s rest : List Char} (hs : f.Spelled s)
    (hfits : Everywhere Fits (s ++ ')' :: rest)) : Everywhere Fits (bracketed s ++ rest) := by
  obtain ⟨d, hd, hstart⟩ := hs.starts (')' :: rest)
  rw [bracketed_append]
  exact ⟨.opening hd hstart, hfits⟩

/-- An operator in front of a bracket fits if its operand does. -/
theorem Fits.operator_opening {c : Char} {rest : List Char} (hop : isOperator c = true)
    (hahead : ahead rest = some '(') (hdivision : c = '/' ∨ c = ':' → DivisorAhead rest)
    (hcaret : c = '^' → ExponentAhead rest) : Fits c rest := by
  have hsep : isSeparator c = false := by
    rcases isOperator_cases hop with rfl | rfl | rfl | rfl | rfl | rfl <;> rfl
  have notStar (r : List Char) : rest ≠ '*' :: r := by
    rintro rfl
    rw [ahead_cons (by decide)] at hahead
    exact absurd (Option.some.inj hahead) (by decide)
  refine ⟨.of_not_separator hsep fun _ d hd => ?_, ⟨fun _ => ⟨'(', hahead, rfl⟩, fun _ h => ?_,
    fun _ r hr => ?_, fun _ r hr => absurd hr (notStar r), ?_, fun _ h => ?_⟩, hdivision, hcaret,
    fun _ r hr => absurd hr (notStar r)⟩
  · rw [hahead] at hd
    cases hd
    rfl
  · rw [hahead] at h
    exact absurd (Option.some.inj h) (by decide)
  · rw [ahead, hr] at hahead
    exact absurd (Option.some.inj hahead) (by decide)
  · rintro rfl
    cases hop
  · rw [hahead] at h
    exact absurd (Option.some.inj h) (by decide)

/-- The two stars of a power. -/
theorem everywhere_stars {rest : List Char} (hahead : ahead rest = some '(')
    (hexponent : ExponentAhead rest) (hr : Everywhere Fits rest) :
    Everywhere Fits ('*' :: '*' :: rest) := by
  have second : Fits '*' rest := .operator_opening rfl hahead (fun h => by
    rcases h with h | h <;> exact absurd h (by decide)) fun h => absurd h (by decide)
  refine ⟨⟨.of_not_separator rfl fun _ => .cons (by decide) rfl _, ⟨fun _ => ⟨'*', rfl, rfl⟩,
    fun h => (nomatch h), fun _ r hr => ?_, fun _ r hr d hd => ?_, fun h => absurd h (by decide),
    fun _ h => absurd (Option.some.inj h) (by decide)⟩, fun h => ?_, fun h => absurd h (by decide),
    fun _ r hr => ?_⟩, second, hr⟩
  · rw [List.dropWhile_cons, if_neg (by decide)] at hr
    cases hr
    rw [ahead_cons (by decide)] at hahead
    exact absurd (Option.some.inj hahead) (by decide)
  · cases hr
    rw [hahead] at hd
    cases hd
    rfl
  · rcases h with h | h <;> exact absurd h (by decide)
  · cases hr
    exact hexponent

/-! ## Spellings -/

section Joined

variable {f g : Formula} {s t left sign right after rest : List Char}

theorem ahead_right (hright : Spaces right) (t rest : List Char) :
    ahead (right ++ (bracketed t ++ rest)) = some '(' := by
  rw [ahead_spaces hright, bracketed_append, ahead_cons (by decide)]

/-- Two operands in brackets fit if the sign between them does. -/
theorem everywhere_joined (hs : f.Spelled s) (ht : g.Spelled t)
    (ihs : ∀ rest, Closed rest → Everywhere Fits rest → Everywhere Fits (s ++ rest))
    (iht : ∀ rest, Closed rest → Everywhere Fits rest → Everywhere Fits (t ++ rest))
    (hleft : Spaces left) (hright : Spaces right) (hafter : Spaces after)
    (hclosed : Closed rest) (hr : Everywhere Fits rest)
    (hsign : Everywhere Fits (right ++ (bracketed t ++ (after ++ rest))) →
      NoSeparatorAhead (sign ++ (right ++ (bracketed t ++ (after ++ rest)))) ∧
      Everywhere Fits (sign ++ (right ++ (bracketed t ++ (after ++ rest))))) :
    Everywhere Fits
      (bracketed s ++ (left ++ (sign ++ (right ++ (bracketed t ++ (after ++ rest)))))) := by
  have htail : Everywhere Fits (after ++ rest) := everywhere_spaces hafter (.closed hclosed) hr
  have hclosing : Fits ')' (after ++ rest) := .closing (.spaces hafter (.closed hclosed))
  have hsecond : Everywhere Fits (bracketed t ++ (after ++ rest)) :=
    everywhere_bracketed ht (iht _ (.cons _) ⟨hclosing, htail⟩)
  have hopening : NoSeparatorAhead (bracketed t ++ (after ++ rest)) := by
    rw [bracketed_append]
    exact .cons (by decide) rfl _
  obtain ⟨hahead, hfits⟩ := hsign (everywhere_spaces hright hopening hsecond)
  exact everywhere_bracketed hs (ihs _ (.cons _)
    ⟨.closing (.spaces hleft hahead), everywhere_spaces hleft hahead hfits⟩)

/-- A sign of one symbol. -/
theorem fits_single {c : Char} (hop : isOperator c = true) (hright : Spaces right)
    (hdivision : c = '/' ∨ c = ':' → DivisorAhead (right ++ (bracketed t ++ rest)))
    (hcaret : c = '^' → ExponentAhead (right ++ (bracketed t ++ rest)))
    (hr : Everywhere Fits (right ++ (bracketed t ++ rest))) :
    NoSeparatorAhead ([c] ++ (right ++ (bracketed t ++ rest))) ∧
      Everywhere Fits ([c] ++ (right ++ (bracketed t ++ rest))) := by
  have symbol : c ≠ ' ' ∧ isSeparator c = false := by
    rcases isOperator_cases hop with rfl | rfl | rfl | rfl | rfl | rfl <;> decide
  exact ⟨.cons symbol.1 symbol.2 _,
    .operator_opening hop (ahead_right hright t rest) hdivision hcaret, hr⟩

end Joined

/-- **All checks fit everywhere** in the spelling of a proper formula. -/
theorem Formula.Spelled.everywhere_fits {f : Formula} {s : List Char} (h : f.Spelled s)
    (proper : f.Proper) :
    ∀ rest, Closed rest → Everywhere Fits rest → Everywhere Fits (s ++ rest) := by
  induction h with
  | @atom a before sign after hsign hbefore hafter =>
    intro rest hclosed hr
    obtain ⟨d, hd, hstart⟩ := Atom.starts hsign (after ++ rest)
    have hahead : NoSeparatorAhead (sign ++ (after ++ rest)) := by
      intro e he
      rw [hd] at he
      cases he
      exact hstart.1
    rw [List.append_assoc, List.append_assoc]
    exact everywhere_spaces hbefore hahead (Atom.everywhere_fits hsign hafter hclosed hr)
  | @negation f s before middle after hs hbefore hmiddle hafter ih =>
    intro rest hclosed hr
    have htail : Everywhere Fits (after ++ rest) := everywhere_spaces hafter (.closed hclosed) hr
    have hclosing : Fits ')' (after ++ rest) := .closing (.spaces hafter (.closed hclosed))
    have hgroup : Everywhere Fits (bracketed s ++ (after ++ rest)) :=
      everywhere_bracketed hs (ih proper _ (.cons _) ⟨hclosing, htail⟩)
    have hopening : NoSeparatorAhead (bracketed s ++ (after ++ rest)) := by
      rw [bracketed_append]
      exact .cons (by decide) rfl _
    obtain ⟨hahead, hminus⟩ := fits_single (c := '-') rfl hmiddle
      (fun h => by rcases h with h | h <;> exact absurd h (by decide))
      (fun h => absurd h (by decide)) (everywhere_spaces hmiddle hopening hgroup)
    simp only [List.append_assoc]
    exact everywhere_spaces hbefore hahead hminus
  | @binary o f g s t before left sign right after hsign hs ht hbefore hleft hright hafter ihf ihg =>
    intro rest hclosed hr
    have properOperands : f.Proper ∧ g.Proper := by
      cases o with
      | quotient => exact ⟨proper.1, proper.2.1⟩
      | _ => exact proper
    simp only [joined, List.append_assoc]
    refine everywhere_spaces hbefore (by rw [bracketed_append]; exact .cons (by decide) rfl _)
      (everywhere_joined hs ht (ihf properOperands.1) (ihg properOperands.2) hleft hright hafter
        hclosed hr fun hfits => ?_)
    have single {c : Char} (hop : isOperator c = true)
        (hdivision : c = '/' ∨ c = ':' → DivisorAhead (right ++ (bracketed t ++ (after ++ rest))))
        (hcaret : c ≠ '^') := fits_single hop hright hdivision (fun h => absurd h hcaret) hfits
    cases o with
    | sum =>
      rw [List.mem_singleton.1 hsign]
      exact single (c := '+') rfl (fun h => by rcases h with h | h <;> cases h) (by decide)
    | difference =>
      rw [List.mem_singleton.1 hsign]
      exact single (c := '-') rfl (fun h => by rcases h with h | h <;> cases h) (by decide)
    | product =>
      rcases List.mem_cons.1 hsign with rfl | hsign
      · exact single (c := '*') rfl (fun h => by rcases h with h | h <;> cases h) (by decide)
      · rw [List.mem_singleton.1 hsign, List.nil_append]
        refine ⟨.spaces hright ?_, hfits⟩
        rw [bracketed_append]
        exact .cons (by decide) rfl _
    | quotient =>
      have hdivisor : DivisorAhead (right ++ (bracketed t ++ (after ++ rest))) :=
        ⟨g, t, right, after ++ rest, rfl, hright, ht, proper.2.2.1, proper.2.1, proper.2.2.2,
          startsPower_closed hafter hclosed⟩
      rcases List.mem_cons.1 hsign with rfl | hsign
      · exact single (c := '/') rfl (fun _ => hdivisor) (by decide)
      · rw [List.mem_singleton.1 hsign]
        exact single (c := ':') rfl (fun _ => hdivisor) (by decide)
  | @power f n s t before left sign right after hsign hs ht hbefore hleft hright hafter ihf ihn =>
    intro rest hclosed hr
    have hexponent : ExponentAhead (right ++ (bracketed t ++ (after ++ rest))) :=
      ⟨n, t, right, after ++ rest, rfl, hright, ht, startsPower_closed hafter hclosed⟩
    simp only [joined, List.append_assoc]
    refine everywhere_spaces hbefore (by rw [bracketed_append]; exact .cons (by decide) rfl _)
      (everywhere_joined hs ht (ihf proper) (ihn trivial) hleft hright hafter hclosed hr
        fun hfits => ?_)
    rcases List.mem_cons.1 hsign with rfl | hsign
    · exact fits_single (c := '^') rfl hright (fun h => by rcases h with h | h <;> cases h)
        (fun _ => hexponent) hfits
    · rw [List.mem_singleton.1 hsign]
      exact ⟨.cons (by decide) rfl _, everywhere_stars (ahead_right hright t _) hexponent hfits⟩

/-- The symbols of a spelling. -/
theorem Formula.Spelled.expected {f : Formula} {s : List Char} (h : f.Spelled s) :
    ∀ c ∈ s, isExpected c = true := by
  have spaces {text : List Char} (h : Spaces text) : ∀ c ∈ text, isExpected c = true := by
    intro c hc
    rw [h c hc]
    rfl
  have brackets {text : List Char} (h : ∀ c ∈ text, isExpected c = true) :
      ∀ c ∈ bracketed text, isExpected c = true := by
    rw [bracketed, List.forall_mem_cons, List.forall_mem_append, List.forall_mem_singleton]
    exact ⟨rfl, h, rfl⟩
  have operators {sign : List Char} (h : sign ∈ signs) : ∀ c ∈ sign, isExpected c = true := by
    intro c hc
    rcases isOperator_cases (isOperator_of_mem_sign h hc) with rfl | rfl | rfl | rfl | rfl | rfl <;>
      rfl
  have join {before left sign right after s t : List Char} (hsign : sign ∈ signs)
      (hs : ∀ c ∈ s, isExpected c = true) (ht : ∀ c ∈ t, isExpected c = true)
      (hbefore : Spaces before) (hleft : Spaces left) (hright : Spaces right)
      (hafter : Spaces after) :
      ∀ c ∈ joined before left sign right after s t, isExpected c = true := by
    simp only [joined, List.forall_mem_append]
    exact ⟨⟨⟨⟨⟨⟨spaces hbefore, brackets hs⟩, spaces hleft⟩, operators hsign⟩, spaces hright⟩,
      brackets ht⟩, spaces hafter⟩
  induction h with
  | atom hsign hbefore hafter =>
    simp only [List.forall_mem_append]
    refine ⟨⟨spaces hbefore, fun c hc => ?_⟩, spaces hafter⟩
    rcases Atom.symbol_of_mem hsign hc with hc | hc | hc
    · simp [isExpected, hc]
    · simp [isExpected, hc]
    · simp [isExpected, hc]
  | negation _ hbefore hmiddle hafter ih =>
    simp only [List.forall_mem_append, List.forall_mem_cons]
    exact ⟨⟨⟨spaces hbefore, rfl, spaces hmiddle⟩, brackets ih⟩, spaces hafter⟩
  | binary hsign _ _ hbefore hleft hright hafter ihf ihg =>
    exact join (Operation.mem_signs hsign) ihf ihg hbefore hleft hright hafter
  | power hsign _ _ hbefore hleft hright hafter ihf ihn =>
    exact join (mem_signs_of_power hsign) ihf ihn hbefore hleft hright hafter

section Checks

variable {f : Formula} {s : List Char}

theorem Formula.Spelled.fits (h : f.Spelled s) (proper : f.Proper) : Everywhere Fits s := by
  have := h.everywhere_fits proper [] .nil trivial
  rwa [List.append_nil] at this

/-- A spelling is well formed. -/
theorem Formula.Spelled.wellFormed (h : f.Spelled s) (proper : f.Proper) : WellFormed s := by
  refine ⟨h.balanced, h.expected, (h.fits proper).imp fun _ _ hfits => hfits.separator,
    (h.fits proper).imp fun _ _ hfits => hfits.operator, fun d hd => ?_⟩
  obtain ⟨d', hd', hstart⟩ := h.starts []
  rw [List.append_nil, hd] at hd'
  cases hd'
  exact ⟨hstart.1, hstart.2.1⟩

theorem isBlank_eq_false {c : Char} (h : c.isDigit = true ∨ c.isLower = true) :
    isBlank c = false := by
  have range : 48 ≤ c.toNat ∧ c.toNat ≤ 122 := by
    rcases h with h | h
    · exact (toNat_of_isDigit h).imp_right fun hle => hle.trans (by decide)
    · exact (toNat_of_isLower h).imp_left fun hle => le_trans (by decide) hle
  rw [← Bool.not_eq_true]
  intro hb
  simp only [isBlank, Bool.or_eq_true, Bool.and_eq_true, Nat.ble_eq, beq_iff_eq] at hb
  omega

theorem isBlankText_eq_false {text : List Char} {c : Char} (hc : c ∈ text)
    (hb : isBlank c = false) : isBlankText text = false := by
  rw [← Bool.not_eq_true, isBlankText, List.all_eq_true]
  intro h
  rw [h c hc] at hb
  cases hb

/-- A spelling is not blank. -/
theorem Formula.Spelled.not_blank (h : f.Spelled s) : isBlankText s = false := by
  have bracket : isBlank '(' = false := by decide
  cases h with
  | @atom a before sign after hsign _ _ =>
    obtain ⟨c, hc, symbol⟩ : ∃ c ∈ sign, c.isDigit = true ∨ c.isLower = true := by
      have first (n : Numeral) : ∃ c ∈ n.digits, c.isDigit = true := by
        obtain ⟨c, digits, hdigits⟩ := List.exists_cons_of_ne_nil n.nonempty
        have hc : c ∈ n.digits := hdigits ▸ List.mem_cons_self
        exact ⟨c, hc, n.decimal c hc⟩
      cases a with
      | decimal whole fraction =>
        obtain ⟨c, hc, hd⟩ := first whole
        cases fraction with
        | none => exact ⟨c, List.mem_singleton.1 hsign ▸ hc, Or.inl hd⟩
        | some fraction =>
          rcases List.mem_cons.1 hsign with rfl | hsign
          · exact ⟨c, List.mem_append_left _ hc, Or.inl hd⟩
          · exact ⟨c, List.mem_singleton.1 hsign ▸ List.mem_append_left _ hc, Or.inl hd⟩
      | unit => exact ⟨'i', List.mem_singleton.1 hsign ▸ List.mem_cons_self, Or.inr rfl⟩
      | letter name isName =>
        exact ⟨name, List.mem_singleton.1 hsign ▸ List.mem_cons_self,
          Or.inr (Bool.and_eq_true_iff.1 isName).1⟩
    exact isBlankText_eq_false (List.mem_append_left _ (List.mem_append_right _ hc))
      (isBlank_eq_false symbol)
  | negation _ _ _ _ => exact isBlankText_eq_false (c := '(') (by simp [bracketed]) bracket
  | binary _ _ _ _ _ _ _ =>
    exact isBlankText_eq_false (c := '(') (by simp [joined, bracketed]) bracket
  | power _ _ _ _ _ _ _ =>
    exact isBlankText_eq_false (c := '(') (by simp [joined, bracketed]) bracket

theorem hasVariable_append (text rest : List Char) :
    hasVariable (text ++ rest) = (hasVariable text || hasVariable rest) := List.any_append

theorem hasVariable_eq_false {text : List Char} (h : ∀ c ∈ text, isVariable c = false) :
    hasVariable text = false := by
  rw [hasVariable, List.any_eq_false]
  exact fun c hc => by rw [h c hc]; decide

theorem hasVariable_bracketed (text : List Char) : hasVariable (bracketed text) = hasVariable text := by
  rw [bracketed, hasVariable, List.any_cons, List.any_append]
  show (isVariable '(' || (hasVariable text || (isVariable ')' || false))) = hasVariable text
  rw [show isVariable '(' = false from rfl, show isVariable ')' = false from rfl, Bool.or_false,
    Bool.or_false, Bool.false_or]

theorem Spaces.hasVariable {spaces : List Char} (h : Spaces spaces) :
    SamePoly.hasVariable spaces = false :=
  hasVariable_eq_false fun c hc => by rw [h c hc]; rfl

theorem hasVariable_sign {sign : List Char} (h : sign ∈ signs) : hasVariable sign = false := by
  refine hasVariable_eq_false fun c hc => ?_
  rcases isOperator_cases (isOperator_of_mem_sign h hc) with rfl | rfl | rfl | rfl | rfl | rfl <;> rfl

theorem isVariable_of_isDigit {c : Char} (h : c.isDigit = true) : isVariable c = false := by
  have alpha := isAlpha_of_isDigit h
  rw [Char.isAlpha, Bool.or_eq_false_iff] at alpha
  rw [isVariable, alpha.2, Bool.false_and]

/-- A variable occurs in a spelling exactly when one occurs in the formula. -/
theorem Formula.Spelled.hasVariable (h : f.Spelled s) : SamePoly.hasVariable s = !f.isNumeric := by
  have digits (n : Numeral) : SamePoly.hasVariable n.digits = false :=
    hasVariable_eq_false fun c hc => isVariable_of_isDigit (n.decimal c hc)
  have join {before left sign right after s t : List Char} (hsign : sign ∈ signs)
      (hbefore : Spaces before) (hleft : Spaces left) (hright : Spaces right)
      (hafter : Spaces after) :
      SamePoly.hasVariable (joined before left sign right after s t) =
        (SamePoly.hasVariable s || SamePoly.hasVariable t) := by
    simp only [joined, hasVariable_append, hasVariable_bracketed, hbefore.hasVariable,
      hleft.hasVariable, hright.hasVariable, hafter.hasVariable, hasVariable_sign hsign,
      Bool.false_or, Bool.or_false]
  induction h with
  | @atom a before sign after hsign hbefore hafter =>
    rw [hasVariable_append, hasVariable_append, hbefore.hasVariable, hafter.hasVariable,
      Bool.false_or, Bool.or_false]
    cases a with
    | decimal whole fraction =>
      cases fraction with
      | none =>
        rw [List.mem_singleton.1 hsign]
        exact digits whole
      | some fraction =>
        rcases List.mem_cons.1 hsign with rfl | hsign
        · rw [hasVariable_append, digits]
          exact digits fraction
        · rw [List.mem_singleton.1 hsign, hasVariable_append, digits]
          exact digits fraction
    | unit =>
      rw [List.mem_singleton.1 hsign]
      rfl
    | letter name isName =>
      rw [List.mem_singleton.1 hsign, SamePoly.hasVariable, List.any_cons, isName]
      rfl
  | @negation f s before middle after hs hbefore hmiddle hafter ih =>
    have minus : SamePoly.hasVariable ('-' :: middle) = SamePoly.hasVariable middle := rfl
    rw [hasVariable_append, hasVariable_append, hasVariable_append, minus, hbefore.hasVariable,
      hmiddle.hasVariable, hafter.hasVariable, hasVariable_bracketed, Bool.false_or, Bool.or_false]
    exact ih
  | binary hsign _ _ hbefore hleft hright hafter ihf ihg =>
    rw [join (Operation.mem_signs hsign) hbefore hleft hright hafter, ihf, ihg, Formula.isNumeric,
      Bool.not_and]
  | power hsign _ _ hbefore hleft hright hafter ihf ihn =>
    rw [join (mem_signs_of_power hsign) hbefore hleft hright hafter, ihf, ihn]
    exact Bool.or_false _

end Checks

/-! ## Sites -/

theorem operator_of_mem_divisionSitesFrom {text before after : List Char}
    {whole : before.reverse ++ after = text} {site : Site text}
    (h : site ∈ divisionSitesFrom before after whole) :
    site.operator = ['/'] ∨ site.operator = [':'] := by
  induction after generalizing before with
  | nil => cases h
  | cons c rest ih =>
    rw [divisionSitesFrom] at h
    split at h
    · rename_i hc
      rcases List.mem_cons.1 h with rfl | h
      · rw [Bool.or_eq_true, beq_iff_eq, beq_iff_eq] at hc
        exact hc.imp (congrArg fun c => [c]) (congrArg fun c => [c])
      · exact ih h
    · exact ih h

theorem operator_of_mem_powerSitesFrom {text before after : List Char}
    {whole : before.reverse ++ after = text} {site : Site text}
    (h : site ∈ powerSitesFrom before after whole) :
    site.operator = ['^'] ∨ site.operator = ['*', '*'] := by
  induction hn : after.length using Nat.strongRecOn generalizing before after with
  | ind n ih =>
    rw [powerSitesFrom.eq_def] at h
    split at h
    · rcases List.mem_cons.1 h with rfl | h
      · exact Or.inr rfl
      · exact ih _ (by rw [← hn]; simp only [List.length_cons]; omega) h rfl
    · dsimp only at h
      split at h
      · rename_i hc
        rcases List.mem_cons.1 h with rfl | h
        · exact Or.inl (congrArg (fun c => [c]) (beq_iff_eq.1 hc))
        · exact ih _ (by rw [← hn]; exact Nat.lt_succ_self _) h rfl
      · exact ih _ (by rw [← hn]; exact Nat.lt_succ_self _) h rfl
    · cases h

/-- The operand behind an operator is the group in brackets that comes next. -/
theorem operandAfter_bracketed {spaces t after : List Char} (hspaces : Spaces spaces)
    (ht : Balanced t) (hafter : startsPower after = false) :
    operandAfter (spaces ++ (bracketed t ++ after)) = spaces ++ bracketed t := by
  rw [bracketed_append, operandAfter.eq_def, hspaces.takeWhile (.cons (by decide)),
    hspaces.dropWhile, List.dropWhile_cons, if_neg (by decide)]
  simp only [ht.groupBeforePower?_group hafter]
  rw [bracketed, List.append_assoc, List.cons_append]

/-- A proper denominator is no fault. -/
theorem divisionFault?_eq_none {text : List Char} {vanishes : VanishingTest text}
    {site : Site text} (h : DivisorAhead site.after) : divisionFault? ℚ vanishes site = none := by
  obtain ⟨g, t, spaces, after, hrest, hspaces, ht, numeric, proper, large, hpower⟩ := h
  have right : site.right = spaces ++ bracketed t := by
    rw [Site.right, hrest, operandAfter_bracketed hspaces ht.balanced hpower]
  have constant : hasVariable site.right = false := by
    rw [right, hasVariable_append, hspaces.hasVariable, hasVariable_bracketed, ht.hasVariable,
      numeric]
    rfl
  have value : (evaluate (normalize site.right) : Except EvalError (Number ℚ)) = .ok g.value := by
    rw [right, ht.normalize_bracketed hspaces, Formula.evaluate_bracketed_text numeric proper]
  have far : g.value.nearer Scalar.denominatorTolerance = false := by
    rw [Number.denominatorTolerance_eq, ← Bool.not_eq_true, Number.nearer_iff (by norm_num), not_lt]
    exact large
  rw [divisionFault?, constant, if_neg Bool.false_ne_true, value]
  dsimp only
  rw [far]
  rfl

/-- A natural exponent is no fault, whatever its base is. -/
theorem powerFault?_eq_none {text : List Char} {site : Site text} (h : ExponentAhead site.after) :
    powerFault? ℚ site = none := by
  obtain ⟨n, t, spaces, after, hrest, hspaces, ht, hpower⟩ := h
  have right : site.right = spaces ++ bracketed t := by
    rw [Site.right, hrest, operandAfter_bracketed hspaces ht.balanced hpower]
  have constant : hasVariable site.right = false := by
    rw [right, hasVariable_append, hspaces.hasVariable, hasVariable_bracketed, ht.hasVariable]
    rfl
  have value : (evaluate (normalize site.right) : Except EvalError (Number ℚ)) =
      .ok (.ofReal ((n.value : ℤ) : ℚ)) := by
    rw [right, ht.normalize_bracketed hspaces]
    exact n.evaluate_bracketed
  have natural : ¬ (n.value : ℤ) < 0 := not_lt.2 (Int.natCast_nonneg _)
  have notNegative : isNegativeReal ℚ (.ofReal ((n.value : ℤ) : ℚ)) = false := by
    have : Scalar.less (((n.value : ℤ) : ℚ)) 0 = false := by
      rw [← Bool.not_eq_true, Scalar.less_iff, Int.cast_lt_zero]
      exact natural
    rw [isNegativeReal, Number.re_ofReal, this, Bool.and_false]
  rw [powerFault?, constant, if_neg Bool.false_ne_true, value]
  dsimp only
  split
  · rw [Number.exponent?_intCast, if_neg natural]
  · split
    · rfl
    · rw [notNegative, Bool.and_false]
      rfl

/-- No operator of a spelling is at fault. -/
theorem Formula.Spelled.violation? {f : Formula} {s : List Char} (h : f.Spelled s)
    (proper : f.Proper) (vanishes : VanishingTest s) : SamePoly.violation? ℚ s vanishes = none := by
  have fits := h.fits proper
  refine violation?_eq_none_iff.2 ⟨fun site hsite => ?_, fun site hsite => ?_⟩
  · have whole : s = site.before ++ (site.operator ++ site.after) := by
      rw [← List.append_assoc, site.whole]
    have divisor : DivisorAhead site.after := by
      rcases operator_of_mem_divisionSitesFrom hsite with hop | hop
      · rw [hop] at whole
        rw [whole] at fits
        exact (fits.of_append (c := '/')).division (Or.inl rfl)
      · rw [hop] at whole
        rw [whole] at fits
        exact (fits.of_append (c := ':')).division (Or.inr rfl)
    exact divisionFault?_eq_none divisor
  · have whole : s = site.before ++ (site.operator ++ site.after) := by
      rw [← List.append_assoc, site.whole]
    have exponent : ExponentAhead site.after := by
      rcases operator_of_mem_powerSitesFrom hsite with hop | hop
      · rw [hop] at whole
        rw [whole] at fits
        exact (fits.of_append (c := '^')).caret rfl
      · rw [hop] at whole
        rw [whole] at fits
        exact (fits.of_append (c := '*')).stars rfl _ rfl
    exact powerFault?_eq_none exponent

/-- **A spelling whose brackets are not nested too deeply passes all checks.** -/
theorem Formula.Spelled.validate {f : Formula} {s : List Char} (h : f.Spelled s)
    (proper : f.Proper) (hdepth : SamePoly.nestingDepth s ≤ maxNestingDepth) :
    SamePoly.validate ℚ s = .ok () :=
  validate_eq_ok_iff.2
    ⟨malformed?_eq_none_iff.2 (h.wellFormed proper), hdepth, h.violation? proper _⟩

end SamePoly
