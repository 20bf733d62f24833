/-
  The normalized text of a formula.

  All spellings of a formula have one normalized form: no spaces, no multiplication signs, and
  every operand in its brackets.

  * `Formula.text`: the normalized text.
  * `Formula.Compact`: the texts without spaces, in which only multiplication signs are free.
  * `Formula.Spelled.normalize`: **every spelling is normalized to that text**.
-/
import SamePoly.Proofs.Formula.Syntax
import SamePoly.Proofs.Scan
import SamePoly.Normal

namespace SamePoly

/-! ## Respelling -/

theorem respell_nil : respell [] = [] := rfl

theorem respell_space (rest : List Char) : respell (' ' :: rest) = respell rest := rfl

theorem respell_spaces {spaces : List Char} (h : Spaces spaces) (rest : List Char) :
    respell (spaces ++ rest) = respell rest := by
  induction spaces with
  | nil => rfl
  | cons c spaces ih =>
    rw [h c List.mem_cons_self, List.cons_append, respell_space,
      ih fun d hd => h d (List.mem_cons_of_mem _ hd)]

theorem respellPowers_cons {c : Char} (hc : c ≠ '*') (rest : List Char) :
    respellPowers (c :: rest) = c :: respellPowers rest := by
  rw [respellPowers.eq_def]
  split
  · rename_i heq
    cases heq
    exact absurd rfl hc
  · rename_i heq
    cases heq
    rfl
  · rename_i heq
    cases heq

theorem respell_cons {c : Char} (hc : c ≠ ' ') (hstar : c ≠ '*') (rest : List Char) :
    respell (c :: rest) = respellChar c :: respell rest := by
  rw [respell, List.filter_cons, if_pos (by simpa using hc), respellPowers_cons hstar]
  rfl

/-- Symbols that have only one spelling stay as they are. -/
theorem respell_append {text : List Char}
    (h : ∀ c ∈ text, c ≠ ' ' ∧ c ≠ '*' ∧ respellChar c = c) (rest : List Char) :
    respell (text ++ rest) = text ++ respell rest := by
  induction text with
  | nil => rfl
  | cons c text ih =>
    obtain ⟨hspace, hstar, hc⟩ := h c List.mem_cons_self
    rw [List.cons_append, respell_cons hspace hstar, hc,
      ih fun d hd => h d (List.mem_cons_of_mem _ hd), List.cons_append]

theorem respell_power (rest : List Char) : respell ('*' :: '*' :: rest) = '^' :: respell rest := rfl

/-- A multiplication sign in front of a bracket, possibly behind spaces. -/
theorem respell_times {spaces : List Char} (h : Spaces spaces) (rest : List Char) :
    respell ('*' :: (spaces ++ '(' :: rest)) = '*' :: respell ('(' :: rest) := by
  have gone : (spaces ++ '(' :: rest).filter (· != ' ') = ('(' :: rest).filter (· != ' ') := by
    rw [List.filter_append, List.filter_eq_nil_iff.2, List.nil_append]
    intro c hc
    rw [h c hc]
    decide
  rw [respell, List.filter_cons, if_pos (by decide), gone, List.filter_cons, if_pos (by decide)]
  rfl

theorem respellChar_of_isDigit {c : Char} (h : c.isDigit = true) :
    c ≠ ' ' ∧ c ≠ '*' ∧ respellChar c = c := by
  refine ⟨?_, ?_, ?_⟩
  · rintro rfl
    cases h
  · rintro rfl
    cases h
  · rw [respellChar, if_neg, if_neg]
    · rw [beq_iff_eq]
      rintro rfl
      cases h
    · rw [beq_iff_eq]
      rintro rfl
      cases h

theorem respellChar_of_isVariable {c : Char} (h : isVariable c = true) :
    c ≠ ' ' ∧ c ≠ '*' ∧ respellChar c = c := by
  refine ⟨?_, ?_, ?_⟩
  · rintro rfl
    cases h
  · rintro rfl
    cases h
  · rw [respellChar, if_neg, if_neg]
    · rw [beq_iff_eq]
      rintro rfl
      cases h
    · rw [beq_iff_eq]
      rintro rfl
      cases h

/-! ## Multiplication signs -/

theorem dropTimesAfter_nil : dropTimesAfter [] = [] := rfl

/-- A symbol that no multiplication sign follows stays. -/
theorem dropTimesAfter_cons {c : Char} {rest : List Char} (h : rest.head? ≠ some '*') :
    dropTimesAfter (c :: rest) = c :: dropTimesAfter rest := by
  rw [dropTimesAfter.eq_def]
  split
  · rename_i heq
    cases heq
    exact absurd rfl h
  · rename_i heq
    cases heq
    rfl
  · rename_i heq
    cases heq

/-- A multiplication sign goes when no digit stands before it. -/
theorem dropTimesAfter_times {c : Char} (hc : c.isDigit = false) (rest : List Char) :
    dropTimesAfter (c :: '*' :: rest) = c :: dropTimesAfter rest := by
  rw [dropTimesAfter, hc, if_neg (by decide)]

theorem dropTimesAfter_append {text rest : List Char} (h : ∀ c ∈ text, c ≠ '*')
    (hr : rest.head? ≠ some '*') :
    dropTimesAfter (text ++ rest) = text ++ dropTimesAfter rest := by
  induction text with
  | nil => rfl
  | cons c text ih =>
    have tail := fun d hd => h d (List.mem_cons_of_mem _ hd)
    rw [List.cons_append, dropTimesAfter_cons, ih tail, List.cons_append]
    cases text with
    | nil => exact hr
    | cons d text => exact fun hd => tail d List.mem_cons_self (Option.some.inj hd)

/-- Only a multiplication sign goes because of what stands behind it. -/
theorem dropTimesBefore_cons {c : Char} (hc : c ≠ '*') (rest : List Char) :
    dropTimesBefore (c :: rest) = c :: dropTimesBefore rest := by
  rw [dropTimesBefore.eq_def]
  split
  · rename_i heq
    cases heq
    exact absurd rfl hc
  · rename_i heq
    cases heq
    rfl
  · rename_i heq
    cases heq

/-- Text without multiplication signs keeps all of its symbols. -/
theorem dropTimesBefore_eq_self {text : List Char} (h : ∀ c ∈ text, c ≠ '*') :
    dropTimesBefore text = text := by
  induction text with
  | nil => rfl
  | cons c text ih =>
    rw [dropTimesBefore_cons (h c List.mem_cons_self),
      ih fun d hd => h d (List.mem_cons_of_mem _ hd)]

/-! ## Brackets around bases and exponents -/

/-- A symbol that is put in brackets next to a `^`. -/
def isWrapped (c : Char) : Bool := isLiteral c || c.isLower

/-- Brackets stand around every base already. -/
theorem wrapBases_eq_self {text : List Char}
    (h : text.IsChain fun c d => d = '^' → isWrapped c = false) : wrapBases text = text := by
  induction hn : text.length using Nat.strongRecOn generalizing text with
  | ind n ih =>
    cases text with
    | nil => rw [wrapBases]
    | cons c rest =>
      rw [List.length_cons] at hn
      rw [wrapBases.eq_def]
      dsimp only
      split
      · rename_i hc
        have split := List.takeWhile_append_dropWhile (p := isLiteral) (l := rest)
        have shorter := (List.dropWhile_sublist (p := isLiteral) (l := rest)).length_le
        have suffix : (rest.dropWhile isLiteral).IsChain fun c d => d = '^' → isWrapped c = false := by
          refine List.IsChain.suffix h ?_
          exact ⟨c :: rest.takeWhile isLiteral, by rw [List.cons_append, split]⟩
        split
        · rename_i after hd
          -- The symbol before the `^` would be a literal symbol.
          have whole : c :: rest = (c :: rest.takeWhile isLiteral) ++ '^' :: after := by
            rw [List.cons_append, ← hd, split]
          rw [whole] at h
          have last := (List.isChain_append.1 h).2.2 _
            (List.getLast?_eq_some_getLast (List.cons_ne_nil c _)) '^' rfl rfl
          have literal : isLiteral ((c :: rest.takeWhile isLiteral).getLast (List.cons_ne_nil c _)) =
              true := by
            rcases List.mem_cons.1 (List.getLast_mem (List.cons_ne_nil c (rest.takeWhile isLiteral)))
              with hl | hl
            · rw [hl]
              exact hc
            · exact List.mem_takeWhile_imp hl
          rw [isWrapped, literal] at last
          cases last
        · rw [ih _ (by omega) suffix rfl, List.cons_append, split]
      · have tail : wrapBases rest = rest := ih rest.length (by omega) h.tail rfl
        split
        · have base := (List.isChain_cons_cons.1 h).1 rfl
          rw [isWrapped, Bool.or_eq_false_iff] at base
          rw [base.2, if_neg (by decide), tail]
        · rw [tail]

/-- Brackets stand around every exponent already. -/
theorem wrapExponents_eq_self {text : List Char}
    (h : text.IsChain fun c d => c = '^' → isWrapped d = false) : wrapExponents text = text := by
  induction text with
  | nil => rw [wrapExponents]
  | cons c rest ih =>
    rw [wrapExponents.eq_def]
    split
    · rename_i d rest' heq
      cases heq
      have exponent := (List.isChain_cons_cons.1 h).1 rfl
      rw [isWrapped, Bool.or_eq_false_iff] at exponent
      rw [exponent.1, if_neg (by decide), exponent.2, if_neg (by decide), ih h.tail]
    · rename_i heq
      cases heq
      rw [ih h.tail]
    · rename_i heq
      cases heq

/-! ## The normalized text -/

/-- The normalized text of an atom. -/
def Atom.text : Atom → List Char
  | .decimal whole fraction => (literal whole fraction).text
  | .unit => ['i']
  | .letter name _ => [name]

/-- The normalized sign of an operator; none for a product. -/
def Operation.sign : Operation → List Char
  | .sum => ['+']
  | .difference => ['-']
  | .product => []
  | .quotient => ['/']

/-- The normalized text of a formula. -/
def Formula.text : Formula → List Char
  | .atom a => a.text
  | .negation f => '-' :: bracketed f.text
  | .binary o f g => bracketed f.text ++ o.sign ++ bracketed g.text
  | .power f n => bracketed f.text ++ '^' :: bracketed n.digits

/-- The spellings of an operator in text without spaces. -/
def Operation.compactSpellings : Operation → List (List Char)
  | .product => [['*'], []]
  | o => [o.sign]

/-- The texts of a formula without spaces and with one spelling for every sign but that of a
    product. -/
inductive Formula.Compact : Formula → List Char → Prop
  | atom (a : Atom) : Compact (.atom a) a.text
  | negation {f : Formula} {s : List Char} :
      Compact f s → Compact (.negation f) ('-' :: bracketed s)
  | binary {o : Operation} {f g : Formula} {s t sign : List Char}
      (hsign : sign ∈ o.compactSpellings) :
      Compact f s → Compact g t → Compact (.binary o f g) (bracketed s ++ sign ++ bracketed t)
  | power {f : Formula} {n : Numeral} {s : List Char} :
      Compact f s → Compact (.power f n) (bracketed s ++ '^' :: bracketed n.digits)

/-- What may stand behind a formula: nothing, or the end of its brackets. -/
def Closed (rest : List Char) : Prop := rest = [] ∨ ∃ after, rest = ')' :: after

theorem Closed.nil : Closed [] := Or.inl rfl

theorem Closed.cons (after : List Char) : Closed (')' :: after) := Or.inr ⟨after, rfl⟩

theorem bracketed_append (s rest : List Char) : bracketed s ++ rest = '(' :: (s ++ ')' :: rest) := by
  rw [bracketed, List.cons_append, List.append_assoc, List.singleton_append]

theorem respell_bracketed {s m : List Char}
    (h : ∀ rest, Closed rest → respell (s ++ rest) = m ++ respell rest) (rest : List Char) :
    respell (bracketed s ++ rest) = bracketed m ++ respell rest := by
  rw [bracketed_append, bracketed_append, respell_cons (by decide) (by decide), h _ (.cons _),
    respell_cons (by decide) (by decide)]
  rfl

/-- Every sign has one spelling in front of a bracket. -/
theorem respell_sign {o : Operation} {sign right : List Char} (hsign : sign ∈ o.spellings)
    (hright : Spaces right) :
    ∃ sign' ∈ o.compactSpellings, ∀ rest,
      respell (sign ++ (right ++ '(' :: rest)) = sign' ++ respell ('(' :: rest) := by
  have single (c : Char) (hc : c ≠ ' ') (hstar : c ≠ '*') (rest : List Char) :
      respell ([c] ++ (right ++ '(' :: rest)) = [respellChar c] ++ respell ('(' :: rest) := by
    rw [List.singleton_append, respell_cons hc hstar, respell_spaces hright]
    rfl
  cases o with
  | sum =>
    rw [List.mem_singleton.1 hsign]
    exact ⟨['+'], List.mem_singleton.2 rfl, single '+' (by decide) (by decide)⟩
  | difference =>
    rw [List.mem_singleton.1 hsign]
    exact ⟨['-'], List.mem_singleton.2 rfl, single '-' (by decide) (by decide)⟩
  | product =>
    rcases List.mem_cons.1 hsign with rfl | hsign
    · exact ⟨['*'], List.mem_cons_self, respell_times hright⟩
    · rw [List.mem_singleton.1 hsign]
      exact ⟨[], List.mem_cons_of_mem _ List.mem_cons_self, fun rest => respell_spaces hright _⟩
  | quotient =>
    rcases List.mem_cons.1 hsign with rfl | hsign
    · exact ⟨['/'], List.mem_singleton.2 rfl, single '/' (by decide) (by decide)⟩
    · rw [List.mem_singleton.1 hsign]
      exact ⟨['/'], List.mem_singleton.2 rfl, single ':' (by decide) (by decide)⟩

theorem respell_powerSign {sign right : List Char} (hsign : sign ∈ powerSpellings)
    (hright : Spaces right) (rest : List Char) :
    respell (sign ++ (right ++ '(' :: rest)) = '^' :: respell ('(' :: rest) := by
  rcases List.mem_cons.1 hsign with rfl | hsign
  · rw [List.singleton_append, respell_cons (by decide) (by decide), respell_spaces hright]
    rfl
  · rw [List.mem_singleton.1 hsign]
    show respell ('*' :: '*' :: (right ++ '(' :: rest)) = _
    rw [respell_power, respell_spaces hright]

/-- The spellings of an atom are respelled to its normalized text. -/
theorem Atom.respell_spelling {a : Atom} {sign : List Char} (h : sign ∈ a.spellings)
    (rest : List Char) : respell (sign ++ rest) = a.text ++ respell rest := by
  cases a with
  | decimal whole fraction =>
    have hwhole := respell_append fun c hc => respellChar_of_isDigit (whole.decimal c hc)
    cases fraction with
    | none =>
      rw [List.mem_singleton.1 h]
      exact hwhole rest
    | some fraction =>
      have hfraction := respell_append fun c hc => respellChar_of_isDigit (fraction.decimal c hc)
      have text : (Atom.decimal whole (some fraction)).text =
          whole.digits ++ '.' :: fraction.digits := rfl
      rw [text]
      rcases List.mem_cons.1 h with rfl | h
      · rw [List.append_assoc, hwhole, List.cons_append, respell_cons (by decide) (by decide),
          hfraction, List.append_assoc]
        rfl
      · rw [List.mem_singleton.1 h, List.append_assoc, hwhole, List.cons_append,
          respell_cons (by decide) (by decide), hfraction, List.append_assoc]
        rfl
  | unit =>
    rw [List.mem_singleton.1 h]
    exact respell_cons (by decide) (by decide) rest
  | letter name isName =>
    rw [List.mem_singleton.1 h]
    obtain ⟨hspace, hstar, hname⟩ := respellChar_of_isVariable isName
    rw [List.singleton_append, respell_cons hspace hstar, hname]
    rfl

/-- Every spelling of a formula is respelled to a compact text. -/
theorem Formula.Spelled.exists_compact {f : Formula} {s : List Char} (h : f.Spelled s) :
    ∃ m, f.Compact m ∧ ∀ rest, Closed rest → respell (s ++ rest) = m ++ respell rest := by
  induction h with
  | @atom a before sign after hsign hbefore hafter =>
    refine ⟨a.text, .atom a, fun rest _ => ?_⟩
    rw [List.append_assoc, List.append_assoc, respell_spaces hbefore,
      Atom.respell_spelling hsign, respell_spaces hafter]
  | @negation f s before middle after _ hbefore hmiddle hafter ih =>
    obtain ⟨m, hm, hrespell⟩ := ih
    refine ⟨_, .negation hm, fun rest _ => ?_⟩
    rw [List.append_assoc, List.append_assoc, List.append_assoc, respell_spaces hbefore,
      List.cons_append, respell_cons (by decide) (by decide), respell_spaces hmiddle,
      respell_bracketed hrespell, respell_spaces hafter]
    rfl
  | @binary o f g s t before left sign right after hsign _ _ hbefore hleft hright hafter ihf ihg =>
    obtain ⟨m, hm, hs⟩ := ihf
    obtain ⟨m', hm', ht⟩ := ihg
    obtain ⟨sign', hsign', hrespell⟩ := respell_sign hsign hright
    refine ⟨_, .binary hsign' hm hm', fun rest _ => ?_⟩
    have tail := respell_bracketed ht (after ++ rest)
    simp only [joined, List.append_assoc]
    rw [respell_spaces hbefore, respell_bracketed hs, respell_spaces hleft]
    rw [bracketed_append t] at tail ⊢
    rw [hrespell, tail, respell_spaces hafter]
  | @power f n s t before left sign right after hsign _ _ hbefore hleft hright hafter ihf ihn =>
    obtain ⟨m, hm, hs⟩ := ihf
    obtain ⟨m', hm', ht⟩ := ihn
    cases hm'
    refine ⟨_, .power hm, fun rest _ => ?_⟩
    have tail := respell_bracketed ht (after ++ rest)
    simp only [joined, List.append_assoc]
    rw [respell_spaces hbefore, respell_bracketed hs, respell_spaces hleft]
    rw [bracketed_append t] at tail ⊢
    rw [respell_powerSign hsign hright, tail, respell_spaces hafter]
    rfl

/-- The symbols of normalized text without multiplication signs. -/
theorem Atom.text_symbols {a : Atom} {c : Char} (hc : c ∈ a.text) :
    isLiteral c = true ∨ c = 'i' ∨ isVariable c = true := by
  cases a with
  | decimal whole fraction =>
    left
    rw [isLiteral, Bool.or_eq_true, beq_iff_eq]
    cases fraction with
    | none => exact Or.inl (whole.decimal c hc)
    | some fraction =>
      rcases List.mem_append.1 hc with hc | hc
      · exact Or.inl (whole.decimal c hc)
      · rcases List.mem_cons.1 hc with rfl | hc
        · exact Or.inr rfl
        · exact Or.inl (fraction.decimal c hc)
  | unit => exact Or.inr (Or.inl (List.mem_singleton.1 hc))
  | letter name isName =>
    rw [List.mem_singleton.1 hc]
    exact Or.inr (Or.inr isName)

theorem Atom.text_ne_nil (a : Atom) : a.text ≠ [] := by
  cases a with
  | decimal whole fraction =>
    cases fraction with
    | none => exact whole.nonempty
    | some fraction => exact fun h => whole.nonempty (List.append_eq_nil_iff.1 h).1
  | unit => exact List.cons_ne_nil _ _
  | letter name isName => exact List.cons_ne_nil _ _

/-- No operator and no bracket occurs in an atom. -/
theorem Atom.ne_of_mem_text {a : Atom} {c d : Char} (hc : c ∈ a.text)
    (hd : isLiteral d = false ∧ d ≠ 'i' ∧ isVariable d = false) : c ≠ d := by
  rintro rfl
  rcases text_symbols hc with h | h | h
  · rw [hd.1] at h
    cases h
  · exact hd.2.1 h
  · rw [hd.2.2] at h
    cases h

theorem Formula.Compact.head? {f : Formula} {m : List Char} (h : f.Compact m) :
    ∃ c tail, m = c :: tail ∧ c ≠ '*' := by
  cases h with
  | atom a =>
    obtain ⟨c, tail, htext⟩ := List.exists_cons_of_ne_nil a.text_ne_nil
    exact ⟨c, tail, htext, Atom.ne_of_mem_text (htext ▸ List.mem_cons_self) (by decide)⟩
  | negation _ => exact ⟨'-', _, rfl, by decide⟩
  | binary _ _ _ => exact ⟨'(', _, rfl, by decide⟩
  | power _ => exact ⟨'(', _, rfl, by decide⟩

/-- The multiplication signs in a pair of brackets go. -/
theorem dropTimesAfter_bracketed {f : Formula} {m : List Char} (h : f.Compact m)
    (hm : ∀ rest, Closed rest → dropTimesAfter (m ++ rest) = f.text ++ dropTimesAfter rest)
    (rest : List Char) :
    dropTimesAfter (bracketed m ++ rest) = '(' :: (f.text ++ dropTimesAfter (')' :: rest)) := by
  obtain ⟨c, tail, rfl, hc⟩ := h.head?
  have first : (c :: tail ++ ')' :: rest).head? ≠ some '*' := fun he => hc (Option.some.inj he)
  rw [bracketed_append, dropTimesAfter_cons first, hm _ (.cons _)]

/-- All multiplication signs of a compact text go. -/
theorem Formula.Compact.dropTimesAfter {f : Formula} {m : List Char} (h : f.Compact m) :
    ∀ rest, Closed rest →
      SamePoly.dropTimesAfter (m ++ rest) = f.text ++ SamePoly.dropTimesAfter rest := by
  have closed {rest : List Char} (hr : Closed rest) : rest.head? ≠ some '*' := by
    rcases hr with rfl | ⟨after, rfl⟩
    · exact nofun
    · exact fun he => absurd (Option.some.inj he) (by decide)
  induction h with
  | atom a =>
    intro rest hr
    exact dropTimesAfter_append (fun c hc => Atom.ne_of_mem_text hc (by decide)) (closed hr)
  | @negation f m hm ih =>
    intro rest hr
    rw [List.cons_append, dropTimesAfter_cons (by rw [bracketed_append]; exact nofun),
      dropTimesAfter_bracketed hm ih, dropTimesAfter_cons (closed hr)]
    rw [Formula.text, bracketed, List.cons_append, List.cons_append, List.append_assoc]
    rfl
  | @binary o f g m m' sign hsign hm hm' ihf ihg =>
    intro rest hr
    have between : SamePoly.dropTimesAfter (')' :: (sign ++ (bracketed m' ++ rest))) =
        ')' :: (o.sign ++ SamePoly.dropTimesAfter (bracketed m' ++ rest)) := by
      have opening : (bracketed m' ++ rest).head? ≠ some '*' := by
        rw [bracketed_append]
        exact nofun
      have single (c : Char) (hc : c ≠ '*') (hs : sign ∈ [[c]]) :
          SamePoly.dropTimesAfter (')' :: (sign ++ (bracketed m' ++ rest))) =
            ')' :: ([c] ++ SamePoly.dropTimesAfter (bracketed m' ++ rest)) := by
        have first : (c :: (bracketed m' ++ rest)).head? ≠ some '*' :=
          fun he => hc (Option.some.inj he)
        rw [List.mem_singleton.1 hs, List.singleton_append, dropTimesAfter_cons first,
          dropTimesAfter_cons opening]
        rfl
      cases o with
      | sum => exact single '+' (by decide) hsign
      | difference => exact single '-' (by decide) hsign
      | quotient => exact single '/' (by decide) hsign
      | product =>
        rcases List.mem_cons.1 hsign with rfl | hsign
        · exact dropTimesAfter_times (by decide) _
        · rw [List.mem_singleton.1 hsign]
          exact dropTimesAfter_cons opening
    rw [List.append_assoc, List.append_assoc, dropTimesAfter_bracketed hm ihf, between,
      dropTimesAfter_bracketed hm' ihg, dropTimesAfter_cons (closed hr)]
    simp only [Formula.text, bracketed, List.cons_append, List.append_assoc, List.nil_append]
  | @power f n m hm ih =>
    intro rest hr
    have digits (rest : List Char) (hr : rest.head? ≠ some '*') :
        SamePoly.dropTimesAfter ('(' :: (n.digits ++ rest)) =
          '(' :: (n.digits ++ SamePoly.dropTimesAfter rest) := by
      have symbols : ∀ c ∈ '(' :: n.digits, c ≠ '*' := by
        intro c hc
        rcases List.mem_cons.1 hc with rfl | hc
        · decide
        · rintro rfl
          exact absurd (n.decimal _ hc) (by decide)
      exact dropTimesAfter_append symbols hr
    rw [List.append_assoc, dropTimesAfter_bracketed hm ih, List.cons_append, bracketed_append,
      dropTimesAfter_cons (by exact fun he => absurd (Option.some.inj he) (by decide)),
      dropTimesAfter_cons (by exact fun he => absurd (Option.some.inj he) (by decide)),
      digits _ (by exact fun he => absurd (Option.some.inj he) (by decide)),
      dropTimesAfter_cons (closed hr)]
    simp only [Formula.text, bracketed, List.cons_append, List.append_assoc, List.nil_append]

/-! ## Normalized text stays as it is -/

/-- A `^` stands between a closing and an opening bracket. -/
def PowerBetweenBrackets (c d : Char) : Prop := (d = '^' → c = ')') ∧ (c = '^' → d = '(')

theorem PowerBetweenBrackets.of_ne {c d : Char} (hc : c ≠ '^') (hd : d ≠ '^') :
    PowerBetweenBrackets c d := ⟨fun he => absurd he hd, fun he => absurd he hc⟩

/-- Text without `^`. -/
theorem isChain_of_forall_ne {text : List Char} (h : ∀ c ∈ text, c ≠ '^') :
    text.IsChain PowerBetweenBrackets := by
  induction text with
  | nil => exact .nil
  | cons c text ih =>
    have tail := fun d hd => h d (List.mem_cons_of_mem _ hd)
    refine List.isChain_cons.2 ⟨fun d hd => ?_, ih tail⟩
    exact .of_ne (h c List.mem_cons_self) (tail d (List.mem_of_mem_head? hd))

theorem isChain_append_of_ne {s t : List Char} (hs : s.IsChain PowerBetweenBrackets)
    (ht : t.IsChain PowerBetweenBrackets) (hlast : ∀ c ∈ s.getLast?, c ≠ '^')
    (hhead : ∀ c ∈ t.head?, c ≠ '^') : (s ++ t).IsChain PowerBetweenBrackets :=
  List.isChain_append.2 ⟨hs, ht, fun c hc d hd => .of_ne (hlast c hc) (hhead d hd)⟩

theorem getLast?_bracketed (before s : List Char) : (before ++ bracketed s).getLast? = some ')' := by
  rw [bracketed, ← List.cons_append, ← List.append_assoc, List.getLast?_concat]

theorem isChain_bracketed {s : List Char} (hs : s.IsChain PowerBetweenBrackets)
    (hhead : ∀ c ∈ s.head?, c ≠ '^') (hlast : ∀ c ∈ s.getLast?, c ≠ '^') :
    (bracketed s).IsChain PowerBetweenBrackets := by
  have opening : ['('].IsChain PowerBetweenBrackets := List.isChain_singleton _
  refine isChain_append_of_ne opening
    (isChain_append_of_ne hs (isChain_of_forall_ne ?_) hlast ?_) ?_ ?_
  · rintro c hc
    rw [List.mem_singleton.1 hc]
    decide
  · rintro c hc
    cases hc
    decide
  · rintro c hc
    cases hc
    decide
  · rintro c hc
    cases s with
    | nil =>
      cases hc
      decide
    | cons d s => exact hhead c hc

theorem Formula.text_head_getLast (f : Formula) :
    (∀ c ∈ f.text.head?, c ≠ '^') ∧ (∀ c ∈ f.text.getLast?, c ≠ '^') := by
  have closing {text : List Char} (h : text.getLast? = some ')') : ∀ c ∈ text.getLast?, c ≠ '^' := by
    rw [h]
    rintro c hc
    cases hc
    decide
  cases f with
  | atom a =>
    have symbols : ∀ c ∈ a.text, c ≠ '^' := fun c hc => Atom.ne_of_mem_text hc (by decide)
    exact ⟨fun c hc => symbols c (List.mem_of_mem_head? hc),
      fun c hc => symbols c (List.mem_of_mem_getLast? hc)⟩
  | negation f =>
    refine ⟨?_, closing (getLast?_bracketed ['-'] f.text)⟩
    rintro c hc
    cases hc
    decide
  | binary o f g =>
    refine ⟨?_, closing (getLast?_bracketed _ g.text)⟩
    rintro c hc
    cases hc
    decide
  | power f n =>
    refine ⟨?_, closing ?_⟩
    · rintro c hc
      cases hc
      decide
    · have := getLast?_bracketed (bracketed f.text ++ ['^']) n.digits
      rwa [List.append_assoc, List.singleton_append] at this

theorem Formula.isChain_text (f : Formula) : f.text.IsChain PowerBetweenBrackets := by
  have group (f : Formula) (ih : f.text.IsChain PowerBetweenBrackets) :
      (bracketed f.text).IsChain PowerBetweenBrackets :=
    isChain_bracketed ih f.text_head_getLast.1 f.text_head_getLast.2
  have last (s : List Char) : ∀ c ∈ (bracketed s).getLast?, c = ')' := by
    intro c hc
    rw [show (bracketed s).getLast? = _ from getLast?_bracketed [] s] at hc
    cases hc
    rfl
  have head (s : List Char) : ∀ c ∈ (bracketed s).head?, c = '(' := by
    rintro c hc
    cases hc
    rfl
  induction f with
  | atom a => exact isChain_of_forall_ne fun c hc => Atom.ne_of_mem_text hc (by decide)
  | negation f ih =>
    refine List.isChain_cons.2 ⟨fun d hd => ?_, group f ih⟩
    rw [head _ d hd]
    exact .of_ne (by decide) (by decide)
  | binary o f g ihf ihg =>
    have sign : ∀ c ∈ o.sign, c ≠ '^' := by
      cases o <;> simp [Operation.sign]
    rw [Formula.text, List.append_assoc]
    refine isChain_append_of_ne (group f ihf) (isChain_append_of_ne (isChain_of_forall_ne sign)
      (group g ihg) (fun c hc => sign c (List.mem_of_mem_getLast? hc)) fun c hc => ?_)
      (fun c hc => ?_) fun c hc => ?_
    · rw [head _ c hc]
      decide
    · rw [last _ c hc]
      decide
    · cases o with
      | product => rw [head _ c hc]; decide
      | _ => cases hc; decide
  | power f n ih =>
    have digits : ∀ c ∈ n.digits, c ≠ '^' := by
      rintro c hc rfl
      exact absurd (n.decimal _ hc) (by decide)
    have exponent : (bracketed n.digits).IsChain PowerBetweenBrackets :=
      isChain_bracketed (isChain_of_forall_ne digits)
        (fun c hc => digits c (List.mem_of_mem_head? hc))
        fun c hc => digits c (List.mem_of_mem_getLast? hc)
    refine List.isChain_append.2 ⟨group f ih, List.isChain_cons.2 ⟨fun d hd => ?_, exponent⟩, ?_⟩
    · rw [head _ d hd]
      exact ⟨fun he => absurd he (by decide), fun _ => rfl⟩
    · rintro c hc d hd
      cases hd
      exact ⟨fun _ => last _ c hc, fun he => absurd ((last _ c hc).symm.trans he) (by decide)⟩

/-- What holds of the symbols of all atoms, of brackets and of signs holds of all symbols of
    normalized text. -/
theorem Formula.forall_mem_text {P : Char → Prop} (hatom : ∀ a : Atom, ∀ c ∈ a.text, P c)
    (hsign : P '(' ∧ P ')' ∧ P '+' ∧ P '-' ∧ P '/' ∧ P '^') (f : Formula) : ∀ c ∈ f.text, P c := by
  obtain ⟨hopen, hclose, hplus, hminus, hover, hpower⟩ := hsign
  have group {s : List Char} (hs : ∀ c ∈ s, P c) : ∀ c ∈ bracketed s, P c := by
    rw [bracketed, List.forall_mem_cons, List.forall_mem_append, List.forall_mem_singleton]
    exact ⟨hopen, hs, hclose⟩
  have sign (o : Operation) : ∀ c ∈ o.sign, P c := by
    cases o with
    | product => exact fun c hc => nomatch hc
    | _ => exact List.forall_mem_singleton.2 ‹_›
  induction f with
  | atom a => exact hatom a
  | negation f ih => exact List.forall_mem_cons.2 ⟨hminus, group ih⟩
  | binary o f g ihf ihg =>
    rw [Formula.text, List.forall_mem_append, List.forall_mem_append]
    exact ⟨⟨group ihf, sign o⟩, group ihg⟩
  | power f n ih =>
    rw [Formula.text, List.forall_mem_append, List.forall_mem_cons]
    exact ⟨group ih, hpower, group (hatom (.decimal n none))⟩

theorem Formula.ne_times_of_mem_text {f : Formula} {c : Char} (hc : c ∈ f.text) : c ≠ '*' :=
  f.forall_mem_text (fun _ _ hc => Atom.ne_of_mem_text hc (by decide)) (by decide) c hc

/-- The passes behind the first one leave text alone whose powers have their brackets. -/
theorem wrap_eq_self {text : List Char} (h : text.IsChain PowerBetweenBrackets)
    (hs : ∀ c ∈ text, c ≠ '*') :
    wrapExponents (wrapBases (dropTimesBefore text)) = text := by
  rw [dropTimesBefore_eq_self hs, wrapBases_eq_self, wrapExponents_eq_self]
  · refine h.imp fun c d hcd he => ?_
    rw [hcd.2 he]
    rfl
  · refine h.imp fun c d hcd he => ?_
    rw [hcd.1 he]
    rfl

/-- **Every spelling of a formula is normalized to its normalized text.** -/
theorem Formula.Spelled.normalize {f : Formula} {s : List Char} (h : f.Spelled s) :
    SamePoly.normalize s = f.text := by
  obtain ⟨m, hm, hrespell⟩ := h.exists_compact
  have respelled := hrespell [] .nil
  have dropped := hm.dropTimesAfter [] .nil
  rw [List.append_nil, respell_nil, List.append_nil] at respelled
  rw [List.append_nil, dropTimesAfter_nil, List.append_nil] at dropped
  rw [SamePoly.normalize, respelled, dropped,
    wrap_eq_self f.isChain_text fun c hc => ne_times_of_mem_text hc]

/-- So is a spelling in brackets, with spaces in front. -/
theorem Formula.Spelled.normalize_bracketed {f : Formula} {s spaces : List Char}
    (h : f.Spelled s) (hspaces : Spaces spaces) :
    SamePoly.normalize (spaces ++ bracketed s) = bracketed f.text := by
  obtain ⟨m, hm, hrespell⟩ := h.exists_compact
  have respelled := respell_bracketed hrespell []
  have dropped := dropTimesAfter_bracketed hm hm.dropTimesAfter []
  rw [List.append_nil, respell_nil, List.append_nil] at respelled
  rw [List.append_nil] at dropped
  rw [SamePoly.normalize, respell_spaces hspaces, respelled, dropped]
  refine wrap_eq_self (isChain_bracketed f.isChain_text f.text_head_getLast.1
    f.text_head_getLast.2) fun c hc => ?_
  rcases List.mem_cons.1 hc with rfl | hc
  · decide
  · rcases List.mem_append.1 hc with hc | hc
    · exact ne_times_of_mem_text hc
    · rw [List.mem_singleton.1 hc]
      decide

end SamePoly
