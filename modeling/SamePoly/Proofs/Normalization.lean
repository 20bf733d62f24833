/-
  Normalized text is sound.

  Every step of the normalization keeps track of the symbols that stand side by side: the
  spelling of operators, the multiplication signs that go, and the brackets around bases and
  exponents.

  * `Linked`: a symbol and the text behind it, with neighbours of given kinds only and with an
    operand at the end.
  * `WellFormed.linked`: well-formed text in its one spelling.
  * `Linked.respellPowers`, `Linked.dropTimesAfter`, `Linked.dropTimesBefore`,
    `Linked.wrapBases`, `Linked.wrapExponents`: the steps one by one.
  * `WellFormed.normalize_linked`: **the normalized text of a well-formed text is sound, starts
    with an operand or a sign, and ends with an operand**.
-/
import SamePoly.Normal
import SamePoly.Text.Blank
import SamePoly.Proofs.Adjacency

namespace SamePoly

/-! ## Links -/

/-- No text breaks off behind such a symbol. -/
def Kind.mayEnd : Kind → Bool
  | .digit | .letter | .closing => true
  | _ => false

/-- A symbol and the text behind it: neighbours are as `R` says, and an operand is at the end. -/
def Linked (R : Kind → Kind → Bool) : Char → List Char → Prop
  | c, [] => (kind c).mayEnd = true
  | c, d :: text => R (kind c) (kind d) = true ∧ Linked R d text

namespace Linked

variable {R S : Kind → Kind → Bool} {c d : Char} {text run rest : List Char}

theorem ne_nil (h : Linked R '(' text) : text ≠ [] := by
  rintro rfl
  cases h

theorem mono (himp : ∀ j k, R j k = true → S j k = true) (h : Linked R c text) :
    Linked S c text := by
  induction text generalizing c with
  | nil => exact h
  | cons d text ih => exact ⟨himp _ _ h.1, ih h.2⟩

theorem isChain_of {Q : Char → Char → Prop}
    (himp : ∀ c d, R (kind c) (kind d) = true → Q c d) (h : Linked R c text) :
    (c :: text).IsChain Q := by
  induction text generalizing c with
  | nil => exact List.isChain_singleton c
  | cons d text ih => exact List.isChain_cons_cons.2 ⟨himp c d h.1, ih h.2⟩

theorem isChain (h : Linked Kind.follows c text) : (c :: text).IsChain Follows :=
  h.isChain_of fun _ _ follows => follows

theorem getLast? (h : Linked R c text) : ∃ d ∈ (c :: text).getLast?, (kind d).mayEnd = true := by
  induction text generalizing c with
  | nil => exact ⟨c, rfl, h⟩
  | cons d text ih =>
    obtain ⟨e, he, hend⟩ := ih h.2
    refine ⟨e, ?_, hend⟩
    rwa [List.getLast?_cons_cons]

/-- A text that may stand behind an opening bracket. -/
theorem sound (h : Linked Kind.follows '(' text) : Sound text := by
  have known {c : Char} {text : List Char} (h : Linked Kind.follows c text) :
      ∀ d ∈ text, kind d ≠ .other := by
    induction text generalizing c with
    | nil => exact fun d hd => (nomatch hd)
    | cons d text ih =>
      rintro e he
      rcases List.mem_cons.1 he with rfl | he
      · intro hk
        have link := h.1
        rw [hk] at link
        cases hc : kind c <;> (rw [hc] at link; cases link)
      · exact ih h.2 e he
  refine ⟨known h, h.isChain.tail, fun hlast => ?_⟩
  obtain ⟨d, hd, hend⟩ := h.getLast?
  rw [← List.singleton_append, List.getLast?_append_of_ne_nil _ h.ne_nil, hlast] at hd
  cases hd
  cases hend

end Linked

/-! ## The one spelling of well-formed text -/

/-- Neighbours in text with one spelling for every separator. -/
def Kind.spelled : Kind → Kind → Bool :=
  leadsTo (fun k => k.startsOperand || k == star) fun k => k.startsOperand || k == star

/-- Neighbours once every power is spelled `^`. -/
def Kind.powered : Kind → Kind → Bool :=
  leadsTo startsOperand (fun k => k.startsOperand || k == caret || k == star)

/-- Neighbours without multiplication signs behind powers. -/
def Kind.compact : Kind → Kind → Bool :=
  leadsTo startsOperand (fun k => k.startsOperand || k == caret)

/-- The conditions of the checks on two neighbours. -/
theorem Kind.spelled_of {j k : Kind} (hj : j ≠ .other) (hk : k ≠ .other)
    (operand : j.isOperator = true → k = .star ∨ k.isOperator = false)
    (single : j.isOperator = true → j ≠ .star → k ≠ .star)
    (opening : j = .opening → k ≠ .star ∧ k ≠ .slash ∧ k ≠ .caret ∧ k ≠ .closing)
    (closing : j = .star ∨ j = .slash ∨ j = .caret → k ≠ .closing)
    (whole : k = .point → j = .digit) (fraction : j = .point → k = .digit) :
    Kind.spelled j k = true := by
  cases j <;> cases k <;> first | rfl | simp_all [isOperator]

section Respelled

variable {c : Char}

theorem kind_respellChar_digit : kind (respellChar c) = .digit ↔ c.isDigit = true := by
  unfold respellChar
  split_ifs <;> simp_all [kind_eq_digit_iff]

theorem kind_respellChar_point : kind (respellChar c) = .point ↔ isSeparator c = true := by
  unfold respellChar
  split_ifs <;> simp_all [kind_eq_point_iff, isSeparator]

theorem kind_respellChar_opening : kind (respellChar c) = .opening ↔ c = '(' := by
  unfold respellChar
  split_ifs <;> simp_all [kind_eq_opening_iff]

theorem kind_respellChar_closing : kind (respellChar c) = .closing ↔ c = ')' := by
  unfold respellChar
  split_ifs <;> simp_all [kind_eq_closing_iff]

theorem kind_respellChar_sign : kind (respellChar c) = .sign ↔ c = '+' ∨ c = '-' := by
  unfold respellChar
  split_ifs <;> simp_all [kind_eq_sign_iff]

theorem kind_respellChar_star : kind (respellChar c) = .star ↔ c = '*' := by
  unfold respellChar
  split_ifs <;> simp_all [kind_eq_star_iff]

theorem kind_respellChar_slash : kind (respellChar c) = .slash ↔ c = '/' ∨ c = ':' := by
  unfold respellChar
  split_ifs <;> simp_all [kind_eq_slash_iff]

theorem kind_respellChar_caret : kind (respellChar c) = .caret ↔ c = '^' := by
  unfold respellChar
  split_ifs <;> simp_all [kind_eq_caret_iff]

theorem kind_respellChar_letter : kind (respellChar c) = .letter ↔ c.isLower = true := by
  unfold respellChar
  split_ifs <;> simp_all [kind_eq_letter_iff]

theorem isOperator_respellChar :
    (kind (respellChar c)).isOperator = true ↔ isOperator c = true := by
  have operator (k : Kind) :
      k.isOperator = true ↔ k = .sign ∨ k = .star ∨ k = .slash ∨ k = .caret := by
    cases k <;> decide
  rw [operator, kind_respellChar_sign, kind_respellChar_star, kind_respellChar_slash,
    kind_respellChar_caret, isOperator]
  simp only [Bool.or_eq_true, beq_iff_eq]
  tauto

theorem isBinary_respellChar : kind (respellChar c) = .star ∨ kind (respellChar c) = .slash ∨
    kind (respellChar c) = .caret ↔ isBinary c = true := by
  rw [kind_respellChar_star, kind_respellChar_slash, kind_respellChar_caret, isBinary]
  simp only [Bool.or_eq_true, beq_iff_eq]
  tauto

/-- Every symbol of an expression but the space has a kind. -/
theorem kind_respellChar_ne_other (hc : isExpected c = true) (hs : c ≠ ' ') :
    kind (respellChar c) ≠ .other := by
  intro hk
  have operator := isOperator_respellChar (c := c)
  rcases isExpected_cases hc with h | h | h | h | rfl | rfl | rfl
  · rw [← kind_respellChar_letter, hk] at h
    cases h
  · rw [← kind_respellChar_digit, hk] at h
    cases h
  · rw [← isOperator_respellChar, hk] at h
    cases h
  · rw [← kind_respellChar_point, hk] at h
    cases h
  · cases hk
  · cases hk
  · exact hs rfl

end Respelled

/-- A text without spaces, with one spelling for every separator and operator of one symbol. -/
def respelled (text : List Char) : List Char := (text.filter (· != ' ')).map respellChar

theorem respelled_space (text : List Char) : respelled (' ' :: text) = respelled text := rfl

theorem respelled_cons {c : Char} (hc : c ≠ ' ') (text : List Char) :
    respelled (c :: text) = respellChar c :: respelled text := by
  rw [respelled, List.filter_cons, if_pos (by simpa using hc)]
  rfl

/-- The conditions of all checks on a symbol and what is ahead of it. -/
structure FitsAhead (c : Char) (rest : List Char) : Prop where
  links : ∀ d, ahead rest = some d →
    Kind.spelled (kind (respellChar c)) (kind (respellChar d)) = true
  ends : ahead rest = none → (kind (respellChar c)).mayEnd = true

theorem FitsAhead.of_fits {c : Char} {rest : List Char} (hc : isExpected c = true) (hs : c ≠ ' ')
    (expected : ∀ d ∈ rest, isExpected d = true) (operator : OperatorFits c rest)
    (separator : SeparatorFits c rest) (opened : c = '(' → ahead rest ≠ none) :
    FitsAhead c rest := by
  constructor
  · intro d hd
    obtain ⟨hmem, hspace⟩ := mem_of_ahead hd
    refine Kind.spelled_of (kind_respellChar_ne_other hc hs)
      (kind_respellChar_ne_other (expected d hmem) hspace) ?_ ?_ ?_ ?_ ?_ ?_
    · intro h
      obtain ⟨d', hd', hbut⟩ := operator.operand (isOperator_respellChar.1 h)
      rw [hd] at hd'
      cases hd'
      rw [isOperatorButTimes, Bool.and_eq_false_iff, bne_eq_false_iff_eq] at hbut
      rw [kind_respellChar_star, ← Bool.not_eq_true, isOperator_respellChar, Bool.not_eq_true]
      exact hbut.symm
    · intro h hstar hd'
      rw [kind_respellChar_star] at hd'
      rw [Ne, kind_respellChar_star] at hstar
      refine operator.single ?_ (hd.trans (congrArg some hd'))
      rw [isOperatorButTimes, Bool.and_eq_true, bne_iff_ne]
      exact ⟨isOperator_respellChar.1 h, hstar⟩
    · intro h
      obtain ⟨binary, closing⟩ := operator.opening (kind_respellChar_opening.1 h) d hd
      rw [← Bool.not_eq_true, ← isBinary_respellChar, not_or, not_or] at binary
      exact ⟨binary.1, binary.2.1, binary.2.2, fun hk => closing (kind_respellChar_closing.1 hk)⟩
    · intro h hk
      exact operator.closing (isBinary_respellChar.1 h)
        (hd.trans (congrArg some (kind_respellChar_closing.1 hk)))
    · intro h
      rw [kind_respellChar_point] at h
      rw [kind_respellChar_digit]
      by_contra hdigit
      have := separator.whole (Bool.eq_false_iff.2 hdigit) d hd
      rw [h] at this
      cases this
    · intro h
      obtain ⟨e, r, rfl, digit⟩ := separator.fraction (kind_respellChar_point.1 h)
      have he : e ≠ ' ' := by
        rintro rfl
        cases digit
      rw [ahead_cons he] at hd
      cases hd
      exact kind_respellChar_digit.2 digit
  · intro hnone
    have noOperator : (kind (respellChar c)).isOperator = false := by
      rw [← Bool.not_eq_true, isOperator_respellChar]
      intro h
      obtain ⟨d, hd, -⟩ := operator.operand h
      rw [hnone] at hd
      cases hd
    have noPoint : kind (respellChar c) ≠ .point := by
      rw [Ne, kind_respellChar_point]
      intro h
      obtain ⟨e, r, rfl, digit⟩ := separator.fraction h
      have he : e ≠ ' ' := by
        rintro rfl
        cases digit
      rw [ahead_cons he] at hnone
      cases hnone
    have noOpening : kind (respellChar c) ≠ .opening := by
      rw [Ne, kind_respellChar_opening]
      exact fun h => opened h hnone
    have known := kind_respellChar_ne_other hc hs
    cases h : kind (respellChar c) with
    | digit => rfl
    | letter => rfl
    | closing => rfl
    | point => exact absurd h noPoint
    | opening => exact absurd h noOpening
    | other => exact absurd h known
    | _ =>
      rw [h] at noOperator
      cases noOperator

/-- A symbol and the text behind it, both of which fit. -/
theorem linked_respelled {c : Char} {text : List Char} (first : FitsAhead c text)
    (fits : Everywhere (fun d rest => d ≠ ' ' → FitsAhead d rest) text) :
    Linked Kind.spelled (respellChar c) (respelled text) := by
  induction text generalizing c with
  | nil => exact first.ends rfl
  | cons d text ih =>
    by_cases hd : d = ' '
    · subst hd
      exact ih ⟨first.links, first.ends⟩ fits.2
    · rw [respelled_cons hd]
      exact ⟨first.links d (ahead_cons hd text), ih (fits.1 hd) fits.2⟩

/-- Something stands behind every opening bracket. -/
theorem Balanced.everywhere_opened {text rest : List Char} (h : Balanced text)
    (hr : Everywhere (fun c rest => c = '(' → ahead rest ≠ none) rest) :
    Everywhere (fun c rest => c = '(' → ahead rest ≠ none) (text ++ rest) := by
  induction h generalizing rest with
  | nil => exact hr
  | symbol hopen _ _ ih => exact ⟨fun h => absurd h hopen, ih hr⟩
  | @group inside tail _ _ ihInside ih =>
    have closes : ')' ∈ inside ++ ')' :: (tail ++ rest) := by simp
    rw [List.cons_append, List.append_assoc, List.cons_append]
    refine ⟨fun _ hnone => ?_, ihInside ⟨nofun, ih hr⟩⟩
    obtain ⟨d, hd⟩ := exists_ahead closes (by decide)
    rw [hnone] at hd
    cases hd

theorem everywhere_and {P Q : Char → List Char → Prop} {text : List Char} :
    Everywhere (fun c rest => P c rest ∧ Q c rest) text ↔ Everywhere P text ∧ Everywhere Q text := by
  induction text with
  | nil => exact ⟨fun _ => ⟨trivial, trivial⟩, fun _ => trivial⟩
  | cons c text ih =>
    rw [Everywhere, Everywhere, Everywhere, ih]
    tauto

theorem everywhere_of_forall {P : Char → Prop} {text : List Char} (h : ∀ c ∈ text, P c) :
    Everywhere (fun c rest => P c ∧ ∀ d ∈ rest, P d) text := by
  induction text with
  | nil => trivial
  | cons c text ih =>
    obtain ⟨hc, htext⟩ := List.forall_mem_cons.1 h
    exact ⟨⟨hc, htext⟩, ih htext⟩

/-- No balanced text starts with a closing bracket. -/
theorem Balanced.ahead_ne {text : List Char} (h : Balanced text) : ahead text ≠ some ')' := by
  induction h with
  | nil => nofun
  | @symbol c rest _ hclose _ ih =>
    by_cases hc : c = ' '
    · rw [hc, ahead_space]
      exact ih
    · rw [ahead_cons hc]
      exact fun h => hclose (Option.some.inj h)
  | group _ _ _ _ =>
    rw [ahead_cons (by decide)]
    exact nofun

/-- **Well-formed text in its one spelling has no neighbours but those that the checks let
    pass.** -/
theorem WellFormed.linked {text : List Char} (h : WellFormed text)
    (nonblank : isBlankText text = false) : Linked Kind.spelled '(' (respelled text) := by
  have start : FitsAhead '(' text := by
    constructor
    · intro d hd
      obtain ⟨hmem, hspace⟩ := mem_of_ahead hd
      obtain ⟨separator, binary⟩ := h.start d hd
      rw [← Bool.not_eq_true, ← isBinary_respellChar, not_or, not_or] at binary
      rw [← Bool.not_eq_true, ← kind_respellChar_point] at separator
      have closing : kind (respellChar d) ≠ .closing := fun hk =>
        h.balanced.ahead_ne (hd.trans (congrArg some (kind_respellChar_closing.1 hk)))
      have known := kind_respellChar_ne_other (h.expected d hmem) hspace
      exact Kind.spelled_of nofun known nofun nofun
        (fun _ => ⟨binary.1, binary.2.1, binary.2.2, closing⟩) (by rintro (h | h | h) <;> cases h)
        (fun hk => absurd hk separator) nofun
    · intro hnone
      have spaces : ∀ c ∈ text, c = ' ' := by
        intro c hc
        by_contra hne
        obtain ⟨d, hd⟩ := exists_ahead hc hne
        rw [hnone] at hd
        cases hd
      have blank : isBlankText text = true :=
        List.all_eq_true.2 fun c hc => by rw [spaces c hc]; decide
      rw [nonblank] at blank
      cases blank
  have opened : Everywhere (fun c rest => c = '(' → ahead rest ≠ none) (text ++ []) :=
    h.balanced.everywhere_opened trivial
  rw [List.append_nil] at opened
  have fits := everywhere_and.2 ⟨everywhere_of_forall h.expected, everywhere_and.2
    ⟨h.operators, everywhere_and.2 ⟨h.separators, opened⟩⟩⟩
  exact linked_respelled start (fits.imp fun c rest hfits hs =>
    .of_fits hfits.1.1 hs hfits.1.2 hfits.2.1 hfits.2.2.1 hfits.2.2.2)

/-! ## Powers -/

theorem respellChar_eq_star {c : Char} : respellChar c = '*' ↔ c = '*' := by
  unfold respellChar
  split_ifs <;> simp_all

theorem respellPowers_map (text : List Char) :
    (respellPowers text).map respellChar = respellPowers (text.map respellChar) := by
  fun_induction respellPowers text with
  | case1 rest ih =>
    show respellChar '^' :: _ = respellPowers (respellChar '*' :: respellChar '*' :: _)
    rw [ih]
    rfl
  | case2 c rest hstars ih =>
    have stars : ∀ tail, respellChar c :: rest.map respellChar ≠ '*' :: '*' :: tail := by
      intro tail h
      obtain ⟨hc, hrest⟩ := List.cons.inj h
      cases rest with
      | nil => cases hrest
      | cons d rest =>
        obtain ⟨hd, -⟩ := List.cons.inj hrest
        exact hstars rest (respellChar_eq_star.1 hc) (by rw [respellChar_eq_star.1 hd])
    rw [List.map_cons, ih, List.map_cons]
    symm
    rw [respellPowers.eq_def]
    split
    · rename_i heq
      exact absurd heq (stars _)
    · rename_i heq
      cases heq
      rfl
    · rename_i heq
      cases heq
  | case3 => rfl

/-- `^` in place of `**`. -/
theorem Linked.respellPowers {c : Char} {text : List Char}
    (hc : c = '*' → text.head? ≠ some '*') (h : Linked Kind.spelled c text) :
    Linked Kind.powered c (SamePoly.respellPowers text) := by
  fun_induction SamePoly.respellPowers text generalizing c with
  | case1 rest ih =>
    have before : kind c ≠ .star := fun hk => hc (kind_eq_star_iff.1 hk) rfl
    have link (j : Kind) (hj : j ≠ .star) (h : j.spelled .star = true) :
        j.powered .caret = true := by
      revert hj h
      cases j <;> decide
    have behind : Linked Kind.spelled '^' rest := by
      cases rest with
      | nil => exact h.2.2
      | cons d rest => exact h.2.2
    exact ⟨link _ before h.1, ih nofun behind⟩
  | case2 d rest hstars ih =>
    have link (j k : Kind) (hj : j = .star → k ≠ .star) (h : j.spelled k = true) :
        j.powered k = true := by
      cases j <;> cases k <;> first | rfl | exact absurd h (by decide) | exact (hj rfl rfl).elim
    refine ⟨link _ _ ?_ h.1, ih ?_ h.2⟩
    · intro hk hd
      exact hc (kind_eq_star_iff.1 hk) (congrArg some (kind_eq_star_iff.1 hd))
    · rintro rfl hd
      cases rest with
      | nil => cases hd
      | cons e rest =>
        cases hd
        exact hstars rest rfl rfl
  | case3 => exact h

/-! ## Multiplication signs -/

/-- Multiplication signs go behind everything but digits. -/
theorem Linked.dropTimesAfter {c : Char} {text : List Char} (hc : c = '^' → text.head? ≠ some '*')
    (h : Linked Kind.powered c text) : Linked Kind.compact c (SamePoly.dropTimesAfter text) := by
  have link (j k : Kind) (hj : j = .caret → k ≠ .star) (h : j.powered k = true) :
      j.compact k = true := by
    cases j <;> cases k <;> first | rfl | exact absurd h (by decide) | exact (hj rfl rfl).elim
  fun_induction SamePoly.dropTimesAfter text generalizing c with
  | case1 d rest digit ih =>
    have hd : kind d = .digit := kind_eq_digit_iff.2 digit
    refine ⟨link _ _ (fun _ hstar => ?_) h.1, ih ?_ h.2⟩
    · rw [hd] at hstar
      cases hstar
    · rintro rfl
      cases digit
  | case2 d rest digit ih =>
    obtain ⟨first, second, third⟩ := h
    have before (hk : kind c = .caret) : kind d ≠ .star :=
      fun hstar => hc (kind_eq_caret_iff.1 hk) (congrArg some (kind_eq_star_iff.1 hstar))
    refine ⟨link _ _ before first, ih ?_ ?_⟩
    · rintro - hstar
      cases rest with
      | nil => cases third
      | cons e rest =>
        cases hstar
        cases third.1
    · cases rest with
      | nil => cases third
      | cons e rest =>
        have behind (j k : Kind) (hstar : j.powered .star = true)
            (h : Kind.star.powered k = true) : j.powered k = true := by
          cases j <;> cases k <;>
            first
              | rfl
              | exact absurd hstar (by decide)
              | exact absurd h (by decide)
        exact ⟨behind _ _ second third.1, third.2⟩
  | case3 d rest hstar ih =>
    refine ⟨link _ _ (fun hk hd => ?_) h.1, ih (fun _ hd => ?_) h.2⟩
    · exact hc (kind_eq_caret_iff.1 hk) (congrArg some (kind_eq_star_iff.1 hd))
    · cases rest with
      | nil => cases hd
      | cons e rest =>
        cases hd
        exact hstar rest rfl
  | case4 => exact h

/-- Multiplication signs go in front of everything but digits. -/
theorem Linked.dropTimesBefore {c : Char} {text : List Char} (h : Linked Kind.compact c text) :
    Linked Kind.compact c (SamePoly.dropTimesBefore text) := by
  fun_induction SamePoly.dropTimesBefore text generalizing c with
  | case1 d rest digit ih => exact ⟨h.1, ih h.2⟩
  | case2 d rest digit ih =>
    have across (j k : Kind) (hstar : j.compact .star = true) (h : Kind.star.compact k = true) :
        j.compact k = true := by
      cases j <;> cases k <;>
        first
          | rfl
          | exact absurd hstar (by decide)
          | exact absurd h (by decide)
    exact ⟨across _ _ h.1 h.2.1, ih h.2.2⟩
  | case3 d rest hstar ih => exact ⟨h.1, ih h.2⟩
  | case4 => exact h

/-! ## Brackets around bases and exponents -/

section Wrapping

variable {c d : Char} {text run rest : List Char}

/-- Behind a point stands a digit. -/
theorem Linked.kind_head_of_point {b : Kind → Kind → Bool}
    (hb : ∀ k, b .point k = true → k = .digit) (h : Linked b c text) (hc : kind c = .point) :
    ∃ d ∈ text.head?, kind d = .digit := by
  cases text with
  | nil =>
    rw [Linked, hc] at h
    cases h
  | cons d text => exact ⟨d, rfl, hb _ (hc ▸ h.1)⟩

/-- A literal is linked through to its last digit, and whatever may stand behind that digit may
    stand behind the literal. -/
theorem Linked.literal_run {b : Kind → Kind → Bool} (hb : ∀ k, b .point k = true → k = .digit)
    (himp : ∀ j k, b j k = true → k ≠ .caret → j.follows k = true)
    (hd : isLiteral d = true) (hrun : ∀ e ∈ run, isLiteral e = true)
    (hrest : ∀ e ∈ rest.head?, isLiteral e = false) (h : Linked b d (run ++ rest)) :
    ∃ last, kind last = .digit ∧ Linked b last rest ∧
      ∀ tail, Linked Kind.follows last tail → Linked Kind.follows d (run ++ tail) := by
  induction run generalizing d with
  | nil =>
    refine ⟨d, ?_, h, fun tail htail => htail⟩
    rcases isLiteral_iff.1 hd with hk | hk
    · exact hk
    · obtain ⟨e, he, digit⟩ := h.kind_head_of_point hb hk
      have literal := hrest e he
      rw [isLiteral_iff.2 (.inl digit)] at literal
      cases literal
  | cons e run ih =>
    have he := hrun e List.mem_cons_self
    obtain ⟨last, hlast, hlinked, hcontinue⟩ :=
      ih he (fun f hf => hrun f (List.mem_cons_of_mem _ hf)) h.2
    refine ⟨last, hlast, hlinked, fun tail htail => ⟨himp _ _ h.1 fun hk => ?_, hcontinue tail htail⟩⟩
    rcases isLiteral_iff.1 he with hk' | hk' <;> (rw [hk'] at hk; cases hk)

theorem Kind.follows_of_compact {j k : Kind} (h : j.compact k = true)
    (hbase : j = .digit ∨ j = .letter → k ≠ .caret) : j.follows k = true := by
  revert h hbase
  cases j <;> cases k <;> decide

theorem Kind.digit_of_compact_point (k : Kind) (h : Kind.point.compact k = true) : k = .digit := by
  revert h
  cases k <;> decide

theorem Kind.digit_of_follows_point (k : Kind) (h : Kind.point.follows k = true) : k = .digit := by
  revert h
  cases k <;> decide

/-- An operand may stand in brackets. -/
theorem Kind.follows_opening {j k : Kind} (h : j.follows k = true) (hj : j ≠ .point)
    (hk : k.startsOperand = true) : j.follows .opening = true := by
  revert h hj hk
  cases j <;> cases k <;> decide

/-- Behind a whole literal no point is open. -/
theorem Linked.kind_ne_point {b : Kind → Kind → Bool} (hb : ∀ k, b .point k = true → k = .digit)
    (hliteral : isLiteral c = true → ∀ d ∈ text.head?, isLiteral d = false) (h : Linked b c text) :
    kind c ≠ .point := by
  intro hk
  obtain ⟨d, hd, digit⟩ := h.kind_head_of_point hb hk
  have literal := hliteral (isLiteral_iff.2 (.inr hk)) d hd
  rw [isLiteral_iff.2 (.inl digit)] at literal
  cases literal

/-- The first symbol of a whole literal is a digit. -/
theorem kind_of_follows_literal (hliteral : isLiteral c = true → isLiteral d = false)
    (hd : isLiteral d = true) (h : (kind c).follows (kind d) = true) : kind d = .digit := by
  rcases isLiteral_iff.1 hd with hk | hk
  · exact hk
  · rw [hk] at h
    have digit (j : Kind) (h : j.follows .point = true) : j = .digit := by
      revert h
      cases j <;> decide
    have literal := hliteral (isLiteral_iff.2 (.inl (digit _ h)))
    rw [hd] at literal
    cases literal

/-- Brackets go around the literals and letters in front of a `^`. -/
theorem Linked.wrapBases (hliteral : isLiteral c = true → ∀ d ∈ text.head?, isLiteral d = false)
    (hbase : kind c = .digit ∨ kind c = .letter → text.head? ≠ some '^')
    (h : Linked Kind.compact c text) : Linked Kind.follows c (SamePoly.wrapBases text) := by
  fun_induction SamePoly.wrapBases text generalizing c with
  | case1 => exact h
  | case2 d rest hd _ _ after hafter =>
    rename_i ih
    have first : (kind c).follows (kind d) = true :=
      Kind.follows_of_compact h.1 fun hc hk => hbase hc (congrArg some (kind_eq_caret_iff.1 hk))
    have digit : kind d = .digit := kind_of_follows_literal (fun hc => hliteral hc d rfl) hd first
    have split := List.takeWhile_append_dropWhile (p := isLiteral) (l := rest)
    have linked : Linked Kind.compact d (rest.takeWhile isLiteral ++ rest.dropWhile isLiteral) :=
      split.symm ▸ h.2
    obtain ⟨last, hlast, behind, through⟩ := linked.literal_run Kind.digit_of_compact_point
      (fun _ _ hb hk => Kind.follows_of_compact hb fun _ => hk) hd
      (fun e he => List.mem_takeWhile_imp he) (head?_dropWhile_isLiteral rest)
    rw [hafter] at behind
    have closed : Linked Kind.follows last (')' :: '^' :: SamePoly.wrapBases after) :=
      ⟨by rw [hlast]; rfl, rfl, ih (fun h => absurd h (by decide)) (by rintro (h | h) <;> cases h)
        behind.2⟩
    refine ⟨Kind.follows_opening first (h.kind_ne_point Kind.digit_of_compact_point hliteral) ?_, ?_,
      through _ closed⟩
    · rw [digit]
      rfl
    · rw [digit]
      rfl
  | case3 d rest hd _ _ hafter =>
    rename_i ih
    have first : (kind c).follows (kind d) = true :=
      Kind.follows_of_compact h.1 fun hc hk => hbase hc (congrArg some (kind_eq_caret_iff.1 hk))
    have split := List.takeWhile_append_dropWhile (p := isLiteral) (l := rest)
    have linked : Linked Kind.compact d (rest.takeWhile isLiteral ++ rest.dropWhile isLiteral) :=
      split.symm ▸ h.2
    obtain ⟨last, hlast, behind, through⟩ := linked.literal_run Kind.digit_of_compact_point
      (fun _ _ hb hk => Kind.follows_of_compact hb fun _ => hk) hd
      (fun e he => List.mem_takeWhile_imp he) (head?_dropWhile_isLiteral rest)
    refine ⟨first, through _ (ih (fun _ => head?_dropWhile_isLiteral rest) (fun _ hcaret => ?_)
      behind)⟩
    obtain ⟨after, hrest⟩ := List.head?_eq_some_iff.1 hcaret
    exact hafter after hrest
  | case4 d hd after letter ih =>
    have hk : kind d = .letter := kind_eq_letter_iff.2 letter
    have first : (kind c).follows (kind d) = true :=
      Kind.follows_of_compact h.1 fun _ hcaret => by rw [hk] at hcaret; cases hcaret
    have inner : Linked Kind.follows d (')' :: '^' :: SamePoly.wrapBases after) :=
      ⟨by rw [hk]; rfl, rfl, ih (fun h => absurd h (by decide)) (by rintro (h | h) <;> cases h)
        h.2.2⟩
    refine ⟨Kind.follows_opening first (h.kind_ne_point Kind.digit_of_compact_point hliteral) ?_, ?_,
      inner⟩
    · rw [hk]
      rfl
    · rw [hk]
      rfl
  | case5 d hd after letter ih =>
    refine ⟨Kind.follows_of_compact h.1 fun hc hk =>
      hbase hc (congrArg some (kind_eq_caret_iff.1 hk)), ih (fun h => absurd h hd) ?_ h.2⟩
    rintro (hk | hk)
    · exact absurd (isLiteral_iff.2 (.inl hk)) hd
    · exact absurd (kind_eq_letter_iff.1 hk) letter
  | case6 d hd rest hcaret ih =>
    refine ⟨Kind.follows_of_compact h.1 fun hc hk =>
      hbase hc (congrArg some (kind_eq_caret_iff.1 hk)), ih (fun h => absurd h hd) ?_ h.2⟩
    intro _ hhead
    obtain ⟨after, hrest⟩ := List.head?_eq_some_iff.1 hhead
    exact hcaret after hrest

/-- What stands behind a whole operand may stand behind its closing bracket. -/
theorem Linked.closing (hc : kind c = .letter ∨ kind c = .digit)
    (hwhole : isLiteral c = true → ∀ d ∈ text.head?, isLiteral d = false)
    (h : Linked Kind.follows c text) : Linked Kind.follows ')' text := by
  cases text with
  | nil => rfl
  | cons d text =>
    have link (j k : Kind) (hj : j = .letter ∨ j = .digit ∧ k ≠ .point) (h : j.follows k = true) :
        Kind.closing.follows k = true := by
      rcases hj with rfl | ⟨rfl, hk⟩
      · revert h; cases k <;> decide
      · revert h hk; cases k <;> decide
    refine ⟨link _ _ (hc.imp_right fun hk => ⟨hk, fun hpoint => ?_⟩) h.1, h.2⟩
    have literal := hwhole (isLiteral_iff.2 (.inl hk)) d rfl
    rw [isLiteral_iff.2 (.inr hpoint)] at literal
    cases literal

/-- Brackets go around the literals and letters behind a `^`. -/
theorem Linked.wrapExponents (h : Linked Kind.follows c text) :
    Linked Kind.follows c (SamePoly.wrapExponents text) := by
  fun_induction SamePoly.wrapExponents text generalizing c with
  | case1 d rest hd _ ih =>
    have split := List.takeWhile_append_dropWhile (p := isLiteral) (l := rest)
    have linked : Linked Kind.follows d (rest.takeWhile isLiteral ++ rest.dropWhile isLiteral) :=
      split.symm ▸ h.2.2
    obtain ⟨last, hlast, behind, through⟩ := linked.literal_run Kind.digit_of_follows_point
      (fun _ _ hb _ => hb) hd (fun e he => List.mem_takeWhile_imp he) (head?_dropWhile_isLiteral rest)
    have digit : kind d = .digit :=
      kind_of_follows_literal (fun hc => absurd hc (by decide)) hd h.2.1
    have closed : Linked Kind.follows last (')' :: SamePoly.wrapExponents (rest.dropWhile isLiteral)) :=
      ⟨by rw [hlast]; rfl, ih (behind.closing (.inr hlast) fun _ => head?_dropWhile_isLiteral rest)⟩
    refine ⟨h.1, rfl, ?_, through _ closed⟩
    rw [digit]
    rfl
  | case2 d rest hd letter ih =>
    have hk : kind d = .letter := kind_eq_letter_iff.2 letter
    exact ⟨h.1, rfl, by rw [hk]; rfl, by rw [hk]; rfl,
      ih (h.2.2.closing (.inl hk) fun hd' => absurd hd' hd)⟩
  | case3 d rest hd letter ih => exact ⟨h.1, ih h.2⟩
  | case4 d rest hcaret ih => exact ⟨h.1, ih h.2⟩
  | case5 => exact h

/-- **The normalized text of a well-formed text is sound, starts with an operand or a sign, and
    ends with an operand.** -/
theorem WellFormed.normalize_linked (h : WellFormed text) (nonblank : isBlankText text = false) :
    Linked Kind.follows '(' (normalize text) := by
  have powered := (h.linked nonblank).respellPowers (fun h => absurd h (by decide))
  have compact := (powered.dropTimesAfter (fun h => absurd h (by decide))).dropTimesBefore
  rw [normalize, respell, respellPowers_map]
  exact (compact.wrapBases (fun h => absurd h (by decide)) (by rintro (h | h) <;> cases h)).wrapExponents

end Wrapping

end SamePoly
