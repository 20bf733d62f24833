/-
  Well-formed text, place by place.

  The checks of a text look for pieces that are out of place.  Finding none is a condition on
  each symbol and what follows it.

  * `ahead`: the next symbol that is no space.
  * `Everywhere`: a condition on each symbol of a text and the text behind it.
  * `OperatorFits`, `SeparatorFits`: the conditions on operators, brackets and separators.
  * `WellFormed`, `malformed?_eq_none_iff`: the checks find nothing exactly in text that is
    well formed.
-/
import SamePoly.Malformed
import SamePoly.Proofs.Balance
import SamePoly.Proofs.Scan

namespace SamePoly

/-! ## Conditions on every place -/

/-- The part of a text that a test passes over. -/
theorem exists_run_of_head?_dropWhile {p : Char → Bool} {c : Char} {text : List Char}
    (h : (text.dropWhile p).head? = some c) :
    ∃ run rest, text = run ++ c :: rest ∧ ∀ d ∈ run, p d = true := by
  obtain ⟨rest, hrest⟩ := List.head?_eq_some_iff.1 h
  refine ⟨text.takeWhile p, rest, ?_, fun d hd => List.mem_takeWhile_imp hd⟩
  rw [← hrest, List.takeWhile_append_dropWhile]

/-- The next symbol that is no space. -/
def ahead (text : List Char) : Option Char := (text.dropWhile (· == ' ')).head?

theorem ahead_cons {c : Char} (hc : c ≠ ' ') (rest : List Char) : ahead (c :: rest) = some c := by
  rw [ahead, List.dropWhile_cons, if_neg (by simpa using hc)]
  rfl

theorem ahead_space (rest : List Char) : ahead (' ' :: rest) = ahead rest := rfl

/-- What is ahead is a symbol of the text. -/
theorem mem_of_ahead {c : Char} {text : List Char} (h : ahead text = some c) :
    c ∈ text ∧ c ≠ ' ' := by
  induction text with
  | nil => cases h
  | cons d text ih =>
    by_cases hd : d = ' '
    · rw [hd, ahead_space] at h
      exact ⟨List.mem_cons_of_mem _ (ih h).1, (ih h).2⟩
    · rw [ahead_cons hd] at h
      cases h
      exact ⟨List.mem_cons_self, hd⟩

/-- Something is ahead in front of every symbol that is no space. -/
theorem exists_ahead {c : Char} {text : List Char} (hmem : c ∈ text) (hc : c ≠ ' ') :
    ∃ d, ahead text = some d := by
  induction text with
  | nil => cases hmem
  | cons d text ih =>
    by_cases hd : d = ' '
    · subst hd
      exact ih ((List.mem_cons.1 hmem).resolve_left hc)
    · exact ⟨d, ahead_cons hd text⟩

/-- A condition on each symbol of a text and the text behind it. -/
def Everywhere (P : Char → List Char → Prop) : List Char → Prop
  | [] => True
  | c :: rest => P c rest ∧ Everywhere P rest

instance Everywhere.decidable {P : Char → List Char → Prop} [∀ c rest, Decidable (P c rest)] :
    DecidablePred (Everywhere P)
  | [] => isTrue trivial
  | c :: rest =>
    have : Decidable (Everywhere P rest) := Everywhere.decidable rest
    inferInstanceAs (Decidable (P c rest ∧ Everywhere P rest))

theorem Everywhere.right {P : Char → List Char → Prop} {before rest : List Char}
    (h : Everywhere P (before ++ rest)) : Everywhere P rest := by
  induction before with
  | nil => exact h
  | cons d before ih => exact ih h.2

theorem Everywhere.of_append {P : Char → List Char → Prop} {before rest : List Char} {c : Char}
    (h : Everywhere P (before ++ c :: rest)) : P c rest := h.right.1

/-- A condition holds everywhere if it holds wherever the text is divided. -/
theorem everywhere_iff_append {P : Char → List Char → Prop} {text : List Char} :
    Everywhere P text ↔ ∀ before c rest, text = before ++ c :: rest → P c rest := by
  constructor
  · rintro h before c rest rfl
    exact h.of_append
  · intro h
    induction text with
    | nil => trivial
    | cons c text ih =>
      exact ⟨h [] c text rfl, ih fun before d rest same => h (c :: before) d rest (by rw [same]; rfl)⟩

theorem Everywhere.imp {P Q : Char → List Char → Prop} (himp : ∀ c rest, P c rest → Q c rest)
    {text : List Char} (h : Everywhere P text) : Everywhere Q text := by
  induction text with
  | nil => trivial
  | cons c text ih => exact ⟨himp c text h.1, ih h.2⟩

theorem everywhere_iff {P Q : Char → List Char → Prop} (hiff : ∀ c rest, P c rest ↔ Q c rest)
    (text : List Char) : Everywhere P text ↔ Everywhere Q text :=
  ⟨.imp fun c rest => (hiff c rest).1, .imp fun c rest => (hiff c rest).2⟩

theorem fragmentsFrom_eq_nil_iff (recognise : Recogniser) (position : ℕ) (text : List Char) :
    fragmentsFrom recognise (position + 1) 0 text = [] ↔
      Everywhere (fun c rest => recognise false (c :: rest) = none) text := by
  induction text generalizing position with
  | nil => exact ⟨fun _ => trivial, fun _ => rfl⟩
  | cons c text ih =>
    rw [fragmentsFrom, Everywhere, ← ih (position + 1), show (position + 1 == 0) = false from rfl]
    cases recognise false (c :: text) with
    | none => exact ⟨fun h => ⟨rfl, h⟩, fun h => h.2⟩
    | some length => exact ⟨nofun, fun h => nomatch h.1⟩

/-- No piece is found exactly when the recogniser accepts nowhere. -/
theorem fragments_eq_nil_iff (recognise : Recogniser) (c : Char) (text : List Char) :
    fragments recognise (c :: text) = [] ↔
      recognise true (c :: text) = none ∧
        Everywhere (fun c rest => recognise false (c :: rest) = none) text := by
  rw [fragments, fragmentsFrom, ← fragmentsFrom_eq_nil_iff recognise 0,
    show (0 == 0) = true from rfl]
  cases recognise true (c :: text) with
  | none => exact ⟨fun h => ⟨rfl, h⟩, fun h => h.2⟩
  | some length => exact ⟨nofun, fun h => nomatch h.1⟩

/-! ## Operators -/

/-- An operator has an operand behind it, and a bracket opens an expression. -/
structure OperatorFits (c : Char) (rest : List Char) : Prop where
  operand : isOperator c = true → ∃ d, ahead rest = some d ∧ isOperatorButTimes d = false
  single : isOperatorButTimes c = true → ahead rest ≠ some '*'
  stars : c = '*' → ∀ r, rest.dropWhile (· == ' ') ≠ '*' :: '*' :: r
  power : c = '*' → ∀ r, rest = '*' :: r → ∀ d, ahead r = some d → isOperator d = false
  opening : c = '(' → ∀ d, ahead rest = some d → isBinary d = false ∧ d ≠ ')'
  closing : isBinary c = true → ahead rest ≠ some ')'

theorem twoSymbols?_eq_none_iff {first second : Char → Bool} {c : Char} {rest : List Char} :
    twoSymbols? first second (c :: rest) = none ↔
      (first c = true → ∀ d, ahead rest = some d → second d = false) := by
  rw [twoSymbols?, ahead]
  by_cases hc : first c = true
  · rw [if_pos hc]
    cases rest.dropWhile (· == ' ') with
    | nil => exact ⟨fun _ _ => by simp, fun _ => rfl⟩
    | cons d r =>
      dsimp only [List.head?_cons]
      by_cases hd : second d = true
      · rw [if_pos hd]
        refine ⟨by simp, fun h => ?_⟩
        rw [h hc d rfl] at hd
        cases hd
      · rw [if_neg hd]
        refine ⟨fun _ _ d' hd' => ?_, fun _ => rfl⟩
        cases hd'
        exact Bool.eq_false_iff.2 hd
  · rw [if_neg hc]
    exact ⟨fun _ h => absurd h hc, fun _ => rfl⟩

theorem trailingOperator?_eq_none_iff {c : Char} {rest : List Char} {atStart : Bool} :
    trailingOperator? atStart (c :: rest) = none ↔ (isOperator c = true → ahead rest ≠ none) := by
  rw [trailingOperator?, ahead]
  by_cases hc : isOperator c = true
  · rw [hc, Bool.true_and]
    cases rest.dropWhile (· == ' ') with
    | nil => exact ⟨by simp, fun h => absurd rfl (h rfl)⟩
    | cons d r => exact ⟨fun _ _ => by simp, fun _ => rfl⟩
  · rw [Bool.not_eq_true] at hc
    rw [hc, Bool.false_and, if_neg (by decide)]
    exact ⟨fun _ => by simp, fun _ => rfl⟩

theorem operatorBeforePower?_eq_none_iff {c : Char} {rest : List Char} {atStart : Bool} :
    operatorBeforePower? atStart (c :: rest) = none ↔
      (isOperator c = true → ∀ r, rest.dropWhile (· == ' ') ≠ '*' :: '*' :: r) := by
  rw [operatorBeforePower?]
  by_cases hc : isOperator c = true
  · rw [if_pos hc]
    split
    · rename_i r heq
      exact ⟨by simp, fun h => absurd heq (h hc r)⟩
    · rename_i hne
      exact ⟨fun _ _ r heq => hne r heq, fun _ => rfl⟩
  · rw [if_neg hc]
    exact ⟨fun _ h => absurd h hc, fun _ => rfl⟩

theorem operatorBehindPower?_eq_none_iff {c : Char} {rest : List Char} {atStart : Bool} :
    operatorBehindPower? atStart (c :: rest) = none ↔
      (c = '*' → ∀ r, rest = '*' :: r → ∀ d, ahead r = some d → isOperator d = false) := by
  rw [operatorBehindPower?.eq_def]
  split
  · rename_i r heq
    cases heq
    rw [Option.map_eq_none_iff, twoSymbols?_eq_none_iff]
    refine ⟨fun h _ r' hr => ?_, fun h _ => h rfl r rfl⟩
    cases hr
    exact h rfl
  · rename_i hne
    exact ⟨fun _ hc r hr => absurd (by rw [hc, hr]) (hne r), fun _ => rfl⟩

theorem isOperator_iff {c : Char} :
    isOperator c = true ↔ isOperatorButTimes c = true ∨ c = '*' := by
  constructor
  · intro h
    by_cases hc : c = '*'
    · exact Or.inr hc
    · exact Or.inl (by rw [isOperatorButTimes, h, Bool.true_and]; exact bne_iff_ne.2 hc)
  · rintro (h | rfl)
    · exact (Bool.and_eq_true_iff.1 h).1
    · rfl

theorem isOperator_eq_false_iff {c : Char} :
    isOperator c = false ↔ isOperatorButTimes c = false ∧ c ≠ '*' := by
  rw [← Bool.not_eq_true, isOperator_iff, not_or, Bool.not_eq_true]

/-- The operator checks accept nowhere exactly where the operators fit. -/
theorem incorrectOperator?_eq_none_iff (c : Char) (rest : List Char) :
    incorrectOperator? false (c :: rest) = none ↔ OperatorFits c rest := by
  simp only [incorrectOperator?, Option.or_eq_none_iff, twoSymbols?_eq_none_iff,
    trailingOperator?_eq_none_iff, operatorBeforePower?_eq_none_iff,
    operatorBehindPower?_eq_none_iff, beq_iff_eq, beq_eq_false_iff_ne]
  constructor
  · rintro ⟨-, htrailing, hbut, hsingle, hstars, hpower, hopening, hclosing, hempty⟩
    refine ⟨fun hc => ?_, fun hc h => ?_, fun hc => hstars (hc ▸ rfl), hpower,
      fun hc d hd => ⟨hopening hc d hd, hempty hc d hd⟩, fun hc h => hclosing hc ')' h rfl⟩
    · obtain ⟨d, hd⟩ := Option.ne_none_iff_exists'.1 (htrailing hc)
      exact ⟨d, hd, hbut hc d hd⟩
    · exact absurd (hsingle hc '*' h) (by decide)
  · rintro ⟨hoperand, hsingle, hstars, hpower, hopening, hclosing⟩
    have but (hc : isOperator c = true) (d : Char) (hd : ahead rest = some d) :
        isOperatorButTimes d = false := by
      obtain ⟨d', hd', hbut⟩ := hoperand hc
      rw [hd] at hd'
      cases hd'
      exact hbut
    refine ⟨rfl, fun hc h => ?_, but, fun hc d hd => ?_, fun hc r hr => ?_, hpower,
      fun hc d hd => (hopening hc d hd).1, fun hc d hd h => hclosing hc (h ▸ hd),
      fun hc d hd => (hopening hc d hd).2⟩
    · obtain ⟨d, hd, -⟩ := hoperand hc
      rw [h] at hd
      cases hd
    · rw [isOperator_eq_false_iff]
      refine ⟨but (isOperator_iff.2 (Or.inl hc)) d hd, ?_⟩
      rintro rfl
      exact hsingle hc hd
    · rcases isOperator_iff.1 hc with hc | hc
      · exact hsingle hc (by rw [ahead, hr]; rfl)
      · exact hstars hc r hr

/-! ## Separators -/

/-- A separator stands between two digits, and a number has one at most. -/
structure SeparatorFits (c : Char) (rest : List Char) : Prop where
  whole : c.isDigit = false → ∀ d, ahead rest = some d → isSeparator d = false
  fraction : isSeparator c = true → ∃ d r, rest = d :: r ∧ d.isDigit = true
  single : isSeparator c = true → ∀ d, (rest.dropWhile isDigitOrSpace).head? = some d →
    isSeparator d = false

theorem spacedSeparator?_eq_none_iff {text : List Char} :
    spacedSeparator? text = none ↔ ∀ d, ahead text = some d → isSeparator d = false := by
  rw [spacedSeparator?, ahead]
  cases text.dropWhile (· == ' ') with
  | nil => exact ⟨fun _ d hd => (nomatch hd), fun _ => rfl⟩
  | cons d r =>
    dsimp only [List.head?_cons]
    by_cases hd : isSeparator d = true
    · rw [if_pos hd]
      refine ⟨nofun, fun h => ?_⟩
      rw [h d rfl] at hd
      cases hd
    · rw [if_neg hd]
      refine ⟨fun _ d' hd' => ?_, fun _ => rfl⟩
      cases hd'
      exact Bool.eq_false_iff.2 hd

theorem missingWhole?_eq_none_iff {c : Char} {rest : List Char} :
    missingWhole? false (c :: rest) = none ↔
      (c.isDigit = false → ∀ d, ahead rest = some d → isSeparator d = false) := by
  rw [missingWhole?, if_neg Bool.false_ne_true, Option.or_none]
  by_cases hc : c.isDigit = true
  · rw [if_pos hc, hc]
    exact ⟨fun _ => by simp, fun _ => rfl⟩
  · rw [if_neg hc, Option.map_eq_none_iff, spacedSeparator?_eq_none_iff]
    exact ⟨fun h _ => h, fun h => h (Bool.eq_false_iff.2 hc)⟩

/-- Up to a separator there are digits and spaces. -/
theorem exists_of_upToSeparator? {text rest : List Char} {length : ℕ}
    (h : upToSeparator? text = some (length, rest)) :
    ∃ run d, text = run ++ d :: rest ∧ isSeparator d = true := by
  rw [upToSeparator?] at h
  have split := List.takeWhile_append_dropWhile (p := isDigitOrSpace) (l := text)
  cases hd : text.dropWhile isDigitOrSpace with
  | nil => rw [hd] at h; cases h
  | cons d r =>
    rw [hd] at h split
    dsimp only at h
    split at h
    · rename_i separator
      cases h
      exact ⟨_, d, split.symm, separator⟩
    · cases h

theorem isDigitOrSpace_of_isSeparator {c : Char} (h : isSeparator c = true) :
    isDigitOrSpace c = false := by
  rw [isSeparator, Bool.or_eq_true, beq_iff_eq, beq_iff_eq] at h
  rcases h with rfl | rfl <;> decide

theorem upToSeparator?_separator {d : Char} (hd : isSeparator d = true) (rest : List Char) :
    upToSeparator? (d :: rest) = some (1, rest) := by
  have symbol := isDigitOrSpace_of_isSeparator hd
  rw [upToSeparator?, dropWhile_of_ends (.cons symbol), takeWhile_of_ends (.cons symbol)]
  dsimp only
  rw [if_pos hd]
  rfl

theorem upToSeparator?_eq_none_iff {text : List Char} :
    upToSeparator? text = none ↔
      ∀ d, (text.dropWhile isDigitOrSpace).head? = some d → isSeparator d = false := by
  rw [upToSeparator?]
  cases text.dropWhile isDigitOrSpace with
  | nil => exact ⟨fun _ d hd => (nomatch hd), fun _ => rfl⟩
  | cons d r =>
    dsimp only [List.head?_cons]
    by_cases hd : isSeparator d = true
    · rw [if_pos hd]
      refine ⟨nofun, fun h => ?_⟩
      rw [h d rfl] at hd
      cases hd
    · rw [if_neg hd]
      refine ⟨fun _ d' hd' => ?_, fun _ => rfl⟩
      cases hd'
      exact Bool.eq_false_iff.2 hd

theorem missingFraction?_eq_none {text : List Char} {atStart : Bool}
    (h : ∀ length rest, upToSeparator? text = some (length, rest) →
      ∃ d r, rest = d :: r ∧ d.isDigit = true) : missingFraction? atStart text = none := by
  rw [missingFraction?]
  cases hup : upToSeparator? text with
  | none => rfl
  | some x =>
    obtain ⟨length, rest⟩ := x
    obtain ⟨d, r, rfl, hd⟩ := h length rest hup
    have symbol : (d == ' ') = false := by
      rw [beq_eq_false_iff_ne]
      rintro rfl
      cases hd
    rw [Option.bind_some]
    dsimp only
    rw [List.dropWhile_cons, symbol, if_neg (by decide), List.takeWhile_cons, symbol]
    dsimp only
    rw [hd, if_neg (by decide)]
    rfl

theorem exists_digit_of_missingFraction? {d : Char} (hd : isSeparator d = true) {rest : List Char}
    {atStart : Bool} (h : missingFraction? atStart (d :: rest) = none) :
    ∃ d r, rest = d :: r ∧ d.isDigit = true := by
  rw [missingFraction?, upToSeparator?_separator hd, Option.bind_some] at h
  dsimp only at h
  cases rest with
  | nil => cases h
  | cons c r =>
    by_cases hc : c = ' '
    · subst hc
      rw [List.takeWhile_cons, if_pos (by decide), List.length_cons] at h
      split at h
      · cases h
      · split at h
        · cases h
        · rw [if_neg (by simp)] at h
          cases h
    · refine ⟨c, r, rfl, ?_⟩
      rw [List.dropWhile_cons, if_neg (by simpa using hc)] at h
      by_contra hdigit
      dsimp only at h
      rw [Bool.not_eq_true] at hdigit
      rw [hdigit] at h
      cases h

/-- The checks of numbers accept nowhere exactly where the separators fit. -/
theorem everywhere_incorrectNumber?_iff (text : List Char) :
    Everywhere (fun c rest => incorrectNumber? false (c :: rest) = none) text ↔
      Everywhere SeparatorFits text := by
  simp only [incorrectNumber?, Option.or_eq_none_iff]
  constructor
  · refine .imp ?_
    rintro c rest ⟨hwhole, hfraction, hdoubled⟩
    refine ⟨missingWhole?_eq_none_iff.1 hwhole, fun hc => exists_digit_of_missingFraction? hc hfraction,
      fun hc => ?_⟩
    rw [doubledSeparator?, upToSeparator?_separator hc, Option.bind_some, Option.map_eq_none_iff]
      at hdoubled
    exact upToSeparator?_eq_none_iff.1 hdoubled
  · intro h
    induction text with
    | nil => trivial
    | cons c text ih =>
      have at_separator {length : ℕ} {rest : List Char}
          (hup : upToSeparator? (c :: text) = some (length, rest)) :
          ∃ d, isSeparator d = true ∧ SeparatorFits d rest := by
        obtain ⟨run, d, htext, hd⟩ := exists_of_upToSeparator? hup
        rw [htext] at h
        exact ⟨d, hd, h.of_append⟩
      refine ⟨⟨missingWhole?_eq_none_iff.2 h.1.whole, missingFraction?_eq_none ?_, ?_⟩, ih h.2⟩
      · intro length rest hup
        obtain ⟨d, hd, hfits⟩ := at_separator hup
        exact hfits.fraction hd
      · rw [doubledSeparator?]
        cases hup : upToSeparator? (c :: text) with
        | none => rfl
        | some x =>
          obtain ⟨length, rest⟩ := x
          obtain ⟨d, hd, hfits⟩ := at_separator hup
          rw [Option.bind_some, Option.map_eq_none_iff, upToSeparator?_eq_none_iff]
          exact hfits.single hd

/-! ## All checks -/

/-- Text that passes all checks. -/
structure WellFormed (text : List Char) : Prop where
  balanced : Balanced text
  expected : ∀ c ∈ text, isExpected c = true
  separators : Everywhere SeparatorFits text
  operators : Everywhere OperatorFits text
  start : ∀ d, ahead text = some d → isSeparator d = false ∧ isBinary d = false

theorem leadingOperator?_eq_none_iff {text : List Char} :
    leadingOperator? true text = none ↔ ∀ d, ahead text = some d → isBinary d = false := by
  rw [leadingOperator?, if_pos rfl, ahead]
  cases text.dropWhile (· == ' ') with
  | nil => exact ⟨fun _ d hd => (nomatch hd), fun _ => rfl⟩
  | cons d r =>
    dsimp only [List.head?_cons]
    by_cases hd : isBinary d = true
    · rw [if_pos hd]
      refine ⟨nofun, fun h => ?_⟩
      rw [h d rfl] at hd
      cases hd
    · rw [if_neg hd]
      refine ⟨fun _ d' hd' => ?_, fun _ => rfl⟩
      cases hd'
      exact Bool.eq_false_iff.2 hd

theorem incorrectOperators_eq_nil_iff (text : List Char) :
    incorrectOperators text = [] ↔
      Everywhere OperatorFits text ∧ ∀ d, ahead text = some d → isBinary d = false := by
  cases text with
  | nil => exact ⟨fun _ => ⟨trivial, fun d hd => (nomatch hd)⟩, fun _ => rfl⟩
  | cons c text =>
    have atStart : incorrectOperator? true (c :: text) = none ↔
        leadingOperator? true (c :: text) = none ∧ incorrectOperator? false (c :: text) = none := by
      simp only [incorrectOperator?, Option.or_eq_none_iff]
      exact and_congr_right fun _ => ⟨fun h => ⟨rfl, h⟩, fun h => h.2⟩
    rw [incorrectOperators, fragments_eq_nil_iff, atStart, leadingOperator?_eq_none_iff,
      incorrectOperator?_eq_none_iff, everywhere_iff incorrectOperator?_eq_none_iff, Everywhere]
    tauto

theorem incorrectNumbers_eq_nil_iff (text : List Char) :
    incorrectNumbers text = [] ↔
      Everywhere SeparatorFits text ∧ ∀ d, ahead text = some d → isSeparator d = false := by
  cases text with
  | nil => exact ⟨fun _ => ⟨trivial, fun d hd => (nomatch hd)⟩, fun _ => rfl⟩
  | cons c text =>
    have atStart : incorrectNumber? true (c :: text) = none ↔
        spacedSeparator? (c :: text) = none ∧ incorrectNumber? false (c :: text) = none := by
      simp only [incorrectNumber?, missingWhole?, Option.or_eq_none_iff]
      exact ⟨fun h => ⟨h.1.2, ⟨h.1.1, rfl⟩, h.2⟩, fun h => ⟨⟨h.2.1.1, h.1⟩, h.2.2⟩⟩
    rw [← everywhere_incorrectNumber?_iff, incorrectNumbers, fragments_eq_nil_iff, atStart,
      spacedSeparator?_eq_none_iff, Everywhere]
    tauto

theorem unexpectedSymbols_eq_nil_iff (text : List Char) :
    unexpectedSymbols text = [] ↔ ∀ c ∈ text, isExpected c = true := by
  have symbol (c : Char) (rest : List Char) (atStart : Bool) :
      unexpectedSymbol? atStart (c :: rest) = none ↔ isExpected c = true := by
    rw [unexpectedSymbol?]
    by_cases hc : isExpected c = true
    · rw [if_pos hc]
      exact ⟨fun _ => hc, fun _ => rfl⟩
    · rw [if_neg hc]
      exact ⟨by simp, fun h => absurd h hc⟩
  have all (text : List Char) :
      Everywhere (fun c _ => isExpected c = true) text ↔ ∀ c ∈ text, isExpected c = true := by
    induction text with
    | nil => exact ⟨fun _ => List.forall_mem_nil _, fun _ => trivial⟩
    | cons c text ih => rw [Everywhere, ih, List.forall_mem_cons]
  cases text with
  | nil => exact ⟨fun _ => List.forall_mem_nil _, fun _ => rfl⟩
  | cons c text =>
    rw [unexpectedSymbols, fragments_eq_nil_iff, symbol,
      everywhere_iff fun c rest => symbol c rest false, all, List.forall_mem_cons]

/-- **The checks find nothing exactly in text that is well formed.** -/
theorem malformed?_eq_none_iff {text : List Char} : malformed? text = none ↔ WellFormed text := by
  rw [malformed?]
  constructor
  · intro h
    split at h
    · cases h
    · rename_i hbrackets
      split at h
      · cases h
      · rename_i hnumbers
        split at h
        · cases h
        · rename_i hsymbols
          split at h
          · cases h
          · rename_i hoperators
            simp only [Bool.not_eq_true', Bool.not_eq_false, List.isEmpty_iff] at *
            rw [incorrectNumbers_eq_nil_iff] at hnumbers
            rw [incorrectOperators_eq_nil_iff] at hoperators
            exact ⟨checkBrackets_eq_none_iff.1 hbrackets,
              (unexpectedSymbols_eq_nil_iff text).1 hsymbols, hnumbers.1, hoperators.1,
              fun d hd => ⟨hnumbers.2 d hd, hoperators.2 d hd⟩⟩
  · intro h
    rw [checkBrackets_eq_none_iff.2 h.balanced,
      (incorrectNumbers_eq_nil_iff text).2 ⟨h.separators, fun d hd => (h.start d hd).1⟩,
      (unexpectedSymbols_eq_nil_iff text).2 h.expected,
      (incorrectOperators_eq_nil_iff text).2 ⟨h.operators, fun d hd => (h.start d hd).2⟩]
    rfl

/-! ## Letters -/

theorem isOperator_cases {c : Char} (h : isOperator c = true) :
    c = '+' ∨ c = '-' ∨ c = '*' ∨ c = ':' ∨ c = '/' ∨ c = '^' := by
  simpa [isOperator, or_assoc] using h

/-- The symbols of expressions one by one. -/
theorem isExpected_cases {c : Char} (h : isExpected c = true) :
    c.isLower = true ∨ c.isDigit = true ∨ isOperator c = true ∨ isSeparator c = true ∨ c = '(' ∨
      c = ')' ∨ c = ' ' := by
  simpa [isExpected, or_assoc] using h

theorem isAlphabetic_of_lt {c : Char} (h : c.toNat < 170) : isAlphabetic c = c.isAlpha := by
  have first : ∀ r ∈ alphabeticRanges, 170 ≤ r.1 := by decide +kernel
  rw [isAlphabetic, Bool.or_eq_left_iff_imp, List.any_eq_true]
  rintro ⟨⟨low, high⟩, hr, hin⟩
  have := first _ hr
  rw [Bool.and_eq_true, Nat.ble_eq] at hin
  omega

theorem toNat_of_isDigit {c : Char} (h : c.isDigit = true) : 48 ≤ c.toNat ∧ c.toNat ≤ 57 := by
  rw [Char.isDigit, Bool.and_eq_true, decide_eq_true_eq, decide_eq_true_eq] at h
  exact ⟨UInt32.le_iff_toNat_le.1 h.1, UInt32.le_iff_toNat_le.1 h.2⟩

theorem toNat_of_isLower {c : Char} (h : c.isLower = true) : 97 ≤ c.toNat ∧ c.toNat ≤ 122 := by
  rw [Char.isLower, Bool.and_eq_true, decide_eq_true_eq, decide_eq_true_eq] at h
  exact ⟨UInt32.le_iff_toNat_le.1 h.1, UInt32.le_iff_toNat_le.1 h.2⟩

theorem isAlpha_of_isDigit {c : Char} (h : c.isDigit = true) : c.isAlpha = false := by
  have range := toNat_of_isDigit h
  rw [← Bool.not_eq_true, Char.isAlpha, Bool.or_eq_true]
  rintro (hu | hl)
  · rw [Char.isUpper, decide_eq_true_eq] at hu
    have : 65 ≤ c.toNat := UInt32.le_iff_toNat_le.1 hu.1
    omega
  · have := toNat_of_isLower hl
    omega

/-- Among the symbols of expressions the letters are the variables. -/
theorem isLetter_eq_isVariable {c : Char} (h : isExpected c = true) :
    isLetter c = isVariable c := by
  have ascii (hc : c.toNat < 170) : isLetter c = (c.isAlpha && c != imaginaryUnit) := by
    rw [isLetter, isAlphabetic_of_lt hc, Bool.and_comm]
  rcases isExpected_cases h with h | h | h | h | rfl | rfl | rfl
  · have := toNat_of_isLower h
    rw [ascii (by omega), isVariable, Char.isAlpha, h, Bool.or_true]
  · have := toNat_of_isDigit h
    have alpha := isAlpha_of_isDigit h
    rw [ascii (by omega), alpha, isVariable]
    rw [Char.isAlpha, Bool.or_eq_false_iff] at alpha
    rw [alpha.2]
  · rcases isOperator_cases h with rfl | rfl | rfl | rfl | rfl | rfl <;>
      exact ascii (by decide)
  · rw [isSeparator, Bool.or_eq_true, beq_iff_eq, beq_iff_eq] at h
    rcases h with rfl | rfl <;> exact ascii (by decide)
  · exact ascii (by decide)
  · exact ascii (by decide)
  · exact ascii (by decide)

theorem any_isLetter {text : List Char} (h : ∀ c ∈ text, isExpected c = true) :
    text.any isLetter = hasVariable text := by
  induction text with
  | nil => rfl
  | cons c text ih =>
    rw [hasVariable, List.any_cons, List.any_cons, isLetter_eq_isVariable (h c List.mem_cons_self),
      ih fun d hd => h d (List.mem_cons_of_mem _ hd), hasVariable]

end SamePoly
