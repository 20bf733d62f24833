/-
  The normal form of a text.

  Normalized text is what the splitting into terms and factors reads.  Which symbols stand in it,
  and next to each other, follows from what the checks let pass and from what each step of the
  normalization does to the symbols behind a `^` and to the points of a literal.

  * `IsDecimal`, `IsRun`: decimal numerals, and the literals of a text.
  * `OneSpelling`: a text in its one spelling.
  * `NormalForm`: the conditions on normalized text.
  * `DropsTimes`, `AddsBrackets`: what the steps for multiplication signs have in common, and the
    steps for brackets.
  * `LonePower`: no operator stands behind a `^`.
  * `SinglePoints`: no literal has two points.
  * `normalize_normalForm`: **the normalized text of a well-formed text without spaces is in normal
    form**.
-/
import SamePoly.Proofs.Formula.Normal
import SamePoly.Proofs.Formula.Validity
import SamePoly.Proofs.Letters
import SamePoly.Proofs.Nesting
import SamePoly.Proofs.Operators

namespace SamePoly

/-! ## Normal forms -/

/-- At least one digit, and nothing else. -/
def IsDigits (text : List Char) : Prop := text ≠ [] ∧ ∀ c ∈ text, c.isDigit = true

/-- Digits, or digits on both sides of a point. -/
def IsDecimal (text : List Char) : Prop :=
  IsDigits text ∨
    ∃ whole fraction, text = whole ++ '.' :: fraction ∧ IsDigits whole ∧ IsDigits fraction

/-- A run of digits and points in a text that no digit or point goes on with on either side. -/
def IsRun (run text : List Char) : Prop :=
  run ≠ [] ∧ (∀ c ∈ run, isLiteral c = true) ∧ ∃ before after, text = before ++ run ++ after ∧
    (∀ c ∈ before.getLast?, isLiteral c = false) ∧ ∀ c ∈ after.head?, isLiteral c = false

/-- A symbol of normalized text. -/
def isNormal (c : Char) : Bool :=
  c.isLower || c.isDigit || ['.', '+', '-', '*', '/', '^', '(', ')'].contains c

/-- A text and the same text with one spelling for each operator and separator: `^` for `**`, `/`
    for `:` and `.` for `,`. -/
inductive OneSpelling : List Char → List Char → Prop
  | nil : OneSpelling [] []
  | power {s t : List Char} : OneSpelling s t → OneSpelling ('*' :: '*' :: s) ('^' :: t)
  | quotient {s t : List Char} : OneSpelling s t → OneSpelling (':' :: s) ('/' :: t)
  | separator {s t : List Char} : OneSpelling s t → OneSpelling (',' :: s) ('.' :: t)
  | symbol {c : Char} {s t : List Char} : c ≠ ':' → c ≠ ',' →
      (c = '*' → s.head? ≠ some '*') → OneSpelling s t → OneSpelling (c :: s) (c :: t)

/-- A text without brackets and multiplication signs. -/
def withoutGrouping (text : List Char) : List Char :=
  text.filter fun c => c != '(' && c != ')' && c != '*'

/-- A text in normal form, and what it has in common with the text that it was made from. -/
structure NormalForm (text normal : List Char) : Prop where
  symbols : ∀ c ∈ normal, isNormal c = true
  brackets : Balanced normal
  powers : ∀ before after, normal = before ++ '^' :: after →
    before.getLast? = some ')' ∧ after.head? = some '('
  literals : ∀ run, IsRun run normal → IsDecimal run
  contents : ∃ spelled, OneSpelling text spelled ∧
    withoutGrouping normal = withoutGrouping spelled

variable {c d : Char} {text rest run before after : List Char}

theorem isNormal_of_kind (h : kind c ≠ .other) : isNormal c = true := by
  unfold kind at h
  unfold isNormal
  split_ifs at h with hdigit hlower hpoint hopen hclose hsign hstar hslash hcaret
  · rw [hdigit, Bool.or_true, Bool.true_or]
  · rw [hlower, Bool.true_or, Bool.true_or]
  · subst hpoint; rfl
  · subst hopen; rfl
  · subst hclose; rfl
  · rcases hsign with rfl | rfl <;> rfl
  · subst hstar; rfl
  · subst hslash; rfl
  · subst hcaret; rfl
  · exact absurd rfl h

/-! ## Dropped signs and added brackets -/

/-- The second text is the first one with fewer multiplication signs. -/
inductive DropsTimes : List Char → List Char → Prop
  | nil : DropsTimes [] []
  | symbol (c : Char) {s t : List Char} : DropsTimes s t → DropsTimes (c :: s) (c :: t)
  | times {s t : List Char} : DropsTimes s t → DropsTimes ('*' :: s) t

namespace DropsTimes

theorem dropTimesAfter (text : List Char) : DropsTimes text (dropTimesAfter text) := by
  fun_induction SamePoly.dropTimesAfter text with
  | case1 c rest _ ih => exact .symbol c ih
  | case2 c rest _ ih => exact .symbol c (.times ih)
  | case3 c rest _ ih => exact .symbol c ih
  | case4 => exact .nil

theorem dropTimesBefore (text : List Char) : DropsTimes text (dropTimesBefore text) := by
  fun_induction SamePoly.dropTimesBefore text with
  | case1 c rest _ ih => exact .symbol '*' ih
  | case2 c rest _ ih => exact .times (.symbol c ih)
  | case3 c rest _ ih => exact .symbol c ih
  | case4 => exact .nil

/-- The symbols around a dropped sign become neighbours. -/
theorem isChain {R : Char → Char → Prop} (across : ∀ c d, R c '*' → R '*' d → R c d)
    (h : DropsTimes text rest) (chain : (c :: text).IsChain R) : (c :: rest).IsChain R := by
  induction h generalizing c with
  | nil => exact chain
  | symbol d _ ih =>
    obtain ⟨first, tail⟩ := List.isChain_cons_cons.1 chain
    exact List.isChain_cons_cons.2 ⟨first, ih tail⟩
  | @times text rest _ ih =>
    obtain ⟨first, tail⟩ := List.isChain_cons_cons.1 chain
    refine ih (List.isChain_cons.2 ⟨fun d hd => ?_, tail.tail⟩)
    exact across c d first ((List.isChain_cons.1 tail).1 d hd)

theorem filter {p : Char → Bool} (hstar : p '*' = false) (h : DropsTimes text rest) :
    rest.filter p = text.filter p := by
  induction h with
  | nil => rfl
  | symbol c _ ih => rw [List.filter_cons, ih, ← List.filter_cons]
  | times _ ih => rw [List.filter_cons, hstar, if_neg (by decide), ih]

end DropsTimes

/-- The second text is the first one with more brackets. -/
inductive AddsBrackets : List Char → List Char → Prop
  | nil : AddsBrackets [] []
  | symbol (c : Char) {s t : List Char} : AddsBrackets s t → AddsBrackets (c :: s) (c :: t)
  | opening {s t : List Char} : AddsBrackets s t → AddsBrackets s ('(' :: t)
  | closing {s t : List Char} : AddsBrackets s t → AddsBrackets s (')' :: t)

namespace AddsBrackets

theorem append (run : List Char) (h : AddsBrackets text rest) :
    AddsBrackets (run ++ text) (run ++ rest) := by
  induction run with
  | nil => exact h
  | cons c run ih => exact .symbol c ih

theorem wrapBases (text : List Char) : AddsBrackets text (wrapBases text) := by
  fun_induction SamePoly.wrapBases text with
  | case1 => exact .nil
  | case2 c rest _ literal _ after hafter ih =>
    have whole : c :: rest = literal ++ '^' :: after := by
      rw [List.cons_append, ← hafter, List.takeWhile_append_dropWhile]
    rw [whole]
    exact .opening (append literal (.closing (.symbol '^' ih)))
  | case3 c rest _ literal _ _ ih =>
    have whole : c :: rest = literal ++ rest.dropWhile isLiteral := by
      rw [List.cons_append, List.takeWhile_append_dropWhile]
    rw [whole]
    exact append literal ih
  | case4 c after _ _ ih => exact .opening (.symbol c (.closing (.symbol '^' ih)))
  | case5 c after _ _ ih => exact .symbol c ih
  | case6 c rest _ _ ih => exact .symbol c ih

theorem wrapExponents (text : List Char) : AddsBrackets text (wrapExponents text) := by
  fun_induction SamePoly.wrapExponents text with
  | case1 c rest _ _ ih =>
    have whole : c :: rest = (c :: rest.takeWhile isLiteral) ++ rest.dropWhile isLiteral := by
      rw [List.cons_append, List.takeWhile_append_dropWhile]
    rw [whole]
    exact .symbol '^' (.opening (append _ (.closing ih)))
  | case2 c rest _ _ ih => exact .symbol '^' (.opening (.symbol c (.closing ih)))
  | case3 c rest _ _ ih => exact .symbol '^' ih
  | case4 c rest _ ih => exact .symbol c ih
  | case5 => exact .nil

end AddsBrackets

/-! ## Behind a power -/

/-- No multiplication sign and no second power stands behind a `^`. -/
def LonePower (c d : Char) : Prop := c = '^' → d ≠ '^' ∧ d ≠ '*'

/-- Behind a power the checks let no operator pass. -/
theorem isChain_lonePower_respell (compact : ∀ d ∈ text, d ≠ ' ')
    (fits : Everywhere OperatorFits text)
    (hc : c = '^' → ∀ d ∈ text.head?, isOperator d = false) :
    (c :: (respellPowers text).map respellChar).IsChain LonePower := by
  -- Without spaces, what is ahead is the next symbol.
  have next {text : List Char} (compact : ∀ d ∈ text, d ≠ ' ') {d : Char} (hd : d ∈ text.head?) :
      ahead text = some d := by
    obtain ⟨rest, rfl⟩ := List.head?_eq_some_iff.1 hd
    exact ahead_cons (compact d List.mem_cons_self) rest
  fun_induction respellPowers text generalizing c with
  | case1 rest ih =>
    have compact' : ∀ d ∈ rest, d ≠ ' ' := fun d hd =>
      compact d (List.mem_cons_of_mem _ (List.mem_cons_of_mem _ hd))
    refine List.isChain_cons_cons.2 ⟨fun he => ?_, ih compact' fits.2.2 fun _ d hd => ?_⟩
    · cases hc he '*' rfl
    · exact fits.1.power rfl rest rfl d (next compact' hd)
  | case2 e rest _ ih =>
    have compact' : ∀ d ∈ rest, d ≠ ' ' := fun d hd => compact d (List.mem_cons_of_mem _ hd)
    refine List.isChain_cons_cons.2 ⟨fun he => ?_, ih compact' fits.2 fun he d hd => ?_⟩
    · have operator := hc he e rfl
      rw [← Bool.not_eq_true, ← isOperator_respellChar] at operator
      constructor <;>
        · intro h
          exact operator (by rw [h]; rfl)
    · have caret : e = '^' := kind_respellChar_caret.1 (kind_eq_caret_iff.2 he)
      subst caret
      obtain ⟨f, hf, noOperator, -⟩ := fits.1.behind_caret
      rw [next compact' hd] at hf
      cases hf
      exact noOperator
  | case3 => exact List.isChain_singleton c

theorem LonePower.across (c d : Char) (h : LonePower c '*') (_ : LonePower '*' d) :
    LonePower c d := fun hc => absurd rfl (h hc).2

theorem AddsBrackets.isChain_lonePower (h : AddsBrackets text rest)
    (chain : (c :: text).IsChain LonePower) : (c :: rest).IsChain LonePower := by
  induction h generalizing c with
  | nil => exact chain
  | symbol d _ ih =>
    obtain ⟨first, tail⟩ := List.isChain_cons_cons.1 chain
    exact List.isChain_cons_cons.2 ⟨first, ih tail⟩
  | opening _ ih =>
    refine List.isChain_cons_cons.2 ⟨fun _ => by decide, ih ?_⟩
    exact List.isChain_cons.2 ⟨fun _ _ => nofun, chain.tail⟩
  | closing _ ih =>
    refine List.isChain_cons_cons.2 ⟨fun _ => by decide, ih ?_⟩
    exact List.isChain_cons.2 ⟨fun _ _ => nofun, chain.tail⟩

theorem head?_wrapExponents (text : List Char) : (wrapExponents text).head? = text.head? := by
  fun_induction wrapExponents text <;> rfl

/-- Literals and letters behind a `^` stand in brackets. -/
theorem isChain_wrapExponents (text : List Char) :
    (wrapExponents text).IsChain fun c d => c = '^' → isWrapped d = false := by
  -- A symbol that is no power may stand in front of anything.
  have plain {run text : List Char} (hrun : ∀ c ∈ run, c ≠ '^')
      (h : text.IsChain fun c d => c = '^' → isWrapped d = false) :
      (run ++ text).IsChain fun c d => c = '^' → isWrapped d = false := by
    induction run with
    | nil => exact h
    | cons c run ih =>
      obtain ⟨hc, hrun⟩ := List.forall_mem_cons.1 hrun
      exact List.isChain_cons.2 ⟨fun _ _ he => absurd he hc, ih hrun⟩
  fun_induction wrapExponents text with
  | case1 c rest hc _ ih =>
    have run : ∀ d ∈ '(' :: c :: rest.takeWhile isLiteral, d ≠ '^' := by
      refine List.forall_mem_cons.2 ⟨by decide, fun d hd => ?_⟩
      exact (ne_of_atom (isAtom_cons_takeWhile hc rest d hd)).2.2
    have closing : ∀ d ∈ [')'], d ≠ '^' := List.forall_mem_singleton.2 (by decide)
    exact List.isChain_cons.2 ⟨fun d hd _ => by cases hd; rfl, plain run (plain closing ih)⟩
  | case2 c rest _ letter ih =>
    have run : ∀ d ∈ ['(', c, ')'], d ≠ '^' := by
      simp only [List.forall_mem_cons]
      exact ⟨by decide, (ne_of_atom (.inr letter)).2.2, by decide, List.forall_mem_nil _⟩
    exact List.isChain_cons.2 ⟨fun d hd _ => by cases hd; rfl, plain run ih⟩
  | case3 c rest hc letter ih =>
    refine List.isChain_cons.2 ⟨fun d hd _ => ?_, ih⟩
    rw [head?_wrapExponents] at hd
    cases hd
    rw [isWrapped, Bool.or_eq_false_iff]
    exact ⟨Bool.eq_false_iff.2 hc, Bool.eq_false_iff.2 letter⟩
  | case4 c rest hcaret ih =>
    refine List.isChain_cons.2 ⟨fun d hd he => ?_, ih⟩
    rw [head?_wrapExponents] at hd
    obtain ⟨tail, rfl⟩ := List.head?_eq_some_iff.1 hd
    exact absurd rfl (hcaret d tail he)
  | case5 => exact .nil

/-! ## Points -/

/-- No literal has two points, given whether the first one has its point already. -/
def SinglePoints (passed : Bool) : List Char → Prop
  | [] => True
  | c :: rest =>
    (c = '.' → passed = false) ∧ SinglePoints (c == '.' || passed && c.isDigit) rest

namespace SinglePoints

variable {passed : Bool}

theorem mono (h : SinglePoints passed text) : SinglePoints false text := by
  cases passed with
  | false => exact h
  | true =>
    induction text with
    | nil => trivial
    | cons c text ih =>
      refine ⟨fun _ => rfl, ?_⟩
      obtain ⟨first, tail⟩ := h
      have noPoint : (c == '.') = false := beq_eq_false_iff_ne.2 fun he => nomatch first he
      rw [noPoint, Bool.false_or, Bool.true_and] at tail
      rw [noPoint, Bool.false_or, Bool.false_and]
      cases hdigit : c.isDigit with
      | false => rwa [hdigit] at tail
      | true => exact ih (hdigit ▸ tail)

/-- Behind a symbol that is in no literal a new one starts. -/
theorem cons_iff (hc : isLiteral c = false) :
    SinglePoints passed (c :: text) ↔ SinglePoints false text := by
  rw [isLiteral, Bool.or_eq_false_iff] at hc
  rw [SinglePoints, hc.1, hc.2, Bool.and_false, Bool.or_false]
  refine and_iff_right fun he => ?_
  subst he
  cases hc.2

theorem of_append (h : SinglePoints passed (before ++ rest)) : SinglePoints false rest := by
  induction before generalizing passed with
  | nil => exact h.mono
  | cons c before ih => exact ih h.2

theorem left_of_append (h : SinglePoints passed (text ++ rest)) : SinglePoints passed text := by
  induction text generalizing passed with
  | nil => trivial
  | cons c text ih => exact ⟨h.1, ih h.2⟩

/-- A literal is a row of digits, or two of them with a point between. -/
theorem digits_or (h : SinglePoints passed run) (literal : ∀ c ∈ run, isLiteral c = true) :
    (∀ c ∈ run, c.isDigit = true) ∨ passed = false ∧ ∃ whole fraction,
      run = whole ++ '.' :: fraction ∧ (∀ c ∈ whole, c.isDigit = true) ∧
        ∀ c ∈ fraction, c.isDigit = true := by
  induction run generalizing passed with
  | nil => exact .inl nofun
  | cons c run ih =>
    obtain ⟨hc, hrun⟩ := List.forall_mem_cons.1 literal
    rw [isLiteral, Bool.or_eq_true, beq_iff_eq] at hc
    rcases hc with digit | rfl
    · have noPoint : (c == '.') = false := by
        rw [beq_eq_false_iff_ne]
        rintro rfl
        cases digit
      have tail := h.2
      rw [noPoint, digit, Bool.and_true, Bool.false_or] at tail
      rcases ih tail hrun with digits | ⟨hpassed, whole, fraction, rfl, hwhole, hfraction⟩
      · exact .inl (List.forall_mem_cons.2 ⟨digit, digits⟩)
      · exact .inr ⟨hpassed, c :: whole, fraction, rfl, List.forall_mem_cons.2 ⟨digit, hwhole⟩,
          hfraction⟩
    · rcases ih h.2 hrun with digits | ⟨hpassed, -⟩
      · exact .inr ⟨h.1 rfl, [], run, rfl, nofun, digits⟩
      · cases hpassed

/-- The checks let one separator of a number pass. -/
theorem respelled (fits : Everywhere SeparatorFits text)
    (single : passed = true → ∀ d, (text.dropWhile isDigitOrSpace).head? = some d →
      isSeparator d = false) : SinglePoints passed (respelled text) := by
  induction text generalizing passed with
  | nil => trivial
  | cons c text ih =>
    by_cases hc : c = ' '
    · subst hc
      exact ih fits.2 single
    · have point : respellChar c = '.' ↔ isSeparator c = true := by
        rw [← kind_eq_point_iff, kind_respellChar_point]
      have digit : (respellChar c).isDigit = true ↔ c.isDigit = true := by
        rw [← kind_eq_digit_iff, kind_respellChar_digit]
      rw [respelled_cons hc]
      refine ⟨fun he => ?_, ih fits.2 fun hnext => ?_⟩
      · rw [← Bool.not_eq_true]
        intro hpassed
        have separator := point.1 he
        have stops : isDigitOrSpace c = false := by
          rw [isSeparator, Bool.or_eq_true, beq_iff_eq, beq_iff_eq] at separator
          rcases separator with rfl | rfl <;> rfl
        have none := single hpassed c (by rw [List.dropWhile_cons, stops]; rfl)
        rw [separator] at none
        cases none
      · rw [Bool.or_eq_true, beq_iff_eq, Bool.and_eq_true, point, digit] at hnext
        rcases hnext with separator | ⟨hpassed, hdigit⟩
        · exact fits.1.single separator
        · have goes : isDigitOrSpace c = true := by rw [isDigitOrSpace, hdigit, Bool.true_or]
          have rest := single hpassed
          rwa [List.dropWhile_cons, if_pos goes] at rest

theorem respellPowers (h : SinglePoints passed text) :
    SinglePoints passed (respellPowers text) := by
  fun_induction SamePoly.respellPowers text generalizing passed with
  | case1 rest ih =>
    rw [cons_iff rfl, cons_iff rfl] at h
    exact (cons_iff rfl).2 (ih h)
  | case2 c rest _ ih => exact ⟨h.1, ih h.2⟩
  | case3 => exact h

/-- No multiplication sign between two literals goes. -/
theorem dropTimesAfter (linked : text.IsChain fun c d => d = '*' → c ≠ '.')
    (h : SinglePoints passed text) : SinglePoints passed (dropTimesAfter text) := by
  fun_induction SamePoly.dropTimesAfter text generalizing passed with
  | case1 c rest _ ih => exact ⟨h.1, ih linked.tail h.2⟩
  | case2 c rest digit ih =>
    obtain ⟨first, tail⟩ := List.isChain_cons_cons.1 linked
    have symbol : isLiteral c = false := by
      rw [isLiteral, Bool.or_eq_false_iff, beq_eq_false_iff_ne]
      exact ⟨Bool.eq_false_iff.2 digit, first rfl⟩
    rw [cons_iff symbol, cons_iff rfl] at h
    exact (cons_iff symbol).2 (ih tail.tail h)
  | case3 c rest _ ih => exact ⟨h.1, ih linked.tail h.2⟩
  | case4 => exact h

theorem dropTimesBefore (linked : text.IsChain fun c d => c = '*' → d ≠ '.')
    (h : SinglePoints passed text) : SinglePoints passed (dropTimesBefore text) := by
  fun_induction SamePoly.dropTimesBefore text generalizing passed with
  | case1 c rest _ ih => exact ⟨fun point => absurd point (by decide), ih linked.tail h.2⟩
  | case2 c rest digit ih =>
    obtain ⟨first, tail⟩ := List.isChain_cons_cons.1 linked
    have symbol : isLiteral c = false := by
      rw [isLiteral, Bool.or_eq_false_iff, beq_eq_false_iff_ne]
      exact ⟨Bool.eq_false_iff.2 digit, first rfl⟩
    rw [cons_iff rfl, cons_iff symbol] at h
    exact (cons_iff symbol).2 (ih tail.tail h)
  | case3 c rest _ ih => exact ⟨h.1, ih linked.tail h.2⟩
  | case4 => exact h

/-- Brackets join no literals. -/
theorem addsBrackets (h : SinglePoints passed text) (added : AddsBrackets text rest) :
    SinglePoints passed rest := by
  induction added generalizing passed with
  | nil => exact h
  | symbol c _ ih => exact ⟨h.1, ih h.2⟩
  | opening _ ih => exact (cons_iff rfl).2 (ih h.mono)
  | closing _ ih => exact (cons_iff rfl).2 (ih h.mono)

end SinglePoints

/-! ## Literals -/

/-- A point of sound text stands behind a digit. -/
theorem Follows.isDigit_of_point (h : Follows c '.') : c.isDigit = true := by
  rw [← kind_eq_digit_iff]
  have link (j : Kind) (h : j.follows .point = true) : j = .digit := by
    revert h
    cases j <;> decide
  exact link _ h

/-- **The literals of sound text without two points in one literal are decimal numerals.** -/
theorem isDecimal_of_isRun (linked : Linked Kind.follows '(' text)
    (single : SinglePoints false text) (h : IsRun run text) : IsDecimal run := by
  obtain ⟨nonempty, literal, before, after, rfl, hbefore, hafter⟩ := h
  rw [List.append_assoc] at single
  rcases single.of_append.left_of_append.digits_or literal with
    digits | ⟨-, whole, fraction, rfl, hwhole, hfraction⟩
  · exact .inl ⟨nonempty, digits⟩
  refine .inr ⟨whole, fraction, rfl, ⟨?_, hwhole⟩, ?_, hfraction⟩
  · rintro rfl
    -- In front of the point stands the bracket, or what stands in front of the literal.
    have chain := linked.isChain
    have split : '(' :: (before ++ ([] ++ '.' :: fraction) ++ after) =
        ('(' :: before) ++ '.' :: (fraction ++ after) := by simp
    rw [split] at chain
    have last := List.getLast?_eq_some_getLast (List.cons_ne_nil '(' before)
    have follows : Follows _ '.' := (List.isChain_append.1 chain).2.2 _ last '.' rfl
    have digit := follows.isDigit_of_point
    rcases List.eq_nil_or_concat before with rfl | ⟨front, c, rfl⟩
    · cases digit
    · have hc := hbefore c (by rw [List.concat_eq_append, List.getLast?_concat]; rfl)
      rw [isLiteral, Bool.or_eq_false_iff] at hc
      simp [hc.1] at digit
  · rintro rfl
    have sound := linked.sound
    have split : before ++ (whole ++ '.' :: []) ++ after = (before ++ whole) ++ '.' :: after := by
      simp
    rw [split] at sound
    cases after with
    | nil => exact sound.ends List.getLast?_concat
    | cons d after =>
      have digit := sound.follows.isDigit
      have hd := hafter d rfl
      rw [isLiteral, digit] at hd
      cases hd

/-! ## The normal form -/

/-- Among the symbols of expressions only the space is white space. -/
theorem isBlank_of_isExpected (expected : isExpected c = true) (space : c ≠ ' ') :
    isBlank c = false := by
  rcases isExpected_cases expected with h | h | h | h | rfl | rfl | rfl
  · exact isBlank_eq_false (.inr h)
  · exact isBlank_eq_false (.inl h)
  · rcases isOperator_cases h with rfl | rfl | rfl | rfl | rfl | rfl <;> rfl
  · rw [isSeparator, Bool.or_eq_true, beq_iff_eq, beq_iff_eq] at h
    rcases h with rfl | rfl <;> rfl
  · rfl
  · rfl
  · exact absurd rfl space

/-- **Every `^` stands directly between two brackets** if no operator stands behind it and no
    literal or letter. -/
theorem Linked.powerBetweenBrackets (linked : Linked Kind.follows '(' (before ++ '^' :: after))
    (lone : ('(' :: (before ++ '^' :: after)).IsChain LonePower)
    (wrapped : (before ++ '^' :: after).IsChain fun c d => c = '^' → isWrapped d = false) :
    before.getLast? = some ')' ∧ after.head? = some '(' := by
  obtain ⟨followsBefore, followsBehind⟩ :=
    neighbours_of_isChain ('(' :: before) linked.isChain
  obtain ⟨loneBefore, loneBehind⟩ := neighbours_of_isChain ('(' :: before) lone
  constructor
  · have link (j : Kind) (h : j.follows .caret = true) : j = .closing ∨ j = .caret := by
      revert h
      cases j <;> decide
    have closing {c : Char} (hc : c ∈ ('(' :: before).getLast?) : c = ')' := by
      rcases link _ (followsBefore c hc) with h | h
      · exact kind_eq_closing_iff.1 h
      · exact absurd rfl (loneBefore c hc (kind_eq_caret_iff.1 h)).1
    rcases List.eq_nil_or_concat before with rfl | ⟨front, c, rfl⟩
    · exact absurd (closing (c := '(') rfl) (by decide)
    · rw [List.concat_eq_append, ← List.cons_append] at closing
      rw [List.concat_eq_append, List.getLast?_concat, closing List.getLast?_concat]
  · cases after with
    | nil =>
      obtain ⟨c, hc, hend⟩ := linked.getLast?
      rw [← List.cons_append, List.getLast?_concat] at hc
      cases hc
      cases hend
    | cons d after =>
      have unwrapped := (neighbours_of_isChain before wrapped).2 d rfl rfl
      rw [isWrapped, Bool.or_eq_false_iff, ← Bool.not_eq_true, isLiteral_iff, not_or] at unwrapped
      have noLetter : kind d ≠ .letter := by
        rw [Ne, kind_eq_letter_iff, unwrapped.2]
        decide
      have noCaret : kind d ≠ .caret := fun h =>
        (loneBehind d rfl rfl).1 (kind_eq_caret_iff.1 h)
      have link (k : Kind) (h : Kind.caret.follows k = true) (hdigit : k ≠ .digit)
          (hletter : k ≠ .letter) (hcaret : k ≠ .caret) : k = .opening := by
        revert h hdigit hletter hcaret
        cases k <;> decide
      have opening := link _ (followsBehind d rfl) unwrapped.1.1 noLetter noCaret
      rw [List.head?_cons, kind_eq_opening_iff.1 opening]

theorem respell_compact (compact : ∀ c ∈ text, c ≠ ' ') :
    respell text = (respellPowers text).map respellChar := by
  rw [respell, List.filter_eq_self.2 fun c hc => by simpa using compact c hc]

/-- No literal of normalized text has two points. -/
theorem WellFormed.singlePoints (h : WellFormed text) (nonblank : isBlankText text = false) :
    SinglePoints false (normalize text) := by
  have powered := (h.linked nonblank).respellPowers (fun h => absurd h (by decide))
  have compact := powered.dropTimesAfter (fun h => absurd h (by decide))
  have noPoint (j : Kind) : j.powered .star = true → j ≠ .point := by
    cases j <;> decide
  have noPoint' (k : Kind) : Kind.star.compact k = true → k ≠ .point := by
    cases k <;> decide
  have spelled : SinglePoints false (respelled text) :=
    SinglePoints.respelled h.separators fun passed => nomatch passed
  rw [normalize, respell, respellPowers_map]
  refine SinglePoints.addsBrackets ?_ (.wrapExponents _)
  refine SinglePoints.addsBrackets ?_ (.wrapBases _)
  refine SinglePoints.dropTimesBefore (compact.isChain_of ?_).tail
    (SinglePoints.dropTimesAfter (powered.isChain_of ?_).tail spelled.respellPowers)
  · rintro c d link rfl rfl
    exact noPoint' _ link rfl
  · rintro c d link rfl rfl
    exact noPoint _ link rfl

/-- In normalized text without spaces no operator stands behind a `^`. -/
theorem WellFormed.isChain_lonePower (h : WellFormed text) (compact : ∀ c ∈ text, c ≠ ' ') :
    ('(' :: normalize text).IsChain LonePower := by
  have chain := isChain_lonePower_respell (c := '(') compact h.operators nofun
  rw [normalize, respell_compact compact]
  refine (AddsBrackets.wrapExponents _).isChain_lonePower ?_
  refine (AddsBrackets.wrapBases _).isChain_lonePower ?_
  exact (DropsTimes.dropTimesBefore _).isChain LonePower.across
    ((DropsTimes.dropTimesAfter _).isChain LonePower.across chain)

theorem oneSpelling_respell (text : List Char) :
    OneSpelling text ((respellPowers text).map respellChar) := by
  fun_induction respellPowers text with
  | case1 rest ih => exact .power ih
  | case2 c rest hstars ih =>
    by_cases hcomma : c = ','
    · subst hcomma
      exact .separator ih
    by_cases hcolon : c = ':'
    · subst hcolon
      exact .quotient ih
    · have same : respellChar c = c := by
        rw [respellChar, if_neg (by simpa using hcomma), if_neg (by simpa using hcolon)]
      rw [List.map_cons, same]
      refine .symbol hcolon hcomma (fun hc hrest => ?_) ih
      obtain ⟨tail, rfl⟩ := List.head?_eq_some_iff.1 hrest
      exact hstars tail hc rfl
  | case3 => exact .nil

/-- Normalizing respells the text, and otherwise only drops signs and adds brackets. -/
theorem withoutGrouping_normalize (compact : ∀ c ∈ text, c ≠ ' ') :
    ∃ spelled, OneSpelling text spelled ∧
      withoutGrouping (normalize text) = withoutGrouping spelled := by
  refine ⟨_, oneSpelling_respell text, ?_⟩
  rw [withoutGrouping, normalize, filter_wrapExponents rfl rfl, filter_wrapBases rfl rfl,
    (DropsTimes.dropTimesBefore _).filter rfl, (DropsTimes.dropTimesAfter _).filter rfl,
    respell_compact compact, withoutGrouping]

theorem normalize_nil : normalize [] = [] := by
  simp [normalize, respell, respellPowers, dropTimesAfter, dropTimesBefore, wrapBases,
    wrapExponents]

/-- **The normalized text of a well-formed text without spaces is in normal form.** -/
theorem normalize_normalForm (compact : ' ' ∉ text) (h : malformed? text = none) :
    NormalForm text (normalize text) := by
  have compact : ∀ c ∈ text, c ≠ ' ' := fun c hc he => compact (he ▸ hc)
  rw [malformed?_eq_none_iff] at h
  cases text with
  | nil =>
    rw [normalize_nil]
    refine ⟨nofun, .nil, ?_, ?_, [], .nil, rfl⟩
    · intro before after whole
      cases before <;> cases whole
    · rintro run ⟨nonempty, -, before, after, whole, -⟩
      simp at whole
      exact absurd whole.2.1 nonempty
  | cons c text =>
    have nonblank : isBlankText (c :: text) = false := isBlankText_eq_false List.mem_cons_self
      (isBlank_of_isExpected (h.expected c List.mem_cons_self) (compact c List.mem_cons_self))
    have linked := h.normalize_linked nonblank
    constructor
    · exact fun d hd => isNormal_of_kind (linked.sound.known d hd)
    · exact (h.balanced.normalize_layered le_rfl).balanced
    · intro before after whole
      have lone := h.isChain_lonePower compact
      have wrapped : (normalize (c :: text)).IsChain fun c d => c = '^' → isWrapped d = false :=
        isChain_wrapExponents _
      rw [whole] at linked lone wrapped
      exact linked.powerBetweenBrackets lone wrapped
    · exact fun run => isDecimal_of_isRun linked (h.singlePoints nonblank)
    · exact withoutGrouping_normalize compact

/-- The powers of `2^3^x*1,5` in normal form. -/
theorem normalForm_powers : ' ' ∉ "2^3^x*1,5".toList ∧ malformed? "2^3^x*1,5".toList = none ∧
    NormalForm "2^3^x*1,5".toList "(2)^(3)^(x)1.5".toList := by
  have compact : ' ' ∉ "2^3^x*1,5".toList := by decide +kernel
  have fine : malformed? "2^3^x*1,5".toList = none := by decide +kernel
  have normal : normalize "2^3^x*1,5".toList = "(2)^(3)^(x)1.5".toList := by decide +kernel
  rw [← normal]
  exact ⟨compact, fine, normalize_normalForm compact fine⟩

end SamePoly
