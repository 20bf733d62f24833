/-
  Normalizing twice.

  The multiplication signs go before the brackets come, so the second normalization finds
  multiplication signs next to brackets that were not there before.  It finds nothing else, and the
  third one finds nothing at all.

  * `TimesBetweenDigits`: every multiplication sign stands between two digits.
  * `Settled`: neighbours that only the steps for multiplication signs may change.
  * `normalize_of_settled`: normalizing such text is dropping multiplication signs.
  * `timesBetweenDigits_dropTimes`, `dropTimes_eq_self`: what is left of them, and what stays.
  * `normalize_normalize`: **the second normalization of a well-formed text drops multiplication
    signs next to brackets, the third one changes nothing**.
-/
import SamePoly.Proofs.NormalForm

namespace SamePoly

variable {c d : Char} {text rest before after : List Char}

/-! ## Multiplication signs between digits -/

/-- Every multiplication sign stands between two digits. -/
def TimesBetweenDigits (text : List Char) : Prop :=
  ∀ before after, text = before ++ '*' :: after →
    (∃ c ∈ before.getLast?, c.isDigit = true) ∧ ∃ d ∈ after.head?, d.isDigit = true

/-- A digit stands in front of a multiplication sign. -/
def DigitBefore (c d : Char) : Prop := d = '*' → c.isDigit = true

/-- A digit stands behind a multiplication sign. -/
def DigitBehind (c d : Char) : Prop := c = '*' → d.isDigit = true

theorem isChain_of_forall {R : Char → Char → Prop}
    (h : ∀ before c d after, text = before ++ c :: d :: after → R c d) : text.IsChain R := by
  induction text with
  | nil => exact .nil
  | cons c text ih =>
    refine List.isChain_cons.2 ⟨fun d hd => ?_, ih fun before e f after whole => ?_⟩
    · obtain ⟨rest, rfl⟩ := List.head?_eq_some_iff.1 hd
      exact h [] c d rest rfl
    · exact h (c :: before) e f after (by rw [whole, List.cons_append])

namespace TimesBetweenDigits

theorem digitBefore (h : TimesBetweenDigits text) : text.IsChain DigitBefore := by
  refine isChain_of_forall fun before c d after whole hd => ?_
  subst hd
  obtain ⟨⟨e, he, digit⟩, -⟩ := h (before ++ [c]) after (by rw [whole, List.append_assoc]; rfl)
  rw [List.getLast?_concat] at he
  cases he
  exact digit

theorem digitBehind (h : TimesBetweenDigits text) : text.IsChain DigitBehind := by
  refine isChain_of_forall fun before c d after whole hc => ?_
  subst hc
  obtain ⟨-, e, he, digit⟩ := h before (d :: after) whole
  cases he
  exact digit

end TimesBetweenDigits

/-- Multiplication signs stand between digits if all neighbours of them are digits, with brackets
    around the text. -/
theorem timesBetweenDigits_of_isChain
    (h : ('(' :: (text ++ [')'])).IsChain fun c d =>
      (d = '*' → c.isDigit = true) ∧ (c = '*' → d.isDigit = true)) : TimesBetweenDigits text := by
  rintro before after rfl
  rw [List.append_assoc, List.cons_append, ← List.cons_append] at h
  obtain ⟨digits, behind⟩ := neighbours_of_isChain ('(' :: before) h
  constructor
  · rcases List.eq_nil_or_concat before with rfl | ⟨front, c, rfl⟩
    · cases (digits '(' rfl).1 rfl
    · rw [List.concat_eq_append] at digits ⊢
      rw [← List.cons_append, List.getLast?_concat] at digits
      exact ⟨c, List.getLast?_concat, (digits c rfl).1 rfl⟩
  · cases after with
    | nil => cases (behind ')' rfl).2 rfl
    | cons d after => exact ⟨d, rfl, (behind d rfl).2 rfl⟩

theorem dropTimesAfter_of_digitBefore (h : text.IsChain DigitBefore) :
    dropTimesAfter text = text := by
  fun_induction dropTimesAfter text with
  | case1 c rest _ ih => rw [ih h.tail]
  | case2 c rest digit _ => exact absurd ((List.isChain_cons_cons.1 h).1 rfl) digit
  | case3 c rest _ ih => rw [ih h.tail]
  | case4 => rfl

theorem dropTimesBefore_of_digitBehind (h : text.IsChain DigitBehind) :
    dropTimesBefore text = text := by
  fun_induction dropTimesBefore text with
  | case1 c rest _ ih => rw [ih h.tail]
  | case2 c rest digit _ => exact absurd ((List.isChain_cons_cons.1 h).1 rfl) digit
  | case3 c rest _ ih => rw [ih h.tail]
  | case4 => rfl

/-- Multiplication signs between digits stay. -/
theorem dropTimes_eq_self (h : TimesBetweenDigits text) :
    dropTimesBefore (dropTimesAfter text) = text := by
  rw [dropTimesAfter_of_digitBefore h.digitBefore, dropTimesBefore_of_digitBehind h.digitBehind]

/-! ## What is left of them -/

/-- Multiplication signs do not stand side by side. -/
def LoneTimes (c d : Char) : Prop := c = '*' → d ≠ '*'

theorem head?_dropTimesAfter (text : List Char) : (dropTimesAfter text).head? = text.head? := by
  fun_induction dropTimesAfter text <;> rfl

theorem isChain_digitBefore (h : text.IsChain LoneTimes) :
    (dropTimesAfter text).IsChain DigitBefore := by
  fun_induction dropTimesAfter text with
  | case1 c rest digit ih => exact List.isChain_cons.2 ⟨fun _ _ _ => digit, ih h.tail⟩
  | case2 c rest _ ih =>
    refine List.isChain_cons.2 ⟨fun d hd he => ?_, ih h.tail.tail⟩
    rw [head?_dropTimesAfter] at hd
    exact absurd he ((List.isChain_cons.1 h.tail).1 d hd rfl)
  | case3 c rest hstar ih =>
    refine List.isChain_cons.2 ⟨fun d hd he => ?_, ih h.tail⟩
    rw [head?_dropTimesAfter] at hd
    obtain ⟨tail, rfl⟩ := List.head?_eq_some_iff.1 hd
    exact (hstar tail (by rw [he])).elim
  | case4 => exact .nil

theorem isChain_digitBehind (h : text.IsChain LoneTimes) :
    (dropTimesBefore text).IsChain DigitBehind := by
  fun_induction dropTimesBefore text with
  | case1 c rest digit ih =>
    refine List.isChain_cons.2 ⟨fun d hd _ => ?_, ih h.tail⟩
    have hc : c ≠ '*' := by
      rintro rfl
      cases digit
    rw [dropTimesBefore_cons hc] at hd
    cases hd
    exact digit
  | case2 c rest _ ih =>
    have hc : c ≠ '*' := (List.isChain_cons_cons.1 h).1 rfl
    exact List.isChain_cons.2 ⟨fun _ _ he => absurd he hc, ih h.tail.tail⟩
  | case3 c rest hstar ih =>
    refine List.isChain_cons.2 ⟨fun d hd he => ?_, ih h.tail⟩
    cases rest with
    | nil => cases hd
    | cons e rest => exact (hstar e rest he rfl).elim
  | case4 => exact .nil

theorem DigitBefore.across (c d : Char) (_ : DigitBefore c '*') (h : DigitBefore '*' d) :
    DigitBefore c d := fun hd => nomatch h hd

theorem LoneTimes.across (c d : Char) (h : LoneTimes c '*') (_ : LoneTimes '*' d) :
    LoneTimes c d := fun hc => absurd rfl (h hc)

/-- **Only multiplication signs between digits are left** when those behind and before all other
    symbols are dropped. -/
theorem timesBetweenDigits_dropTimes (linked : Linked Kind.follows '(' text) :
    TimesBetweenDigits (dropTimesBefore (dropTimesAfter text)) := by
  have lone : ('(' :: text).IsChain LoneTimes := by
    refine linked.isChain_of ?_
    rintro c d follows rfl rfl
    cases follows
  have front : ('(' :: dropTimesAfter text).IsChain DigitBefore := by
    refine List.isChain_cons.2 ⟨fun d hd he => ?_, isChain_digitBefore lone.tail⟩
    subst he
    rw [head?_dropTimesAfter] at hd
    obtain ⟨rest, rfl⟩ := List.head?_eq_some_iff.1 hd
    cases linked.1
  have behind : (dropTimesBefore (dropTimesAfter text)).IsChain DigitBehind :=
    isChain_digitBehind ((DropsTimes.dropTimesAfter text).isChain LoneTimes.across lone).tail
  have ends : Linked Kind.compact '(' (dropTimesBefore (dropTimesAfter text)) := by
    refine Linked.dropTimesBefore (Linked.dropTimesAfter (fun h => absurd h (by decide)) ?_)
    refine linked.mono fun j k => ?_
    cases j <;> cases k <;> decide
  have front := (DropsTimes.dropTimesBefore _).isChain DigitBefore.across front
  intro before after whole
  rw [whole] at front behind ends
  constructor
  · have digit := (neighbours_of_isChain ('(' :: before) front).1
    rcases List.eq_nil_or_concat before with rfl | ⟨start, c, rfl⟩
    · cases digit '(' rfl rfl
    · rw [List.concat_eq_append] at digit ⊢
      refine ⟨c, List.getLast?_concat, digit c ?_ rfl⟩
      rw [← List.cons_append]
      exact List.getLast?_concat
  · cases after with
    | nil =>
      obtain ⟨c, hc, hend⟩ := ends.getLast?
      rw [← List.cons_append, List.getLast?_concat] at hc
      cases hc
      cases hend
    | cons d after => exact ⟨d, rfl, (neighbours_of_isChain before behind).2 d rfl rfl⟩

/-! ## Settled text -/

/-- Neighbours in text that has its brackets. -/
def Settled (c d : Char) : Prop := Follows c d ∧ (c = '^' → isWrapped d = false)

theorem Settled.across (c d : Char) (h : Settled c '*') (h' : Settled '*' d) : Settled c d := by
  have link (j k : Kind) (h : j.follows .star = true) (h' : Kind.star.follows k = true) :
      j.follows k = true := by
    revert h h'
    cases j <;> cases k <;> decide
  refine ⟨link _ _ h.1 h'.1, ?_⟩
  rintro rfl
  cases h.1

/-- A text of known symbols behind an opening bracket that has its brackets. -/
structure SettledText (text : List Char) : Prop where
  known : ∀ c ∈ text, kind c ≠ .other
  settled : ('(' :: text).IsChain Settled

namespace SettledText

theorem respellChar_eq_self (h : kind c ≠ .other) : respellChar c = c := by
  rw [respellChar]
  split_ifs with hcomma hcolon
  · rw [beq_iff_eq] at hcomma
    subst hcomma
    exact absurd rfl h
  · rw [beq_iff_eq] at hcolon
    subst hcolon
    exact absurd rfl h
  · rfl

theorem respellPowers_eq_self (h : text.IsChain LoneTimes) : respellPowers text = text := by
  fun_induction respellPowers text with
  | case1 rest _ => exact absurd rfl ((List.isChain_cons_cons.1 h).1 rfl)
  | case2 c rest _ ih => rw [ih h.tail]
  | case3 => rfl

/-- Settled text is spelled in the one way. -/
theorem respell (h : SettledText text) : respell text = text := by
  have spaces : ∀ c ∈ text, c ≠ ' ' := by
    rintro c hc rfl
    exact h.known ' ' hc rfl
  have lone : text.IsChain LoneTimes := by
    refine h.settled.tail.imp ?_
    rintro c d ⟨follows, -⟩ rfl rfl
    cases follows
  rw [respell_compact spaces, respellPowers_eq_self lone, List.map_congr_left, List.map_id]
  exact fun c hc => respellChar_eq_self (h.known c hc)

theorem dropTimes (h : SettledText text) : SettledText (dropTimesBefore (dropTimesAfter text)) :=
  ⟨fun c hc => h.known c
    ((dropTimesAfter_sublist text).subset ((dropTimesBefore_sublist _).subset hc)),
    (DropsTimes.dropTimesBefore _).isChain Settled.across
      ((DropsTimes.dropTimesAfter text).isChain Settled.across h.settled)⟩

theorem wrapBases (h : SettledText text) : wrapBases text = text := by
  refine wrapBases_eq_self (h.settled.tail.imp ?_)
  rintro c d ⟨follows, -⟩ rfl
  have link (j : Kind) (h : j.follows .caret = true) : j ≠ .digit ∧ j ≠ .point ∧ j ≠ .letter := by
    revert h
    cases j <;> decide
  obtain ⟨digit, point, letter⟩ := link _ follows
  rw [Ne, kind_eq_letter_iff, Bool.not_eq_true] at letter
  rw [isWrapped, letter, Bool.or_false, ← Bool.not_eq_true, isLiteral_iff, not_or]
  exact ⟨digit, point⟩

theorem wrapExponents (h : SettledText text) : wrapExponents text = text :=
  wrapExponents_eq_self (h.settled.tail.imp fun _ _ settled => settled.2)

/-- **Normalizing settled text is dropping multiplication signs.** -/
theorem normalize (h : SettledText text) :
    normalize text = dropTimesBefore (dropTimesAfter text) := by
  rw [SamePoly.normalize, h.respell, h.dropTimes.wrapBases, h.dropTimes.wrapExponents]

end SettledText

/-! ## Normalizing twice -/

/-- Nothing is left of a text of white space. -/
theorem WellFormed.normalize_blank (h : WellFormed text) (blank : isBlankText text = true) :
    normalize text = [] := by
  have spaces : text.filter (· != ' ') = [] := by
    refine List.filter_eq_nil_iff.2 fun c hc space => ?_
    have symbol := isBlank_of_isExpected (h.expected c hc) (by simpa using space)
    rw [List.all_eq_true.1 blank c hc] at symbol
    cases symbol
  have empty : normalize text = normalize [] := by rw [normalize, respell, spaces]; rfl
  rw [empty, normalize_nil]

theorem isChain_and {R S : Char → Char → Prop} (hR : text.IsChain R) (hS : text.IsChain S) :
    text.IsChain fun c d => R c d ∧ S c d :=
  List.isChain_iff_getElem.2 fun i hi =>
    ⟨List.isChain_iff_getElem.1 hR i hi, List.isChain_iff_getElem.1 hS i hi⟩

theorem WellFormed.settledText (h : WellFormed text) (nonblank : isBlankText text = false) :
    SettledText (normalize text) := by
  have linked := h.normalize_linked nonblank
  have wrapped : (normalize text).IsChain fun c d => c = '^' → isWrapped d = false :=
    isChain_wrapExponents _
  have behindBracket : ('(' :: normalize text).IsChain fun c d => c = '^' → isWrapped d = false :=
    List.isChain_cons.2 ⟨fun _ _ => nofun, wrapped⟩
  exact ⟨linked.sound.known, isChain_and linked.isChain behindBracket⟩

/-- **The second normalization of a well-formed text drops the multiplication signs that do not
    stand between digits, and the third one changes nothing.** -/
theorem normalize_normalize (h : malformed? text = none) :
    normalize (normalize text) = dropTimesBefore (dropTimesAfter (normalize text)) ∧
      normalize (normalize (normalize text)) = normalize (normalize text) ∧
      TimesBetweenDigits (normalize (normalize text)) ∧
      (normalize (normalize text) = normalize text ↔ TimesBetweenDigits (normalize text)) := by
  rw [malformed?_eq_none_iff] at h
  obtain ⟨settled, between⟩ : SettledText (normalize text) ∧
      TimesBetweenDigits (dropTimesBefore (dropTimesAfter (normalize text))) := by
    cases blank : isBlankText text with
    | true =>
      rw [h.normalize_blank blank]
      refine ⟨⟨nofun, List.isChain_singleton _⟩, fun before after whole => ?_⟩
      cases before <;> cases whole
    | false => exact ⟨h.settledText blank, timesBetweenDigits_dropTimes (h.normalize_linked blank)⟩
  rw [← settled.normalize] at between
  have second : SettledText (normalize (normalize text)) := by
    rw [settled.normalize]
    exact settled.dropTimes
  refine ⟨settled.normalize, ?_, between, fun same => same ▸ between, fun stays => ?_⟩
  · rw [second.normalize, dropTimes_eq_self between]
  · rw [settled.normalize, dropTimes_eq_self stays]

/-- The brackets of `2^3*4` come behind the step that would drop its multiplication sign. -/
theorem normalize_normalize_power : malformed? "2^3*4".toList = none ∧
    normalize (normalize (normalize "2^3*4".toList)) = normalize (normalize "2^3*4".toList) ∧
      TimesBetweenDigits (normalize (normalize "2^3*4".toList)) := by
  have fine : malformed? "2^3*4".toList = none := by decide +kernel
  obtain ⟨-, stays, between, -⟩ := normalize_normalize fine
  exact ⟨fine, stays, between⟩

/-- The multiplication sign of `2^3*4` goes when it is normalized for the second time. -/
theorem normalize_normalize_ne : malformed? "2^3*4".toList = none ∧
    normalize "2^3*4".toList = "(2)^(3)*4".toList ∧
      normalize (normalize "2^3*4".toList) = "(2)^(3)4".toList ∧
        "(2)^(3)*4".toList ≠ "(2)^(3)4".toList := by
  decide +kernel

end SamePoly
