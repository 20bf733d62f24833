/-
  What is cut out at an operator.

  The check for violations cuts both operands of an operator out of the text, and reports them
  together with the operator.  All cuts lie inside the text and between two characters, whatever the
  text is.

  * `StandsAt`: a part of a text from one place between characters to another.
  * `scannedStart`, `scannedEnd`: where a scan of the bytes finds the ends of the operands.
  * `Site.Sliced`: everything that is cut out at an operator stands where it is cut out.
  * `sites_sliced`: **the operands of every operator are sliced where the bytes say, and every
    violation is reported at such an operator**.
-/
import SamePoly.Proofs.Bytes
import SamePoly.Violation.Check

namespace SamePoly

variable {text part before after : List Char} {first last : ℕ}

/-! ## Parts of a text by place -/

/-- `part` stands in a text from the place `first` to the place `last`, both between two
    characters. -/
def StandsAt (text part : List Char) (first last : ℕ) : Prop :=
  ∃ before after, text = before ++ (part ++ after) ∧ utf8Length before = first ∧
    utf8Length (before ++ part) = last

theorem StandsAt.le (h : StandsAt text part first last) :
    first ≤ last ∧ last ≤ utf8Length text := by
  obtain ⟨before, after, rfl, rfl, rfl⟩ := h
  simp only [utf8Length_append]
  omega

/-- What is in front of an operator ends in its operand. -/
theorem operandBefore_append (before : List Char) :
    ∃ rest, rest ++ operandBefore before = before := by
  rcases nearest_before before with h | ⟨text, c, spaces, rfl, h, space⟩
  · exact ⟨[], by rw [operandBefore_spaces h, List.nil_append]⟩
  by_cases hclose : c = ')'
  · subst hclose
    rw [operandBefore_closing h]
    cases found : groupBefore? text.reverse with
    | none => exact ⟨[], rfl⟩
    | some x =>
      have whole := congrArg List.reverse (splitAtMatch_append found)
      rw [List.reverse_reverse] at whole
      exact ⟨x.2.reverse, by simp [← whole]⟩
  · rw [operandBefore_symbol h space hclose]
    split
    · exact ⟨text, by simp⟩
    · have whole := reverse_dropWhile_append isNumeric (text ++ [c])
      rw [List.reverse_append, List.reverse_singleton, List.singleton_append] at whole
      refine ⟨((c :: text.reverse).dropWhile isNumeric).reverse, ?_⟩
      rw [← List.append_assoc, whole, List.append_assoc, List.singleton_append]

/-! ## Places of operands -/

/-- Where a scan of the bytes in front of a place finds the start of an operand. -/
def scannedStart (bytes : List Char) (place : ℕ) : ℕ :=
  place - (operandBefore (bytes.take place)).length

/-- Where a scan of the bytes behind a place finds the end of an operand. -/
def scannedEnd (bytes : List Char) (place : ℕ) : ℕ :=
  place + (operandAfter (bytes.drop place)).length

/-- The start of an operand, by characters and by bytes. -/
theorem operandStart_eq (whole : text = before ++ after) :
    operandStart text (utf8Length before) =
        utf8Length before - utf8Length (operandBefore before) ∧
      scannedStart (byteSymbols text) (utf8Length before) =
        utf8Length before - utf8Length (operandBefore before) := by
  subst whole
  constructor
  · rw [operandStart, cut_utf8Length]
    cases after <;> simp
  · rw [scannedStart, byteSymbols_append, ← length_byteSymbols before, List.take_left,
      operandBefore_byteSymbols, length_byteSymbols (operandBefore before)]

/-- The end of an operand, by characters and by bytes. -/
theorem operandEnd_eq (whole : text = before ++ after) :
    operandEnd text (utf8Length before) = utf8Length before + utf8Length (operandAfter after) ∧
      scannedEnd (byteSymbols text) (utf8Length before) =
        utf8Length before + utf8Length (operandAfter after) := by
  subst whole
  constructor
  · rw [operandEnd, cut_utf8Length]
    cases after <;> simp [operandAfter, utf8Length]
  · rw [scannedEnd, byteSymbols_append, ← length_byteSymbols before, List.drop_left,
      operandAfter_byteSymbols, length_byteSymbols (operandAfter after)]

/-- A place between two characters has as many characters before it as the part before it. -/
theorem charPosition_eq (whole : text = before ++ after) :
    charPosition text (utf8Length before) = before.length := by
  subst whole
  rw [charPosition, cut_utf8Length]

/-! ## Sites -/

namespace Site

variable (site : Site text)

/-- The place where the operator starts. -/
def place : ℕ := utf8Length site.before

/-- The place behind the operator. -/
def behind : ℕ := utf8Length (site.before ++ site.operator)

/-- Everything that is cut out at an operator stands where it is cut out, if the operands reach
    from `start` to `finish`. -/
structure Sliced (start finish : ℕ) : Prop where
  order : start ≤ site.place ∧ site.place < site.behind ∧ site.behind ≤ finish ∧
    finish ≤ utf8Length text
  left : StandsAt text site.left start site.place
  operator : StandsAt text site.operator site.place site.behind
  right : StandsAt text site.right site.behind finish
  fragment : ∀ kind, StandsAt text (site.violation kind).fragment start finish
  contains : ∀ kind, site.operator <:+: (site.violation kind).fragment
  position : ∀ kind, (site.violation kind).position = charPosition text site.place

/-- The text around the operands of an operator. -/
theorem exists_around : ∃ front back,
    text = front ++ (site.left ++ (site.operator ++ (site.right ++ back))) ∧
      site.before = front ++ site.left ∧ site.after = site.right ++ back := by
  obtain ⟨front, hfront⟩ := operandBefore_append site.before
  obtain ⟨back, hback⟩ := operandAfter_append site.after
  refine ⟨front, back, ?_, hfront.symm, hback.symm⟩
  calc
    text = site.before ++ site.operator ++ site.after := site.whole.symm
    _ = front ++ site.left ++ site.operator ++ (site.right ++ back) := by
      rw [left, hfront, right, hback]
    _ = _ := by simp only [List.append_assoc]

theorem start_eq : operandStart text site.place = scannedStart (byteSymbols text) site.place := by
  have start := operandStart_eq (site.whole.symm.trans (List.append_assoc _ _ _))
  exact start.1.trans start.2.symm

theorem finish_eq : operandEnd text site.behind = scannedEnd (byteSymbols text) site.behind := by
  have finish := operandEnd_eq site.whole.symm
  exact finish.1.trans finish.2.symm

/-- **All that is cut out at an operator stands in the text, between characters.** -/
theorem sliced : site.Sliced (operandStart text site.place) (operandEnd text site.behind) := by
  obtain ⟨front, back, whole, hbefore, hafter⟩ := site.exists_around
  have hplace : site.place = utf8Length (front ++ site.left) := by rw [place, hbefore]
  have hbehind : site.behind = utf8Length (front ++ site.left ++ site.operator) := by
    rw [behind, hbefore]
  have hstart : operandStart text site.place = utf8Length front := by
    have start := (operandStart_eq (site.whole.symm.trans (List.append_assoc _ _ _))).1
    rw [← left, hbefore, utf8Length_append, Nat.add_sub_cancel] at start
    rwa [hplace, utf8Length_append]
  have hfinish : operandEnd text site.behind =
      utf8Length (front ++ site.left ++ site.operator ++ site.right) := by
    rw [behind, (operandEnd_eq site.whole.symm).1, ← right, hbefore, ← utf8Length_append]
  have left : StandsAt text site.left (operandStart text site.place) site.place :=
    ⟨front, _, whole, hstart.symm, hplace.symm⟩
  have right : StandsAt text site.right site.behind (operandEnd text site.behind) :=
    ⟨front ++ site.left ++ site.operator, back, by simpa using whole, hbehind.symm, hfinish.symm⟩
  have operator : StandsAt text site.operator site.place site.behind :=
    ⟨front ++ site.left, site.right ++ back, by simpa using whole, hplace.symm, hbehind.symm⟩
  have nonempty : site.place < site.behind := by
    have := mt utf8Length_eq_zero_iff.1 site.nonempty
    rw [place, behind, utf8Length_append]
    omega
  refine ⟨⟨left.le.1, nonempty, right.le.1, right.le.2⟩, left, operator, right, fun kind => ?_,
    fun kind => ⟨site.left, site.right, rfl⟩, fun kind => ?_⟩
  · refine ⟨front, back, ?_, hstart.symm, ?_⟩
    · rw [violation, fragment]
      simpa using whole
    · rw [violation, fragment, hfinish]
      simp
  · exact (charPosition_eq (site.whole.symm.trans (List.append_assoc _ _ _))).symm

end Site

/-- A violation is reported at a division or at a power. -/
theorem exists_site_of_violation? {R : Type} [Scalar R] {vanishes : VanishingTest text}
    {v : Violation} (h : violation? R text vanishes = some v) :
    ∃ site ∈ divisionSites text ++ powerSites text, v = site.violation v.kind := by
  have found {sites : List (Site text)} {fault : Site text → Option Violation.Kind}
      (h : (sites.findSome? fun site => (fault site).map site.violation) = some v) :
      ∃ site ∈ sites, v = site.violation v.kind := by
    obtain ⟨site, hsite, same⟩ := List.exists_of_findSome?_eq_some h
    obtain ⟨kind, -, rfl⟩ := Option.map_eq_some_iff.1 same
    exact ⟨site, hsite, rfl⟩
  rw [violation?] at h
  split at h
  · cases h
    rename_i division
    obtain ⟨site, hsite, same⟩ := found division
    exact ⟨site, List.mem_append_left _ hsite, same⟩
  · obtain ⟨site, hsite, same⟩ := found h
    exact ⟨site, List.mem_append_right _ hsite, same⟩

/-- **At every operator of a text, the operands are cut out where a scan of the bytes finds their
    ends, inside the text and between characters; and every violation is reported so.** -/
theorem sites_sliced (R : Type) [Scalar R] (text : List Char) (vanishes : VanishingTest text) :
    (∀ site : Site text,
        operandStart text site.place = scannedStart (byteSymbols text) site.place ∧
        operandEnd text site.behind = scannedEnd (byteSymbols text) site.behind ∧
        site.Sliced (operandStart text site.place) (operandEnd text site.behind)) ∧
      ∀ v, violation? R text vanishes = some v →
        ∃ site ∈ divisionSites text ++ powerSites text, v = site.violation v.kind :=
  ⟨fun site => ⟨site.start_eq, site.finish_eq, site.sliced⟩, fun _ => exists_site_of_violation?⟩

end SamePoly
