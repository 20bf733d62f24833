/-
  Where separators stand.

  The check of numbers looks for a separator in three surroundings, wherever they begin.  That it
  finds none says two things about the separators themselves.

  * `SeparatorsPlaced`: each separator stands directly between two digits, and between any two of
    them stands something else than digits and spaces.
  * `incorrectNumbers_eq_nil_iff_placed`: **the check of numbers finds nothing exactly in text
    whose separators are placed so**.
-/
import SamePoly.Proofs.WellFormed

namespace SamePoly

variable {text before after : List Char} {c : Char}

/-- Each separator stands directly between two digits, and between any two of them stands something
    else than digits and spaces. -/
structure SeparatorsPlaced (text : List Char) : Prop where
  whole : ∀ before c after, text = before ++ c :: after → isSeparator c = true →
    ∃ d ∈ before.getLast?, d.isDigit = true
  fraction : ∀ before c after, text = before ++ c :: after → isSeparator c = true →
    ∃ d ∈ after.head?, d.isDigit = true
  apart : ∀ before c between d after, text = before ++ c :: (between ++ d :: after) →
    isSeparator c = true → isSeparator d = true → ∃ e ∈ between, e.isDigit = false ∧ e ≠ ' '

theorem isDigitOrSpace_eq_false_iff : isDigitOrSpace c = false ↔ c.isDigit = false ∧ c ≠ ' ' := by
  rw [isDigitOrSpace, Bool.or_eq_false_iff, beq_eq_false_iff_ne]

/-! ## From the surroundings to the separators -/

theorem SeparatorsPlaced.of_everywhere (h : Everywhere SeparatorFits text)
    (start : ∀ d, ahead text = some d → isSeparator d = false) : SeparatorsPlaced text := by
  have fits := everywhere_iff_append.1 h
  have next {c : Char} (hc : isSeparator c = true) (after : List Char) :
      ahead (c :: after) = some c :=
    ahead_cons (isDigitOrSpace_eq_false_iff.1 (isDigitOrSpace_of_isSeparator hc)).2 after
  constructor
  · rintro before c after rfl hc
    rcases List.eq_nil_or_concat before with rfl | ⟨before, d, rfl⟩
    · rw [start c (next hc after)] at hc
      cases hc
    · refine ⟨d, by simp, ?_⟩
      by_contra digit
      rw [Bool.not_eq_true] at digit
      have := (fits before d (c :: after) (by simp)).whole digit c (next hc after)
      rw [this] at hc
      cases hc
  · rintro before c after whole hc
    obtain ⟨d, r, rfl, digit⟩ := (fits before c after whole).fraction hc
    exact ⟨d, rfl, digit⟩
  · rintro before c between d after whole hc hd
    by_contra same
    have run : ∀ e ∈ between, isDigitOrSpace e = true := fun e he => by
      by_contra other
      exact same ⟨e, he, isDigitOrSpace_eq_false_iff.1 (by simpa using other)⟩
    have ends : ((between ++ d :: after).dropWhile isDigitOrSpace).head? = some d := by
      rw [List.dropWhile_append_of_pos run, List.dropWhile_cons, isDigitOrSpace_of_isSeparator hd]
      rfl
    rw [(fits before c _ whole).single hc d ends] at hd
    cases hd

/-! ## From the separators to the surroundings -/

/-- No separator is ahead unless a digit stands before. -/
theorem SeparatorsPlaced.not_ahead (h : SeparatorsPlaced (before ++ after))
    (hbefore : ∀ d ∈ before.getLast?, d.isDigit = false) {d : Char} (hd : ahead after = some d) :
    isSeparator d = false := by
  obtain ⟨spaces, rest, rfl, hspaces⟩ := exists_run_of_head?_dropWhile hd
  by_contra separator
  rw [Bool.not_eq_false] at separator
  obtain ⟨e, he, digit⟩ := h.whole (before ++ spaces) d rest (by simp) separator
  rcases List.eq_nil_or_concat spaces with rfl | ⟨spaces, f, rfl⟩
  · rw [List.append_nil] at he
    rw [hbefore e he] at digit
    cases digit
  · have : f = e := by simpa using he
    subst this
    rw [beq_iff_eq.1 (hspaces f (by simp))] at digit
    cases digit

theorem SeparatorsPlaced.everywhere (h : SeparatorsPlaced text) : Everywhere SeparatorFits text := by
  rw [everywhere_iff_append]
  rintro before c rest rfl
  constructor
  · intro digit d hd
    rw [← List.singleton_append, ← List.append_assoc] at h
    exact h.not_ahead (by simp [digit]) hd
  · intro hc
    obtain ⟨d, hd, digit⟩ := h.fraction before c rest rfl hc
    obtain ⟨r, rfl⟩ := List.head?_eq_some_iff.1 hd
    exact ⟨d, r, rfl, digit⟩
  · intro hc d hd
    obtain ⟨run, after, rfl, hrun⟩ := exists_run_of_head?_dropWhile hd
    by_contra separator
    rw [Bool.not_eq_false] at separator
    obtain ⟨e, he, other⟩ := h.apart before c run d after rfl hc separator
    have inside := hrun e he
    rw [isDigitOrSpace_eq_false_iff.2 other] at inside
    cases inside

/-- **The check of numbers finds nothing exactly in text whose separators stand between digits, one
    in each number.** -/
theorem incorrectNumbers_eq_nil_iff_placed (text : List Char) :
    incorrectNumbers text = [] ↔ SeparatorsPlaced text := by
  rw [incorrectNumbers_eq_nil_iff]
  constructor
  · rintro ⟨fits, start⟩
    exact .of_everywhere fits start
  · intro h
    exact ⟨h.everywhere, fun d hd => @SeparatorsPlaced.not_ahead [] text h nofun d hd⟩

end SamePoly
