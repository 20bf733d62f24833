/-
  Texts of monomials.

  A monomial is taken apart with brackets around every variable.  These keep the text sound and
  balanced, and outside of them there is no variable, so every factor that is looked at is a number
  or a single variable.

  * `wrapVariables_append`, `Balanced.wrapVariables`, `Sound.wrapVariables`: brackets around
    variables.
  * `PolyError.isInternal`: the reasons that a checked text does not have.
  * `not_isInternal_of_compileMonomial`: **no sound monomial is rejected for an internal reason**.
-/
import SamePoly.Proofs.Letters
import SamePoly.Proofs.Reached

namespace SamePoly

variable {text rest : List Char} {c : Char}

/-! ## Brackets around variables -/

theorem wrapVariables_append (text rest : List Char) :
    wrapVariables (text ++ rest) = wrapVariables text ++ wrapVariables rest :=
  List.flatMap_append ..

theorem wrapVariables_cons_of_isVariable (hc : isVariable c = true) (text : List Char) :
    wrapVariables (c :: text) = '(' :: c :: ')' :: wrapVariables text := by
  rw [wrapVariables, List.flatMap_cons, hc]
  rfl

theorem wrapVariables_cons_of_not_isVariable (hc : isVariable c = false) (text : List Char) :
    wrapVariables (c :: text) = c :: wrapVariables text := by
  rw [wrapVariables, List.flatMap_cons, hc]
  rfl

theorem ne_of_isVariable (hc : isVariable c = true) : c ≠ '(' ∧ c ≠ ')' ∧ c ≠ '/' ∧ c ≠ '^' := by
  refine ⟨?_, ?_, ?_, ?_⟩ <;> (rintro rfl; cases hc)

theorem isLetter_of_isVariable (hc : isVariable c = true) : isLetter c = true := by
  obtain ⟨lower, unit⟩ := Bool.and_eq_true_iff.1 hc
  have alpha : c.isAlpha = true := by simp [Char.isAlpha, lower]
  rw [isLetter, unit, isAlphabetic_of_isAlpha alpha]
  rfl

theorem kind_of_isVariable (hc : isVariable c = true) : kind c = .letter :=
  kind_eq_letter_iff.2 (Bool.and_eq_true_iff.1 hc).1

/-- Without letters there are no variables. -/
theorem hasVariable_of_any_isLetter (h : text.any isLetter = false) : hasVariable text = false := by
  rw [hasVariable, List.any_eq_false]
  intro c hc isName
  exact List.any_eq_false.1 h c hc (isLetter_of_isVariable isName)

theorem Balanced.wrapVariables (h : Balanced text) : Balanced (SamePoly.wrapVariables text) := by
  induction h with
  | nil => exact .nil
  | @symbol c rest hopen hclose _ ih =>
    cases hc : isVariable c with
    | true =>
      rw [wrapVariables_cons_of_isVariable hc]
      exact @Balanced.group [c] _ (.symbol hopen hclose .nil) ih
    | false =>
      rw [wrapVariables_cons_of_not_isVariable hc]
      exact .symbol hopen hclose ih
  | @group inside rest _ _ ihInside ih =>
    rw [wrapVariables_cons_of_not_isVariable rfl, wrapVariables_append,
      wrapVariables_cons_of_not_isVariable rfl]
    exact .group ihInside ih

/-- What stands behind a letter may stand behind its closing bracket. -/
theorem checkBracketsFrom_of_wrapVariables {position position' : ℕ} {opened opened' : List ℕ}
    (same : opened.length = opened'.length)
    (h : checkBracketsFrom position opened (wrapVariables text) = none) :
    checkBracketsFrom position' opened' text = none := by
  induction text generalizing position position' opened opened' with
  | nil =>
    cases opened with
    | nil =>
      rw [List.eq_nil_of_length_eq_zero same.symm]
      rfl
    | cons place opened => simp [wrapVariables, checkBracketsFrom] at h
  | cons c text ih =>
    cases hc : isVariable c with
    | true =>
      obtain ⟨hopen, hclose, -⟩ := ne_of_isVariable hc
      rw [wrapVariables_cons_of_isVariable hc, checkBracketsFrom_opening,
        checkBracketsFrom_symbol hopen hclose, checkBracketsFrom_closing] at h
      rw [checkBracketsFrom_symbol hopen hclose]
      exact ih same h
    | false =>
      rw [wrapVariables_cons_of_not_isVariable hc] at h
      by_cases hopen : c = '('
      · rw [hopen, checkBracketsFrom_opening] at h ⊢
        exact ih (by simpa using same) h
      · by_cases hclose : c = ')'
        · rw [hclose] at h ⊢
          cases opened with
          | nil => cases h
          | cons place opened =>
            cases opened' with
            | nil => cases same
            | cons place' opened' =>
              rw [checkBracketsFrom_closing] at h ⊢
              exact ih (by simpa using same) h
        · rw [checkBracketsFrom_symbol hopen hclose] at h ⊢
          exact ih same h

/-- Brackets around variables close no others. -/
theorem balanced_of_wrapVariables (h : Balanced (wrapVariables text)) : Balanced text :=
  checkBrackets_eq_none_iff.1
    (checkBracketsFrom_of_wrapVariables rfl (checkBrackets_eq_none_iff.2 h))

theorem Follows.closing {d : Char} (hc : kind c = .letter) (h : Follows c d) : Follows ')' d := by
  have behind (k : Kind) (h : Kind.letter.follows k = true) : Kind.closing.follows k = true := by
    revert h
    cases k <;> decide
  rw [Follows, hc] at h
  exact behind _ h

/-- Where a letter stands a bracket may open. -/
theorem Follows.opening {d : Char} (hd : kind d = .letter) (h : Follows c d) : Follows c '(' := by
  have before (j : Kind) (h : j.follows .letter = true) : j.follows .opening = true := by
    revert h
    cases j <;> decide
  rw [Follows, hd] at h
  exact before _ h

/-- Neighbours of which a variable may get brackets. -/
structure Encloses (R : Char → Char → Prop) : Prop where
  opening : ∀ c d, isVariable d = true → R c d → R c '('
  inside : ∀ d, isVariable d = true → R '(' d ∧ R d ')'
  closing : ∀ c d, isVariable c = true → R c d → R ')' d

theorem Encloses.isChain_cons {R : Char → Char → Prop} (hR : Encloses R)
    (h : (c :: text).IsChain R) : (c :: wrapVariables text).IsChain R := by
  induction text generalizing c with
  | nil => exact h
  | cons d text ih =>
    obtain ⟨first, chain⟩ := List.isChain_cons_cons.1 h
    cases hd : isVariable d with
    | true =>
      have behind : (')' :: text).IsChain R := by
        cases text with
        | nil => exact List.isChain_singleton _
        | cons e text =>
          obtain ⟨next, chain⟩ := List.isChain_cons_cons.1 chain
          exact List.isChain_cons_cons.2 ⟨hR.closing d e hd next, chain⟩
      rw [wrapVariables_cons_of_isVariable hd]
      exact List.isChain_cons_cons.2 ⟨hR.opening c d hd first, List.isChain_cons_cons.2
        ⟨(hR.inside d hd).1, List.isChain_cons_cons.2 ⟨(hR.inside d hd).2, ih behind⟩⟩⟩
    | false =>
      rw [wrapVariables_cons_of_not_isVariable hd]
      exact List.isChain_cons_cons.2 ⟨first, ih chain⟩

theorem Encloses.isChain {R : Char → Char → Prop} (hR : Encloses R) (h : text.IsChain R) :
    (wrapVariables text).IsChain R := by
  cases text with
  | nil => exact .nil
  | cons d text =>
    cases hd : isVariable d with
    | true => exact (hR.isChain_cons (List.isChain_cons_cons.2 ⟨(hR.inside d hd).1, h⟩)).tail
    | false =>
      rw [wrapVariables_cons_of_not_isVariable hd]
      exact hR.isChain_cons h

theorem encloses_follows : Encloses Follows where
  opening _ _ hd follows := follows.opening (kind_of_isVariable hd)
  inside d hd := by
    rw [Follows, Follows, kind_of_isVariable hd]
    decide
  closing _ _ hc follows := follows.closing (kind_of_isVariable hc)

theorem getLast?_wrapVariables (hc : c ≠ ')') (h : text.getLast? ≠ some c) :
    (wrapVariables text).getLast? ≠ some c := by
  rcases List.eq_nil_or_concat text with rfl | ⟨text, d, rfl⟩
  · exact nofun
  · rw [List.concat_eq_append, wrapVariables_append]
    rw [List.concat_eq_append, List.getLast?_concat] at h
    cases hd : isVariable d with
    | true =>
      rw [wrapVariables_cons_of_isVariable hd]
      have last : (wrapVariables text ++ '(' :: d :: ')' :: wrapVariables []).getLast? = some ')' := by
        simp [wrapVariables]
      rw [last]
      exact fun same => hc (Option.some.inj same).symm
    | false =>
      rw [wrapVariables_cons_of_not_isVariable hd]
      have last : (wrapVariables text ++ d :: wrapVariables []).getLast? = some d := by
        simp [wrapVariables]
      rwa [last]

theorem head?_wrapVariables (hc : c ≠ '(') (h : text.head? ≠ some c) :
    (wrapVariables text).head? ≠ some c := by
  cases text with
  | nil => exact nofun
  | cons d text =>
    cases hd : isVariable d with
    | true =>
      rw [wrapVariables_cons_of_isVariable hd]
      exact fun same => hc (Option.some.inj same).symm
    | false =>
      rw [wrapVariables_cons_of_not_isVariable hd]
      exact h

theorem known_wrapVariables (h : ∀ c ∈ text, kind c ≠ .other) :
    ∀ c ∈ wrapVariables text, kind c ≠ .other := by
  intro c hc
  obtain ⟨d, hd, hc⟩ := List.mem_flatMap.1 hc
  split at hc
  · rcases List.mem_cons.1 hc with rfl | hc
    · decide
    · rcases List.mem_pair.1 hc with rfl | rfl
      · exact h _ hd
      · decide
  · rw [List.mem_singleton.1 hc]
    exact h d hd

/-- Brackets around variables keep a text sound. -/
theorem Sound.wrapVariables (h : Sound text) : Sound (SamePoly.wrapVariables text) where
  known := known_wrapVariables h.known
  adjacent := encloses_follows.isChain h.adjacent
  ends := getLast?_wrapVariables (by decide) h.ends

/-- A number or a single variable. -/
def IsSimple (factor : List Char) : Prop :=
  hasVariable factor = false ∨ ∃ c, factor = [c] ∧ isVariable c = true

/-- In a monomial all variables stand in brackets of their own. -/
theorem Balanced.shaped_wrapVariables (h : Balanced text) (outside : letterInside 0 text = false) :
    Shaped (fun c => isVariable c = false)
      IsSimple (SamePoly.wrapVariables text) := by
  induction h with
  | nil => exact .nil
  | @symbol c rest hopen hclose _ ih =>
    rw [letterInside_symbol hopen hclose] at outside
    cases hc : isVariable c with
    | true =>
      rw [wrapVariables_cons_of_isVariable hc]
      exact @Shaped.group _ _ [c] _ (.symbol hopen hclose .nil) (.inr ⟨c, rfl, hc⟩) (ih outside)
    | false =>
      rw [wrapVariables_cons_of_not_isVariable hc]
      exact .symbol hopen hclose hc (ih outside)
  | @group inside rest hinside _ _ ih =>
    rw [hinside.letterInside_group, Bool.or_eq_false_iff] at outside
    have numeric : hasVariable inside = false := hasVariable_of_any_isLetter outside.1
    rw [wrapVariables_cons_of_not_isVariable rfl, wrapVariables_append,
      wrapVariables_cons_of_not_isVariable rfl, wrapVariables_eq_self numeric]
    exact .group hinside (.inl numeric) (ih outside.2)

/-! ## Monomials that fail -/

/-- The reasons that only text which has passed no check can have. -/
def PolyError.isInternal : PolyError → Bool
  | .levels | .endless | .unexpectedFactor _ _ | .noFactor _ => true
  | _ => false

theorem hasVariable_prepareFactor {factor : List Char} {e : Exponent}
    (h : hasVariable (prepareFactor factor e).1 = true) : hasVariable factor = true := by
  obtain ⟨c, hc, isName⟩ := List.any_eq_true.1 h
  obtain ⟨hc, isName⟩ := occurs_of_prepareFactor ⟨hc, isName⟩
  exact List.any_eq_true.2 ⟨c, hc, isName⟩

variable {R : Type} [Scalar R] {x : List Char × Exponent}

/-- The base of a simple factor is a variable. -/
theorem IsSimple.base {base : List Char} {n : ℕ} (hx : IsSimple x.1)
    (h : evaluateFactor x.1 x.2 = .ok (Factor.symbolic base n : Factor R)) :
    ∃ c, base = [c] ∧ isVariable c = true := by
  obtain ⟨rfl, letter, -⟩ := evaluateFactor_symbolic h
  rcases hx with numeric | ⟨c, single, isName⟩
  · rw [hasVariable_prepareFactor letter] at numeric
    cases numeric
  · refine ⟨c, ?_, isName⟩
    rw [single, prepareFactor.eq_def]
    split <;> rename_i same
    · rw [(List.cons.inj same).1] at isName
      cases isName
    · rw [(List.cons.inj same).1] at isName
      cases isName
    · rw [(List.cons.inj same).1] at isName
      cases isName
    · rfl

/-- A simple factor of a monomial is not unexpected. -/
theorem IsSimple.not_isInternal {found : Number R × Shape} {e : PolyError} (hx : IsSimple x.1)
    (h : multiplyFactor R text found x = .error e) : e.isInternal = false := by
  rw [multiplyFactor] at h
  cases hfactor : (evaluateFactor x.1 x.2 : Except FactorFault (Factor R)) with
  | error fault =>
    rw [hfactor] at h
    cases h
    rfl
  | ok factor =>
    cases factor with
    | numeric value =>
      rw [hfactor] at h
      cases h
    | symbolic base n =>
      obtain ⟨c, rfl, isName⟩ := hx.base hfactor
      rw [hfactor] at h
      dsimp only at h
      rw [if_pos isName] at h
      split at h
      · cases h
        rfl
      · cases h

/-- **No sound monomial is rejected for an internal reason.** -/
theorem not_isInternal_of_compileMonomial {e : PolyError} (balanced : Balanced text)
    (sound : Sound text) (starts : text.head? ≠ some '^') (ends : text.getLast? ≠ some '^')
    (outside : letterInside 0 text = false) (h : compileMonomial R text = .error e) :
    e.isInternal = false := by
  have soundWrapped := sound.wrapVariables
  obtain ⟨segments, last, segmented⟩ := balanced.wrapVariables.exists_segmented soundWrapped
    (head?_wrapVariables (by decide) starts) (getLast?_wrapVariables (by decide) ends) []
  have spelled := segmented.spelled
  have shaped := balanced.shaped_wrapVariables outside
  rw [spelled] at soundWrapped shaped
  obtain ⟨parts, shapedLast⟩ := Segment.forall_shaped segmented.cut shaped
  have filled : ∀ s ∈ segments, s.inside ≠ [] := fun s hs =>
    ((Segment.forall_sound soundWrapped).1 s hs).2.ne_nil
  have simple : ∀ before x after, splitComposition (wrapVariables text) = before ++ x :: after →
      (∀ y ∈ before, ∀ p ∈ y.2.pieces, Reads p) → IsSimple x.1 := by
    intro before x after cut earlier
    rcases segmented.of_earlier filled cut earlier with ⟨s, hs, lead | group⟩ | ⟨same, clean⟩
    · refine .inl (List.any_eq_false.2 fun c hc => ?_)
      rw [lead] at hc
      have member : c ∈ s.stretch.reverse.reverse := (withoutOperator_isPrefix _).subset hc
      rw [List.reverse_reverse] at member
      exact Bool.eq_false_iff.1 ((parts s hs).1 c member)
    · rw [group]
      exact (parts s hs).2
    · refine .inl (List.any_eq_false.2 fun c hc => ?_)
      rw [same] at hc
      exact Bool.eq_false_iff.1 (shapedLast.forall_of_run (fun d hd => (clean d hd).1) c hc)
  rw [compileMonomial] at h
  split at h
  · rename_i e' failed
    cases h
    obtain ⟨before, x, after, found, cut, earlier, failed⟩ := error_of_foldlM failed
    refine (simple before x after cut fun y hy => ?_).not_isInternal failed
    obtain ⟨b, b', success⟩ := earlier y hy
    exact reads_of_multiplyFactor success
  · cases h

end SamePoly
