/-
  Formulas are compiled to the polynomials that they denote.

  The normalized text of a formula is a sum of two groups, or a product of groups with
  exponents.  Its factors contribute powers of what the operands denote.

  * `Formula.Compiles`: the text of a formula is compiled to what the formula denotes.
  * `Formula.compiles`: every proper formula compiles unless its degree is too great.
  * `Formula.parse_spelled`: **every spelling of a proper formula that is neither too deep nor
    of too great a degree is parsed to the polynomial that the formula denotes**.
-/
import SamePoly.Proofs.Compilation
import SamePoly.Proofs.Formula.Validity

namespace SamePoly

open MvPolynomial (totalDegree)

/-! ## Normalized text -/

theorem Atom.expected_text (a : Atom) : ∀ c ∈ a.text, isExpected c = true := by
  intro c hc
  rcases text_symbols hc with h | rfl | h
  · rw [isLiteral, Bool.or_eq_true, beq_iff_eq] at h
    rcases h with h | rfl
    · simp [isExpected, h]
    · rfl
  · rfl
  · rw [isVariable, Bool.and_eq_true] at h
    simp [isExpected, h.1]

namespace Formula

variable (f : Formula)

theorem expected_text : ∀ c ∈ f.text, isExpected c = true :=
  f.forall_mem_text (fun a => a.expected_text) ⟨rfl, rfl, rfl, rfl, rfl, rfl⟩

theorem balanced_text : Balanced f.text := by
  have atom (a : Atom) : Balanced a.text :=
    .of_forall fun c hc => ⟨Atom.ne_of_mem_text hc (by decide), Atom.ne_of_mem_text hc (by decide)⟩
  induction f with
  | atom a => exact atom a
  | negation f ih => exact .symbol (by decide) (by decide) ih.bracketed
  | binary o f g ihf ihg =>
    have sign : Balanced o.sign := by
      cases o with
      | product => exact .nil
      | _ => exact .symbol (by decide) (by decide) .nil
    exact (ihf.bracketed.append sign).append ihg.bracketed
  | power f n ih =>
    have digits : Balanced n.digits := atom (.decimal n none)
    exact ih.bracketed.append (.symbol (by decide) (by decide) digits.bracketed)

/-- The first symbol of normalized text is a literal symbol, a letter, a bracket or a minus
    sign in front of a bracket. -/
theorem text_ne : f.text ≠ [] ∧ f.text ≠ ['+'] ∧ f.text ≠ ['-'] ∧ ∀ rest, f.text ≠ '/' :: rest := by
  cases f with
  | atom a =>
    obtain ⟨c, rest, htext⟩ := List.exists_cons_of_ne_nil a.text_ne_nil
    have hc : c ∈ a.text := htext ▸ List.mem_cons_self
    have first (d : Char) (rest' : List Char)
        (hd : isLiteral d = false ∧ d ≠ 'i' ∧ isVariable d = false) : a.text ≠ d :: rest' := by
      rw [htext]
      exact fun h => Atom.ne_of_mem_text hc hd (List.cons.inj h).1
    exact ⟨a.text_ne_nil, first '+' [] (by decide), first '-' [] (by decide),
      fun rest => first '/' rest (by decide)⟩
  | negation f => exact ⟨nofun, nofun, nofun, nofun⟩
  | binary o f g => exact ⟨nofun, nofun, nofun, nofun⟩
  | power f n => exact ⟨nofun, nofun, nofun, nofun⟩

theorem hasVariable_text : SamePoly.hasVariable f.text = !f.isNumeric := by
  have digits (n : Numeral) : SamePoly.hasVariable n.digits = false :=
    hasVariable_eq_false fun c hc => isVariable_of_isDigit (n.decimal c hc)
  induction f with
  | atom a =>
    cases a with
    | decimal whole fraction =>
      cases fraction with
      | none => exact digits whole
      | some fraction =>
        show SamePoly.hasVariable (whole.digits ++ '.' :: fraction.digits) = false
        rw [hasVariable_append, digits]
        exact digits fraction
    | unit => rfl
    | letter name isName =>
      show (isVariable name || false) = true
      rw [isName]
      rfl
  | negation f ih => exact (hasVariable_bracketed f.text).trans ih
  | binary o f g ihf ihg =>
    have sign : SamePoly.hasVariable o.sign = false := by
      cases o <;> rfl
    rw [text, hasVariable_append, hasVariable_append, sign, hasVariable_bracketed,
      hasVariable_bracketed, ihf, ihg, Bool.or_false, isNumeric, Bool.not_and]
  | power f n ih =>
    show SamePoly.hasVariable (bracketed f.text ++ '^' :: bracketed n.digits) = !f.isNumeric
    have exponent : SamePoly.hasVariable ('^' :: bracketed n.digits) = false :=
      (hasVariable_bracketed n.digits).trans (digits n)
    rw [hasVariable_append, hasVariable_bracketed, ih, exponent, Bool.or_false]

/-! ## Degrees -/

/-- The degree that a formula shows bounds that of what it denotes. -/
theorem totalDegree_denote_le {f : Formula} : totalDegree f.denote ≤ f.degree := by
  induction f with
  | atom a =>
    cases a with
    | decimal whole fraction => exact (MvPolynomial.totalDegree_C _).le
    | unit => exact (MvPolynomial.totalDegree_C _).le
    | letter name isName => exact (MvPolynomial.totalDegree_X name).le
  | negation f ih =>
    rw [denote, MvPolynomial.totalDegree_neg]
    exact ih
  | binary o f g ihf ihg =>
    cases o with
    | sum => exact (MvPolynomial.totalDegree_add _ _).trans (max_le_max ihf ihg)
    | difference => exact (MvPolynomial.totalDegree_sub _ _).trans (max_le_max ihf ihg)
    | product => exact (MvPolynomial.totalDegree_mul _ _).trans (Nat.add_le_add ihf ihg)
    | quotient =>
      refine (MvPolynomial.totalDegree_mul _ _).trans ?_
      rw [MvPolynomial.totalDegree_C]
      exact (Nat.add_le_add_right ihf 0).trans (Nat.le_add_right _ _)
  | power f n ih =>
    refine (MvPolynomial.totalDegree_pow _ _).trans ?_
    rw [degree, mul_comm]
    exact Nat.mul_le_mul ih (le_max_left _ _)

/-- A formula with a variable has a degree. -/
theorem degree_pos {f : Formula} (h : f.isNumeric = false) : 0 < f.degree := by
  induction f with
  | atom a =>
    cases a with
    | decimal whole fraction => cases h
    | unit => cases h
    | letter name isName => exact Nat.one_pos
  | negation f ih => exact ih h
  | binary o f g ihf ihg =>
    rw [isNumeric, Bool.and_eq_false_iff] at h
    have operand : 0 < f.degree ∨ 0 < g.degree := h.imp ihf ihg
    cases o with
    | sum => exact lt_max_iff.2 operand
    | difference => exact lt_max_iff.2 operand
    | product => exact Nat.add_pos_iff_pos_or_pos.2 operand
    | quotient => exact Nat.add_pos_iff_pos_or_pos.2 operand
  | power f n ih => exact Nat.mul_pos (ih h) (lt_max_of_lt_right Nat.one_pos)

end Formula

/-! ## Decompositions -/

section Decompositions

variable {s t : List Char} (hs : Balanced s) (ht : Balanced t) (hne : s ≠ [])

theorem endsTower_nil : EndsTower [] := nofun

theorem endsTower_cons {c : Char} (hc : c ≠ '^') (rest : List Char) : EndsTower (c :: rest) :=
  fun h => hc (Option.some.inj h)

include hs

/-- A group at the end of a text is the last factor. -/
theorem splitCompositionFrom_bracketed (factors : Factors) (stretch : List Char) (divided : Bool) :
    splitCompositionFrom factors stretch divided false (bracketed s) =
      (factors.push (withoutOperator stretch) .one).push s
        (if divided then .negated .one else .one) := by
  rw [bracketed, splitCompositionFrom_group hs endsTower_nil, splitCompositionFrom_nil]
  rfl

/-- A group at the start of a text is the first factor. -/
theorem splitComposition_bracketed_append (hne : s ≠ []) {rest : List Char} (hr : EndsTower rest) :
    splitComposition (bracketed s ++ rest) =
      splitCompositionFrom [(s, .one)] [] false false rest := by
  rw [splitComposition, bracketed_append, splitCompositionFrom_group hs hr]
  exact congrArg (splitCompositionFrom · [] false false rest) (push_nil hne _)

include hne

theorem splitComposition_bracketed : splitComposition (bracketed s) = [(s, .one)] := by
  rw [splitComposition, splitCompositionFrom_bracketed hs]
  exact push_nil hne _

theorem splitComposition_negated (hminus : s ≠ ['-']) :
    splitComposition ('-' :: bracketed s) = [(['-'], .one), (s, .one)] := by
  rw [splitComposition, splitCompositionFrom_symbol (by decide)]
  refine (splitCompositionFrom_bracketed hs [] ['-'] false).trans ?_
  exact push_other hne (Ne.symm hminus) .one .one

include ht

/-- Two groups side by side. -/
theorem splitComposition_product :
    splitComposition (bracketed s ++ bracketed t) = Factors.push [(s, .one)] t .one := by
  have first : EndsTower (bracketed t) := endsTower_cons (by decide) _
  rw [splitComposition_bracketed_append hs hne first, splitCompositionFrom_bracketed ht]
  rfl

/-- Two groups with a division between them. -/
theorem splitComposition_quotient :
    splitComposition (bracketed s ++ '/' :: bracketed t) =
      Factors.push [(s, .one)] t (.negated .one) := by
  have first : EndsTower ('/' :: bracketed t) := endsTower_cons (by decide) _
  rw [splitComposition_bracketed_append hs hne first, splitCompositionFrom_symbol (by decide)]
  exact splitCompositionFrom_bracketed ht [(s, .one)] ['/'] true

/-- A group in brackets as the exponent of another one. -/
theorem splitComposition_power :
    splitComposition (bracketed s ++ '^' :: bracketed t) = [(s, .literal (bracketed t))] := by
  have exponent : tower (bracketed t) = (bracketed t, []) := tower_group ht endsTower_nil
  have last : (bracketed t).getLast? ≠ some '^' := by
    rw [show (bracketed t).getLast? = _ from getLast?_bracketed [] t]
    decide
  rw [splitComposition, bracketed_append, splitCompositionFrom_power hs exponent last,
    splitCompositionFrom_nil]
  exact push_nil hne _

end Decompositions

/-! ## Operands as factors -/

/-- The digit one. -/
def Numeral.one : Numeral where
  digits := ['1']
  nonempty := List.cons_ne_nil _ _
  decimal := by simp

theorem Exponent.is_one : Exponent.one.Is 1 := ⟨rfl, Numeral.one.evaluate_digits⟩

theorem Exponent.is_numeral (n : Numeral) : (Exponent.literal (bracketed n.digits)).Is n.value :=
  ⟨(hasVariable_bracketed n.digits).trans
    (hasVariable_eq_false fun c hc => isVariable_of_isDigit (n.decimal c hc)), n.evaluate_bracketed⟩

/-- A number that is raised to an integer. -/
theorem numericFactor_intCast {text : List Char} {z : Number ℚ} {k : ℤ}
    (htext : evaluate text = .ok z) (hz : z ≠ 0 ∨ 0 ≤ k) :
    (numericFactor text (.ofReal (k : ℚ)) : Except FactorFault (Factor ℚ)) =
      .ok (.numeric (z ^ k)) := by
  have power : z.power? (.ofReal (k : ℚ)) = some (z ^ k) := by
    rw [Number.power?_intCast, if_neg]
    rintro ⟨h0, hk⟩
    exact hz.elim (fun h => h h0) fun h => absurd hk (not_lt.2 h)
  rw [numericFactor, htext]
  dsimp only
  rw [power]
  dsimp only
  rw [Number.isFinite_eq_true, if_pos rfl]

/-- A base that is raised to a natural number. -/
theorem symbolicFactor_natCast (text : List Char) {n : ℕ} (hn : n ≤ maxExponent) :
    (symbolicFactor text (.ofReal ((n : ℤ) : ℚ)) : Except FactorFault (Factor ℚ)) =
      .ok (if n = 0 then .numeric 1 else .symbolic text n) := by
  have exponent : (Number.ofReal ((n : ℤ) : ℚ)).exponent? = .ok ((n : ℤ) : ℚ) := by
    rw [Number.exponent?_intCast, if_neg (by omega)]
  have small : Scalar.less (Scalar.ofNat maxExponent) ((n : ℤ) : ℚ) = false := by
    rw [← Bool.not_eq_true, Scalar.less_iff, Scalar.ofNat_eq, not_lt, Int.cast_natCast]
    exact Nat.cast_le.2 hn
  rw [symbolicFactor, exponent]
  dsimp only
  by_cases h0 : n = 0
  · have zero : Scalar.isZero ((n : ℤ) : ℚ) = true := by
      rw [Scalar.isZero_iff, h0]
      rfl
    rw [zero, if_pos rfl, if_pos h0]
  · have nonzero : ¬Scalar.isZero ((n : ℤ) : ℚ) = true := by
      rw [Scalar.isZero_iff, Int.cast_natCast, Nat.cast_eq_zero]
      exact h0
    rw [if_neg nonzero, small, if_neg Bool.false_ne_true, if_neg h0, Scalar.toInt_intCast,
      Int.toNat_natCast]

/-- A minus sign in front of a product is the factor minus one. -/
theorem isNumber_minus : IsNumber (['-'], .one) (-1) := by
  have minus : (evaluate ['-', '1'] : Except EvalError (Number ℚ)) = .ok (-1) :=
    Numeral.one.evaluate_minus
  have numeric : hasVariable ['-', '1'] = false := rfl
  have base : prepareFactor ['-'] .one = (['-', '1'], .one) := rfl
  rw [IsNumber, evaluateFactor_eq base Exponent.is_one, numeric,
    if_neg Bool.false_ne_true, numericFactor_intCast minus (.inr zero_le_one), zpow_one]

namespace Formula

variable {f g : Formula} {e : Exponent}

theorem prepareFactor_text (f : Formula) (e : Exponent) :
    prepareFactor f.text e = (f.text, e) := by
  obtain ⟨-, hplus, hminus, hslash⟩ := f.text_ne
  rw [prepareFactor.eq_def]
  split
  · rename_i h; exact absurd h hplus
  · rename_i h; exact absurd h hminus
  · rename_i h; exact absurd h (hslash _)
  · rfl

/-- The text of a formula without variables is a number as a factor. -/
theorem isNumber {k : ℤ} (h : f.isNumeric = true) (proper : f.Proper) (he : e.Is k)
    (hk : f.value ≠ 0 ∨ 0 ≤ k) : IsNumber (f.text, e) (f.value ^ k) := by
  rw [IsNumber, evaluateFactor_eq (f.prepareFactor_text e) he, hasVariable_text, h, Bool.not_true,
    if_neg Bool.false_ne_true, numericFactor_intCast (evaluate_text h proper) hk]

/-- The text of a formula with variables is a base as a factor. -/
theorem evaluateFactor_text {n : ℕ} (h : f.isNumeric = false) (he : e.Is n)
    (hn : n ≤ maxExponent) :
    (evaluateFactor f.text e : Except FactorFault (Factor ℚ)) =
      .ok (if n = 0 then .numeric 1 else .symbolic f.text n) := by
  rw [evaluateFactor_eq (f.prepareFactor_text e) he, hasVariable_text, h, Bool.not_false,
    if_pos rfl, symbolicFactor_natCast _ hn]

/-- The text of a formula is compiled to what the formula denotes wherever its brackets are not
    nested too deeply. -/
def Compiles (f : Formula) : Prop :=
  ∀ depth, depth + f.depth ≤ maxNestingDepth →
    ∃ term, compileSum ℚ f.text depth = .ok term ∧ term.Denotes f.denote

/-- **As a factor, the text of a formula is a power of what the formula denotes.** -/
theorem Compiles.supplies (compiles : f.Compiles) (proper : f.Proper) {n depth : ℕ}
    (room : depth + (f.depth + 1) ≤ maxNestingDepth) (he : e.Is n)
    (hn : f.isNumeric = false → n ≤ maxExponent)
    (degree : n * totalDegree f.denote ≤ maxExponent) {symbolic : Bool}
    (hs : f.isNumeric = true ∨ symbolic = true) :
    Supplies depth symbolic (f.text, e) (f.denote ^ n) := by
  cases hv : f.isNumeric with
  | true =>
    have number := isNumber hv proper he (.inr n.cast_nonneg)
    rw [denote_eq_C hv, ← map_pow, ← zpow_natCast]
    exact number.supplies depth symbolic
  | false =>
    obtain rfl : symbolic = true := hs.resolve_left (by rw [hv]; decide)
    have factor := evaluateFactor_text hv he (hn hv)
    by_cases h0 : n = 0
    · rw [if_pos h0] at factor
      have number : IsNumber (f.text, e) 1 := factor
      rw [h0, pow_zero, ← MvPolynomial.C_1]
      exact number.supplies depth true
    · rw [if_neg h0] at factor
      obtain ⟨term, hterm, hdenotes⟩ := compiles (depth + 1) (by omega)
      refine ⟨term.compose n, fun text => ?_, hdenotes.compose n degree⟩
      rw [factorTerm, factor]
      dsimp only
      rw [baseTerm_eq (by omega), hterm]
      rfl

/-- A factor without an exponent. -/
theorem Compiles.supplies_one (compiles : f.Compiles) (proper : f.Proper) {depth : ℕ}
    (room : depth + (f.depth + 1) ≤ maxNestingDepth) (degree : totalDegree f.denote ≤ maxExponent)
    {symbolic : Bool} (hs : f.isNumeric = true ∨ symbolic = true) :
    Supplies depth symbolic (f.text, .one) f.denote := by
  have first := compiles.supplies proper (n := 1) room Exponent.is_one
    (fun _ => by decide) ((Nat.one_mul _).trans_le degree) hs
  rwa [pow_one] at first

/-- Formulas with the same text denote the same polynomial. -/
theorem Compiles.denote_eq (hf : f.Compiles) (hg : g.Compiles)
    (room : f.depth ≤ maxNestingDepth ∧ g.depth ≤ maxNestingDepth) (same : f.text = g.text) :
    f.denote = g.denote := by
  obtain ⟨t, ht, hft⟩ := hf 0 (by omega)
  obtain ⟨u, hu, hgu⟩ := hg 0 (by omega)
  rw [same, hu] at ht
  cases ht
  exact hft.1.symm.trans hgu.1

/-! ## Products -/

variable {rest : List Char}

theorem letterInside_bracketed_append (f : Formula) (rest : List Char) :
    letterInside 0 (bracketed f.text ++ rest) =
      (SamePoly.hasVariable f.text || letterInside 0 rest) := by
  rw [bracketed_append, f.balanced_text.letterInside_group, any_isLetter f.expected_text]

theorem letterInside_bracketed (f : Formula) :
    letterInside 0 (bracketed f.text) = SamePoly.hasVariable f.text := by
  have letters := letterInside_bracketed_append f []
  rwa [List.append_nil, letterInside, Bool.or_false] at letters

/-- All letters of an operand stand in its brackets. -/
theorem letterInside_text (f : Formula) (hf : ∀ a, f ≠ .atom a) :
    letterInside 0 f.text = SamePoly.hasVariable f.text := by
  cases f with
  | atom a => exact absurd rfl (hf a)
  | negation f =>
    rw [text, letterInside_symbol (by decide) (by decide), letterInside_bracketed]
    exact (hasVariable_bracketed f.text).symm
  | binary o f g =>
    have sign : letterInside 0 (o.sign ++ bracketed g.text) = letterInside 0 (bracketed g.text) := by
      cases o with
      | product => rfl
      | _ => exact letterInside_symbol (by decide) (by decide) _
    rw [hasVariable_text, isNumeric, Bool.not_and, ← hasVariable_text, ← hasVariable_text,
      ← letterInside_bracketed g, ← sign, text, List.append_assoc, letterInside_bracketed_append]
  | power f n =>
    have exponent : letterInside 0 ('^' :: bracketed n.digits) = false := by
      rw [letterInside_symbol (by decide) (by decide)]
      exact (letterInside_bracketed (.atom (.decimal n none))).trans (hasVariable_text _)
    have letters := letterInside_bracketed_append f ('^' :: bracketed n.digits)
    rw [exponent, Bool.or_false, hasVariable_text] at letters
    rw [hasVariable_text]
    exact letters

theorem isSum_bracketed_append (f : Formula) (rest : List Char) :
    isSum (bracketed f.text ++ rest) = signOutside 0 rest := by
  rw [bracketed_append, f.balanced_text.isSum_group]

/-- No sign stands outside an operand in brackets. -/
theorem signOutside_bracketed (f : Formula) : signOutside 0 (bracketed f.text) = false :=
  f.balanced_text.signOutside_group []

theorem isSum_negation (f : Formula) : isSum f.negation.text = false := signOutside_bracketed f

theorem isSum_product (f g : Formula) : isSum (binary .product f g).text = false := by
  rw [text, List.append_assoc, isSum_bracketed_append]
  exact signOutside_bracketed g

theorem isSum_quotient (f g : Formula) : isSum (binary .quotient f g).text = false := by
  rw [text, List.append_assoc, isSum_bracketed_append]
  exact signOutside_bracketed g

theorem isSum_power (f : Formula) (n : Numeral) : isSum (f.power n).text = false :=
  (isSum_bracketed_append f ('^' :: bracketed n.digits)).trans
    (signOutside_bracketed (.atom (.decimal n none)))

theorem numeric_or (f : Formula) : f.isNumeric = true ∨ (!f.isNumeric) = true := by
  cases f.isNumeric with
  | true => exact .inl rfl
  | false => exact .inr rfl

/-- A formula in brackets is compiled to what the formula denotes. -/
theorem Compiles.group (compiles : f.Compiles) (proper : f.Proper) {depth : ℕ}
    (room : depth + (f.depth + 1) ≤ maxNestingDepth) (degree : totalDegree f.denote ≤ maxExponent) :
    ∃ term, compileProduct ℚ (bracketed f.text) depth = .ok term ∧ term.Denotes f.denote := by
  have sums := isSum_bracketed_append f []
  rw [List.append_nil] at sums
  have letters := letterInside_bracketed f
  rw [← hasVariable_bracketed] at letters
  have factors : List.Forall₂ (Supplies depth (SamePoly.hasVariable (bracketed f.text)))
      (splitComposition (bracketed f.text)) [f.denote] := by
    rw [splitComposition_bracketed f.balanced_text f.text_ne.1, hasVariable_bracketed,
      hasVariable_text]
    exact .cons (compiles.supplies_one proper room degree f.numeric_or) .nil
  have product := exists_compileProduct (by omega) sums letters (List.cons_ne_nil _ _) factors ?_
  · rwa [List.prod_singleton] at product
  · rwa [List.map_singleton, List.sum_singleton]

/-- A formula in brackets behind a minus sign. -/
theorem Compiles.negated (compiles : f.Compiles) (proper : f.Proper) {depth : ℕ}
    (room : depth + (f.depth + 1) ≤ maxNestingDepth) (degree : totalDegree f.denote ≤ maxExponent) :
    ∃ term, compileProduct ℚ f.negation.text depth = .ok term ∧
      term.Denotes f.negation.denote := by
  have factors : List.Forall₂ (Supplies depth (SamePoly.hasVariable f.negation.text))
      (splitComposition f.negation.text) [MvPolynomial.C (-1), f.denote] := by
    rw [hasVariable_text, text,
      splitComposition_negated f.balanced_text f.text_ne.1 f.text_ne.2.2.1]
    exact .cons (isNumber_minus.supplies depth _)
      (.cons (compiles.supplies_one proper room degree f.numeric_or) .nil)
  have product := exists_compileProduct (by omega) (isSum_negation f)
    (f.negation.letterInside_text (by simp)) (List.cons_ne_nil _ _) factors ?_
  · rwa [List.prod_cons, List.prod_singleton, map_neg, MvPolynomial.C_1, neg_one_mul] at product
  · rwa [List.map_cons, List.map_singleton, MvPolynomial.totalDegree_C, List.sum_cons,
      List.sum_singleton, zero_add]

/-- A formula in brackets with an exponent in brackets. -/
theorem Compiles.raised (compiles : f.Compiles) (proper : f.Proper) (n : Numeral) {depth : ℕ}
    (room : depth + (f.depth + 1) ≤ maxNestingDepth) (degree : (f.power n).degree ≤ maxExponent) :
    ∃ term, compileProduct ℚ (f.power n).text depth = .ok term ∧
      term.Denotes (f.power n).denote := by
  have digits : Balanced n.digits := (Formula.atom (.decimal n none)).balanced_text
  rw [Formula.degree] at degree
  have exponent (h : f.isNumeric = false) : n.value ≤ maxExponent :=
    (le_max_left n.value 1).trans ((Nat.le_mul_of_pos_left _ (degree_pos h)).trans degree)
  have powerDegree : n.value * totalDegree f.denote ≤ maxExponent := by
    refine le_trans ?_ degree
    rw [mul_comm]
    exact Nat.mul_le_mul totalDegree_denote_le (le_max_left _ _)
  have factors : List.Forall₂ (Supplies depth (SamePoly.hasVariable (f.power n).text))
      (splitComposition (f.power n).text) [f.denote ^ n.value] := by
    rw [hasVariable_text, show splitComposition (f.power n).text = _ from
      splitComposition_power f.balanced_text digits f.text_ne.1]
    exact .cons (compiles.supplies proper room (Exponent.is_numeral n) exponent powerDegree
      f.numeric_or) .nil
  have product := exists_compileProduct (by omega) (isSum_power f n)
    ((f.power n).letterInside_text (by simp)) (List.cons_ne_nil _ _) factors ?_
  · rwa [List.prod_singleton] at product
  · rw [List.map_singleton, List.sum_singleton]
    exact (MvPolynomial.totalDegree_pow _ _).trans powerDegree

theorem isNumeric_eq (same : f.text = g.text) : f.isNumeric = g.isNumeric := by
  have letters := f.hasVariable_text
  rwa [same, g.hasVariable_text, Bool.not_inj_iff, eq_comm] at letters

/-- Two formulas in brackets side by side.  Equal operands are one factor. -/
theorem Compiles.product (hf : f.Compiles) (hg : g.Compiles) (properF : f.Proper)
    (properG : g.Proper) {depth : ℕ} (roomF : depth + (f.depth + 1) ≤ maxNestingDepth)
    (roomG : depth + (g.depth + 1) ≤ maxNestingDepth)
    (degree : totalDegree f.denote + totalDegree g.denote ≤ maxExponent) :
    ∃ term, compileProduct ℚ (binary .product f g).text depth = .ok term ∧
      term.Denotes (binary .product f g).denote := by
  have whole : (binary .product f g).text = bracketed f.text ++ bracketed g.text := by
    rw [text, Operation.sign, List.append_nil]
  have factors := splitComposition_product f.balanced_text g.balanced_text f.text_ne.1
  rw [← whole] at factors
  obtain ⟨qs, hne, hqs, hprod, hdegree⟩ : ∃ qs, qs ≠ [] ∧
      List.Forall₂ (Supplies depth (SamePoly.hasVariable (binary .product f g).text))
        (splitComposition (binary .product f g).text) qs ∧
      qs.prod = f.denote * g.denote ∧ (qs.map totalDegree).sum ≤ maxExponent := by
    rw [factors, hasVariable_text, isNumeric]
    by_cases same : f.text = g.text
    · have meaning : f.denote = g.denote := hf.denote_eq hg ⟨by omega, by omega⟩ same
      have square : 2 * totalDegree f.denote ≤ maxExponent := by
        rwa [← meaning, ← two_mul] at degree
      have numeric := isNumeric_eq same
      refine ⟨[f.denote ^ 2], List.cons_ne_nil _ _, ?_, ?_, ?_⟩
      · rw [← same, push_same f.text_ne.1, ← numeric, Bool.and_self]
        exact .cons (hf.supplies properF (n := 2) roomF (Exponent.is_one.accumulate Exponent.is_one)
          (fun _ => by decide) square f.numeric_or) .nil
      · rw [List.prod_singleton, ← meaning, pow_two]
      · rw [List.map_singleton, List.sum_singleton]
        exact (MvPolynomial.totalDegree_pow _ _).trans square
    · refine ⟨[f.denote, g.denote], List.cons_ne_nil _ _, ?_, ?_, ?_⟩
      · rw [push_other g.text_ne.1 same]
        refine .cons (hf.supplies_one properF roomF (by omega) ?_)
          (.cons (hg.supplies_one properG roomG (by omega) ?_) .nil)
        · cases f.isNumeric <;> simp
        · cases g.isNumeric <;> simp
      · rw [List.prod_cons, List.prod_singleton]
      · rwa [List.map_cons, List.map_singleton, List.sum_cons, List.sum_singleton]
  rw [denote, ← hprod]
  exact exists_compileProduct (by omega) (isSum_product f g) (letterInside_text _ (by simp)) hne hqs hdegree

/-- A formula in brackets divided by a number in brackets.  Equal operands are one factor, whose
    exponent is zero. -/
theorem Compiles.quotient (hf : f.Compiles) (proper : (binary .quotient f g).Proper) {depth : ℕ}
    (room : depth + (f.depth + 1) ≤ maxNestingDepth)
    (degree : totalDegree f.denote ≤ maxExponent) :
    ∃ term, compileProduct ℚ (binary .quotient f g).text depth = .ok term ∧
      term.Denotes (binary .quotient f g).denote := by
  obtain ⟨properF, properG, numeric, denominator⟩ := proper
  have nonzero : g.value ≠ 0 := denominator.ne_zero (by norm_num)
  have whole : (binary .quotient f g).text = bracketed f.text ++ '/' :: bracketed g.text := by
    rw [text, Operation.sign, List.append_assoc, List.singleton_append]
  have factors := splitComposition_quotient f.balanced_text g.balanced_text f.text_ne.1
  rw [← whole] at factors
  obtain ⟨qs, hne, hqs, hprod, hdegree⟩ : ∃ qs, qs ≠ [] ∧
      List.Forall₂ (Supplies depth (SamePoly.hasVariable (binary .quotient f g).text))
        (splitComposition (binary .quotient f g).text) qs ∧
      qs.prod = f.denote * MvPolynomial.C g.value⁻¹ ∧
      (qs.map totalDegree).sum ≤ maxExponent := by
    rw [factors, hasVariable_text, isNumeric, numeric, Bool.and_true]
    by_cases same : f.text = g.text
    · have numericF : f.isNumeric = true := (isNumeric_eq same).trans numeric
      have value : f.value = g.value := by
        have read := evaluate_text numericF properF
        rw [same, evaluate_text numeric properG] at read
        exact (Except.ok.inj read).symm
      have number := isNumber numericF properF
        (Exponent.is_one.accumulate Exponent.is_one.negated) (.inl (value ▸ nonzero))
      refine ⟨[MvPolynomial.C (f.value ^ (1 + -1 : ℤ))], List.cons_ne_nil _ _, ?_, ?_, ?_⟩
      · rw [← same, push_same f.text_ne.1]
        exact .cons (number.supplies depth _) .nil
      · rw [List.prod_singleton, denote_eq_C numericF, ← map_mul, value, mul_inv_cancel₀ nonzero]
        rfl
      · rw [List.map_singleton, List.sum_singleton, MvPolynomial.totalDegree_C]
        exact Nat.zero_le _
    · have number := isNumber numeric properG Exponent.is_one.negated (.inl nonzero)
      rw [zpow_neg_one] at number
      refine ⟨[f.denote, MvPolynomial.C g.value⁻¹], List.cons_ne_nil _ _, ?_, ?_, ?_⟩
      · rw [push_other g.text_ne.1 same]
        exact .cons (hf.supplies_one properF room degree f.numeric_or)
          (.cons (number.supplies depth _) .nil)
      · rw [List.prod_cons, List.prod_singleton]
      · rwa [List.map_cons, List.map_singleton, MvPolynomial.totalDegree_C, List.sum_cons,
          List.sum_singleton, add_zero]
  rw [denote, ← value, ← hprod]
  exact exists_compileProduct (by omega) (isSum_quotient f g) (letterInside_text _ (by simp)) hne hqs hdegree

/-! ## Sums -/

theorem splitSumFrom_bracketed (f : Formula) (term rest : List Char) :
    splitSumFrom 0 term (bracketed f.text ++ rest) =
      splitSumFrom 0 ((bracketed f.text).reverse ++ term) rest := by
  rw [bracketed_append, f.balanced_text.splitSumFrom_group]
  rfl

theorem splitSumFrom_bracketed_end (f : Formula) (term : List Char) :
    splitSumFrom 0 term (bracketed f.text) = [term.reverse ++ bracketed f.text] := by
  have step := splitSumFrom_bracketed f term []
  rw [List.append_nil, splitSumFrom, List.reverse_append, List.reverse_reverse] at step
  rw [step, consTerm, if_neg]
  simp [bracketed]

theorem splitSum_sum (f g : Formula) :
    splitSum (binary .sum f g).text = [bracketed f.text, bracketed g.text] := by
  have whole : (binary .sum f g).text = bracketed f.text ++ '+' :: bracketed g.text := by
    rw [text, Operation.sign, List.append_assoc, List.singleton_append]
  rw [whole, splitSum, splitSumFrom_bracketed, splitSumFrom_plus, splitSumFrom_bracketed_end,
    List.append_nil, List.reverse_reverse]
  rfl

theorem splitSum_difference (f g : Formula) :
    splitSum (binary .difference f g).text = [bracketed f.text, g.negation.text] := by
  have whole : (binary .difference f g).text = bracketed f.text ++ '-' :: bracketed g.text := by
    rw [text, Operation.sign, List.append_assoc, List.singleton_append]
  rw [whole, splitSum, splitSumFrom_bracketed, splitSumFrom_minus, splitSumFrom_bracketed_end,
    List.append_nil, List.reverse_reverse]
  rfl

/-- A sum of two terms is compiled to the sum of what they are compiled to. -/
theorem exists_compileSum {text s t : List Char} {p q : MvPolynomial Char (Number ℚ)} {depth : ℕ}
    (hd : depth ≤ maxNestingDepth) (sums : isSum text = true) (terms : splitSum text = [s, t])
    (shorter : s.length < text.length ∧ t.length < text.length)
    (hs : ∃ term, compileProduct ℚ s depth = .ok term ∧ term.Denotes p)
    (ht : ∃ term, compileProduct ℚ t depth = .ok term ∧ term.Denotes q) :
    ∃ term, compileSum ℚ text depth = .ok term ∧ term.Denotes (p + q) := by
  obtain ⟨first, hfirst, firstDenotes⟩ := hs
  obtain ⟨second, hsecond, secondDenotes⟩ := ht
  refine ⟨first.add second, ?_, firstDenotes.add secondDenotes⟩
  rw [compileSum_of_isSum hd sums, compileTerms_eq hd, terms, List.mapM_cons, hfirst,
    List.mapM_cons, hsecond]
  · rfl
  · rw [terms]
    simpa using shorter

theorem length_bracketed (s : List Char) : (bracketed s).length = s.length + 2 := by
  rw [bracketed, List.length_cons, List.length_append]
  rfl

theorem Compiles.sum (hf : f.Compiles) (hg : g.Compiles) (properF : f.Proper) (properG : g.Proper)
    {depth : ℕ} (roomF : depth + (f.depth + 1) ≤ maxNestingDepth)
    (roomG : depth + (g.depth + 1) ≤ maxNestingDepth) (degreeF : totalDegree f.denote ≤ maxExponent)
    (degreeG : totalDegree g.denote ≤ maxExponent) :
    ∃ term, compileSum ℚ (binary .sum f g).text depth = .ok term ∧
      term.Denotes (binary .sum f g).denote := by
  have sums : isSum (binary .sum f g).text = true := by
    rw [text, List.append_assoc, isSum_bracketed_append]
    rfl
  refine exists_compileSum (by omega) sums (splitSum_sum f g) ?_ (hf.group properF roomF degreeF)
    (hg.group properG roomG degreeG)
  simp only [text, Operation.sign, List.length_append, length_bracketed]
  exact ⟨by omega, by omega⟩

theorem Compiles.difference (hf : f.Compiles) (hg : g.Compiles) (properF : f.Proper)
    (properG : g.Proper) {depth : ℕ} (roomF : depth + (f.depth + 1) ≤ maxNestingDepth)
    (roomG : depth + (g.depth + 1) ≤ maxNestingDepth) (degreeF : totalDegree f.denote ≤ maxExponent)
    (degreeG : totalDegree g.denote ≤ maxExponent) :
    ∃ term, compileSum ℚ (binary .difference f g).text depth = .ok term ∧
      term.Denotes (binary .difference f g).denote := by
  have sums : isSum (binary .difference f g).text = true := by
    rw [text, List.append_assoc, isSum_bracketed_append]
    rfl
  rw [denote, sub_eq_add_neg]
  refine exists_compileSum (by omega) sums (splitSum_difference f g) ?_
    (hf.group properF roomF degreeF) (hg.negated properG roomG degreeG)
  simp only [text, Operation.sign, List.length_append, List.length_cons, length_bracketed]
  exact ⟨by omega, by omega⟩

/-! ## Atoms -/

theorem isSum_atom (a : Atom) : isSum a.text = false :=
  isSum_of_forall fun c hc => ⟨Atom.ne_of_mem_text hc (by decide), Atom.ne_of_mem_text hc (by decide),
    Atom.ne_of_mem_text hc (by decide), Atom.ne_of_mem_text hc (by decide)⟩

theorem letterInside_atom (a : Atom) : letterInside 0 a.text = false :=
  letterInside_of_forall fun c hc =>
    ⟨Atom.ne_of_mem_text hc (by decide), Atom.ne_of_mem_text hc (by decide)⟩

/-- An atom without variables is its own only factor. -/
theorem compiles_number {a : Atom} (numeric : (Formula.atom a).isNumeric = true) :
    (Formula.atom a).Compiles := by
  intro depth room
  have hv : SamePoly.hasVariable a.text = false := by
    have letters := (Formula.atom a).hasVariable_text
    rwa [numeric, Bool.not_true] at letters
  have factors : splitComposition a.text = [(a.text, .one)] := by
    rw [splitComposition,
      splitCompositionFrom_of_forall fun c hc => Atom.ne_of_mem_text hc (by decide)]
    exact push_nil a.text_ne_nil _
  have number := isNumber numeric trivial Exponent.is_one (.inr zero_le_one)
  rw [zpow_one] at number
  have supplied : List.Forall₂ (Supplies depth (SamePoly.hasVariable a.text))
      (splitComposition a.text) [MvPolynomial.C (Formula.atom a).value] := by
    rw [factors]
    exact .cons (number.supplies depth _) .nil
  have product := exists_compileProduct (by omega) (isSum_atom a)
    ((letterInside_atom a).trans hv.symm) (List.cons_ne_nil _ _) supplied ?_
  · rw [text, compileSum_of_not_isSum (by omega) (isSum_atom a), denote_eq_C numeric]
    rwa [List.prod_singleton] at product
  · rw [List.map_singleton, List.sum_singleton, MvPolynomial.totalDegree_C]
    exact Nat.zero_le _

/-- A variable is its own only factor. -/
theorem compiles_letter (name : Char) (isName : isVariable name = true) :
    (Formula.atom (.letter name isName)).Compiles := by
  intro depth room
  have balanced : Balanced [name] := (Formula.atom (.letter name isName)).balanced_text
  have factors : splitComposition (wrapVariables [name]) = [([name], .one)] := by
    rw [wrapVariables, List.flatMap_cons, if_pos isName]
    exact splitComposition_bracketed balanced (List.cons_ne_nil _ _)
  have factor : (evaluateFactor [name] .one : Except FactorFault (Factor ℚ)) =
      .ok (.symbolic [name] 1) :=
    evaluateFactor_text (f := .atom (.letter name isName)) rfl Exponent.is_one (by decide)
  have raised : multiplyFactor ℚ [name] (1, .one) ([name], .one) =
      .ok (1, Shape.one.raise name 1) := by
    rw [multiplyFactor, factor]
    dsimp only
    rw [if_pos isName]
    rfl
  have monomial : compileMonomial ℚ [name] = .ok (.new 1 (Shape.one.raise name 1)) := by
    rw [compileMonomial, factors, List.foldlM_cons, raised]
    rfl
  have isSum : isSum [name] = false := isSum_atom (.letter name isName)
  have letters : letterInside 0 [name] = false := letterInside_atom (.letter name isName)
  have isMonomial : isMonomial [name] = true := by
    rw [SamePoly.isMonomial, letters, isSum]
    rfl
  refine ⟨.monomial (.new 1 (Shape.one.raise name 1)), ?_, .monomial ?_⟩
  · show compileSum ℚ [name] depth = _
    rw [compileSum_of_not_isSum (by omega) isSum, compileProduct_of_isMonomial (by omega) isMonomial,
      monomial]
    rfl
  · have shape : (Shape.one.raise name 1).toFinsupp = Finsupp.single name 1 := by
      refine Finsupp.ext fun c => ?_
      show (Shape.one.raise name 1).exponent c = Finsupp.single name 1 c
      rw [Shape.exponent_raise one_ne_zero, Finsupp.single_apply]
      by_cases h : c = name
      · rw [if_pos h, if_pos h.symm]
        rfl
      · rw [if_neg h, if_neg (Ne.symm h)]
        rfl
    rw [Monomial.toMv_new, shape]
    rfl

/-- The operands of a formula have no greater degree than the formula. -/
theorem degree_operands (o : Operation) (f g : Formula) :
    f.degree ≤ (binary o f g).degree ∧ g.degree ≤ (binary o f g).degree := by
  cases o with
  | sum => exact ⟨le_max_left _ _, le_max_right _ _⟩
  | difference => exact ⟨le_max_left _ _, le_max_right _ _⟩
  | product => exact ⟨Nat.le_add_right _ _, Nat.le_add_left _ _⟩
  | quotient => exact ⟨Nat.le_add_right _ _, Nat.le_add_left _ _⟩

theorem Proper.operands {o : Operation} (proper : (binary o f g).Proper) : f.Proper ∧ g.Proper := by
  cases o with
  | quotient => exact ⟨proper.1, proper.2.1⟩
  | _ => exact proper

/-- **Every proper formula compiles to what it denotes unless its degree is too great.** -/
theorem compiles (proper : f.Proper) (degree : f.degree ≤ maxExponent) : f.Compiles := by
  induction f with
  | atom a =>
    cases a with
    | letter name isName => exact compiles_letter name isName
    | decimal whole fraction => exact compiles_number rfl
    | unit => exact compiles_number rfl
  | negation f ih =>
    intro depth room
    rw [compileSum_of_not_isSum (by omega) (isSum_negation f)]
    exact (ih proper degree).negated proper room (totalDegree_denote_le.trans degree)
  | binary o f g ihf ihg =>
    intro depth room
    rw [Formula.depth] at room
    obtain ⟨properF, properG⟩ := proper.operands
    obtain ⟨hf, hg⟩ := degree_operands o f g
    have degreeF : totalDegree f.denote ≤ maxExponent :=
      totalDegree_denote_le.trans (hf.trans degree)
    have degreeG : totalDegree g.denote ≤ maxExponent :=
      totalDegree_denote_le.trans (hg.trans degree)
    have compilesF : f.Compiles := ihf properF (hf.trans degree)
    have compilesG : g.Compiles := ihg properG (hg.trans degree)
    cases o with
    | sum =>
      exact compilesF.sum compilesG properF properG (by omega) (by omega) degreeF degreeG
    | difference =>
      exact compilesF.difference compilesG properF properG (by omega) (by omega) degreeF degreeG
    | product =>
      have degrees : totalDegree f.denote + totalDegree g.denote ≤ maxExponent :=
        (Nat.add_le_add totalDegree_denote_le totalDegree_denote_le).trans degree
      rw [compileSum_of_not_isSum (by omega) (isSum_product f g)]
      exact compilesF.product compilesG properF properG (by omega) (by omega) degrees
    | quotient =>
      rw [compileSum_of_not_isSum (by omega) (isSum_quotient f g)]
      exact compilesF.quotient proper (by omega) degreeF
  | power f n ih =>
    intro depth room
    have smaller : f.degree ≤ (f.power n).degree :=
      Nat.le_mul_of_pos_right _ (lt_max_of_lt_right Nat.one_pos)
    rw [compileSum_of_not_isSum (by omega) (isSum_power f n)]
    exact (ih proper (smaller.trans degree)).raised proper n room degree

end Formula

/-! ## Whole texts -/

/-- A text is compiled to a polynomial that means what its term does. -/
theorem Term.Denotes.exists_compile {term : Term (Number ℚ)} {q : MvPolynomial Char (Number ℚ)}
    (h : term.Denotes q) {s : List Char} (compiled : compileSum ℚ (normalize s) 0 = .ok term) :
    ∃ p, compile ℚ s = .ok p ∧ p.Canonical ∧ p.toMv = q := by
  obtain ⟨canonical, meaning⟩ := h.toPolynomial
  have finite : term.toPolynomial.isFinite = true := List.all_eq_true.2 fun m _ => rfl
  refine ⟨term.toPolynomial, ?_, canonical, meaning⟩
  rw [compile, compiled]
  show (if term.toPolynomial.isFinite then _ else _) = _
  rw [finite, if_pos rfl]
  rfl

/-- A spelling that is neither too deep nor of too great a degree is parsed to a polynomial that
    means what the formula denotes. -/
theorem Formula.Spelled.exists_parse {f : Formula} {s : List Char} (spelled : f.Spelled s)
    (proper : f.Proper) (depth : SamePoly.nestingDepth s ≤ maxNestingDepth)
    (degree : f.degree ≤ maxExponent) :
    ∃ p, parse ℚ s = .ok p ∧ p.Canonical ∧ p.toMv = f.denote := by
  rw [spelled.nestingDepth] at depth
  obtain ⟨term, hterm, hdenotes⟩ := compiles proper degree 0 (by omega)
  rw [← spelled.normalize] at hterm
  obtain ⟨p, hp, canonical, meaning⟩ := hdenotes.exists_compile hterm
  have valid := spelled.validate proper (spelled.nestingDepth.trans_le depth)
  exact ⟨p, parse_eq_ok_iff.2 ⟨spelled.not_blank, valid, hp⟩, canonical, meaning⟩

/-- The digit two. -/
def Numeral.two : Numeral where
  digits := ['2']
  nonempty := List.cons_ne_nil _ _
  decimal := by simp

namespace Formula

/-- The square of half a variable. -/
def halfSquared : Formula :=
  .power (.binary .quotient (.atom (.letter 'x' rfl)) (.atom (.decimal .two none))) .two

theorem spelled_halfSquared : halfSquared.Spelled "((x) :(2)) ** (2)".toList := by
  have space : Spaces [' '] := by simp [Spaces]
  have nothing : Spaces [] := nofun
  have two : (Formula.atom (.decimal .two none)).Spelled ['2'] := .digits .two
  have half : Spelled _ "(x) :(2)".toList :=
    @Spelled.binary .quotient _ _ _ _ [] [' '] [':'] [] [] (by simp [Operation.spellings])
      (@Spelled.letter 'x' rfl) two nothing space nothing nothing
  exact @Spelled.power _ .two _ _ [] [' '] ['*', '*'] [' '] [] (by simp [powerSpellings])
    half two nothing space space nothing

theorem proper_halfSquared : halfSquared.Proper := by
  refine ⟨trivial, trivial, rfl, ?_⟩
  have value : MvPolynomial.constantCoeff (Formula.atom (.decimal .two none)).denote =
      .ofReal ((2 : ℤ) : ℚ) := Numeral.two.formulaValue
  rw [value, Number.AtLeast]
  show _ ≤ ((2 : ℤ) : ℚ) ^ 2 + 0 ^ 2
  norm_num

end Formula

end SamePoly
