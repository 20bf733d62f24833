/-
  Denominators and towers of exponents.

  A denominator with a variable is turned away before the text is normalized.  Normalization keeps
  every denominator as it is, up to brackets, spaces and multiplication signs, so nothing in
  normalized text is divided by a variable either.  The exponents of equal factors are added up
  before they are looked at, so a tower by itself may be anything.

  * `Denominator`: where a reader of a text stands with the last division sign.
  * `read`: the reader, which stops at a variable of a denominator.
  * `read_normalize`: **the reader cannot tell a text from its normalized form**.
  * `validate_read`: the reader gets to the end of every text that passes the checks.
  * `parse_denominators`: **in the normalized form of an accepted text no division sign stands in
    front of a variable or of a group with a variable**.
  * `parse_towers`: two towers that are a half each are accepted together.
-/
import SamePoly.Proofs.Evaluation
import SamePoly.Proofs.Readers
import SamePoly.Proofs.Sites

namespace SamePoly

open Arithmetic

variable {text rest before after inside run : List Char} {c : Char}

/-! ## A reader of denominators -/

/-- A division sign. -/
def isDivision (c : Char) : Bool := c == '/' || c == ':'

/-- Where a reader of a text stands with the last division sign. -/
inductive Denominator
  /-- There is none, or its denominator is read. -/
  | past
  /-- The denominator is due. -/
  | due
  /-- The denominator is a group, in which further groups are open. -/
  | within (depth : ℕ)
deriving DecidableEq, Repr

namespace Denominator

/-- Behind a closing bracket. -/
def closed : ℕ → Denominator
  | 0 => past
  | depth + 1 => within depth

/-- Reads a symbol, unless it is a variable of a denominator.  A division sign inside a
    denominator is a part of it. -/
def next : Reader Denominator
  | past, c => some (if isDivision c then due else past)
  | due, c =>
    if isVariable c then none
    else if c = '(' then some (within 0)
    else if isFiller c || isDivision c then some due
    else some past
  | within depth, c =>
    if isVariable c then none
    else if c = '(' then some (within (depth + 1))
    else if c = ')' then some (closed depth)
    else some (within depth)

end Denominator

open Denominator (next)

variable {s s' : Denominator}

/-- Where no denominator is due, everything up to the next division sign is passed. -/
theorem read_past (h : ∀ c ∈ run, isDivision c = false) (rest : List Char) :
    next.read .past (run ++ rest) = next.read .past rest := by
  induction run with
  | nil => rfl
  | cons c run ih =>
    obtain ⟨hc, hrun⟩ := List.forall_mem_cons.1 h
    rw [List.cons_append, Reader.read_cons, next, hc]
    exact ih hrun

/-- A balanced part of a denominator is read unless there is a variable in it. -/
theorem Balanced.read_within (h : Balanced text) (depth : ℕ) (rest : List Char) :
    next.read (.within depth) (text ++ rest) =
      if hasVariable text = true then none else next.read (.within depth) rest := by
  induction h generalizing depth rest with
  | nil => rfl
  | @symbol c text hopen hclose _ ih =>
    rw [List.cons_append, Reader.read_cons, next, if_neg hopen, if_neg hclose, hasVariable,
      List.any_cons, ← hasVariable]
    cases isVariable c with
    | true => rfl
    | false => exact ih depth rest
  | @group inside text _ _ ihInside ih =>
    have parts : hasVariable ('(' :: (inside ++ ')' :: text)) =
        (hasVariable inside || hasVariable text) := by
      simp only [hasVariable, List.any_cons, List.any_append]
      rfl
    have opened : next.read (.within depth) ('(' :: (inside ++ ')' :: text) ++ rest) =
        next.read (.within (depth + 1)) (inside ++ ')' :: (text ++ rest)) := by
      rw [List.cons_append, List.append_assoc]
      rfl
    have closed : next.read (.within (depth + 1)) (')' :: (text ++ rest)) =
        next.read (.within depth) (text ++ rest) := rfl
    rw [opened, ihInside, closed, ih, parts]
    cases hasVariable inside <;> rfl

/-- A group is a denominator if there is no variable in it. -/
theorem Balanced.read_due (h : Balanced text) (rest : List Char) :
    next.read .due (SamePoly.bracketed text ++ rest) =
      if hasVariable text = true then none else next.read .past rest := by
  have opened : next.read .due (SamePoly.bracketed text ++ rest) =
      next.read (.within 0) (text ++ ')' :: rest) := by
    rw [bracketed_append]
    rfl
  rw [opened, h.read_within]
  rfl

theorem IsPlain.isDivision (h : IsPlain c) : SamePoly.isDivision c = false := by
  have division : c ≠ '/' ∧ c ≠ ':' := ⟨h.ne rfl rfl, h.ne rfl rfl⟩
  simp [SamePoly.isDivision, division]

/-- Brackets around a variable or a literal do not matter to the reader. -/
theorem read_bracketed (plain : ∀ d ∈ c :: run, IsPlain d) (constant : hasVariable run = false)
    (s : Denominator) (rest : List Char) :
    next.read s (bracketed (c :: run) ++ rest) = next.read s (c :: run ++ rest) := by
  have balanced : Balanced (c :: run) := balanced_of_isPlain plain
  have passed : ∀ d ∈ c :: run, isDivision d = false := fun d hd => (plain d hd).isDivision
  cases s with
  | past =>
    have passed' : ∀ d ∈ bracketed (c :: run), isDivision d = false := by
      rw [bracketed, List.forall_mem_cons, List.forall_mem_append, List.forall_mem_singleton]
      exact ⟨rfl, passed, rfl⟩
    rw [read_past passed, read_past passed']
  | due =>
    have symbol := plain c List.mem_cons_self
    have opening : c ≠ '(' := symbol.ne rfl rfl
    have first : hasVariable (c :: run) = isVariable c := by
      rw [hasVariable, List.any_cons, ← hasVariable, constant, Bool.or_false]
    rw [balanced.read_due, first, List.cons_append, Reader.read_cons, next,
      if_neg opening, symbol.isFiller, symbol.isDivision]
    cases isVariable c with
    | true => rfl
    | false => exact (read_past (fun d hd => passed d (List.mem_cons_of_mem c hd)) rest).symm
  | within depth =>
    have group : Balanced (bracketed (c :: run)) := balanced.single_group
    rw [balanced.read_within, group.read_within, hasVariable_bracketed]

theorem Denominator.indifferent : next.Indifferent where
  filler s c h := by
    rw [isFiller, Bool.or_eq_true, Bool.or_eq_true, beq_iff_eq, beq_iff_eq, beq_iff_eq] at h
    rcases h with (rfl | rfl) | rfl <;> cases s <;> rfl
  respell s c := by
    unfold respellChar
    split_ifs with separator division
    · rw [beq_iff_eq.1 separator]
      cases s <;> rfl
    · rw [beq_iff_eq.1 division]
      cases s <;> rfl
    · rfl
  bracketed s _ _ rest plain constant := read_bracketed plain constant s rest

/-! ## Texts that pass the checks -/

/-- Ahead is an operand without variables. -/
structure DenominatorAhead (rest : List Char) : Prop where
  operand : ∃ d, ahead rest = some d ∧ isFiller d = false ∧ isDivision d = false
  constant : hasVariable (operandAfter rest) = false

/-- Behind a division sign there is a denominator without variables, and groups are closed. -/
structure DenominatorFits (c : Char) (rest : List Char) : Prop where
  denominator : isDivision c = true → DenominatorAhead rest
  closed : c = '(' → ∃ inside after, rest = inside ++ ')' :: after ∧ Balanced inside

/-- Every division sign of a text stands at a site. -/
theorem exists_divisionSite (before : List Char) {after front : List Char}
    (whole : before.reverse ++ after = text)
    (found : after = front ++ c :: rest) (division : isDivision c = true) :
    ∃ site ∈ divisionSitesFrom before after whole, site.after = rest := by
  induction after generalizing before front with
  | nil => cases front <;> cases found
  | cons d after ih =>
    rw [divisionSitesFrom]
    cases front with
    | nil =>
      cases found
      rw [← isDivision, if_pos division]
      exact ⟨_, List.mem_cons_self, rfl⟩
    | cons e front =>
      cases found
      obtain ⟨site, hsite, same⟩ := ih (d :: before) (by simpa using whole) rfl
      refine ⟨site, ?_, same⟩
      split
      · exact List.mem_cons_of_mem _ hsite
      · exact hsite

section Checked

variable {R : Type} [Scalar R]

theorem denominatorFits_of_validate (h : validate R text = .ok ()) :
    Everywhere DenominatorFits text := by
  obtain ⟨wellFormed, -, fitting⟩ := validate_eq_ok_iff.1 h
  have wellFormed := malformed?_eq_none_iff.1 wellFormed
  have divisions := (violation?_eq_none_iff.1 fitting).1
  rw [everywhere_iff_append]
  intro before c rest whole
  refine ⟨fun division => ⟨?_, ?_⟩, fun opening => ?_⟩
  · have fits : OperatorFits c rest := everywhere_iff_append.1 wellFormed.operators _ _ _ whole
    have operator : isOperatorButTimes c = true := by
      rw [isDivision, Bool.or_eq_true, beq_iff_eq, beq_iff_eq] at division
      rcases division with rfl | rfl <;> rfl
    obtain ⟨d, hd, other⟩ := fits.operand (isOperator_iff.2 (Or.inl operator))
    have ne {e : Char} (he : isOperatorButTimes e = true) : d ≠ e := by
      rintro rfl
      exact absurd he (Bool.eq_false_iff.1 other)
    have single : d ≠ '*' := by
      rintro rfl
      exact fits.single operator hd
    have caret : d ≠ '^' := ne rfl
    have slash : d ≠ '/' ∧ d ≠ ':' := ⟨ne rfl, ne rfl⟩
    refine ⟨d, hd, ?_, by simp [isDivision, slash]⟩
    simp [isFiller, (mem_of_ahead hd).2, single, caret]
  · obtain ⟨site, hsite, rfl⟩ := exists_divisionSite [] rfl whole division
    exact (divisionFault?_eq_none_iff.1 (divisions site hsite)).1
  · subst opening
    exact wellFormed.balanced.exists_group whole

/-- A denominator without variables is read. -/
theorem exists_read_due (ahead : DenominatorAhead text) (fits : Everywhere DenominatorFits text) :
    ∃ front rest, text = front ++ rest ∧ next.read .due text = next.read .past rest := by
  obtain ⟨d, hd, filler, division⟩ := ahead.operand
  obtain ⟨spaces, rest, rfl, hspaces, space⟩ := exists_spaces hd
  have constant := ahead.constant
  by_cases opening : d = '('
  · subst opening
    obtain ⟨inside, after, rfl, balanced⟩ := fits.of_append.closed rfl
    have inner : hasVariable inside = false := by
      rw [operandAfter_opening hspaces, reach_group balanced, hasVariable_append] at constant
      have inner := (Bool.or_eq_false_iff.1 constant).2
      rw [← List.cons_append, hasVariable_append] at inner
      exact (Bool.or_eq_false_iff.1 inner).1
    refine ⟨spaces ++ bracketed inside, after, ?_, ?_⟩
    · rw [List.append_assoc, bracketed_append]
    · rw [Denominator.indifferent.read_spaces hspaces, ← bracketed_append, balanced.read_due, inner]
      rfl
  · have letter : isVariable d = false := by
      rw [operandAfter_symbol hspaces space opening, hasVariable_append] at constant
      by_contra letter
      rw [Bool.not_eq_false] at letter
      rw [if_pos letter] at constant
      simp [hasVariable, letter] at constant
    refine ⟨spaces ++ [d], rest, by simp, ?_⟩
    rw [Denominator.indifferent.read_spaces hspaces, Reader.read_cons, next, letter, filler, division,
      if_neg (by decide), if_neg opening]
    rfl

/-- Where everything fits, the reader gets to the end. -/
theorem exists_read (text : List Char) (h : Everywhere DenominatorFits text) :
    ∃ s, next.read .past text = some s := by
  induction hn : text.length using Nat.strongRecOn generalizing text with
  | ind n ih =>
    cases text with
    | nil => exact ⟨_, rfl⟩
    | cons c text =>
      have shorter : text.length < n := by
        rw [← hn]
        exact Nat.lt_succ_self _
      rw [Reader.read_cons, next]
      cases division : isDivision c with
      | true =>
        obtain ⟨front, rest, rfl, same⟩ := exists_read_due (h.1.denominator division) h.2
        obtain ⟨s, hs⟩ := ih rest.length (by grind) rest h.2.right rfl
        exact ⟨s, same.trans hs⟩
      | false => exact ih _ shorter text h.2 rfl

/-- **The reader gets to the end of every text that passes the checks.** -/
theorem validate_read (h : validate R text = .ok ()) : ∃ s, next.read .past text = some s :=
  exists_read text (denominatorFits_of_validate h)

/-- Where a denominator is due or not read to its end, the reader passes neither a variable nor a
    group with a variable. -/
theorem constant_of_read (started : s ≠ .past) (h : next.read s after = some s') :
    (∀ c ∈ after.head?, isVariable c = false) ∧
      ∀ inside rest, Balanced inside → after = bracketed inside ++ rest →
        hasVariable inside = false := by
  constructor
  · intro c hc
    obtain ⟨rest, rfl⟩ := List.head?_eq_some_iff.1 hc
    by_contra letter
    rw [Bool.not_eq_false] at letter
    have stops : s.next c = none := by
      cases s with
      | past => exact absurd rfl started
      | due => exact if_pos letter
      | within depth => exact if_pos letter
    rw [Reader.read_cons, stops] at h
    cases h
  · rintro inside rest balanced rfl
    by_contra letter
    rw [Bool.not_eq_false] at letter
    have stops : next.read s (bracketed inside ++ rest) = none := by
      cases s with
      | past => exact absurd rfl started
      | due => rw [balanced.read_due, if_pos letter]
      | within depth =>
        have group : Balanced (bracketed inside) := balanced.single_group
        rw [group.read_within, hasVariable_bracketed, if_pos letter]
    rw [stops] at h
    cases h

/-- **No accepted text is divided by a variable.**  In the normalized form of an accepted text,
    neither a variable stands right behind a division sign nor a group with a variable in it. -/
theorem parse_denominators {p : Polynomial (Number R)} (h : parse R text = .ok p)
    (whole : normalize text = before ++ '/' :: after) :
    (∀ c ∈ after.head?, isVariable c = false) ∧
      ∀ inside rest, Balanced inside → after = bracketed inside ++ rest →
        hasVariable inside = false := by
  obtain ⟨-, valid, -⟩ := parse_eq_ok_iff.1 h
  obtain ⟨s, hs⟩ := validate_read valid
  rw [← Denominator.indifferent.read_normalize, whole, Reader.read_append] at hs
  obtain ⟨middle, -, hs⟩ := Option.bind_eq_some_iff.1 hs
  rw [Reader.read_cons] at hs
  obtain ⟨behind, sign, hs⟩ := Option.bind_eq_some_iff.1 hs
  refine constant_of_read ?_ hs
  rintro rfl
  cases middle <;> cases sign

end Checked

/-- The denominator of half a variable stands behind the division sign, in brackets. -/
theorem parse_denominators_halfSquared :
    ∃ p, parse ℚ "((x) :(2)) ** (2)".toList = .ok p ∧
      normalize "((x) :(2)) ** (2)".toList = "((x)".toList ++ '/' :: "(2))^(2)".toList ∧
      (∀ c ∈ "(2))^(2)".toList.head?, isVariable c = false) ∧
      ∀ inside rest, Balanced inside → "(2))^(2)".toList = bracketed inside ++ rest →
        hasVariable inside = false := by
  obtain ⟨p, hp, -⟩ := Formula.spelled_halfSquared.exists_parse Formula.proper_halfSquared
    (by decide) (by decide)
  have whole : normalize "((x) :(2)) ** (2)".toList =
      "((x)".toList ++ '/' :: "(2))^(2)".toList := by decide +kernel
  exact ⟨p, hp, whole, parse_denominators hp whole⟩

/-! ## Towers of exponents -/

/-- The numbers in the exponents of `x^2^(-1)x^2^(-1)`. -/
theorem evaluate_towers :
    (evaluate "2".toList : Except EvalError (Number ℚ)) = .ok ⟨2, 0⟩ ∧
      (evaluate "(-1)".toList : Except EvalError (Number ℚ)) = .ok ⟨-1, 0⟩ ∧
      (evaluate "(2)^(-1)".toList : Except EvalError (Number ℚ)) = .ok ⟨1 / 2, 0⟩ := by
  let two : Primary := .number ⟨['2'], none⟩
  let negated : Unary := .signed [.minus] (.plain (.number ⟨['1'], none⟩))
  let minus : Primary := .group (.single (.single negated))
  let group : Primary := .group (.single (.single (.signed [] (.plain two))))
  let half : Unary := .signed [] (.raised group (.signed [] (.plain minus)))
  have htwo : ((Arithmetic.Sum.single (.single (.signed [] (.plain two)))).value? :
      Option (Number ℚ)) = some ⟨2, 0⟩ := by decide +kernel
  have hminus : ((Arithmetic.Sum.single (.single (.signed [] (.plain minus)))).value? :
      Option (Number ℚ)) = some ⟨-1, 0⟩ := by decide +kernel
  have hhalf : ((Arithmetic.Sum.single (.single half)).value? : Option (Number ℚ)) =
      some ⟨1 / 2, 0⟩ := by decide +kernel
  refine ⟨?_, ?_, ?_⟩
  · have read := Arithmetic.Sum.evaluate_text (R := ℚ)
      (s := .single (.single (.signed [] (.plain two)))) (by decide)
    rwa [htwo] at read
  · have read := Arithmetic.Sum.evaluate_text (R := ℚ)
      (s := .single (.single (.signed [] (.plain minus)))) (by decide)
    rwa [hminus] at read
  · have read := Arithmetic.Sum.evaluate_text (R := ℚ) (s := .single (.single half)) (by decide)
    rwa [hhalf] at read

/-- The operands of the powers of `x^2^(-1)x^2^(-1)`. -/
theorem operands_towers : (powerSites "x^2^(-1)x^2^(-1)".toList).map
    (fun site => (site.left, site.right)) =
      [(['x'], ['2']), (['2'], "(-1)".toList), (['x'], ['2']), (['2'], "(-1)".toList)] := by
  decide +kernel

/-- Next to each power sign of `x^2^(-1)x^2^(-1)` stands an integer. -/
theorem validate_towers : validate ℚ "x^2^(-1)x^2^(-1)".toList = .ok () := by
  obtain ⟨two, minus, -⟩ := evaluate_towers
  have same : normalize ['2'] = "2".toList ∧ normalize "(-1)".toList = "(-1)".toList := by
    decide +kernel
  refine validate_eq_ok_iff.2 ⟨by decide +kernel, by decide, violation?_eq_none_iff.2 ⟨?_, ?_⟩⟩
  · intro site hsite
    cases hsite
  · intro site hsite
    have operands := List.mem_map_of_mem (f := fun site => (site.left, site.right)) hsite
    simp only [operands_towers, List.mem_cons, List.not_mem_nil, or_false,
      Prod.mk.injEq] at operands
    have operands : (site.left = ['x'] ∧ site.right = ['2']) ∨
        (site.left = ['2'] ∧ site.right = "(-1)".toList) := by tauto
    rcases operands with ⟨left, right⟩ | ⟨left, right⟩
    · have integer : (⟨2, 0⟩ : Number ℚ).exponent? = .ok 2 := by decide +kernel
      rw [powerFault?, left, right, same.1, two]
      dsimp only
      rw [integer]
      rfl
    · have nonzero : (⟨2, 0⟩ : Number ℚ).nearer Scalar.integerTolerance = false := by
        decide +kernel
      rw [powerFault?, left, right, same.1, same.2, two, minus]
      dsimp only
      rw [nonzero]
      rfl

/-- Two groups with a power sign between them are one exponent. -/
theorem tower_groups {inside' : List Char} (h : Balanced inside) (h' : Balanced inside')
    (hr : EndsTower rest) :
    tower (bracketed inside ++ '^' :: (bracketed inside' ++ rest)) =
      (bracketed inside ++ '^' :: bracketed inside', rest) := by
  have first : firstLink (bracketed inside ++ '^' :: (bracketed inside' ++ rest)) =
      (bracketed inside, '^' :: (bracketed inside' ++ rest)) := by
    rw [bracketed_append, firstLink]
    exact link_group h _
  have second : link (bracketed inside' ++ rest) = (bracketed inside', rest) := by
    rw [bracketed_append]
    exact link_group h' _
  have more : links ('^' :: (bracketed inside' ++ rest)) = ('^' :: bracketed inside', rest) := by
    rw [bracketed_append, links, ← bracketed_append, second, links_of_endsTower hr]
    exact Prod.ext (by simp) rfl
  rw [tower, first, more]

/-- Equal groups with equal exponents are one factor, whose exponent is a sum. -/
theorem splitComposition_twice {exponent : List Char} (h : Balanced inside) (hne : inside ≠ [])
    (htower : ∀ rest, EndsTower rest → tower (exponent ++ rest) = (exponent, rest))
    (hlast : exponent.getLast? ≠ some '^') :
    splitComposition (bracketed inside ++ '^' :: (exponent ++
        (bracketed inside ++ '^' :: exponent))) =
      [(inside, .sum [.literal exponent, .literal exponent])] := by
  have first := htower (bracketed inside ++ '^' :: exponent) (endsTower_cons (by decide) _)
  have second := htower [] endsTower_nil
  rw [List.append_nil] at second
  rw [splitComposition, bracketed_append, splitCompositionFrom_power h first hlast,
    bracketed_append, splitCompositionFrom_power h second hlast, splitCompositionFrom_nil]
  show (Factors.push (Factors.push (Factors.push (Factors.push [] [] .one) inside _) [] .one)
    inside _).push [] .one = _
  rw [show Factors.push [] [] .one = [] from rfl, push_nil hne]
  exact push_same hne _ _

/-- **A tower of exponents that is no integer is accepted** next to another one if their values add
    up to an integer: each of both towers is a half. -/
theorem parse_towers :
    (∃ p, parse ℚ "x^2^(-1)x^2^(-1)".toList = .ok p ∧ p.Canonical ∧ p.toMv = MvPolynomial.X 'x') ∧
      normalize "x^2^(-1)x^2^(-1)".toList = "(x)^(2)^(-1)(x)^(2)^(-1)".toList ∧
      tower "(2)^(-1)(x)^(2)^(-1)".toList = ("(2)^(-1)".toList, "(x)^(2)^(-1)".toList) ∧
      (evaluate "(2)^(-1)".toList : Except EvalError (Number ℚ)) = .ok ⟨1 / 2, 0⟩ ∧
      (⟨1 / 2, 0⟩ : Number ℚ).exponent? = .error .irrationalFunction := by
  obtain ⟨-, -, half⟩ := evaluate_towers
  have normal : normalize "x^2^(-1)x^2^(-1)".toList = "(x)^(2)^(-1)(x)^(2)^(-1)".toList := by
    decide +kernel
  have letter : Balanced ['x'] := .symbol (by decide) (by decide) .nil
  have two : Balanced ['2'] := .symbol (by decide) (by decide) .nil
  have minus : Balanced ['-', '1'] :=
    .symbol (by decide) (by decide) (.symbol (by decide) (by decide) .nil)
  have groups (rest : List Char) (hr : EndsTower rest) :
      tower ("(2)^(-1)".toList ++ rest) = ("(2)^(-1)".toList, rest) := tower_groups two minus hr
  refine ⟨?_, normal, groups _ (endsTower_cons (by decide) _), half, by decide +kernel⟩
  have factors : splitComposition "(x)^(2)^(-1)(x)^(2)^(-1)".toList =
      [(['x'], .sum [.literal "(2)^(-1)".toList, .literal "(2)^(-1)".toList])] :=
    splitComposition_twice letter (List.cons_ne_nil _ _) groups (by decide)
  have exponent : (Exponent.sum [.literal "(2)^(-1)".toList, .literal "(2)^(-1)".toList]).Is 1 := by
    refine ⟨by decide, ?_⟩
    have total : (0 + ⟨1 / 2, 0⟩ + ⟨1 / 2, 0⟩ : Number ℚ) = .ofReal ((1 : ℤ) : ℚ) := by
      decide +kernel
    have value : (Exponent.literal "(2)^(-1)".toList).evaluate = .ok (⟨1 / 2, 0⟩ : Number ℚ) := half
    rw [Exponent.evaluate, Exponent.addAll, value, ← total]
    show Exponent.addAll ((0 : Number ℚ) + ⟨1 / 2, 0⟩) [.literal "(2)^(-1)".toList] = _
    rw [Exponent.addAll, value]
    rfl
  have degree :
      1 * (MvPolynomial.X 'x' : MvPolynomial Char (Number ℚ)).totalDegree ≤ maxExponent := by
    rw [MvPolynomial.totalDegree_X]
    decide
  have name : (Formula.atom (.letter 'x' rfl)).Compiles := Formula.compiles_letter 'x' rfl
  have supplied : List.Forall₂
      (Supplies 0 (hasVariable "(x)^(2)^(-1)(x)^(2)^(-1)".toList))
      (splitComposition "(x)^(2)^(-1)(x)^(2)^(-1)".toList) [MvPolynomial.X 'x'] := by
    rw [factors]
    have room : 0 + ((Formula.atom (.letter 'x' rfl)).depth + 1) ≤ maxNestingDepth := by decide
    have power := name.supplies (n := 1) trivial room exponent (fun _ => by decide) degree
      (Or.inr rfl)
    rw [pow_one] at power
    exact .cons power .nil
  obtain ⟨term, hterm, hdenotes⟩ := exists_compileProduct (Nat.zero_le _) (by decide +kernel)
    (by decide +kernel) (List.cons_ne_nil _ _) supplied (by simpa using degree)
  rw [← compileSum_of_not_isSum (Nat.zero_le _) (by decide +kernel), ← normal] at hterm
  obtain ⟨p, hp, canonical, meaning⟩ := hdenotes.exists_compile hterm
  refine ⟨p, parse_eq_ok_iff.2 ⟨rfl, validate_towers, hp⟩, canonical, ?_⟩
  rw [meaning, List.prod_singleton]

end SamePoly
