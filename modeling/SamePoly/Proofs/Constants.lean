/-
  Numbers given as text.

  A text without variables is compiled to the value of its normalized text: the terms of a sum are
  the products between its signs, with the signs, and a product is cut into numbers.

  * `Product.Computes`, `Sum.Computes`: trees that are cut into numbers, and whose value is known.
  * `Product.Computes.termIs`: a product is compiled to its value.
  * `Sum.Computes.exists_terms`: the terms of a sum are compiled to numbers that add up to its
    value.
  * `WellFormed.isChain_abuts`: the neighbours in normalized text that is read.
  * `parse_constant`: **a numeric text has the polynomial of its value**.
  * `parse_divided_twice`: a text whose value is not the one that it has as a polynomial.
-/
import SamePoly.Proofs.Faults
import SamePoly.Proofs.Quotients

namespace SamePoly

open Arithmetic Token

variable {text : List Char} {c d : Char} {v w m : Number ℚ}

/-! ## Products as terms -/

/-- A term of a sum is compiled to a number. -/
def TermIs (term : List Char) (w : Number ℚ) : Prop :=
  compileProduct ℚ term 0 = .ok (.monomial (.constant w))

theorem Monomial.new_one (w : Number ℚ) : Monomial.new w .one = .constant w := by
  rw [Monomial.new, ite_self]
  rfl

namespace Arithmetic

theorem Sign.unit_mul_self (signs : List Sign) : Sign.unit signs * Sign.unit signs = 1 := by
  rw [Sign.unit]
  split <;> simp

/-- A product that is cut into numbers, and whose value is known. -/
structure Product.Computes (p : Product) (m : Number ℚ) : Prop where
  lexed : Lexed p.tokens
  chain : (spelling p.tokens).IsChain Abuts
  integral : p.IsIntegral
  separated : p.isSeparated = true
  value : p.value? = some m

namespace Product.Computes

variable {p : Product} {sign : Sign}

/-- Other signs in front of a product. -/
theorem withSigns (h : p.Computes m) {signs : List Sign} (lexed : Lexed (p.withSigns signs).tokens)
    (chain : (spelling (p.withSigns signs).tokens).IsChain Abuts) :
    (p.withSigns signs).Computes (Sign.unit signs * (Sign.unit p.signs * m)) := by
  refine ⟨lexed, chain, (p.isIntegral_withSigns signs).2 h.integral,
    (p.isSeparated_withSigns signs).trans h.separated, ?_⟩
  have value := h.value
  rw [← p.withSigns_signs, p.value?_withSigns] at value
  obtain ⟨v, hv, rfl⟩ := Option.map_eq_some_iff.1 value
  rw [p.value?_withSigns, hv, ← mul_assoc (Sign.unit p.signs), Sign.unit_mul_self, one_mul]
  rfl

/-- What is left of a product behind a sign. -/
theorem behind_sign (h : p.Computes m) (signs : p.signs = [sign]) :
    p.tokens = sign.token :: (p.withSigns []).tokens ∧
      (p.withSigns []).Computes (Sign.unit [sign] * m) := by
  have tokens : p.tokens = sign.token :: (p.withSigns []).tokens := by
    rw [p.tokens_eq, signs]
    rfl
  have spelled : spelling p.tokens = sign.token.text ++ spelling (p.withSigns []).tokens := by
    rw [tokens, spelling_cons]
  have lexed : Lexed (p.withSigns []).tokens :=
    (tokens ▸ h.lexed).of_isInfix (List.suffix_cons _ _).isInfix
  have rest := h.withSigns lexed (spelled ▸ h.chain).right_of_append
  rw [signs, Sign.unit_nil, one_mul] at rest
  exact ⟨tokens, rest⟩

/-- A product without signs in front of it is a term, with a minus in front of it or without. -/
theorem splitSum_eq (h : p.Computes m) (unsigned : p.signs = []) :
    splitSum (spelling p.tokens) = [spelling p.tokens] ∧
      splitSum ('+' :: spelling p.tokens) = [spelling p.tokens] ∧
      splitSum ('-' :: spelling p.tokens) = ['-' :: spelling p.tokens] := by
  obtain ⟨c, text, starts⟩ := Token.exists_spelling h.lexed p.tokens_ne_nil
  exact (Product.balanced h.lexed).splitSum_eq (starts ▸ List.cons_ne_nil c text)
    (Product.signOutside h.lexed h.chain unsigned)

/-- A product is no sum. -/
theorem isSum_eq_false (h : p.Computes m) : isSum (spelling p.tokens) = false := by
  rcases Product.signs_cases h.chain with unsigned | ⟨sign, signs⟩
  · exact isSum_eq_false_of_signOutside (Product.signOutside h.lexed h.chain unsigned)
  · obtain ⟨tokens, rest⟩ := h.behind_sign signs
    have outside := Product.signOutside rest.lexed rest.chain (p.signs_withSigns [])
    rw [tokens, spelling_cons]
    cases sign with
    | plus => exact (isSum_symbol (by decide) (by decide) _).trans outside
    | minus => exact (isSum_symbol (by decide) (by decide) _).trans outside

/-- **A product is compiled to its value.** -/
theorem termIs (h : p.Computes m) : TermIs (spelling p.tokens) m := by
  have monomial : isMonomial (spelling p.tokens) = true := by
    rw [isMonomial, letterInside_spelling h.lexed.valid, h.isSum_eq_false]
    rfl
  have cut := Product.isCut h.lexed h.chain h.integral h.separated h.value
  rw [TermIs, compileProduct_of_isMonomial (Nat.zero_le _) monomial, cut.compileMonomial h.lexed,
    Monomial.new_one]
  rfl

/-- A product behind a sign is a term. -/
theorem terms_behind (h : p.Computes m) (unsigned : p.signs = [])
    (lexed : Lexed (sign.token :: p.tokens))
    (chain : (spelling (sign.token :: p.tokens)).IsChain Abuts) :
    List.Forall₂ TermIs (splitSum (spelling (sign.token :: p.tokens))) [Sign.unit [sign] * m] := by
  have tokens : (p.withSigns [sign]).tokens = sign.token :: p.tokens := by
    rw [Product.tokens_withSigns, p.tokens_eq, unsigned]
    rfl
  have signed := (h.withSigns (tokens ▸ lexed) (tokens ▸ chain)).termIs
  rw [unsigned, Sign.unit_nil, one_mul, tokens] at signed
  obtain ⟨-, plus, minus⟩ := h.splitSum_eq unsigned
  cases sign with
  | plus =>
    have same : Sign.unit [.plus] * m = m := one_mul m
    rw [same]
    exact plus ▸ .cons h.termIs .nil
  | minus => exact minus ▸ .cons signed .nil

/-- A product is a term, without a plus in front of it. -/
theorem terms (h : p.Computes m) : List.Forall₂ TermIs (splitSum (spelling p.tokens)) [m] := by
  rcases Product.signs_cases h.chain with unsigned | ⟨sign, signs⟩
  · exact (h.splitSum_eq unsigned).1 ▸ .cons h.termIs .nil
  · obtain ⟨tokens, rest⟩ := h.behind_sign signs
    have terms := rest.terms_behind (p.signs_withSigns []) (tokens ▸ h.lexed) (tokens ▸ h.chain)
    rwa [← tokens, ← mul_assoc, Sign.unit_mul_self, one_mul] at terms

end Product.Computes

/-! ## Sums -/

/-- A sum whose products are cut into numbers, and whose value is known. -/
structure Sum.Computes (s : Arithmetic.Sum) (v : Number ℚ) : Prop where
  lexed : Lexed s.tokens
  chain : s.text.IsChain Abuts
  integral : s.IsIntegral
  separated : s.isSeparated = true
  value : s.value? = some v

theorem Sum.text_plus (s : Arithmetic.Sum) (p : Product) :
    (Sum.plus s p).text = s.text ++ '+' :: spelling p.tokens :=
  spelling_append s.tokens (.plus :: p.tokens)

theorem Sum.text_minus (s : Arithmetic.Sum) (p : Product) :
    (Sum.minus s p).text = s.text ++ '-' :: spelling p.tokens :=
  spelling_append s.tokens (.minus :: p.tokens)

/-- In front of the last sign of a sum stands a sum, and behind it one more term. -/
theorem Sum.Computes.further {s : Arithmetic.Sum} {p : Product} (sign : Sign)
    (lexed : Lexed (s.tokens ++ sign.token :: p.tokens))
    (chain : (spelling (s.tokens ++ sign.token :: p.tokens)).IsChain Abuts)
    (integral : s.IsIntegral ∧ p.IsIntegral) (separated : (s.isSeparated && p.isSeparated) = true)
    (total : s.value? = some v) (operand : p.value? = some w) :
    s.Computes v ∧ ∀ ws, List.Forall₂ TermIs (splitSum s.text) ws →
      List.Forall₂ TermIs (splitSum (spelling (s.tokens ++ sign.token :: p.tokens)))
        (ws ++ [Sign.unit [sign] * w]) := by
  rw [Bool.and_eq_true] at separated
  rw [spelling_append] at chain ⊢
  obtain ⟨lexedFirst, lexedLast⟩ := lexed.of_append
  have behind := chain.right_of_append
  have product : p.Computes w := ⟨lexed.of_append_cons.2,
    (spelling_cons _ _ ▸ behind).right_of_append, integral.2, separated.2, operand⟩
  have unsigned : p.signs = [] := by
    cases sign with
    | plus => exact Product.unsigned_behind (c := '+') rfl behind
    | minus => exact Product.unsigned_behind (c := '-') rfl behind
  have split : splitSum (spelling s.tokens ++ spelling (sign.token :: p.tokens)) =
      splitSum s.text ++ splitSum (spelling (sign.token :: p.tokens)) := by
    cases sign with
    | plus => exact (Sum.balanced_text lexedFirst).splitSum_append_sign (.inl rfl) _
    | minus => exact (Sum.balanced_text lexedFirst).splitSum_append_sign (.inr rfl) _
  refine ⟨⟨lexedFirst, chain.left_of_append, integral.1, separated.1, total⟩, fun ws terms => ?_⟩
  rw [split]
  exact List.rel_append terms (product.terms_behind unsigned lexedLast behind)

/-- **The terms of a sum are compiled to numbers**, which add up to its value. -/
theorem Sum.Computes.exists_terms {s : Arithmetic.Sum} {v : Number ℚ} (h : s.Computes v) :
    ∃ ws, List.Forall₂ TermIs (splitSum s.text) ws ∧ ws.sum = v := by
  obtain ⟨lexed, chain, integral, separated, value⟩ := h
  match s with
  | .single p =>
    have product : p.Computes v := ⟨lexed, chain, integral, separated, value⟩
    exact ⟨[v], product.terms, List.sum_singleton⟩
  | .plus s p =>
    obtain ⟨v, total, value⟩ := Option.bind_eq_some_iff.1 value
    obtain ⟨w, operand, ⟨⟩⟩ := Option.bind_eq_some_iff.1 value
    obtain ⟨first, more⟩ :=
      Sum.Computes.further .plus lexed chain integral separated total operand
    obtain ⟨ws, terms, rfl⟩ := first.exists_terms
    refine ⟨_, more ws terms, ?_⟩
    rw [List.sum_append, List.sum_singleton]
    exact congrArg _ (one_mul w)
  | .minus s p =>
    obtain ⟨v, total, value⟩ := Option.bind_eq_some_iff.1 value
    obtain ⟨w, operand, ⟨⟩⟩ := Option.bind_eq_some_iff.1 value
    obtain ⟨first, more⟩ :=
      Sum.Computes.further .minus lexed chain integral separated total operand
    obtain ⟨ws, terms, rfl⟩ := first.exists_terms
    refine ⟨_, more ws terms, ?_⟩
    rw [List.sum_append, List.sum_singleton, sub_eq_add_neg]
    exact congrArg _ (neg_one_mul w)

/-! ## The compiler -/

theorem foldl_add_constant (v : Number ℚ) (ws : List (Number ℚ)) :
    (ws.map fun w => Term.monomial (.constant w)).foldl Term.add (.monomial (.constant v)) =
      .monomial (.constant (v + ws.sum)) := by
  induction ws generalizing v with
  | nil => rw [List.sum_nil, add_zero]; rfl
  | cons w ws ih =>
    have sum : Term.add (.monomial (.constant v)) (.monomial (.constant w)) =
        .monomial (.constant (v + w)) := congrArg Term.monomial (Monomial.new_one (v + w))
    rw [List.map_cons, List.foldl_cons, sum, ih, List.sum_cons, add_assoc]

/-- The sum of constants is the constant of their sum. -/
theorem sum?_constant (ws : List (Number ℚ)) :
    (Term.sum? (ws.map fun w => Term.monomial (.constant w))).getD (.monomial .zero) =
      .monomial (.constant ws.sum) := by
  cases ws with
  | nil => rfl
  | cons w ws => exact (foldl_add_constant w ws).trans (by rw [List.sum_cons])

/-- A sign behind a sum makes a sum of it. -/
theorem Sum.isSum_append_sign {s : Arithmetic.Sum} (lexed : Lexed s.tokens)
    (hc : c = '+' ∨ c = '-') (rest : List Char) : isSum (s.text ++ c :: rest) = true := by
  have nonempty : s.text ≠ [] := by
    intro empty
    cases acceptsText_of_read? (empty ▸ Sum.reads lexed)
  rw [(Sum.balanced_text lexed).isSum_append nonempty]
  rcases hc with rfl | rfl
  · exact Bool.or_true _
  · exact Bool.or_true _

/-- **A sum is compiled to its value.** -/
theorem Sum.Computes.compileSum {s : Arithmetic.Sum} (h : s.Computes v) :
    SamePoly.compileSum ℚ s.text 0 = .ok (.monomial (.constant v)) := by
  cases sum : isSum s.text with
  | false =>
    obtain ⟨lexed, chain, integral, separated, value⟩ := h
    match s with
    | .single p =>
      have product : p.Computes v := ⟨lexed, chain, integral, separated, value⟩
      rw [compileSum_of_not_isSum (Nat.zero_le _) sum]
      exact product.termIs
    | .plus s p =>
      rw [Sum.text_plus, Sum.isSum_append_sign lexed.of_append.1 (.inl rfl)] at sum
      cases sum
    | .minus s p =>
      rw [Sum.text_minus, Sum.isSum_append_sign lexed.of_append.1 (.inr rfl)] at sum
      cases sum
  | true =>
    obtain ⟨ws, terms, rfl⟩ := h.exists_terms
    have compiled : ((splitSum s.text).mapM fun term => SamePoly.compileProduct ℚ term 0) =
        .ok (ws.map fun w => .monomial (.constant w)) :=
      mapM_of_forall₂ (List.forall₂_map_right_iff.2 terms)
    have shorter : ∀ term ∈ splitSum s.text, term.length < s.text.length :=
      fun term hterm => (Sum.balanced_text h.lexed).length_lt_of_mem_splitSum sum hterm
    rw [compileSum_of_isSum (Nat.zero_le _) sum, compileTerms_eq (Nat.zero_le _) shorter, compiled,
      ← sum?_constant]
    rfl

end Arithmetic

/-! ## Texts -/

/-- In normalized text that is read a `^` stands between brackets. -/
theorem powerBetweenBrackets_of_finds (follows : Follows c d) (finds : FindsOperand c d)
    (wrapped : c = '^' → isWrapped d = false) : PowerBetweenBrackets c d := by
  constructor
  · rintro rfl
    have before (j : Kind) (h : j.follows .caret = true) : j = .closing ∨ j = .caret := by
      revert h
      cases j <;> decide
    rcases before _ follows with closing | caret
    · exact kind_eq_closing_iff.1 closing
    · cases finds (caret ▸ rfl)
  · rintro rfl
    have unwrapped := wrapped rfl
    rw [isWrapped, Bool.or_eq_false_iff, isLiteral, Bool.or_eq_false_iff] at unwrapped
    obtain ⟨⟨digit, -⟩, letter⟩ := unwrapped
    have operand : (kind d).startsOperand = true := finds rfl
    cases hk : kind d with
    | opening => exact kind_eq_opening_iff.1 hk
    | digit =>
      rw [kind_eq_digit_iff.1 hk] at digit
      cases digit
    | letter =>
      rw [kind_eq_letter_iff.1 hk] at letter
      cases letter
    | _ =>
      rw [hk] at operand
      cases operand

/-- The neighbours in the normalized text of a well-formed text, if it is read. -/
theorem WellFormed.isChain_abuts (h : WellFormed text) (nonblank : isBlankText text = false)
    (reads : Reads (normalize text)) (times : (normalize text).IsChain DigitBefore) :
    (normalize text).IsChain Abuts := by
  have linked := h.normalize_linked nonblank
  have finds := operands_of_acceptsText linked.sound (acceptsText_of_read? reads)
  have wrapped : (normalize text).IsChain fun c d => c = '^' → isWrapped d = false :=
    isChain_wrapExponents _
  refine isChain_of_forall fun before c d after whole => ?_
  have neighbours {R : Char → Char → Prop} (chain : (normalize text).IsChain R) : R c d := by
    rw [whole] at chain
    exact (List.isChain_cons_cons.1 chain.right_of_append).1
  exact ⟨neighbours finds, neighbours times, powerBetweenBrackets_of_finds
    (neighbours linked.isChain.tail) (neighbours finds) (neighbours wrapped)⟩

/-- The polynomial of a constant. -/
theorem toPolynomial_constant (v : Number ℚ) :
    (Term.monomial (.constant v)).toPolynomial = ⟨if v = 0 then [] else [.constant v]⟩ := by
  have zero : (Monomial.constant v).isZero = true ↔ v = 0 := Number.isZero_iff
  show Polynomial.mk (if (Monomial.constant v).isZero = true then [] else [.constant v]) = _
  simp only [zero]

/-- A text whose term is a constant has the polynomial of it. -/
theorem compile_constant (h : compileSum ℚ (normalize text) 0 = .ok (.monomial (.constant v))) :
    compile ℚ text = .ok ⟨if v = 0 then [] else [.constant v]⟩ := by
  have finite : (Term.monomial (.constant v)).toPolynomial.isFinite = true :=
    List.all_eq_true.2 fun m _ => m.coefficient.isFinite_eq_true
  rw [compile, h, ← toPolynomial_constant]
  exact if_pos finite

/-- A text whose normalized text is cut into numbers has the polynomial of its value. -/
theorem parse_of_computes {s : Arithmetic.Sum} (nonblank : isBlankText text = false)
    (valid : validate ℚ text = .ok ()) (normal : normalize text = s.text)
    (computes : s.Computes v) :
    parse ℚ text = .ok ⟨if v = 0 then [] else [.constant v]⟩ :=
  parse_eq_ok_iff.2 ⟨nonblank, valid, compile_constant (normal ▸ computes.compileSum)⟩

/-- A digit other than zero is a constant. -/
theorem parse_digit {c : Char} {v : Number ℚ} (valid : validate ℚ [c] = .ok ())
    (nonblank : isBlankText [c] = false) (normal : normalize [c] = [c])
    (lexed : Lexed [.number ⟨[c], none⟩])
    (value : (Primary.number ⟨[c], none⟩).value? = some v) (nonzero : v ≠ 0) :
    parse ℚ [c] = .ok ⟨[.constant v]⟩ := by
  let tree : Arithmetic.Sum := .ofUnary (.signed [] (.plain (.number ⟨[c], none⟩)))
  have total : tree.value? = some v := Option.bind_eq_some_iff.2 ⟨v, value, rfl⟩
  have computes : tree.Computes v := ⟨lexed, List.isChain_singleton c, trivial, rfl, total⟩
  have parsed := parse_of_computes (s := tree) nonblank valid normal computes
  rwa [if_neg nonzero] at parsed

/-- **A numeric text has the polynomial of its value**: if the normalized text of a text that has
    passed all checks is read as a tree with a value, the exponents of its powers outside brackets
    are integers, its multiplication signs stand behind digits, and literals that groups are divided
    by stand alone. -/
theorem parse_constant {s : Arithmetic.Sum} (valid : validate ℚ text = .ok ())
    (read : Arithmetic.Sum.read? (normalize text) = some s)
    (value : evaluate (normalize text) = .ok v) (integral : s.IsIntegral)
    (times : (normalize text).IsChain DigitBefore) (separated : s.isSeparated = true) :
    parse ℚ text = .ok ⟨if v = 0 then [] else [.constant v]⟩ := by
  have wellFormed := (wellFormed_of_validate valid).1
  have reads : Reads (normalize text) := .of_evaluate value
  have nonblank : isBlankText text = false := by
    rw [← Bool.not_eq_true]
    intro blank
    cases acceptsText_of_read? (wellFormed.normalize_blank blank ▸ reads)
  obtain ⟨lexed, spelled⟩ := Sum.read?_eq_some_iff.1 read
  have computed : s.value? = some v := by
    rw [← toOption_evaluate_text lexed, spelled, value]
    rfl
  have computes : s.Computes v :=
    ⟨lexed, spelled ▸ wellFormed.isChain_abuts nonblank reads times, integral, separated, computed⟩
  exact parse_of_computes nonblank valid spelled.symm computes

/-- A denominator with a value other than zero is not at fault. -/
theorem divisionFault?_of_value {vanishes : VanishingTest text} {site : Site text}
    {s : Arithmetic.Sum} (lexed : Lexed s.tokens) (numeric : hasVariable site.right = false)
    (normal : normalize site.right = s.text) (value : s.value? = some v)
    (nonzero : v.nearer Scalar.denominatorTolerance = false) :
    divisionFault? ℚ vanishes site = none := by
  refine divisionFault?_eq_none_iff.2 ⟨numeric, fun z hz => ?_⟩
  rw [normal, evaluate_tree lexed value] at hz
  cases hz
  exact nonzero

/-- A division of a group by a literal, next to a power. -/
theorem validate_quotient : validate ℚ "9-(2)^2(6)/8+1".toList = .ok () := by
  have operands : (divisionSites "9-(2)^2(6)/8+1".toList).map (fun site => site.right) = [['8']] ∧
      (powerSites "9-(2)^2(6)/8+1".toList).map (fun site => (site.left, site.right)) =
        [("(2)".toList, ['2'])] := by decide +kernel
  let eight : Arithmetic.Sum := .ofUnary (.signed [] (.plain (.number ⟨['8'], none⟩)))
  have value : (eight.value? : Option (Number ℚ)) = some ⟨8, 0⟩ := by decide +kernel
  have same : normalize ['2'] = ['2'] := by decide +kernel
  have two : (evaluate ['2'] : Except EvalError (Number ℚ)) = .ok ⟨2, 0⟩ :=
    evaluate_primary (b := .number ⟨['2'], none⟩) (by decide) (by decide +kernel)
  refine validate_eq_ok_iff.2 ⟨by decide +kernel, by decide, violation?_eq_none_iff.2 ⟨?_, ?_⟩⟩
  · intro site hsite
    have right := List.mem_map_of_mem (f := fun site => site.right) hsite
    rw [operands.1, List.mem_singleton] at right
    have normal : normalize ['8'] = eight.text := by decide +kernel
    exact divisionFault?_of_value (by decide) (right ▸ rfl) (right ▸ normal) value
      (by decide +kernel)
  · intro site hsite
    have both := List.mem_map_of_mem (f := fun site => (site.left, site.right)) hsite
    rw [operands.2, List.mem_singleton, Prod.mk.injEq] at both
    have positive : isNegativeReal ℚ ⟨2, 0⟩ = false := by decide +kernel
    rw [powerFault?, both.1, both.2, same, two]
    dsimp only
    rw [positive, if_neg (by decide), if_neg (by decide)]
    cases (evaluate (normalize "(2)".toList) : Except EvalError (Number ℚ)) with
    | error e => rfl
    | ok base =>
      dsimp only
      rw [Bool.and_false]
      rfl

/-- `9-(2)^2(6)/8+1` is seven. -/
theorem parse_constant_quotient :
    parse ℚ "9-(2)^2(6)/8+1".toList = .ok ⟨[.constant ⟨7, 0⟩]⟩ := by
  let digit (c : Char) : Primary := .number ⟨[c], none⟩
  let factor (c : Char) : Unary := .signed [] (.plain (digit c))
  let group (c : Char) : Primary := .group (.ofUnary (factor c))
  let square : Unary := .signed [] (.raised (group '2') (.signed [] (.plain (group '2'))))
  let quotient : Product := .over (.beside (.single square) (.plain (group '6'))) (factor '8')
  let tree : Arithmetic.Sum :=
    .plus (.minus (.ofUnary (factor '9')) quotient) (.single (factor '1'))
  have normal : normalize "9-(2)^2(6)/8+1".toList = tree.text := by decide +kernel
  have lexed : Lexed tree.tokens := by decide
  have total : (tree.value? : Option (Number ℚ)) = some ⟨7, 0⟩ := by decide +kernel
  have read : Arithmetic.Sum.read? (normalize "9-(2)^2(6)/8+1".toList) = some tree :=
    Sum.read?_eq_some_iff.2 ⟨lexed, normal.symm⟩
  have value : evaluate (normalize "9-(2)^2(6)/8+1".toList) = .ok (⟨7, 0⟩ : Number ℚ) := by
    rw [normal]
    exact evaluate_tree lexed total
  have exponent : ((Unary.signed [] (.plain (group '2'))).value? : Option (Number ℚ)) =
      some (.ofReal ((2 : ℤ) : ℚ)) := by decide +kernel
  have integral : tree.IsIntegral := ⟨⟨trivial, ⟨⟨2, exponent⟩, trivial⟩, trivial⟩, trivial⟩
  have plain : (normalize "9-(2)^2(6)/8+1".toList).all (· != '*') = true := by decide +kernel
  have times : (normalize "9-(2)^2(6)/8+1".toList).IsChain DigitBefore :=
    isChain_of_forall fun before c d after whole hd =>
      absurd hd (by simpa using List.all_eq_true.1 plain d (by rw [whole]; simp))
  have parsed := parse_constant validate_quotient read value integral times (by decide)
  rwa [if_neg (by decide +kernel)] at parsed

/-- Of `(8)/2/2` the second division is one of the denominator, not of the whole: behind a group the
    literals up to the next one are a single factor. -/
theorem parse_divided_twice :
    validate ℚ "(8)/2/2".toList = .ok () ∧
      evaluate (normalize "(8)/2/2".toList) = .ok (⟨2, 0⟩ : Number ℚ) ∧
      parse ℚ "(8)/2/2".toList = .ok ⟨[.constant ⟨8, 0⟩]⟩ := by
  let digit (c : Char) : Unary := .signed [] (.plain (.number ⟨[c], none⟩))
  let group : Unary := .signed [] (.plain (.group (.ofUnary (digit '8'))))
  let tree : Arithmetic.Sum := .single (.over (.over (.single group) (digit '2')) (digit '2'))
  have normal : normalize "(8)/2/2".toList = tree.text := by decide +kernel
  have total : (tree.value? : Option (Number ℚ)) = some ⟨2, 0⟩ := by decide +kernel
  have operands : (divisionSites "(8)/2/2".toList).map (fun site => site.right) =
      [['2'], ['2']] := by decide +kernel
  have two : ((Arithmetic.Sum.ofUnary (digit '2')).value? : Option (Number ℚ)) = some ⟨2, 0⟩ := by
    decide +kernel
  have same : normalize ['2'] = (Arithmetic.Sum.ofUnary (digit '2')).text := by decide +kernel
  have valid : validate ℚ "(8)/2/2".toList = .ok () := by
    refine validate_eq_ok_iff.2 ⟨by decide +kernel, by decide, violation?_eq_none_iff.2 ⟨?_, ?_⟩⟩
    · intro site hsite
      have right := List.mem_map_of_mem (f := fun site => site.right) hsite
      simp only [operands, List.mem_cons, List.not_mem_nil, or_false, or_self] at right
      exact divisionFault?_of_value (by decide) (right ▸ rfl) (right ▸ same) two (by decide +kernel)
    · intro site hsite
      cases hsite
  have eight : IsCut (Primary.group (.ofUnary (digit '8'))).tokens .group (⟨8, 0⟩ : Number ℚ) :=
    isCut_of_group (by decide) (by decide +kernel)
  have literals : ∀ c ∈ "2/2".toList, c ≠ '(' ∧ c ≠ ')' ∧ c ≠ '^' := by simp
  have compiled : compileMonomial ℚ tree.text = .ok (.new ⟨8, 0⟩ .one) := by
    have ratio := eight.compileMonomial_over (p := .over (.single (digit '2')) (digit '2'))
      (w := 1) (by decide) literals (by decide) (by decide +kernel) one_ne_zero
    rwa [inv_one, mul_one] at ratio
  have term : compileSum ℚ tree.text 0 = .ok (.monomial (.constant ⟨8, 0⟩)) := by
    rw [compileSum_of_not_isSum (Nat.zero_le _) (by decide +kernel),
      compileProduct_of_isMonomial (Nat.zero_le _) (by decide +kernel), compiled, Monomial.new_one]
    rfl
  refine ⟨valid, ?_, parse_eq_ok_iff.2 ⟨rfl, valid, ?_⟩⟩
  · rw [normal]
    exact evaluate_tree (by decide) total
  · rw [compile_constant (normal ▸ term), if_neg (by decide +kernel)]

end SamePoly
