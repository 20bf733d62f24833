/-
  What is wrong with a text that the checks let pass.

  A text that passes the checks of its symbols and brackets may still have three slips: a sign right
  before a closing bracket, two multiplication signs with only spaces between them, and a
  multiplication sign that the normalization leaves next to a bracket.  Without these its normalized
  text is clean, and every part of it that has to be a number is a numeric expression.  So if such a
  text is rejected it is not for how it is written, but for what it means.

  * `SignsComplete`: no bracket closes right behind a sign.
  * `PolyError.OfMeaning`: an error in what a text means.
  * `WellFormed.clean_normalize`: the normalized text is clean.
  * `CleanFactor.ofMeaning`, `Clean.ofMeaning_of_compileMonomial`, `Fit.ofMeaning`: what clean text
    is rejected for.
  * `parse_ok_or_ofMeaning`: **a text without slips that passes the checks has a polynomial, or is
    rejected for what it means**.
-/
import SamePoly.Proofs.Clean
import SamePoly.Proofs.Readers
import SamePoly.Proofs.Spacing

namespace SamePoly

variable {text rest : List Char} {c d : Char} {n : ℕ}

/-! ## Signs -/

/-- No bracket closes right behind a sign. -/
def SignsComplete : List Char → Prop :=
  Everywhere fun c rest => c = '+' ∨ c = '-' → ahead rest ≠ some ')'

instance : DecidablePred SignsComplete := fun _ => inferInstanceAs (Decidable (Everywhere _ _))

/-- Remembers whether a sign was the last symbol, and stops at a bracket that closes behind one. -/
def signReader : Reader Bool := fun sign c =>
  if isFiller c then some sign
  else if c = ')' ∧ sign = true then none
  else some (c == '+' || c == '-')

theorem signReader_symbol (filler : isFiller c = false) (hclose : c ≠ ')') (sign : Bool) :
    signReader sign c = some (c == '+' || c == '-') := by
  rw [signReader, filler, if_neg Bool.false_ne_true, if_neg fun h => hclose h.1]

theorem signReader_plain (hc : IsPlain c) (sign : Bool) : signReader sign c = some false := by
  have plus : c ≠ '+' := hc.ne rfl rfl
  have minus : c ≠ '-' := hc.ne rfl rfl
  rw [signReader_symbol hc.isFiller (hc.ne rfl rfl)]
  simp [plus, minus]

theorem signReader.read_plain {run : List Char} (h : ∀ d ∈ c :: run, IsPlain d) (sign : Bool)
    (rest : List Char) :
    signReader.read sign (c :: run ++ rest) = signReader.read false rest := by
  induction run generalizing c sign with
  | nil =>
    rw [List.singleton_append, Reader.read_cons, signReader_plain (h c List.mem_cons_self)]
    rfl
  | cons d run ih =>
    obtain ⟨hc, h⟩ := List.forall_mem_cons.1 h
    rw [List.cons_append, Reader.read_cons, signReader_plain hc]
    exact ih h false

theorem signReader.indifferent : signReader.Indifferent where
  filler sign c hc := by rw [signReader, if_pos hc]
  respell sign c := by
    rw [respellChar]
    split_ifs with hcomma hcolon
    · rw [beq_iff_eq.1 hcomma]
      rfl
    · rw [beq_iff_eq.1 hcolon]
      rfl
    · rfl
  bracketed sign c run rest plain _ := by
    have opening : signReader sign '(' = some false := rfl
    have closing : signReader false ')' = some false := rfl
    rw [bracketed_append, Reader.read_cons, opening]
    show signReader.read false (c :: run ++ ')' :: rest) = _
    rw [read_plain plain, read_plain plain, Reader.read_cons, closing]
    rfl

theorem isOperator_of_isBinary (h : isBinary c = true) : isOperator c = true := by
  rw [isBinary, Bool.or_eq_true, Bool.or_eq_true, Bool.or_eq_true, beq_iff_eq, beq_iff_eq,
    beq_iff_eq, beq_iff_eq] at h
  rcases h with ((rfl | rfl) | rfl) | rfl <;> rfl

/-- The reader goes through a text if no bracket closes behind a sign. -/
theorem SignsComplete.isSome_read (signs : SignsComplete text)
    (operators : Everywhere OperatorFits text) (sign : Bool)
    (next : sign = true → ∀ d, ahead text = some d → d ≠ ')' ∧ isBinary d = false) :
    (signReader.read sign text).isSome = true := by
  induction text generalizing sign with
  | nil => rfl
  | cons c text ih =>
    rw [Reader.read_cons]
    by_cases space : c = ' '
    · subst space
      exact ih signs.2 operators.2 sign next
    have first : sign = true → c ≠ ')' ∧ isBinary c = false := fun h => next h c (ahead_cons space text)
    cases filler : isFiller c with
    | true =>
      have step : signReader sign c = some sign := signReader.indifferent.filler sign c filler
      rw [step]
      refine ih signs.2 operators.2 sign fun h => ?_
      have binary := (first h).2
      have symbol : c = '*' ∨ c = '^' := by simpa [isFiller, space] using filler
      rcases symbol with rfl | rfl <;> cases binary
    | false =>
      have step : signReader sign c = some (c == '+' || c == '-') := by
        rw [signReader, filler, if_neg Bool.false_ne_true, if_neg]
        rintro ⟨hclose, h⟩
        exact (first h).1 hclose
      rw [step]
      refine ih signs.2 operators.2 _ fun h d hd => ?_
      have symbol : c = '+' ∨ c = '-' := by simpa using h
      refine ⟨fun hclose => signs.1 symbol (hclose ▸ hd), ?_⟩
      have operator : isOperator c = true := by rcases symbol with rfl | rfl <;> rfl
      have butTimes : isOperatorButTimes c = true := by rcases symbol with rfl | rfl <;> rfl
      obtain ⟨e, he, other⟩ := operators.1.operand operator
      obtain rfl : d = e := Option.some.inj (hd.symm.trans he)
      have star : d ≠ '*' := fun same => operators.1.single butTimes (same ▸ hd)
      have none : isOperator d = false := isOperator_eq_false_iff.2 ⟨other, star⟩
      rw [← Bool.not_eq_true] at none ⊢
      exact mt isOperator_of_isBinary none

/-- In the normalized text no bracket closes right behind a sign either. -/
theorem SignsComplete.isChain_normalize (signs : SignsComplete text)
    (operators : Everywhere OperatorFits text) :
    (normalize text).IsChain fun c d => kind c = .sign → d ≠ ')' := by
  have passed : (signReader.read false (normalize text)).isSome = true := by
    rw [signReader.indifferent.read_normalize]
    exact signs.isSome_read operators false fun h => absurd h Bool.false_ne_true
  refine isChain_of_forall fun before c d after whole hc hd => ?_
  have stops (sign : Bool) : signReader.read sign (c :: d :: after) = none := by
    rw [hd]
    rcases kind_eq_sign_iff.1 hc with rfl | rfl <;> cases sign <;> rfl
  rw [whole, Reader.read_append] at passed
  cases front : signReader.read false before with
  | none =>
    rw [front] at passed
    cases passed
  | some sign =>
    rw [front, Option.bind_some, stops] at passed
    cases passed

/-! ## Normalized text -/

/-- In the normalized text a `^` stands between two brackets, if all powers can be seen in the text
    that was given. -/
theorem WellFormed.isChain_power (h : WellFormed text) (nonblank : isBlankText text = false)
    (together : StarsTogether text) : (normalize text).IsChain PowerBetweenBrackets := by
  have compact : ∀ c ∈ SamePoly.withoutSpaces text, c ≠ ' ' := fun c hc => (mem_withoutSpaces.1 hc).2
  have lone := (h.withoutSpaces together).isChain_lonePower compact
  rw [normalize_withoutSpaces] at lone
  have linked := h.normalize_linked nonblank
  have wrapped : (normalize text).IsChain fun c d => c = '^' → isWrapped d = false :=
    isChain_wrapExponents _
  have between : ∀ before after, normalize text = before ++ '^' :: after →
      before.getLast? = some ')' ∧ after.head? = some '(' := by
    intro before after whole
    rw [whole] at linked lone wrapped
    exact linked.powerBetweenBrackets lone wrapped
  refine isChain_of_forall fun before c d after whole => ⟨?_, ?_⟩
  · rintro rfl
    have closes := (between (before ++ [c]) after (by rw [whole]; simp)).1
    rw [List.getLast?_concat] at closes
    exact Option.some.inj closes
  · rintro rfl
    exact Option.some.inj (between before (d :: after) whole).2

/-- In text in which every operator has its operands an operand stands behind each. -/
theorem findsOperand_of_follows (follows : Follows c d) (complete : kind c = .sign → d ≠ ')')
    (power : PowerBetweenBrackets c d) : FindsOperand c d := by
  intro operator
  have next (j k : Kind) (operator : j.isOperator = true) (follows : j.follows k = true) :
      k.startsOperand = true ∨ j = .sign ∧ k = .closing ∨ j = .caret := by
    revert operator follows
    cases j <;> cases k <;> decide
  rcases next _ _ operator follows with operand | ⟨sign, closing⟩ | caret
  · exact operand
  · exact absurd (kind_eq_closing_iff.1 closing) (complete sign)
  · rw [power.2 (kind_eq_caret_iff.1 caret)]
    rfl

/-- **The normalized text of a checked text without slips is clean.** -/
theorem WellFormed.clean_normalize (h : WellFormed text) (nonblank : isBlankText text = false)
    (signs : SignsComplete text) (together : StarsTogether text)
    (times : TimesBetweenDigits (normalize text)) : Clean (normalize text) := by
  have linked := h.normalize_linked nonblank
  have complete := signs.isChain_normalize h.operators
  have power := h.isChain_power nonblank together
  refine ⟨linked.sound.known, (h.fit_normalize nonblank).layered.balanced, ?_, ?_, ?_⟩
  · cases normal : normalize text with
    | nil => exact absurd normal linked.ne_nil
    | cons c rest =>
      rw [normal] at linked
      exact ⟨c, rfl, isBinary_of_follows_opening (List.isChain_cons_cons.1 linked.isChain).1⟩
  · refine isChain_of_forall fun before c d after whole => ?_
    have neighbours {R : Char → Char → Prop} (chain : (normalize text).IsChain R) : R c d := by
      rw [whole] at chain
      exact (List.isChain_cons_cons.1 chain.right_of_append).1
    have follows : Follows c d := neighbours linked.isChain.tail
    exact ⟨follows, findsOperand_of_follows follows (neighbours complete) (neighbours power),
      neighbours times.digitBefore, neighbours times.digitBehind, neighbours power⟩
  · intro c hc
    obtain ⟨e, he, hend⟩ := linked.getLast?
    rw [List.getLast?_cons, hc] at he
    obtain rfl : c = e := Option.some.inj he
    have closes (k : Kind) (h : k.mayEnd = true) : k.isOperator = false ∧ k ≠ .point := by
      revert h
      cases k <;> decide
    obtain ⟨operator, point⟩ := closes _ hend
    exact ⟨operator, mt kind_eq_point_iff.2 point⟩

/-! ## Errors -/

/-- What a text means is at fault and not how it is written: no syntax error, or an exponent that
    divides by zero. -/
def PolyError.OfMeaning (e : PolyError) : Prop :=
  e.isSyntactic = false ∨
    ∃ place text denominator, e = .factor place (.exponent text (.divisionByZero denominator))

variable {R : Type} [Scalar R] {x : List Char × Exponent} {e : PolyError}

theorem isSyntactic_of_symbolicFactor {exponent : Number R} {fault : FactorFault}
    (h : (symbolicFactor text exponent : Except FactorFault (Factor R)) = .error fault) :
    fault.isSyntactic = false := by
  rw [symbolicFactor] at h
  split at h
  · cases h
    rfl
  · split at h
    · cases h
    · split at h
      · cases h
        rfl
      · cases h

/-- A clean number is no malformed one. -/
theorem Clean.isSyntactic_of_numericFactor {exponent : Number R} {fault : FactorFault}
    (clean : Clean text) (numeric : hasVariable text = false)
    (h : (numericFactor text exponent : Except FactorFault (Factor R)) = .error fault) :
    fault.isSyntactic = false := by
  have outcome : HasOutcome (evaluate text : Except EvalError (Number R)) := clean.hasOutcome numeric
  rw [numericFactor] at h
  split at h
  · rename_i malformed
    rw [malformed] at outcome
    rcases outcome with ⟨value, found⟩ | ⟨denominator, found⟩
    · cases found
    · cases found
  · cases h
    rfl
  · split at h
    · cases h
      rfl
    · split at h
      · cases h
      · cases h
        rfl

/-- A clean factor is rejected for what it means. -/
theorem CleanFactor.ofMeaning {fault : FactorFault} (hx : CleanFactor x)
    (h : (evaluateFactor x.1 x.2 : Except FactorFault (Factor R)) = .error fault) (place : Place) :
    (PolyError.factor place fault).OfMeaning := by
  obtain ⟨base, exponents⟩ := hx
  have base := base x.2
  rw [← pieces_prepareFactor x.1 x.2] at exponents
  rw [evaluateFactor] at h
  generalize prepareFactor x.1 x.2 = prepared at base exponents h
  obtain ⟨text, exponent⟩ := prepared
  dsimp only at base exponents h
  split at h
  · cases h
    exact .inl rfl
  · rename_i numeric
    rw [Bool.not_eq_true, Exponent.hasVariable_eq, List.any_eq_false] at numeric
    have reads : ∀ p ∈ exponent.pieces, Reads p := fun p hp =>
      (exponents p hp).reads (Bool.eq_false_iff.2 (numeric p hp))
    have outcome : HasOutcome (exponent.evaluate : Except EvalError (Number R)) :=
      exponent.evaluate_of_reads reads
    split at h
    · rename_i cause failed
      cases h
      rw [failed] at outcome
      rcases outcome with ⟨value, found⟩ | ⟨denominator, found⟩
      · cases found
      · cases found
        exact .inr ⟨place, _, denominator, rfl⟩
    · rename_i value _
      refine .inl ?_
      split at h
      · exact isSyntactic_of_symbolicFactor h
      · rename_i letters
        exact base.isSyntactic_of_numericFactor (Bool.eq_false_iff.2 letters) h

/-- A clean monomial is rejected for what it means, or for an internal reason. -/
theorem Clean.ofMeaning_of_compileMonomial (clean : Clean text) (single : isSum text = false)
    (h : compileMonomial R text = .error e) : e.isInternal = true ∨ e.OfMeaning := by
  have wrapped := clean.wrapVariables
  have product : isSum (SamePoly.wrapVariables text) = false := by rwa [isSum_wrapVariables]
  rw [compileMonomial] at h
  split at h
  · rename_i e' failed
    cases h
    obtain ⟨before, x, after, found, cut, -, failed⟩ := error_of_foldlM failed
    have hx : x ∈ splitComposition (SamePoly.wrapVariables text) := by
      rw [cut]
      exact List.mem_append_right _ List.mem_cons_self
    rw [multiplyFactor.eq_def] at failed
    split at failed
    · rename_i fault hfault
      cases failed
      exact .inr ((wrapped.of_mem_splitComposition product hx).ofMeaning hfault _)
    · cases failed
    · split at failed
      · split at failed
        · cases failed
          exact .inr (.inl rfl)
        · cases failed
      · cases failed
        exact .inl rfl
    · cases failed
      exact .inl rfl
  · cases h

/-- A fit and clean product is rejected for what it means. -/
theorem Fit.ofMeaning_of_product {depth : ℕ} (fit : Fit n text) (clean : Clean text)
    (single : isSum text = false) (room : depth + n ≤ maxNestingDepth)
    (h : compileProduct R text depth = .error e) : e.OfMeaning := by
  induction n using Nat.strongRecOn generalizing text depth e with
  | ind n ih =>
    have hd : depth ≤ maxNestingDepth := by omega
    have external := fit.not_isInternal_of_product single room h
    have blame (h : e.isInternal = true ∨ e.OfMeaning) : e.OfMeaning :=
      h.resolve_left (Bool.eq_false_iff.1 external)
    cases monomial : isMonomial text with
    | true =>
      rw [compileProduct_of_isMonomial hd monomial] at h
      exact blame (clean.ofMeaning_of_compileMonomial single (error_of_map h))
    | false =>
      obtain ⟨before, x, after, cut, earlier, failed⟩ := exists_of_compileProduct_error hd monomial
        single (fit.splitComposition_ne_nil single monomial) h
      have hx : x ∈ splitComposition text := by
        rw [cut]
        exact List.mem_append_right _ List.mem_cons_self
      have factor : CleanFactor x := clean.of_mem_splitComposition single hx
      rw [factorTerm] at failed
      split at failed
      · rename_i fault hfault
        cases failed
        exact factor.ofMeaning hfault _
      · cases failed
      · rename_i base exponent symbolic
        obtain ⟨rfl, letter, -⟩ := evaluateFactor_symbolic symbolic
        obtain ⟨m, fitBase, layer⟩ := fit.base single cut earlier letter
        have cleanBase := factor.1 x.2
        rw [baseTerm] at failed
        split at failed
        · rename_i small
          exact blame (cleanBase.ofMeaning_of_compileMonomial (isSum_of_isMonomial small)
            (error_of_map failed))
        · rename_i large
          have layer : m + 1 ≤ n := layer.resolve_left large
          obtain ⟨term, rfl | hterm, singleTerm, failed⟩ := exists_of_compileSum_error
            fitBase.layered.balanced (by omega) (error_of_map failed)
          · exact ih m (by omega) fitBase cleanBase singleTerm (by omega) failed
          · exact ih m (by omega) (fitBase.of_mem_splitSum hterm).1
              (cleanBase.of_mem_splitSum hterm) singleTerm (by omega) failed

/-- A fit and clean text is rejected for what it means. -/
theorem Fit.ofMeaning {depth : ℕ} (fit : Fit n text) (clean : Clean text)
    (room : depth + n ≤ maxNestingDepth) (h : compileSum R text depth = .error e) :
    e.OfMeaning := by
  obtain ⟨term, rfl | hterm, single, failed⟩ := exists_of_compileSum_error fit.layered.balanced
    ((Nat.le_add_right _ _).trans room) h
  · exact fit.ofMeaning_of_product clean single room failed
  · exact (fit.of_mem_splitSum hterm).1.ofMeaning_of_product (clean.of_mem_splitSum hterm) single
      room failed

/-- **A text without slips that passes the checks has a polynomial, or is rejected for what it
    means**: no bracket closes right behind a sign, no two multiplication signs have only spaces
    between them, and the normalization leaves multiplication signs between digits only. -/
theorem parse_ok_or_ofMeaning (R : Type) [Scalar R] {text : List Char}
    (nonblank : isBlankText text = false) (fine : malformed? text = none)
    (shallow : nestingDepth text ≤ maxNestingDepth) (signs : SignsComplete text)
    (together : StarsTogether text) (times : TimesBetweenDigits (normalize text)) :
    (∃ p, parse R text = .ok p) ∨ ∃ e, parse R text = .error e ∧ e.OfMeaning := by
  have wellFormed := malformed?_eq_none_iff.1 fine
  have fit := wellFormed.fit_normalize nonblank
  have clean := wellFormed.clean_normalize nonblank signs together times
  cases result : parse R text with
  | ok p => exact .inl ⟨p, rfl⟩
  | error e =>
    refine .inr ⟨e, rfl, ?_⟩
    rw [parse_eq, nonblank, if_neg Bool.false_ne_true, validate, validateBy, fine] at result
    dsimp only at result
    rw [if_neg (Nat.not_lt.2 shallow)] at result
    split at result
    · cases result
      exact .inl rfl
    · have result : compile R text = .error e := result
      rw [compile] at result
      cases compiled : compileSum R (normalize text) 0 with
      | error e' =>
        rw [compiled] at result
        cases result
        exact fit.ofMeaning clean (by omega) compiled
      | ok t =>
        rw [compiled] at result
        have result : (if t.toPolynomial.isFinite then Except.ok t.toPolynomial
          else .error (.coefficientOverflow text)) = .error e := result
        split at result
        · cases result
        · cases result
          exact .inl rfl

/-- A text with a multiplication sign between digits, a sign behind a bracket, and a power. -/
theorem parse_ok_or_ofMeaning_scaled :
    isBlankText "2*3(-x)^2".toList = false ∧ malformed? "2*3(-x)^2".toList = none ∧
      nestingDepth "2*3(-x)^2".toList ≤ maxNestingDepth ∧ SignsComplete "2*3(-x)^2".toList ∧
      StarsTogether "2*3(-x)^2".toList ∧ TimesBetweenDigits (normalize "2*3(-x)^2".toList) ∧
      ((∃ p, parse ℚ "2*3(-x)^2".toList = .ok p) ∨
        ∃ e, parse ℚ "2*3(-x)^2".toList = .error e ∧ e.OfMeaning) := by
  have nonblank : isBlankText "2*3(-x)^2".toList = false := by decide +kernel
  have fine : malformed? "2*3(-x)^2".toList = none := by decide +kernel
  have shallow : nestingDepth "2*3(-x)^2".toList ≤ maxNestingDepth := by decide
  have signs : SignsComplete "2*3(-x)^2".toList := by decide
  have together : StarsTogether "2*3(-x)^2".toList := by decide
  have times : TimesBetweenDigits (normalize "2*3(-x)^2".toList) := by
    have normal : normalize "2*3(-x)^2".toList = "2*3(-x)^(2)".toList := by decide +kernel
    rw [normal]
    exact timesBetweenDigits_of_isChain (by decide)
  exact ⟨nonblank, fine, shallow, signs, together, times,
    parse_ok_or_ofMeaning ℚ nonblank fine shallow signs together times⟩

/-- A bracket that closes behind a sign passes the checks, and what stands in it is no number. -/
theorem parse_dangling_sign :
    isBlankText "(2+)".toList = false ∧ malformed? "(2+)".toList = none ∧
      nestingDepth "(2+)".toList ≤ maxNestingDepth ∧
      parse ℚ "(2+)".toList =
        .error (.factor (.monomial "(2+)".toList) (.malformed "2+".toList)) ∧
      ¬(PolyError.factor (.monomial "(2+)".toList) (.malformed "2+".toList)).OfMeaning := by
  have fine : malformed? "(2+)".toList = none := by decide +kernel
  have valid : validate ℚ "(2+)".toList = .ok () := by
    rw [validate, validateBy, fine]
    rfl
  have inside : Balanced ['2', '+'] :=
    .symbol (by decide) (by decide) (.symbol (by decide) (by decide) .nil)
  have factors : splitComposition "(2+)".toList = [(['2', '+'], .one)] := by
    have ends : EndsTower [] := fun caret => by cases caret
    rw [splitComposition]
    show splitCompositionFrom [] [] false false ('(' :: (['2', '+'] ++ ')' :: [])) = _
    rw [splitCompositionFrom_group inside ends, splitCompositionFrom_nil]
    rfl
  have unread : Arithmetic.Sum.read? ['2', '+'] = none := by
    have known : ∀ c ∈ ['2', '+'], kind c ≠ .other :=
      List.forall_mem_cons.2 ⟨by decide, List.forall_mem_singleton.2 (by decide)⟩
    have sound : Sound ['2', '+'] :=
      ⟨known, List.isChain_cons_cons.2 ⟨rfl, List.isChain_singleton _⟩, fun last => by cases last⟩
    rw [← Option.not_isSome_iff_eq_none, isSome_read?_iff sound rfl]
    exact fun readable => by cases readable.ends '+' rfl
  have failed : (evaluateFactor ['2', '+'] .one : Except FactorFault (Factor ℚ)) =
      .error (.malformed ['2', '+']) := by
    have malformed : (evaluate ['2', '+'] : Except EvalError (Number ℚ)) =
        .error (.malformed ['2', '+']) := by rw [evaluate, unread]
    have one : (Exponent.one.evaluate : Except EvalError (Number ℚ)) = _ := Exponent.is_one.2
    have base : prepareFactor ['2', '+'] .one = (['2', '+'], .one) := rfl
    have numeric : hasVariable ['2', '+'] = false := rfl
    rw [evaluateFactor, base]
    dsimp only
    rw [Exponent.is_one.1, if_neg Bool.false_ne_true, one]
    dsimp only
    rw [numeric, if_neg Bool.false_ne_true, numericFactor, malformed]
  refine ⟨rfl, fine, by decide, ?_, ?_⟩
  · have compiled : compileSum ℚ (normalize "(2+)".toList) 0 =
        .error (.factor (.monomial "(2+)".toList) (.malformed "2+".toList)) := by
      have normal : normalize "(2+)".toList = "(2+)".toList := by decide +kernel
      have monomial : isMonomial "(2+)".toList = true := by decide +kernel
      rw [normal, compileSum_of_not_isSum (Nat.zero_le _) (isSum_of_isMonomial monomial),
        compileProduct_of_isMonomial (Nat.zero_le _) monomial, compileMonomial,
        wrapVariables_eq_self rfl, factors, List.foldlM_cons, multiplyFactor, failed]
      rfl
    have nonblank : isBlankText "(2+)".toList = false := rfl
    rw [parse_eq, nonblank, if_neg Bool.false_ne_true, valid]
    show compile ℚ _ = _
    rw [compile, compiled]
    rfl
  · rintro (meaning | ⟨place, text, denominator, same⟩)
    · cases meaning
    · cases same

end SamePoly
