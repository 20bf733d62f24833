/-
  The end of compilation.

  A sum takes a product for a product and a product takes a sum for a sum, on the same text and at
  the same depth; apart from this a call is made on a shorter text or one call deeper, and depth is
  bounded.  So calls come to an end as long as every term of a sum is shorter than the sum, and the
  number of calls in a row is bounded by the length of the text and the greatest depth.

  * `Call.Descends`: how a call is smaller than the call that makes it.
  * `Makes.descends`: **every call is smaller than the one that makes it**.
  * `Call.iterate_step`: a bounded number of steps answers a call.
  * `parseStep`: one step of parsing, the denominators being parsed by an answer.
  * `Makes.regular`: a call on regular text makes calls on regular text.
  * `compile_terminates`: **compilation ends on filled balanced text, and parsing on every text**.
-/
import SamePoly.Proofs.Counting

namespace SamePoly

variable {R : Type} [Scalar R] {text : List Char} {c c' : Call}

/-! ## Smaller calls -/

namespace Call

/-- A sum is taken for a sum and any other text for a product. -/
def isSettled : Call → Bool
  | .sum text _ => isSum text
  | .product text _ => !isSum text

/-- How a call is smaller than the call `c` that makes it. -/
inductive Descends (c c' : Call) : Prop
  /-- The text is shorter. -/
  | shorter (text : c'.text.length < c.text.length) (depth : c'.depth = c.depth)
  /-- The text is the same and was taken for the other kind, which does not happen again. -/
  | swapped (swap : c' = c.swap) (before : c.isSettled = false) (after : c'.isSettled = true)
  /-- The call is deeper, and the call that makes it is not too deep. -/
  | deeper (text : c'.text.length ≤ c.text.length) (depth : c'.depth = c.depth + 1)
      (fits : c.depth ≤ maxNestingDepth)

/-- How many calls can still be made in a row, the texts being no longer than `bound`. -/
def rank (bound : ℕ) (c : Call) : ℕ :=
  (maxNestingDepth + 1 - c.depth) * (2 * bound + 2) + 2 * c.text.length +
    if c.isSettled then 0 else 1

/-- A number of steps that answers a call, by the length of its text and the greatest depth. -/
def fuel (c : Call) : ℕ := (maxNestingDepth + 2) * (2 * c.text.length + 2)

theorem Descends.length_le (h : c.Descends c') : c'.text.length ≤ c.text.length := by
  rcases h with ⟨text, -⟩ | ⟨rfl, -, -⟩ | ⟨text, -, -⟩
  · exact text.le
  · cases c <;> exact le_rfl
  · exact text

theorem Descends.rank_lt {bound : ℕ} (h : c.Descends c') (hc : c.text.length ≤ bound) :
    c'.rank bound < c.rank bound := by
  have settled (c : Call) : (if c.isSettled then 0 else 1) ≤ 1 := by split <;> omega
  have hbound := h.length_le.trans hc
  have := settled c
  have := settled c'
  rw [rank, rank]
  rcases h with ⟨text, depth⟩ | ⟨rfl, before, after⟩ | ⟨-, depth, fits⟩
  · rw [depth]
    omega
  · have sameText : c.swap.text = c.text := by cases c <;> rfl
    have sameDepth : c.swap.depth = c.depth := by cases c <;> rfl
    rw [before, after, sameText, sameDepth]
    simp
  · have levels : maxNestingDepth + 1 - c.depth = (maxNestingDepth + 1 - c'.depth) + 1 := by omega
    rw [levels, Nat.add_mul]
    omega

theorem rank_lt_fuel (c : Call) : c.rank c.text.length < c.fuel := by
  have levels : (maxNestingDepth + 1 - c.depth) * (2 * c.text.length + 2) ≤
      (maxNestingDepth + 1) * (2 * c.text.length + 2) := Nat.mul_le_mul_right _ (Nat.sub_le _ _)
  have spare : c.fuel =
      (maxNestingDepth + 1) * (2 * c.text.length + 2) + (2 * c.text.length + 2) := by
    rw [fuel, Nat.add_mul (maxNestingDepth + 1) 1, Nat.one_mul]
  rw [rank, spare]
  split <;> omega

end Call

theorem prepareFactor_length_le (factor : List Char) (e : Exponent)
    (letter : hasVariable (prepareFactor factor e).1 = true) :
    (prepareFactor factor e).1.length ≤ factor.length := by
  rcases prepareFactor_cases letter with same | slash
  · rw [same]
  · have longer := congrArg List.length slash
    rw [List.length_cons] at longer
    omega

/-- **Every call is smaller than the one that makes it.** -/
theorem Makes.descends (h : Makes R c c') (shrinks : c.Shrinks) : c.Descends c' := by
  cases h with
  | single _ single =>
    exact .swapped rfl single (by simp [Call.isSettled, single])
  | @term text term depth before after _ sum cut _ _ =>
    refine .shorter (shrinks sum term ?_) rfl
    show term ∈ splitSum text
    rw [cut]
    exact List.mem_append_right _ List.mem_cons_self
  | sum _ sum => exact .swapped rfl (by simp [Call.isSettled, sum]) sum
  | @base text base depth exponent x before after fits _ _ cut _ symbolic _ =>
    refine .deeper ?_ rfl fits
    obtain ⟨rfl, letter, -⟩ := evaluateFactor_symbolic symbolic
    have hx : x ∈ splitComposition text := by
      rw [cut]
      exact List.mem_append_right _ List.mem_cons_self
    exact (prepareFactor_length_le x.1 x.2 letter).trans (infix_of_mem_splitComposition hx).length_le

/-! ## Bounded runs -/

namespace Call

/-- A kind of calls that make only calls of that kind, terms of sums being shorter. -/
structure IsClosed (R : Type) [Scalar R] (kind : Call → Prop) : Prop where
  shrinks : ∀ c, kind c → c.Shrinks
  makes : ∀ c c', kind c → Makes R c c' → kind c'

variable {kind : Call → Prop} {answer : Call → Except PolyError (Term (Number R))}

theorem IsClosed.reaches (h : IsClosed R kind) (hc : kind c) (made : Reaches R c c') : kind c' := by
  induction made with
  | refl => exact hc
  | tail _ made ih => exact h.makes _ _ ih made

/-- **A bounded number of steps answers a call**, whatever stands in for the answers beyond. -/
theorem IsClosed.iterate_step (h : IsClosed R kind) {bound n : ℕ} (hc : kind c)
    (hbound : c.text.length ≤ bound) (hn : c.rank bound < n) : (step^[n]) answer c = c.run R := by
  induction n generalizing c with
  | zero => cases hn
  | succ n ih =>
    rw [Function.iterate_succ_apply']
    refine step_eq_run (h.shrinks c hc) fun c' made => ?_
    have descends := made.descends (h.shrinks c hc)
    exact ih (h.makes c c' hc made) (descends.length_le.trans hbound)
      ((descends.rank_lt hbound).trans_le (Nat.le_of_lt_succ hn))

theorem IsClosed.iterate_fuel (h : IsClosed R kind) (hc : kind c) {n : ℕ} (hn : c.fuel ≤ n) :
    (step^[n]) answer c = c.run R :=
  h.iterate_step hc le_rfl (c.rank_lt_fuel.trans_le hn)

theorem multiplyFactor_ne_endless {found : Number R × Shape} {x : List Char × Exponent} :
    multiplyFactor R text found x ≠ .error .endless := by
  intro h
  rw [multiplyFactor] at h
  split at h
  · cases h
  · cases h
  · split at h
    · split at h <;> cases h
    · cases h
  · cases h

theorem compileMonomial_ne_endless : compileMonomial R text ≠ .error .endless := by
  intro h
  rw [compileMonomial] at h
  split at h
  · rename_i failed
    cases h
    obtain ⟨_, _, _, _, _, _, failed⟩ := error_of_foldlM failed
    exact multiplyFactor_ne_endless failed
  · cases h

/-- A step is not endless by itself. -/
theorem step_ne_endless (h : ∀ c, answer c ≠ .error .endless) (c : Call) :
    c.step answer ≠ .error .endless := by
  have monomial {text : List Char} {f : Monomial (Number R) → Term (Number R)} :
      (compileMonomial R text).map f ≠ .error .endless :=
    fun failed => compileMonomial_ne_endless (error_of_map failed)
  cases c with
  | sum text depth =>
    rw [step]
    split
    · simp
    · split
      · intro failed
        obtain ⟨_, term, _, _, _, failed⟩ := error_of_mapM (error_of_map failed)
        rw [stepTerm] at failed
        split at failed
        · exact monomial failed
        · exact h _ failed
      · exact h _
  | product text depth =>
    rw [step]
    split
    · simp
    · split
      · exact monomial
      · split
        · exact h _
        · intro failed
          cases factors : (splitComposition text).mapM (stepFactor answer text depth) with
          | ok powers =>
            rw [factors, Except.bind] at failed
            split at failed <;> cases failed
          | error e =>
            rw [factors] at failed
            cases failed
            obtain ⟨_, x, _, _, _, failed⟩ := error_of_mapM factors
            rw [stepFactor] at failed
            split at failed
            · cases failed
            · cases failed
            · split at failed
              · exact monomial failed
              · exact h _ (error_of_map failed)

theorem iterate_step_ne_endless (h : ∀ c, answer c ≠ .error .endless) (n : ℕ) (c : Call) :
    (step^[n]) answer c ≠ .error .endless := by
  induction n generalizing c with
  | zero => exact h c
  | succ n ih =>
    rw [Function.iterate_succ_apply']
    exact step_ne_endless ih c

theorem IsClosed.run_ne_endless (h : IsClosed R kind) (hc : kind c) :
    c.run R ≠ .error .endless := by
  let stop : Call → Except PolyError (Term (Number R)) := fun _ => .error .levels
  have answered : (step^[c.fuel]) stop c = c.run R := h.iterate_fuel hc le_rfl
  have stopped (c : Call) : stop c ≠ .error .endless := by
    intro h
    cases h
  rw [← answered]
  exact iterate_step_ne_endless stopped _ c

end Call

/-! ## Parsing -/

/-- The calls on fit text, as they are made while a text is parsed. -/
theorem Fit.isClosed : Call.IsClosed R fun c => ∃ n, Fit n c.text where
  shrinks c := by
    rintro ⟨n, fit⟩
    exact fit.shrinks
  makes c c' := by
    rintro ⟨n, fit⟩ made
    obtain ⟨m, fit', -⟩ := made.fit fit le_rfl
    exact ⟨m, fit'⟩

theorem length_respell_le (text : List Char) : (respell text).length ≤ text.length := by
  have powers (text : List Char) : (respellPowers text).length ≤ text.length := by
    fun_induction respellPowers text with
    | case1 rest ih => simp only [List.length_cons]; omega
    | case2 c rest _ ih => simp only [List.length_cons]; omega
    | case3 => exact le_rfl
  rw [respell, List.length_map]
  exact (powers _).trans (List.length_filter_le _ _)

theorem length_isLiteral (text : List Char) :
    (text.takeWhile isLiteral).length + (text.dropWhile isLiteral).length = text.length := by
  rw [← List.length_append, List.takeWhile_append_dropWhile]

theorem length_wrapBases_le (text : List Char) : (wrapBases text).length ≤ 2 * text.length := by
  fun_induction wrapBases text with
  | case1 => exact le_rfl
  | case2 c rest _ literal _ after hafter ih =>
    have cut := length_isLiteral rest
    simp only [hafter, literal, List.length_cons, List.length_append] at cut ⊢
    omega
  | case3 c rest _ literal _ _ ih =>
    have cut := length_isLiteral rest
    simp only [literal, List.length_cons, List.length_append]
    omega
  | case4 c hc after letter ih => simp only [List.length_cons] at ih ⊢; omega
  | case5 c hc after letter ih => simp only [List.length_cons] at ih ⊢; omega
  | case6 c hc rest hcaret ih => simp only [List.length_cons] at ih ⊢; omega

theorem length_wrapExponents_le (text : List Char) :
    (wrapExponents text).length ≤ 2 * text.length := by
  fun_induction wrapExponents text with
  | case1 c rest _ _ ih =>
    have cut := length_isLiteral rest
    simp only [List.length_cons, List.length_append]
    omega
  | case2 c rest hc letter ih => simp only [List.length_cons] at ih ⊢; omega
  | case3 c rest hc letter ih => simp only [List.length_cons] at ih ⊢; omega
  | case4 c rest _ ih => simp only [List.length_cons] at ih ⊢; omega
  | case5 => exact le_rfl

theorem length_normalize_le (text : List Char) : (normalize text).length ≤ 4 * text.length := by
  have respelled := length_respell_le text
  have after := (dropTimesAfter_sublist (respell text)).length_le
  have before := (dropTimesBefore_sublist (dropTimesAfter (respell text))).length_le
  have bases := length_wrapBases_le (dropTimesBefore (dropTimesAfter (respell text)))
  have exponents :=
    length_wrapExponents_le (wrapBases (dropTimesBefore (dropTimesAfter (respell text))))
  rw [normalize]
  omega

section Parsing

variable (calls : Call → Except PolyError (Term (Number R)))
variable (answer : List Char → Except PolyError (Polynomial (Number R)))

/-- The polynomial of a checked text whose term is compiled by `calls`. -/
def compileStep (text : List Char) : Except PolyError (Polynomial (Number R)) :=
  (calls (.sum (normalize text) 0)).bind fun term =>
    if term.toPolynomial.isFinite then .ok term.toPolynomial
    else .error (.coefficientOverflow text)

/-- One step of parsing: denominators are parsed by `answer`. -/
def parseStep (text : List Char) : Except PolyError (Polynomial (Number R)) :=
  if isBlankText text then .error .empty
  else
    (validateBy R text fun denominator _ =>
      match answer denominator with
      | .ok polynomial => polynomial.isZero
      | .error _ => false).bind fun _ => compileStep calls text

variable {calls answer}

/-- A step of parsing looks only at shorter denominators, and compiles only checked text. -/
theorem parseStep_eq_parse
    (denominators : ∀ denominator, denominator.length < text.length →
      answer denominator = parse R denominator)
    (compiled : isBlankText text = false → validate R text = .ok () →
      calls (.sum (normalize text) 0) = compileSum R (normalize text) 0) :
    parseStep calls answer text = parse R text := by
  have tests : (fun denominator (_ : denominator.length < text.length) =>
      match answer denominator with
      | .ok polynomial => polynomial.isZero
      | .error _ => false) = fun denominator _ => vanishes R denominator := by
    funext denominator shorter
    have same := denominators denominator shorter
    cases parsed : parse R denominator with
    | ok polynomial => simp [vanishes, same, parsed]
    | error e => simp [vanishes, same, parsed]
  rw [parseStep, parse_eq, tests, ← validate]
  split
  · rfl
  · rename_i nonblank
    cases valid : validate R text with
    | error e => rfl
    | ok _ =>
      show compileStep calls text = compile R text
      rw [compileStep, compiled (Bool.eq_false_iff.2 nonblank) valid, compile]
      rfl

end Parsing

/-- A number of steps that answers every call while a text is parsed. -/
def parseFuel (text : List Char) : ℕ := (maxNestingDepth + 2) * (2 * (4 * text.length) + 2)

theorem iterate_parseStep {m n : ℕ} {stop : Call → Except PolyError (Term (Number R))}
    {stop' : List Char → Except PolyError (Polynomial (Number R))} (hm : parseFuel text ≤ m)
    (hn : text.length < n) :
    ((parseStep ((Call.step^[m]) stop))^[n]) stop' text = parse R text := by
  induction n generalizing text with
  | zero => cases hn
  | succ n ih =>
    rw [Function.iterate_succ_apply']
    refine parseStep_eq_parse (fun denominator shorter => ih ?_ (by omega)) ?_
    · refine le_trans ?_ hm
      rw [parseFuel, parseFuel]
      gcongr
    · intro nonblank valid
      have fit := (wellFormed_of_validate valid).1.fit_normalize nonblank
      refine Fit.isClosed.iterate_fuel (c := .sum (normalize text) 0) ⟨_, fit⟩ (le_trans ?_ hm)
      rw [Call.fuel, parseFuel]
      have := length_normalize_le text
      gcongr
      exact this

theorem validate_ne_endless : validate R text ≠ .error .endless := by
  intro failed
  rw [validate, validateBy] at failed
  split at failed
  · cases failed
  · split at failed
    · cases failed
    · split at failed <;> cases failed

theorem compileStep_ne_endless {calls : Call → Except PolyError (Term (Number R))}
    (h : calls (.sum (normalize text) 0) ≠ .error .endless) :
    compileStep calls text ≠ .error .endless := by
  intro failed
  rw [compileStep] at failed
  cases compiled : calls (.sum (normalize text) 0) with
  | error e =>
    rw [compiled] at failed
    cases failed
    exact h compiled
  | ok t =>
    rw [compiled, Except.bind] at failed
    split at failed <;> cases failed

/-- No text is parsed without end. -/
theorem parse_ne_endless : parse R text ≠ .error .endless := by
  rw [parse_eq]
  split
  · nofun
  · rename_i nonblank
    cases valid : validate R text with
    | error e =>
      intro failed
      cases failed
      exact validate_ne_endless valid
    | ok _ =>
      have fit := (wellFormed_of_validate valid).1.fit_normalize (Bool.eq_false_iff.2 nonblank)
      have compiled : Call.run R (.sum (normalize text) 0) ≠ .error .endless :=
        Fit.isClosed.run_ne_endless ⟨_, fit⟩
      exact compileStep_ne_endless compiled

/-! ## Calls on regular text -/

theorem Regular.shrinks (h : Regular c.text) : c.Shrinks := by
  intro sum term hterm
  rcases h.brackets with balanced | unclosed
  · exact balanced.length_lt_of_mem_splitSum sum hterm
  · rw [unclosed.single] at sum
    cases sum

/-- **A call on regular text makes calls on regular text.** -/
theorem Makes.regular (counts : CountsUp R) (h : Makes R c c') (hc : Regular c.text) :
    Regular c'.text := by
  cases h with
  | single _ _ => exact hc
  | @term text term depth before after _ sum cut _ _ =>
    have hterm : term ∈ splitSum text := by
      rw [cut]
      exact List.mem_append_right _ List.mem_cons_self
    refine ⟨hc.filled.of_infix (infix_of_mem_splitSum hterm), ?_⟩
    rcases hc.brackets with balanced | unclosed
    · exact .inl (balanced.of_mem_splitSum hterm).2.1
    · have single : isSum text = false := unclosed.single
      rw [single] at sum
      cases sum
  | sum _ _ => exact hc
  | @base text base depth exponent x before after _ _ single cut earlier symbolic _ =>
    obtain ⟨rfl, letter, -⟩ := evaluateFactor_symbolic symbolic
    refine Regular.base (hc.of_cut single cut earlier ?_ ?_) letter
    · rintro z hz unclosed ⟨u, success⟩
      have count := (isCounted_of_mem_splitComposition hz).resolve_left unclosed.unbalanced
      refine unclosed.factorTerm_ne_ok counts (fun base t h => ?_) count text u success
      exact h.compileSum_ne_ok counts (depth + 1) t
    · rintro z - ⟨u, success⟩
      exact reads_of_factorTerm success

theorem Regular.isClosed (counts : CountsUp R) : Call.IsClosed R fun c => Regular c.text where
  shrinks _ h := h.shrinks
  makes _ _ h made := made.regular counts h

/-- **Compilation always ends.**  No text is parsed without end: a number of steps bounded by its
    length parses it, denominators being shorter, and answers the calls that are made for it.  A
    call on balanced text without an empty pair of brackets comes to an end as well, if ones never
    add up to zero: every call that is made on the way is smaller than the one that makes it, a step
    depends on no other calls, and a number of steps bounded by the length of the text and the
    greatest depth answers the call. -/
theorem compile_terminates (R : Type) [Scalar R] :
    (∀ text : List Char, parse R text ≠ .error .endless ∧ ∀ stop stop' m n, parseFuel text ≤ m →
      text.length < n → ((parseStep ((Call.step^[m]) stop))^[n]) stop' text = parse R text) ∧
    (CountsUp R → ∀ call : Call, checkBrackets call.text = none → Filled call.text →
      call.run R ≠ .error .endless ∧
      (∀ c, Reaches R call c → (∀ c', Makes R c c' → c.Descends c') ∧
        ∀ answer : Call → Except PolyError (Term (Number R)),
          (∀ c', Makes R c c' → answer c' = c'.run R) → c.step answer = c.run R) ∧
      ∀ stop n, call.fuel ≤ n → ((Call.step^[n]) stop) call = call.run R) := by
  refine ⟨fun text => ⟨parse_ne_endless, fun stop stop' m n => iterate_parseStep⟩, ?_⟩
  intro counts call balanced filled
  have regular : Regular call.text := ⟨filled, .inl (checkBrackets_eq_none_iff.1 balanced)⟩
  have closed := Regular.isClosed counts
  refine ⟨closed.run_ne_endless regular, fun c reached => ?_, fun stop n enough => ?_⟩
  · have shrinks := closed.shrinks c (closed.reaches regular reached)
    exact ⟨fun c' made => made.descends shrinks, fun answer h => c.step_eq_run shrinks h⟩
  · exact closed.iterate_fuel regular enough

/-! ## A stretch that is taken for a factor -/

theorem evaluateFactor_one {text : List Char} (base : prepareFactor text .one = (text, .one))
    (letter : hasVariable text = true) :
    (evaluateFactor text .one : Except FactorFault (Factor ℚ)) = .ok (.symbolic text 1) := by
  rw [evaluateFactor_eq base Exponent.is_one, letter, if_pos rfl]
  exact symbolicFactor_natCast text (n := 1) (by decide)

/-- A stretch with a sum behind a `^` is its own base, one call deeper. -/
theorem makes_sameText {depth : ℕ} (fits : depth ≤ maxNestingDepth) :
    Makes ℚ (.product "3^(x+y)".toList depth) (.sum "3^(x+y)".toList (depth + 1)) := by
  have raised : Raised "3^(x+y)".toList := by simp [RaisedFrom]
  exact @Makes.base ℚ _ _ _ depth 1 ("3^(x+y)".toList, .one) [] [] fits rfl rfl
    (raised.splitComposition (by simp)) (List.forall_mem_nil _) (evaluateFactor_one rfl rfl) rfl

/-- A square is parsed in four steps, and a stretch that is its own base comes to an end. -/
theorem compile_terminates_square :
    (parseStep ((Call.step^[parseFuel "x^2".toList]) fun _ => .error .levels))^[4]
      (fun _ => .error .empty) "x^2".toList = parse ℚ "x^2".toList ∧
    checkBrackets "3^(x+y)".toList = none ∧ Filled "3^(x+y)".toList ∧
    (Call.product "3^(x+y)".toList 0).Descends (.sum "3^(x+y)".toList 1) ∧
    Call.run ℚ (.product "3^(x+y)".toList 0) ≠ .error .endless := by
  have balanced : checkBrackets (Call.product "3^(x+y)".toList 0).text = none := rfl
  have filled : Filled (Call.product "3^(x+y)".toList 0).text := by
    show ¬ ['(', ')'] <:+: "3^(x+y)".toList
    decide
  obtain ⟨parsed, compiled⟩ := compile_terminates ℚ
  obtain ⟨ends, calls, -⟩ := compiled countsUp_rat _ balanced filled
  refine ⟨(parsed _).2 _ _ _ _ le_rfl (by decide), balanced, filled, ?_, ends⟩
  exact (calls _ .refl).1 _ (makes_sameText (Nat.zero_le _))

/-! ## Calls without end -/

/-- The tower of the first group is dropped with it, since the group is empty.  It breaks off behind
    a `^`, so a stretch with an open bracket comes next, and what is left behind that. -/
theorem splitComposition_endless :
    splitComposition "()^^()^x^(())^(+x)".toList =
      [("()^x^(".toList, .one), (")^(+x)".toList, .one)] := by
  have first : tower "^()^x^(())^(+x)".toList = (['^'], "()^x^(())^(+x)".toList) := by
    have more : links "()^x^(())^(+x)".toList = ([], "()^x^(())^(+x)".toList) :=
      links_of_endsTower (by rw [EndsTower]; decide)
    rw [tower, show firstLink "^()^x^(())^(+x)".toList = (['^'], "()^x^(())^(+x)".toList) from rfl,
      more]
    rfl
  have raised : RaisedFrom true "()^x^(".toList := by simp [RaisedFrom]
  have last : Raised ")^(+x)".toList := by simp [RaisedFrom]
  have closes : EndsTower ")^(+x)".toList := by
    rw [EndsTower]
    decide
  calc splitComposition "()^^()^x^(())^(+x)".toList
    _ = splitCompositionFrom [] [] false true ("()^x^(".toList ++ "())^(+x)".toList) :=
        splitCompositionFrom_tower .nil first
    _ = splitCompositionFrom [] "(^x^)(".toList false false "())^(+x)".toList :=
        raised.splitCompositionFrom_append
    _ = splitCompositionFrom [("()^x^(".toList, .one)] [] false false (")^(+x)".toList ++ []) :=
        splitCompositionFrom_group .nil closes
    _ = splitCompositionFrom [("()^x^(".toList, .one)] ")x+(^)".toList false false [] :=
        last.splitCompositionFrom_append
    _ = [("()^x^(".toList, .one), (")^(+x)".toList, .one)] := splitCompositionFrom_nil

/-- The stretch with the open bracket is compiled to one: the bracket is in the tower of another
    empty group. -/
theorem compileMonomial_endless : compileMonomial ℚ "()^x^(".toList = .ok (.new 1 .one) := by
  have exponent : tower "(x)^(".toList = ("(x)^(".toList, []) := by
    have second : links "^(".toList = ("^(".toList, []) := by
      rw [links.eq_def]
      have nothing : links [] = ([], []) := by rw [links.eq_def]
      simp [link, group?, splitAtMatch, nothing]
    rw [tower, show firstLink "(x)^(".toList = ("(x)".toList, "^(".toList) from rfl, second]
    rfl
  have factors : splitComposition "()^(x)^(".toList = [] :=
    (splitCompositionFrom_tower .nil exponent).trans splitCompositionFrom_nil
  rw [compileMonomial, show wrapVariables "()^x^(".toList = "()^(x)^(".toList from rfl, factors]
  rfl

theorem makes_endless :
    Makes ℚ (.product "()^^()^x^(())^(+x)".toList 0) (.sum ")^(+x)".toList 1) := by
  have large : isMonomial "()^^()^x^(())^(+x)".toList = false := by decide +kernel
  have small : isMonomial "()^x^(".toList = true := rfl
  refine @Makes.base ℚ _ _ _ 0 1 (")^(+x)".toList, .one) [("()^x^(".toList, .one)] []
    (Nat.zero_le _) large rfl splitComposition_endless ?_ (evaluateFactor_one rfl rfl) rfl
  intro y hy
  rw [List.mem_singleton.1 hy, factorTerm, evaluateFactor_one rfl rfl]
  dsimp only
  rw [baseTerm, if_pos small, compileMonomial_endless]
  exact ⟨_, rfl⟩

/-- With empty pairs of brackets a call can be reached that takes the same text for a sum and for a
    product again and again, and at the greatest depth a call is made beyond it. -/
theorem reaches_endless :
    (checkBrackets "()^^()^x^(())^(+x)".toList = none ∧
      ∃ c, Reaches ℚ (.sum "()^^()^x^(())^(+x)".toList 0) c ∧ Makes ℚ c c.swap ∧
        Makes ℚ c.swap c) ∧
    checkBrackets "3^(x+y)".toList = none ∧
      Makes ℚ (.product "3^(x+y)".toList maxNestingDepth)
        (.sum "3^(x+y)".toList (maxNestingDepth + 1)) := by
  refine ⟨⟨rfl, .sum ")^(+x)".toList 1, ?_, ?_, ?_⟩, rfl, makes_sameText le_rfl⟩
  · exact .tail (.single (.single (Nat.zero_le _) rfl)) makes_endless
  · exact @Makes.term ℚ _ ")^(+x)".toList ")^(+x)".toList 1 [] [] (by decide) rfl rfl nofun rfl
  · exact .sum (by decide) rfl

end SamePoly
