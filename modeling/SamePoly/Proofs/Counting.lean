/-
  Stretches that come to nothing.

  A stretch has the exponent one, or a sum of ones where it occurs again.  Since such an exponent is
  not zero, the stretch has to be read, and this is where an open bracket is noticed: either at once
  or, as long as variables stand in brackets, after the greatest depth has been reached.

  * `Exponent.IsCount`: ones that are added up.
  * `CountsUp`: ones never add up to zero; `countsUp_rat` says so of the fractions.
  * `balanced_of_compileMonomial`: the text of a monomial is balanced.
  * `Unclosed.compileSum_ne_ok`: **an unclosed stretch is not compiled**.
-/
import SamePoly.Proofs.Formula.Compilation
import SamePoly.Proofs.Unclosed

namespace SamePoly

variable {text part stretch : List Char} {factors : Factors} {divided raised : Bool}
variable {x : List Char × Exponent}

/-! ## Ones -/

/-- Ones that are added up. -/
inductive Exponent.IsCount : Exponent → Prop
  | one : IsCount .one
  | accumulate {e : Exponent} : IsCount e → IsCount (e.accumulate .one)

/-- Ones never add up to zero, not even with a minus sign in front. -/
def CountsUp (R : Type) [Scalar R] : Prop :=
  ∀ (e : Exponent) (value : Number R) (rounded : R), e.IsCount →
    e.evaluate = .ok value ∨ (Exponent.negated e).evaluate = .ok value →
    value.exponent? = .ok rounded → Scalar.isZero rounded = false

theorem Exponent.IsCount.exists_is {e : Exponent} (h : e.IsCount) : ∃ n : ℤ, 0 < n ∧ e.Is n := by
  induction h with
  | one => exact ⟨1, one_pos, Exponent.is_one⟩
  | accumulate _ ih =>
    obtain ⟨n, positive, hn⟩ := ih
    exact ⟨n + 1, by omega, hn.accumulate Exponent.is_one⟩

theorem countsUp_rat : CountsUp ℚ := by
  intro e value rounded count evaluated integral
  obtain ⟨n, positive, hn⟩ := count.exists_is
  rcases evaluated with evaluated | evaluated
  · rw [hn.2] at evaluated
    cases evaluated
    rw [Number.exponent?_intCast, if_neg (by omega)] at integral
    cases integral
    rw [← Bool.not_eq_true, Scalar.isZero_iff, Int.cast_eq_zero]
    exact positive.ne'
  · rw [hn.negated.2] at evaluated
    cases evaluated
    rw [Number.exponent?_intCast, if_pos (by omega)] at integral
    cases integral

/-! ## Exponents of stretches -/

/-- A factor that is not balanced is a stretch, whose exponent counts how often it occurs. -/
def IsCounted (x : List Char × Exponent) : Prop := Balanced x.1 ∨ x.2.IsCount

theorem Factors.forall_isCounted_push (h : ∀ y ∈ factors, IsCounted y) {e : Exponent}
    (hpart : Balanced part ∨ e = .one) : ∀ y ∈ factors.push part e, IsCounted y := by
  refine Factors.forall_push_of (Q := fun text e => Balanced text ∨ e.IsCount) h (fun _ => ?_) ?_
  · rcases hpart with balanced | rfl
    · exact .inl balanced
    · exact .inr .one
  · intro known _ hknown
    rcases hpart with balanced | rfl
    · exact .inl balanced
    · exact hknown.imp_right .accumulate

theorem isCounted_of_mem_splitCompositionFrom (h : ∀ y ∈ factors, IsCounted y) :
    ∀ y ∈ splitCompositionFrom factors stretch divided raised text, IsCounted y := by
  fun_induction splitCompositionFrom factors stretch divided raised text with
  | case1 => exact Factors.forall_isCounted_push h (.inr rfl)
  | case2 _ _ _ _ _ _ _ ih => exact ih h
  | case3 =>
    exact Factors.forall_isCounted_push (Factors.forall_isCounted_push h (.inr rfl)) (.inr rfl)
  | case4 _ _ _ _ _ _ _ _ flushed inside after found _ _ ih =>
    exact ih (Factors.forall_isCounted_push (Factors.forall_isCounted_push h (.inr rfl))
      (.inl (balanced_of_group? found)))
  | case5 _ _ _ _ _ _ _ _ flushed inside after _ found _ ih =>
    exact ih (Factors.forall_isCounted_push (Factors.forall_isCounted_push h (.inr rfl))
      (.inl (balanced_of_group? found)))
  | case6 _ _ _ _ _ _ _ _ ih => exact ih h

theorem isCounted_of_mem_splitComposition (h : x ∈ splitComposition text) : IsCounted x :=
  isCounted_of_mem_splitCompositionFrom (List.forall_mem_nil _) x h

/-! ## Factors with an open bracket -/

theorem balanced_of_prepareFactor {factor : List Char} {e : Exponent}
    (h : Balanced (prepareFactor factor e).1) : Balanced factor := by
  rw [prepareFactor.eq_def] at h
  split at h
  · exact .symbol (by simp) (by simp) .nil
  · exact .symbol (by simp) (by simp) .nil
  · exact .symbol (by simp) (by simp) h
  · exact h

theorem prepareFactor_exponent (factor : List Char) (e : Exponent) :
    (prepareFactor factor e).2 = e ∨ (prepareFactor factor e).2 = .negated e := by
  rw [prepareFactor.eq_def]
  split <;> simp

variable {R : Type} [Scalar R]

/-- The value of a numeric factor is read from its text. -/
theorem reads_of_numericFactor {value : Number R} {f : Factor R}
    (h : numericFactor text value = .ok f) : Reads text := by
  rw [numericFactor] at h
  split at h
  · cases h
  · cases h
  · rename_i base hbase
    exact .of_evaluate hbase

variable (counts : CountsUp R)

include counts

/-- A factor with an open bracket is no number. -/
theorem evaluateFactor_ne_numeric (unbalanced : ¬ Balanced x.1) (count : x.2.IsCount)
    (value : Number R) : evaluateFactor x.1 x.2 ≠ .ok (Factor.numeric value) := by
  intro h
  rw [evaluateFactor] at h
  dsimp only at h
  split at h
  · cases h
  · split at h
    · cases h
    · rename_i exponent evaluated
      split at h
      · rw [symbolicFactor] at h
        split at h
        · cases h
        · rename_i rounded integral
          have nonzero : Scalar.isZero rounded = false := by
            refine counts x.2 exponent rounded count ?_ integral
            rcases prepareFactor_exponent x.1 x.2 with same | negated
            · exact .inl (same ▸ evaluated)
            · exact .inr (negated ▸ evaluated)
          rw [nonzero, if_neg Bool.false_ne_true] at h
          split at h <;> cases h
      · exact unbalanced
          (balanced_of_prepareFactor (balanced_of_read? (reads_of_numericFactor h)))

/-- The text of a monomial is balanced. -/
theorem balanced_of_compileMonomial (filled : Filled text) {m : Monomial (Number R)}
    (h : compileMonomial R text = .ok m) : Balanced text := by
  refine balanced_of_wrapVariables ?_
  have factors : ∀ x ∈ splitComposition (wrapVariables text), IsBalanced x := by
    intro x hx
    rw [compileMonomial] at h
    split at h
    · cases h
    · rename_i passed
      obtain ⟨found, more, success⟩ := ok_of_foldlM passed x hx
      refine ⟨?_, fun p hp => balanced_of_read? (reads_of_multiplyFactor success p hp)⟩
      rcases isCounted_of_mem_splitComposition hx with balanced | count
      · exact balanced
      · by_contra unbalanced
        rw [multiplyFactor] at success
        split at success
        · cases success
        · rename_i value numeric
          exact evaluateFactor_ne_numeric counts unbalanced count value numeric
        · rename_i name exponent symbolic
          split at success
          · rename_i isName
            obtain ⟨hopen, hclose, -⟩ := ne_of_isVariable isName
            have single : Balanced [name] := .symbol hopen hclose .nil
            rw [(evaluateFactor_symbolic symbolic).1] at single
            exact unbalanced (balanced_of_prepareFactor single)
          · cases success
        · cases success
  exact balanced_of_forall_factors filled.wrapVariables factors

/-- An unclosed stretch as a factor comes to nothing if no deeper one is compiled. -/
theorem Unclosed.factorTerm_ne_ok {depth : ℕ}
    (deeper : ∀ base t, Unclosed base → compileSum R base (depth + 1) ≠ .ok t)
    (h : Unclosed x.1) (count : x.2.IsCount) (text : List Char) (t : Term (Number R)) :
    factorTerm R text depth x ≠ .ok t := by
  intro success
  rw [factorTerm] at success
  split at success
  · cases success
  · rename_i value numeric
    exact evaluateFactor_ne_numeric counts h.unbalanced count value numeric
  · rename_i base exponent symbolic
    obtain ⟨same, letter, -⟩ := evaluateFactor_symbolic symbolic
    have unclosed : Unclosed base := by
      rw [same] at letter ⊢
      exact h.base letter
    rw [baseTerm] at success
    split at success
    · obtain ⟨m, compiled, -⟩ := ok_of_map success
      exact unclosed.unbalanced (balanced_of_compileMonomial counts unclosed.filled compiled)
    · obtain ⟨u, compiled, -⟩ := ok_of_map success
      exact deeper base u unclosed compiled

/-- **An unclosed stretch is not compiled.** -/
theorem Unclosed.compileSum_ne_ok (h : Unclosed text) (depth : ℕ) (t : Term (Number R)) :
    compileSum R text depth ≠ .ok t := by
  induction hn : maxNestingDepth + 1 - depth generalizing text depth t with
  | zero =>
    rw [compileSum, if_pos (by omega)]
    simp
  | succ n ih =>
    have fits : depth ≤ maxNestingDepth := by omega
    intro success
    rw [compileSum_of_not_isSum fits h.single] at success
    cases monomial : isMonomial text with
    | true =>
      rw [compileProduct_of_isMonomial fits monomial] at success
      obtain ⟨m, compiled, -⟩ := ok_of_map success
      exact h.unbalanced (balanced_of_compileMonomial counts h.filled compiled)
    | false =>
      rw [compileProduct_eq fits monomial h.single, h.splitComposition] at success
      cases hf : factorTerm R text depth (text, .one) with
      | error e =>
        rw [List.mapM_cons, hf] at success
        cases success
      | ok u =>
        refine Unclosed.factorTerm_ne_ok counts (x := (text, .one)) ?_ h .one text u hf
        exact fun base v unclosed => ih unclosed (depth + 1) v (by omega)

end SamePoly
