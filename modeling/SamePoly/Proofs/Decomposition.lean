/-
  The steps of the decomposition of a product.

  * `tower_group`: a group in brackets is an exponent of its own.
  * `splitCompositionFrom_symbol`, `splitCompositionFrom_group`, `splitCompositionFrom_tower`:
    one step of the decomposition, for a symbol of a stretch, a group, and a group with an
    exponent.
  * `Exponent.Is`: an exponent has an integer value, which negation and accumulation preserve.
-/
import SamePoly.Factors
import SamePoly.Proofs.Balance
import SamePoly.Proofs.ExactNumber

namespace SamePoly

/-! ## Towers -/

/-- Nothing that goes on with a tower. -/
def EndsTower (rest : List Char) : Prop := rest.head? ≠ some '^'

theorem links_of_endsTower {rest : List Char} (h : EndsTower rest) : links rest = ([], rest) := by
  rw [links.eq_def]
  split
  · exact absurd rfl h
  · rfl

theorem link_group {inside : List Char} (h : Balanced inside) (rest : List Char) :
    link ('(' :: (inside ++ ')' :: rest)) = ('(' :: inside ++ [')'], rest) := by
  rw [link, h.group?_append]

/-- A group in brackets is an exponent of its own. -/
theorem tower_group {inside rest : List Char} (h : Balanced inside) (hr : EndsTower rest) :
    tower ('(' :: (inside ++ ')' :: rest)) = ('(' :: (inside ++ [')']), rest) := by
  rw [tower, firstLink, link_group h, links_of_endsTower hr]
  exact Prod.ext (List.append_nil _) rfl

/-! ## One step -/

variable {factors : Factors} {stretch rest : List Char} {divided raised : Bool}

theorem splitCompositionFrom_nil :
    splitCompositionFrom factors stretch divided raised [] = factors.push stretch.reverse .one := by
  rw [splitCompositionFrom]

/-- A symbol that opens no group goes on with the stretch. -/
theorem splitCompositionFrom_symbol {c : Char} (hc : c ≠ '(') :
    splitCompositionFrom factors stretch divided raised (c :: rest) =
      splitCompositionFrom factors (c :: stretch) (c == '/') (c == '^') rest := by
  rw [splitCompositionFrom.eq_def]
  dsimp only
  split
  · rename_i slash
    rw [beq_iff_eq] at slash
    rw [slash]
    rfl
  · rename_i slash
    rw [if_neg (by simp [hc])]
    rw [Bool.not_eq_true] at slash
    rw [slash]

/-- A stretch without groups is one factor. -/
theorem splitCompositionFrom_of_forall {text : List Char} (h : ∀ c ∈ text, c ≠ '(') :
    splitCompositionFrom factors stretch divided raised text =
      factors.push (stretch.reverse ++ text) .one := by
  induction text generalizing stretch divided raised with
  | nil => rw [splitCompositionFrom_nil, List.append_nil]
  | cons c text ih =>
    rw [splitCompositionFrom_symbol (h c List.mem_cons_self),
      ih fun d hd => h d (List.mem_cons_of_mem _ hd), List.reverse_cons, List.append_assoc,
      List.singleton_append]

/-- A group that no exponent follows is a factor. -/
theorem splitCompositionFrom_group {inside : List Char} (h : Balanced inside)
    (hr : EndsTower rest) :
    splitCompositionFrom factors stretch divided false ('(' :: (inside ++ ')' :: rest)) =
      splitCompositionFrom
        ((factors.push (withoutOperator stretch) .one).push inside
          (if divided then .negated .one else .one)) [] false false rest := by
  rw [splitCompositionFrom.eq_def]
  dsimp only
  rw [if_neg (by decide), if_pos (by decide)]
  split
  · rename_i found
    rw [h.group?_append] at found
    cases found
  · rename_i found
    rw [h.group?_append] at found
    cases found
    exact absurd rfl hr
  · rename_i found
    rw [h.group?_append] at found
    cases found
    rfl

/-- A group with a tower behind it is a factor with that exponent. -/
theorem splitCompositionFrom_tower {inside exponent after : List Char} (h : Balanced inside)
    (htower : tower after = (exponent, rest)) :
    splitCompositionFrom factors stretch divided false ('(' :: (inside ++ ')' :: '^' :: after)) =
      splitCompositionFrom
        ((factors.push (withoutOperator stretch) .one).push inside
          (if divided then .negated (.literal exponent) else .literal exponent))
        [] false (exponent.getLast? == some '^') rest := by
  rw [splitCompositionFrom.eq_def]
  dsimp only
  rw [if_neg (by decide), if_pos (by decide)]
  split
  · rename_i found
    rw [h.group?_append] at found
    cases found
  · rename_i found
    rw [h.group?_append] at found
    cases found
    rw [htower]
  · rename_i hne found
    rw [h.group?_append] at found
    cases found
    exact (hne after rfl).elim

/-- Whole towers let the next group be a factor. -/
theorem splitCompositionFrom_power {inside exponent after : List Char} (h : Balanced inside)
    (htower : tower after = (exponent, rest)) (hlast : exponent.getLast? ≠ some '^') :
    splitCompositionFrom factors stretch divided false ('(' :: (inside ++ ')' :: '^' :: after)) =
      splitCompositionFrom
        ((factors.push (withoutOperator stretch) .one).push inside
          (if divided then .negated (.literal exponent) else .literal exponent))
        [] false false rest := by
  have unraised : (exponent.getLast? == some '^') = false := beq_eq_false_iff_ne.2 hlast
  rw [splitCompositionFrom_tower h htower, unraised]

/-- A run of symbols goes on with the stretch. -/
theorem splitCompositionFrom_run {run : List Char} (hrun : ∀ c ∈ run, c ≠ '(') :
    splitCompositionFrom factors stretch divided raised (run ++ rest) =
      splitCompositionFrom factors (run.reverse ++ stretch)
        (run.getLast?.elim divided (· == '/')) (run.getLast?.elim raised (· == '^')) rest := by
  induction run generalizing stretch divided raised with
  | nil => rfl
  | cons c run ih =>
    rw [List.cons_append, splitCompositionFrom_symbol (hrun c List.mem_cons_self),
      ih fun d hd => hrun d (List.mem_cons_of_mem _ hd), List.reverse_cons, List.append_assoc,
      List.getLast?_cons]
    cases run.getLast? <;> rfl

/-! ## Exponents with integer values -/

namespace Exponent

/-- An exponent without variables that has an integer value. -/
def Is (e : Exponent) (n : ℤ) : Prop :=
  e.hasVariable = false ∧ (e.evaluate : Except EvalError (Number ℚ)) = .ok (.ofReal (n : ℚ))

theorem Is.negated {e : Exponent} {n : ℤ} (h : e.Is n) : (negated e).Is (-n) := by
  refine ⟨h.1, ?_⟩
  rw [evaluate, h.2]
  show Except.ok (-Number.ofReal (n : ℚ)) = Except.ok (Number.ofReal (((-n : ℤ)) : ℚ))
  refine congrArg Except.ok (Number.ext ?_ neg_zero)
  rw [Number.re_neg, Number.re_ofReal, Number.re_ofReal, Int.cast_neg]

theorem addAll_append (es fs : List Exponent) (total : Number ℚ) :
    (addAll total (es ++ fs) : Except EvalError (Number ℚ)) =
      (addAll total es).bind fun total => addAll total fs := by
  induction es generalizing total with
  | nil => rfl
  | cons e es ih =>
    rw [List.cons_append, addAll, addAll]
    cases (e.evaluate : Except EvalError (Number ℚ)) with
    | error cause => rfl
    | ok value => exact ih _

theorem anyHasVariable_append (es fs : List Exponent) :
    anyHasVariable (es ++ fs) = (anyHasVariable es || anyHasVariable fs) := by
  induction es with
  | nil => rfl
  | cons e es ih => rw [List.cons_append, anyHasVariable, anyHasVariable, ih, Bool.or_assoc]

theorem addAll_singleton {e : Exponent} {n : ℤ} (h : e.Is n) (total : Number ℚ) :
    addAll total [e] = .ok (total + .ofReal (n : ℚ)) := by
  rw [addAll, h.2]
  rfl

/-- The exponents of equal factors add up. -/
theorem Is.accumulate {e f : Exponent} {m n : ℤ} (he : e.Is m) (hf : f.Is n) :
    (e.accumulate f).Is (m + n) := by
  have single (hsum : e.accumulate f = .sum [e, f]) : (e.accumulate f).Is (m + n) := by
    rw [hsum]
    refine ⟨?_, ?_⟩
    · rw [hasVariable, anyHasVariable, anyHasVariable, anyHasVariable, he.1, hf.1]
      rfl
    · rw [evaluate, addAll, he.2]
      show addAll (0 + Number.ofReal (m : ℚ)) [f] = _
      rw [addAll_singleton hf, zero_add, ← Number.ofReal_add, ← Int.cast_add]
  cases e with
  | literal text => exact single rfl
  | negated inner => exact single rfl
  | sum summands =>
    have grown : (sum summands).accumulate f = .sum (summands ++ [f]) := rfl
    rw [grown]
    refine ⟨?_, ?_⟩
    · have hs : anyHasVariable summands = false := he.1
      rw [hasVariable, anyHasVariable_append, hs, anyHasVariable, hf.1]
      rfl
    · have hs : (addAll 0 summands : Except EvalError (Number ℚ)) = .ok (.ofReal (m : ℚ)) := he.2
      rw [evaluate, addAll_append, hs]
      show addAll (Number.ofReal (m : ℚ)) [f] = _
      rw [addAll_singleton hf, ← Number.ofReal_add, ← Int.cast_add]

end Exponent

/-! ## Merging -/

theorem push_nil {factor : List Char} (h : factor ≠ []) (e : Exponent) :
    Factors.push [] factor e = [(factor, e)] := by
  rw [Factors.push, if_neg (by simpa using h)]
  rfl

theorem push_same {factor : List Char} (h : factor ≠ []) (e e' : Exponent) :
    Factors.push [(factor, e)] factor e' = [(factor, e.accumulate e')] := by
  rw [Factors.push, if_neg (by simpa using h), Factors.push.go, if_pos (beq_self_eq_true factor)]

theorem push_other {factor other : List Char} (h : other ≠ []) (hne : factor ≠ other)
    (e e' : Exponent) :
    Factors.push [(factor, e)] other e' = [(factor, e), (other, e')] := by
  rw [Factors.push, if_neg (by simpa using h), Factors.push.go, if_neg (by simpa using hne)]
  rfl

end SamePoly
