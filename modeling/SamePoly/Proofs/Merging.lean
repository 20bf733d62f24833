/-
  Merging of equal factors.

  A product collects its factors one by one, and the exponents of equal factors in one place.

  * `Exponent.pieces`: the texts that an exponent is made of.
  * `Exponent.evaluate_of_reads`, `Exponent.reads_of_evaluate`: an exponent has a value only if
    each of its texts can be read, and then it fails only by dividing by zero.
  * `Factors.forall_push`: what holds of all factors and of a further one holds when it is added.
  * `Factors.Extends`: factors with their exponents that are still in their places later on.
  * `Factors.Extends.mem_of_earlier`: behind a factor that comes to nothing no other one is looked at.
  * `infix_of_mem_splitComposition`: factors stand in the text as they are.
-/
import SamePoly.Factors
import Mathlib

namespace SamePoly

variable {R : Type} [Scalar R]

/-! ## Outcomes of evaluation -/

/-- A text is a numeric expression. -/
def Reads (text : List Char) : Prop := (Arithmetic.Sum.read? text).isSome = true

/-- A computation gives a number or divides by zero. -/
def HasOutcome {R : Type} (result : Except EvalError (Number R)) : Prop :=
  (∃ value, result = .ok value) ∨ ∃ text, result = .error (.divisionByZero text)

omit [Scalar R] in
theorem HasOutcome.bind {result : Except EvalError (Number R)}
    {next : Number R → Except EvalError (Number R)} (h : HasOutcome result)
    (hn : ∀ value, HasOutcome (next value)) : HasOutcome (result.bind next) := by
  rcases h with ⟨value, rfl⟩ | ⟨text, rfl⟩
  · exact hn value
  · exact .inr ⟨text, rfl⟩

theorem Reads.hasOutcome {text : List Char} (h : Reads text) :
    HasOutcome (evaluate text : Except EvalError (Number R)) := by
  obtain ⟨sum, hsum⟩ := Option.isSome_iff_exists.1 h
  rw [evaluate, hsum]
  dsimp only
  cases (sum.value? : Option (Number R)) with
  | none => exact .inr ⟨text, rfl⟩
  | some value => exact .inl ⟨value, rfl⟩

theorem Reads.of_evaluate {text : List Char} {value : Number R}
    (h : evaluate text = .ok value) : Reads text := by
  rw [evaluate] at h
  rw [Reads]
  cases hread : Arithmetic.Sum.read? text with
  | none =>
    rw [hread] at h
    cases h
  | some sum => rfl

/-! ## Texts of exponents -/

namespace Exponent

mutual

/-- The texts that an exponent is made of, from left to right. -/
def pieces : Exponent → List (List Char)
  | .literal text => [text]
  | .sum summands => allPieces summands
  | .negated inner => inner.pieces

/-- The texts that several exponents are made of. -/
def allPieces : List Exponent → List (List Char)
  | [] => []
  | e :: rest => e.pieces ++ allPieces rest

end

theorem allPieces_append (es fs : List Exponent) :
    allPieces (es ++ fs) = allPieces es ++ allPieces fs := by
  induction es with
  | nil => rfl
  | cons e es ih => rw [List.cons_append, allPieces, allPieces, ih, List.append_assoc]

theorem pieces_accumulate (e f : Exponent) : (e.accumulate f).pieces = e.pieces ++ f.pieces := by
  have pair : allPieces [e, f] = e.pieces ++ f.pieces := by
    rw [allPieces, allPieces, allPieces, List.append_nil]
  cases e with
  | literal text => exact pair
  | negated inner => exact pair
  | sum summands =>
    show allPieces (summands ++ [f]) = _
    rw [allPieces_append, allPieces, allPieces, List.append_nil]
    rfl

mutual

/-- A variable occurs in one of the texts. -/
theorem hasVariable_eq (e : Exponent) : e.hasVariable = e.pieces.any SamePoly.hasVariable := by
  match e with
  | .literal text => exact (Bool.or_false _).symm
  | .sum summands => exact anyHasVariable_eq summands
  | .negated inner => exact hasVariable_eq inner

theorem anyHasVariable_eq (es : List Exponent) :
    anyHasVariable es = (allPieces es).any SamePoly.hasVariable := by
  match es with
  | [] => rfl
  | e :: es =>
    rw [anyHasVariable, allPieces, List.any_append, hasVariable_eq e, anyHasVariable_eq es]

end

mutual

/-- An exponent whose texts are numeric expressions has a value or divides by zero. -/
theorem evaluate_of_reads (e : Exponent) (h : ∀ p ∈ e.pieces, Reads p) :
    HasOutcome (e.evaluate : Except EvalError (Number R)) := by
  match e with
  | .literal text => exact (h text List.mem_cons_self).hasOutcome
  | .sum summands => exact addAll_of_reads summands h 0
  | .negated inner =>
    rw [evaluate]
    exact (evaluate_of_reads inner h).bind fun value => .inl ⟨-value, rfl⟩

theorem addAll_of_reads (es : List Exponent) (h : ∀ p ∈ allPieces es, Reads p)
    (total : Number R) : HasOutcome (addAll total es) := by
  match es with
  | [] => exact .inl ⟨total, rfl⟩
  | e :: es =>
    rw [allPieces, List.forall_mem_append] at h
    rw [addAll]
    exact (evaluate_of_reads e h.1).bind fun value => addAll_of_reads es h.2 (total + value)

end

mutual

/-- The texts of an exponent with a value are numeric expressions. -/
theorem reads_of_evaluate (e : Exponent) {value : Number R} (h : e.evaluate = .ok value) :
    ∀ p ∈ e.pieces, Reads p := by
  match e with
  | .literal text =>
    rintro p hp
    rw [List.mem_singleton.1 hp]
    exact .of_evaluate h
  | .sum summands => exact reads_of_addAll summands h
  | .negated inner =>
    rw [evaluate] at h
    cases hinner : (inner.evaluate : Except EvalError (Number R)) with
    | error cause =>
      rw [hinner] at h
      cases h
    | ok value => exact reads_of_evaluate inner hinner

theorem reads_of_addAll (es : List Exponent) {total value : Number R}
    (h : addAll total es = .ok value) : ∀ p ∈ allPieces es, Reads p := by
  match es with
  | [] => exact fun p hp => (nomatch hp)
  | e :: es =>
    rw [addAll] at h
    cases he : (e.evaluate : Except EvalError (Number R)) with
    | error cause =>
      rw [he] at h
      cases h
    | ok summand =>
      rw [he] at h
      rw [allPieces, List.forall_mem_append]
      exact ⟨reads_of_evaluate e he, reads_of_addAll es h⟩

end

end Exponent

/-! ## Collected factors -/

namespace Factors

variable {factors more : Factors} {factor : List Char} {e : Exponent}

/-- What holds of the factors with their exponents, and of a further one by itself or merged with
    an equal one, holds when it is added. -/
theorem forall_push_of {Q : List Char → Exponent → Prop} (h : ∀ x ∈ factors, Q x.1 x.2)
    (single : factor ≠ [] → Q factor e)
    (merged : ∀ known, factor ≠ [] → Q factor known → Q factor (known.accumulate e)) :
    ∀ x ∈ factors.push factor e, Q x.1 x.2 := by
  by_cases hne : factor = []
  · rw [hne]
    exact h
  · rw [push, if_neg (by simpa using hne)]
    induction factors with
    | nil =>
      intro x hx
      rw [push.go, List.mem_singleton] at hx
      rw [hx]
      exact single hne
    | cons y factors ih =>
      obtain ⟨hy, hrest⟩ := List.forall_mem_cons.1 h
      rw [push.go]
      split
      · rename_i same
        rw [beq_iff_eq.1 same] at hy ⊢
        exact List.forall_mem_cons.2 ⟨merged y.2 hne hy, hrest⟩
      · exact List.forall_mem_cons.2 ⟨hy, ih hrest⟩

/-- What holds of the factors and of a further one holds when it is added. -/
theorem forall_push {P E : List Char → Prop}
    (h : ∀ x ∈ factors, P x.1 ∧ ∀ p ∈ x.2.pieces, E p)
    (hf : factor ≠ [] → P factor ∧ ∀ p ∈ e.pieces, E p) :
    ∀ x ∈ factors.push factor e, P x.1 ∧ ∀ p ∈ x.2.pieces, E p := by
  refine forall_push_of (Q := fun text e => P text ∧ ∀ p ∈ e.pieces, E p) h hf ?_
  rintro known hne ⟨hp, hknown⟩
  rw [Exponent.pieces_accumulate]
  exact ⟨hp, List.forall_mem_append.2 ⟨hknown, (hf hne).2⟩⟩

/-- Every factor is still in its place, with all the texts of its exponent. -/
inductive Extends : Factors → Factors → Prop
  | nil {more : Factors} : Extends [] more
  | cons {x y : List Char × Exponent} {factors more : Factors} (same : y.1 = x.1)
      (kept : ∀ p ∈ x.2.pieces, p ∈ y.2.pieces) : Extends factors more →
      Extends (x :: factors) (y :: more)

namespace Extends

theorem refl (factors : Factors) : factors.Extends factors := by
  induction factors with
  | nil => exact .nil
  | cons x factors ih => exact .cons rfl (fun _ hp => hp) ih

theorem trans {all : Factors} (h : factors.Extends more) (h' : more.Extends all) :
    factors.Extends all := by
  induction h generalizing all with
  | nil => exact .nil
  | cons same kept _ ih =>
    cases h' with
    | cons same' kept' h' => exact .cons (same'.trans same) (fun p hp => kept' p (kept p hp)) (ih h')

theorem exists_mem (h : factors.Extends more) {x : List Char × Exponent} (hx : x ∈ factors) :
    ∃ y ∈ more, y.1 = x.1 ∧ ∀ p ∈ x.2.pieces, p ∈ y.2.pieces := by
  induction h with
  | nil => cases hx
  | @cons x' y factors more same kept _ ih =>
    rcases List.mem_cons.1 hx with rfl | hx
    · exact ⟨y, List.mem_cons_self, same, kept⟩
    · obtain ⟨z, hz, spec⟩ := ih hx
      exact ⟨z, List.mem_cons_of_mem _ hz, spec⟩

/-- Among the factors that were collected first, one that comes to nothing hides all that were
    collected later. -/
theorem mem_of_earlier {succeeds : List Char × Exponent → Prop} {before after : Factors}
    {x : List Char × Exponent} (h : factors.Extends more) (cut : more = before ++ x :: after)
    (fails : ∃ y ∈ factors, ∀ z ∈ more, z.1 = y.1 → (∀ p ∈ y.2.pieces, p ∈ z.2.pieces) →
      ¬ succeeds z)
    (earlier : ∀ y ∈ before, succeeds y) : ∃ y ∈ factors, y.1 = x.1 := by
  induction h generalizing before with
  | nil =>
    obtain ⟨y, hy, -⟩ := fails
    cases hy
  | @cons x' y factors more same kept _ ih =>
    cases before with
    | nil =>
      obtain ⟨rfl, -⟩ := List.cons.inj cut
      exact ⟨x', List.mem_cons_self, same.symm⟩
    | cons b before =>
      obtain ⟨rfl, cutRest⟩ := List.cons.inj cut
      obtain ⟨hb, earlier⟩ := List.forall_mem_cons.1 earlier
      obtain ⟨z, hz, fails⟩ := fails
      rcases List.mem_cons.1 hz with rfl | hz
      · exact absurd hb (fails y List.mem_cons_self same kept)
      · obtain ⟨w, hw, spec⟩ := ih cutRest
          ⟨z, hz, fun v hv => fails v (List.mem_cons_of_mem _ hv)⟩ earlier
        exact ⟨w, List.mem_cons_of_mem _ hw, spec⟩

end Extends

theorem extends_push (factors : Factors) (factor : List Char) (e : Exponent) :
    factors.Extends (factors.push factor e) := by
  rw [push]
  split
  · exact .refl factors
  · induction factors with
    | nil => exact .nil
    | cons y factors ih =>
      rw [push.go]
      split
      · refine .cons rfl (fun p hp => ?_) (.refl factors)
        rw [Exponent.pieces_accumulate]
        exact List.mem_append_left _ hp
      · exact .cons rfl (fun _ hp => hp) ih

/-- A factor is there once it was added. -/
theorem exists_mem_push (factors : Factors) (hf : factor ≠ []) (e : Exponent) :
    ∃ y ∈ factors.push factor e, y.1 = factor ∧ ∀ p ∈ e.pieces, p ∈ y.2.pieces := by
  rw [push, if_neg (by simpa using hf)]
  induction factors with
  | nil => exact ⟨(factor, e), List.mem_singleton_self _, rfl, fun _ hp => hp⟩
  | cons y factors ih =>
    rw [push.go]
    split
    · rename_i same
      refine ⟨_, List.mem_cons_self, beq_iff_eq.1 same, fun p hp => ?_⟩
      rw [Exponent.pieces_accumulate]
      exact List.mem_append_right _ hp
    · obtain ⟨z, hz, hyz⟩ := ih
      exact ⟨z, List.mem_cons_of_mem _ hz, hyz⟩

/-- Further text leaves the factors in their places. -/
theorem extends_splitCompositionFrom (factors : Factors) (stretch : List Char)
    (divided raised : Bool) (text : List Char) :
    factors.Extends (splitCompositionFrom factors stretch divided raised text) := by
  fun_induction splitCompositionFrom factors stretch divided raised text with
  | case1 => exact extends_push _ _ _
  | case2 => assumption
  | case3 => exact (extends_push _ _ _).trans (extends_push _ _ _)
  | case4 =>
    rename_i ih
    exact ((extends_push _ _ _).trans (extends_push _ _ _)).trans ih
  | case5 =>
    rename_i ih
    exact ((extends_push _ _ _).trans (extends_push _ _ _)).trans ih
  | case6 => assumption

end Factors

/-! ## Parts of the text -/

variable {text part whole : List Char}

/-- At most an operator is dropped in front of a group. -/
theorem withoutOperator_append (stretch : List Char) :
    ∃ dropped, stretch.reverse = withoutOperator stretch ++ dropped ∧
      ∀ d ∈ dropped, d = '*' ∨ d = '/' := by
  rw [withoutOperator.eq_def]
  split
  · exact ⟨['*'], by simp, by simp⟩
  · exact ⟨['/'], by simp, by simp⟩
  · exact ⟨[], by simp, by simp⟩

theorem withoutOperator_isPrefix (stretch : List Char) :
    withoutOperator stretch <+: stretch.reverse := by
  obtain ⟨dropped, same, -⟩ := withoutOperator_append stretch
  rw [same]
  exact List.prefix_append _ _

/-- A further factor leaves only factors that stand in the text. -/
theorem Factors.forall_infix_push {factors : Factors} {e : Exponent}
    (h : ∀ x ∈ factors, x.1 <:+: whole) (hpart : part <:+: whole) :
    ∀ x ∈ factors.push part e, x.1 <:+: whole := by
  have push := Factors.forall_push (P := (· <:+: whole)) (E := fun _ => True) (e := e)
    (fun x hx => ⟨h x hx, fun _ _ => trivial⟩) (fun _ => ⟨hpart, fun _ _ => trivial⟩)
  exact fun x hx => (push x hx).1

theorem infix_of_mem_splitCompositionFrom {factors : Factors} {stretch : List Char}
    {divided raised : Bool} (hfactors : ∀ x ∈ factors, x.1 <:+: whole)
    (h : stretch.reverse ++ text <:+: whole) :
    ∀ x ∈ splitCompositionFrom factors stretch divided raised text, x.1 <:+: whole := by
  have longer {stretch rest : List Char} {c : Char} (h : stretch.reverse ++ c :: rest <:+: whole) :
      (c :: stretch).reverse ++ rest <:+: whole := by
    rwa [List.reverse_cons, List.append_assoc]
  have flushed_within {factors : Factors} {stretch text : List Char}
      (hfactors : ∀ x ∈ factors, x.1 <:+: whole) (h : stretch.reverse ++ text <:+: whole) :
      ∀ x ∈ factors.push (withoutOperator stretch) .one, x.1 <:+: whole :=
    Factors.forall_infix_push hfactors
      ((withoutOperator_isPrefix stretch).isInfix.trans ((List.prefix_append _ _).isInfix.trans h))
  have group_within {stretch rest inside after : List Char} {c : Char}
      (h : stretch.reverse ++ c :: rest <:+: whole) (found : group? rest = some (inside, after)) :
      inside <:+: whole ∧ after <:+: whole := by
    have behind : inside ++ ')' :: after <:+: whole := by
      rw [splitAtMatch_append found]
      exact ((List.suffix_cons c rest).trans (List.suffix_append _ _)).isInfix.trans h
    refine ⟨(List.prefix_append _ _).isInfix.trans behind, ?_⟩
    exact ((List.suffix_cons _ after).trans (List.suffix_append _ _)).isInfix.trans behind
  fun_induction splitCompositionFrom factors stretch divided raised text with
  | case1 factors stretch divided raised =>
    rw [List.append_nil] at h
    exact Factors.forall_infix_push hfactors h
  | case2 factors stretch divided raised c rest _ ih => exact ih hfactors (longer h)
  | case3 factors stretch divided raised c rest _ _ flushed found =>
    exact Factors.forall_infix_push (flushed_within hfactors h) h
  | case4 factors stretch divided raised c rest _ _ flushed inside after found exponent _ ih =>
    obtain ⟨hinside, hafter⟩ := group_within h found
    refine ih (Factors.forall_infix_push (flushed_within hfactors h) hinside) ?_
    have behind : (tower after).2 <:+ '^' :: after := by
      conv_rhs => rw [← tower_append after]
      exact (List.suffix_append _ _).trans (List.suffix_cons _ _)
    exact behind.isInfix.trans hafter
  | case5 factors stretch divided raised c rest _ _ flushed inside after _ found _ ih =>
    obtain ⟨hinside, hafter⟩ := group_within h found
    exact ih (Factors.forall_infix_push (flushed_within hfactors h) hinside) hafter
  | case6 factors stretch divided raised c rest _ _ ih => exact ih hfactors (longer h)

/-- The factors of a product stand in the text. -/
theorem infix_of_mem_splitComposition {x : List Char × Exponent} (h : x ∈ splitComposition text) :
    x.1 <:+: text :=
  infix_of_mem_splitCompositionFrom (List.forall_mem_nil _) List.infix_rfl x h

end SamePoly
