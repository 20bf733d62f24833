/-
  The calls of the compiler.

  A sum is compiled term by term and a product factor by factor, and both come back to sums and
  products of other texts.  One step of the compiler leaves these to an answer that is given to
  it; a call makes another one when it has to know its answer.

  * `Call`: a sum or a product that is to be compiled at a depth.
  * `Call.step`: one step of the compiler, other calls being answered.
  * `Makes`: the calls that a step makes.
  * `Call.step_eq_run`: a step whose calls are answered by the compiler is the compiler.
-/
import SamePoly.Proofs.Compilation
import SamePoly.Proofs.Summands
import SamePoly.Proofs.Yields

namespace SamePoly

/-- A text that is to be compiled at a depth, as a sum or as a product. -/
inductive Call where
  | sum (text : List Char) (depth : ℕ)
  | product (text : List Char) (depth : ℕ)

namespace Call

def text : Call → List Char
  | .sum text _ => text
  | .product text _ => text

def depth : Call → ℕ
  | .sum _ depth => depth
  | .product _ depth => depth

/-- The call for the same text as the other kind. -/
def swap : Call → Call
  | .sum text depth => .product text depth
  | .product text depth => .sum text depth

section Steps

variable (R : Type) [Scalar R]

/-- The compiled text. -/
def run : Call → Except PolyError (Term (Number R))
  | .sum text depth => compileSum R text depth
  | .product text depth => compileProduct R text depth

variable {R} (answer : Call → Except PolyError (Term (Number R)))

/-- A term of a sum. -/
def stepTerm (depth : ℕ) (term : List Char) : Except PolyError (Term (Number R)) :=
  if isMonomial term then (compileMonomial R term).map .monomial
  else answer (.product term depth)

/-- A factor of a product. -/
def stepFactor (text : List Char) (depth : ℕ) (x : List Char × Exponent) :
    Except PolyError (Term (Number R)) :=
  match (evaluateFactor x.1 x.2 : Except FactorFault (Factor R)) with
  | .error fault => .error (.factor (.lexeme text) fault)
  | .ok (.numeric value) => .ok (.monomial (.constant value))
  | .ok (.symbolic base exponent) =>
    if isMonomial base then
      (compileMonomial R base).map fun m => (Term.monomial m).compose exponent
    else (answer (.sum base (depth + 1))).map fun t => t.compose exponent

/-- One step of the compiler. -/
def step : Call → Except PolyError (Term (Number R))
  | .sum text depth =>
    if maxNestingDepth < depth then .error .levels
    else if isSum text then
      ((splitSum text).mapM (stepTerm answer depth)).map fun terms =>
        (Term.sum? terms).getD (.monomial .zero)
    else answer (.product text depth)
  | .product text depth =>
    if maxNestingDepth < depth then .error .levels
    else if isMonomial text then (compileMonomial R text).map .monomial
    else if isSum text then answer (.sum text depth)
    else ((splitComposition text).mapM (stepFactor answer text depth)).bind fun factors =>
      match Term.product? factors with
      | some t => .ok t
      | none => .error (.noFactor text)

end Steps

end Call

variable (R : Type) [Scalar R]

/-- A call needs the answer to another one.  Terms and factors are compiled from left to right, and
    none behind one that has failed. -/
inductive Makes : Call → Call → Prop
  | single {text : List Char} {depth : ℕ} (fits : depth ≤ maxNestingDepth)
      (single : isSum text = false) : Makes (.sum text depth) (.product text depth)
  | term {text term : List Char} {depth : ℕ} {before after : List (List Char)}
      (fits : depth ≤ maxNestingDepth) (sum : isSum text = true)
      (cut : splitSum text = before ++ term :: after)
      (earlier : ∀ t ∈ before, ∃ u, compileProduct R t depth = .ok u)
      (large : isMonomial term = false) : Makes (.sum text depth) (.product term depth)
  | sum {text : List Char} {depth : ℕ} (fits : depth ≤ maxNestingDepth)
      (sum : isSum text = true) : Makes (.product text depth) (.sum text depth)
  | base {text base : List Char} {depth exponent : ℕ} {x : List Char × Exponent}
      {before after : Factors} (fits : depth ≤ maxNestingDepth) (large : isMonomial text = false)
      (single : isSum text = false) (cut : splitComposition text = before ++ x :: after)
      (earlier : ∀ y ∈ before, ∃ u, factorTerm R text depth y = .ok u)
      (symbolic : evaluateFactor x.1 x.2 = .ok (Factor.symbolic base exponent : Factor R))
      (deep : isMonomial base = false) : Makes (.product text depth) (.sum base (depth + 1))

/-- A call that is made in the course of another one. -/
abbrev Reaches : Call → Call → Prop := Relation.ReflTransGen (Makes R)

variable {R}

/-- Only the results up to the first failure matter. -/
theorem mapM_congr_earlier {α β ε : Type} {f g : α → Except ε β} {xs : List α}
    (h : ∀ before x after, xs = before ++ x :: after → (∀ y ∈ before, ∃ b, f y = .ok b) →
      f x = g x) : xs.mapM f = xs.mapM g := by
  induction xs with
  | nil => rfl
  | cons x xs ih =>
    have head : f x = g x := h [] x xs rfl nofun
    rw [List.mapM_cons, List.mapM_cons, ← head]
    cases hx : f x with
    | error e => rfl
    | ok b =>
      rw [ih fun before y after cut earlier => ?_]
      refine h (x :: before) y after (congrArg (x :: ·) cut) ?_
      exact List.forall_mem_cons.2 ⟨⟨b, hx⟩, earlier⟩

namespace Call

variable {answer : Call → Except PolyError (Term (Number R))} {c : Call}

theorem stepTerm_run {depth : ℕ} (hd : depth ≤ maxNestingDepth) (term : List Char) :
    stepTerm (run R) depth term = compileProduct R term depth := by
  rw [stepTerm]
  split
  · rename_i h
    rw [compileProduct_of_isMonomial hd h]
  · rfl

/-- A step only asks for the calls that it makes. -/
theorem step_congr (h : ∀ c', Makes R c c' → answer c' = c'.run R) :
    c.step answer = c.step (run R) := by
  cases c with
  | sum text depth =>
    rw [step, step]
    split
    · rfl
    · rename_i hd
      have fits : depth ≤ maxNestingDepth := not_lt.1 hd
      split
      · rename_i sum
        congr 1
        symm
        refine mapM_congr_earlier fun before term after cut earlier => ?_
        rw [stepTerm, stepTerm]
        split
        · rfl
        · rename_i large
          refine (h _ (.term fits sum cut (fun t ht => ?_) (Bool.eq_false_iff.2 large))).symm
          obtain ⟨u, hu⟩ := earlier t ht
          exact ⟨u, by rw [← stepTerm_run fits, hu]⟩
      · rename_i single
        exact h _ (.single fits (Bool.eq_false_iff.2 single))
  | product text depth =>
    rw [step, step]
    split
    · rfl
    · rename_i hd
      have fits : depth ≤ maxNestingDepth := not_lt.1 hd
      split
      · rfl
      · rename_i large
        split
        · rename_i sum
          exact h _ (.sum fits sum)
        · rename_i single
          congr 1
          symm
          refine mapM_congr_earlier fun before x after cut earlier => ?_
          rw [stepFactor, stepFactor]
          split
          · rfl
          · rfl
          · rename_i base exponent symbolic
            split
            · rfl
            · rename_i deep
              rw [h _ (.base fits (Bool.eq_false_iff.2 large) (Bool.eq_false_iff.2 single) cut
                earlier symbolic (Bool.eq_false_iff.2 deep))]

/-- The terms of a sum are shorter than the sum. -/
def Shrinks (c : Call) : Prop :=
  isSum c.text = true → ∀ term ∈ splitSum c.text, term.length < c.text.length

/-- The compiler answers its own calls. -/
theorem step_run (h : c.Shrinks) : c.step (run R) = c.run R := by
  cases c with
  | sum text depth =>
    show (Call.sum text depth).step (run R) = compileSum R text depth
    rw [step]
    split
    · rename_i hd
      rw [compileSum, if_pos hd]
    · rename_i hd
      have fits : depth ≤ maxNestingDepth := not_lt.1 hd
      split
      · rename_i sum
        have shorter : ∀ term ∈ splitSum text, term.length < text.length := h sum
        rw [compileSum_of_isSum fits sum, compileTerms_eq fits shorter]
        rw [mapM_congr fun term _ => stepTerm_run fits term]
      · rename_i single
        rw [compileSum_of_not_isSum fits (Bool.eq_false_iff.2 single), run]
  | product text depth =>
    show (Call.product text depth).step (run R) = compileProduct R text depth
    rw [step]
    split
    · rename_i hd
      rw [compileProduct, dif_pos hd]
    · rename_i hd
      have fits : depth ≤ maxNestingDepth := not_lt.1 hd
      split
      · rename_i monomial
        rw [compileProduct_of_isMonomial fits monomial]
      · rename_i large
        split
        · rename_i sum
          rw [run, compileSum_of_isSum fits sum, compileProduct, dif_neg hd, if_neg large,
            if_pos sum]
        · rename_i single
          rw [compileProduct_eq fits (Bool.eq_false_iff.2 large) (Bool.eq_false_iff.2 single)]
          rfl

/-- **A step whose calls are answered by the compiler is the compiler.** -/
theorem step_eq_run (shrinks : c.Shrinks) (h : ∀ c', Makes R c c' → answer c' = c'.run R) :
    c.step answer = c.run R := by
  rw [step_congr h, step_run shrinks]

end Call

end SamePoly
