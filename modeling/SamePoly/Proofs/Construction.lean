/-
  What the operations on terms can build.

  Every value that is made of monomials and texts by the operations on monomials, polynomials and
  terms is in canonical form, whatever the arithmetic of the coefficients yields.

  * `Built`: the values that finitely many operations make.
  * `Built.reduced`: a built value is reduced, and no exponent passes the largest one.
  * `built_canonical`: **built polynomials are canonical, and a parsed polynomial has finite
    coefficients and no variables but those of its text**.
-/
import SamePoly.Proofs.Formula.Compilation
import SamePoly.Proofs.Letters

namespace SamePoly

/-! ## Operations -/

section Operations

variable (R : Type) [Scalar R]

/-- The values that finitely many operations make.  A polynomial or a monomial on its own is
    taken as the term that it is. -/
inductive Built : Term (Number R) → Prop
  | new (coefficient : Number R) (powers : List (Char × ℕ)) :
      Built (.monomial (.new coefficient (.ofList powers)))
  | constant (value : Number R) : Built (.monomial (.constant value))
  | mulMonomial {m n : Monomial (Number R)} :
      Built (.monomial m) → Built (.monomial n) → Built (.monomial (m.mul n))
  | addMonomials {m n : Monomial (Number R)} :
      Built (.monomial m) → Built (.monomial n) → Built (Term.addMonomials m n)
  | entry {p : Polynomial (Number R)} {m : Monomial (Number R)} :
      Built (.polynomial p) → m ∈ p.monomials → Built (.monomial m)
  | zero : Built (.polynomial .zero)
  | ofMonomial {m : Monomial (Number R)} :
      Built (.monomial m) → Built (.polynomial (.ofMonomial m))
  | absorb {p : Polynomial (Number R)} {m : Monomial (Number R)} :
      Built (.polynomial p) → Built (.monomial m) → Built (.polynomial (p.absorb m))
  | addPolynomial {p q : Polynomial (Number R)} :
      Built (.polynomial p) → Built (.polynomial q) → Built (.polynomial (p.add q))
  | multiplyMonomial {p : Polynomial (Number R)} {m : Monomial (Number R)} :
      Built (.polynomial p) → Built (.monomial m) → Built (.polynomial (p.multiplyMonomial m))
  | multiply {p q : Polynomial (Number R)} :
      Built (.polynomial p) → Built (.polynomial q) → Built (.polynomial (p.multiply q))
  | add {t u : Term (Number R)} : Built t → Built u → Built (t.add u)
  | mul {t u : Term (Number R)} : Built t → Built u → Built (t.mul u)
  | compose {t : Term (Number R)} (exponent : ℕ) : Built t → Built (t.compose exponent)
  | toPolynomial {t : Term (Number R)} : Built t → Built (.polynomial t.toPolynomial)
  | compiledMonomial {text : List Char} {m : Monomial (Number R)} :
      compileMonomial R text = .ok m → Built (.monomial m)
  | compiledSum {text : List Char} {depth : ℕ} {t : Term (Number R)} :
      compileSum R text depth = .ok t → Built t
  | parsed {text : List Char} {p : Polynomial (Number R)} :
      parse R text = .ok p → Built (.polynomial p)

end Operations

variable {R : Type} [Scalar R]

/-! ## Parsed polynomials -/

theorem exists_compileSum_of_parse {text : List Char} {p : Polynomial (Number R)}
    (h : parse R text = .ok p) :
    ∃ t, compileSum R (normalize text) 0 = .ok t ∧ p = t.toPolynomial ∧ p.isFinite = true := by
  obtain ⟨-, -, h⟩ := parse_eq_ok_iff.1 h
  rw [compile] at h
  cases ht : compileSum R (normalize text) 0 with
  | error e => rw [ht] at h; cases h
  | ok t =>
    rw [ht] at h
    change (if t.toPolynomial.isFinite then _ else _) = _ at h
    split at h
    · rename_i finite
      cases h
      exact ⟨t, rfl, rfl, finite⟩
    · cases h

/-- A parsed polynomial is reduced and has the variables of its text. -/
theorem reduced_of_parse {text : List Char} {p : Polynomial (Number R)}
    (h : parse R text = .ok p) : p.Reduced fun m => m.shape.Over (Occurs text) := by
  obtain ⟨t, ht, rfl, -⟩ := exists_compileSum_of_parse h
  have reduced := (yields_of_compileSum ht).reduced.mono fun m hm =>
    hm.mono fun c hc => occurs_of_normalize hc
  exact reduced.toPolynomial

/-! ## Built values -/

/-- The kind of monomials whose exponents can be stored. -/
def Storable (m : Monomial (Number R)) : Prop := m.shape.Over fun _ => True

theorem closed_storable : Monomial.Closed (Storable : Monomial (Number R) → Prop) :=
  Monomial.closed_over _

/-- A built value is reduced, and no exponent passes the largest one. -/
theorem Built.reduced {t : Term (Number R)} (h : Built R t) : t.Reduced Storable := by
  have closed := closed_storable (R := R)
  induction h with
  | new coefficient powers =>
    exact closed.new (m := ⟨coefficient, .ofList powers⟩)
      (Shape.over_ofList fun _ _ => trivial) coefficient
  | constant value => exact closed.constant value
  | mulMonomial _ _ ihm ihn => exact closed.mul ihm ihn
  | addMonomials _ _ ihm ihn => exact Term.Reduced.add closed ihm ihn
  | entry _ hm ih => exact ih.kind _ hm
  | zero => exact Polynomial.Reduced.zero
  | ofMonomial _ ih => exact Polynomial.Reduced.ofMonomial ih
  | absorb _ _ ihp ihm => exact ihp.absorb closed ihm
  | addPolynomial _ _ ihp ihq => exact Polynomial.Reduced.add closed ihp ihq
  | multiplyMonomial _ _ ihp ihm => exact ihp.multiplyMonomial closed ihm
  | multiply _ _ ihp ihq => exact Polynomial.Reduced.multiply closed ihp ihq
  | add _ _ iht ihu => exact iht.add closed ihu
  | mul _ _ iht ihu => exact iht.mul closed ihu
  | compose exponent _ ih => exact ih.compose closed exponent
  | toPolynomial _ ih => exact ih.toPolynomial
  | compiledMonomial h =>
    intro p hp
    exact ⟨trivial, (over_of_compileMonomial h p hp).2⟩
  | compiledSum h =>
    exact (yields_of_compileSum h).reduced.mono fun m hm => hm.mono fun _ _ => trivial
  | parsed h =>
    have reduced := reduced_of_parse h
    exact ⟨reduced.distinct, reduced.nonzero,
      fun m hm => (reduced.kind m hm).mono fun _ _ => trivial⟩

/-- **Built polynomials are canonical**: their shapes are distinct, no coefficient counts as zero,
    and every exponent is at least one and can be stored.  **A parsed polynomial** is built, its
    coefficients are finite, and its variables are variables of the text, which the imaginary unit
    is not. -/
theorem built_canonical (R : Type) [Scalar R] :
    (∀ p : Polynomial (Number R), Built R (.polynomial p) →
      (p.monomials.map Monomial.shape).Nodup ∧
        ∀ m ∈ p.monomials, m.coefficient.isZero = false ∧
          ∀ x ∈ m.shape.powers, 1 ≤ x.2 ∧ x.2 ≤ maxExponent) ∧
    ∀ (text : List Char) (p : Polynomial (Number R)), parse R text = .ok p →
      Built R (.polynomial p) ∧
        ∀ m ∈ p.monomials, m.coefficient.isFinite = true ∧
          ∀ x ∈ m.shape.powers, x.1 ∈ text ∧ isVariable x.1 = true ∧ x.1 ≠ imaginaryUnit := by
  constructor
  · intro p hp
    have reduced : p.Reduced Storable := hp.reduced
    refine ⟨reduced.distinct, fun m hm => ⟨reduced.nonzero m hm, fun x hx => ?_⟩⟩
    exact ⟨m.shape.positive x hx, (reduced.kind m hm x hx).2⟩
  · intro text p hp
    refine ⟨.parsed hp, fun m hm => ⟨?_, fun x hx => ?_⟩⟩
    · obtain ⟨t, -, -, finite⟩ := exists_compileSum_of_parse hp
      exact List.all_eq_true.1 finite m hm
    · obtain ⟨occurs, letter⟩ := ((reduced_of_parse hp).kind m hm x hx).1
      refine ⟨occurs, letter, ?_⟩
      rintro same
      rw [same] at letter
      exact absurd letter (by decide)

/-- A variable is parsed to itself. -/
theorem exists_parse_letter {name : Char} (isName : isVariable name = true) :
    ∃ p, parse ℚ [name] = .ok p ∧ p.Canonical ∧ p.toMv = MvPolynomial.X name := by
  have spelled := Formula.Spelled.letter isName
  have depth : nestingDepth [name] ≤ maxNestingDepth := by
    rw [spelled.nestingDepth]
    exact Nat.zero_le _
  have degree : (Formula.atom (.letter name isName)).degree ≤ maxExponent := by
    show 1 ≤ maxExponent
    decide
  exact spelled.exists_parse trivial depth degree

/-- The square of a parsed variable, less the variable, is built and canonical. -/
theorem built_canonical_square :
    ∃ p, parse ℚ ['x'] = .ok p ∧
      (Built ℚ (.polynomial ((p.multiply p).absorb (.new (-1) (.ofList [('x', 1), ('y', 0)])))) ∧
        (((p.multiply p).absorb (.new (-1) (.ofList [('x', 1), ('y', 0)]))).monomials.map
          Monomial.shape).Nodup) ∧
      ∀ m ∈ p.monomials, ∀ x ∈ m.shape.powers, x.1 ∈ ['x'] := by
  obtain ⟨p, hp, -⟩ := @exists_parse_letter 'x' rfl
  have built : Built ℚ (.polynomial p) := ((built_canonical ℚ).2 ['x'] p hp).1
  have square := (built.multiply built).absorb (.new (-1) [('x', 1), ('y', 0)])
  refine ⟨p, hp, ⟨square, ((built_canonical ℚ).1 _ square).1⟩, fun m hm x hx => ?_⟩
  exact ((((built_canonical ℚ).2 ['x'] p hp).2 m hm).2 x hx).1

end SamePoly
