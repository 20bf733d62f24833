/-
  Powers of terms with exponents that stay at the largest one.

  An exponent that would pass the largest one stays there, so a product of terms is that of the
  polynomial ring only up to such exponents.  Cutting the exponents down is compatible with sums
  and products, so any way to multiply a number of equal factors gives the same term.

  * `saturate`: a ring element with its exponents cut down.
  * `saturate_mul_left`: exponents may be cut down before a product as well.
  * `Term.saturate_mul`: the product of two terms, up to exponents that are cut down.
  * `Term.compose_rel`: repeated squaring in any monoid that the product of terms is related to.
  * `Term.StandsFor`: a term is a ring element up to exponents that are cut down, which products and
    powers preserve.
  * `Term.sameTerms_compose`: **a power has the terms of repeated multiplication**.
-/
import SamePoly.Proofs.Letters
import SamePoly.Proofs.RingLaws

namespace SamePoly

open MvPolynomial (monomial)

/-! ## Exponents -/

namespace Shape

variable {s t : Shape}

theorem bounded_iff_over : s.Bounded ↔ s.Over fun _ => True := by
  constructor
  · intro h p hp
    exact ⟨trivial, exponent_of_mem hp ▸ h p.1⟩
  · intro h c
    by_cases h0 : s.exponent c = 0
    · rw [h0]
      exact Nat.zero_le _
    · exact (h _ ((mem_powers_iff h0).2 rfl)).2

/-- An exponent function cut down to exponents that can be stored. -/
noncomputable def saturated (d : Char →₀ ℕ) : Char →₀ ℕ :=
  d.mapRange (min · maxExponent) (Nat.zero_min _)

@[simp] theorem saturated_apply (d : Char →₀ ℕ) (c : Char) :
    saturated d c = min (d c) maxExponent := Finsupp.mapRange_apply ..

theorem saturated_add_left (d e : Char →₀ ℕ) : saturated (saturated d + e) = saturated (d + e) := by
  ext c
  simp only [saturated_apply, Finsupp.add_apply]
  omega

theorem saturated_mul (s t : Shape) :
    saturated (s.mul t).toFinsupp = saturated (s.toFinsupp + t.toFinsupp) := by
  ext c
  simp only [saturated_apply, Finsupp.add_apply, toFinsupp_apply, exponent_mul]
  split <;> omega

theorem Bounded.saturated (h : s.Bounded) : saturated s.toFinsupp = s.toFinsupp := by
  ext c
  rw [saturated_apply, toFinsupp_apply, min_eq_left (h c)]

end Shape

/-! ## Ring elements -/

section Ring

variable {K : Type} [CommRing K]

/-- A ring element with its exponents cut down; terms that become alike are added. -/
noncomputable def saturate : MvPolynomial Char K →+ MvPolynomial Char K where
  toFun := AddMonoidAlgebra.mapDomain Shape.saturated
  map_zero' := AddMonoidAlgebra.mapDomain_zero _
  map_add' := AddMonoidAlgebra.mapDomain_add _

theorem saturate_monomial (d : Char →₀ ℕ) (a : K) :
    saturate (monomial d a) = monomial (Shape.saturated d) a := by
  exact AddMonoidAlgebra.mapDomain_single

/-- Exponents may be cut down before a product as well. -/
theorem saturate_mul_left (x y : MvPolynomial Char K) :
    saturate (saturate x * y) = saturate (x * y) := by
  induction x using MvPolynomial.induction_on' with
  | monomial d a =>
    induction y using MvPolynomial.induction_on' with
    | monomial e b =>
      rw [saturate_monomial, MvPolynomial.monomial_mul, MvPolynomial.monomial_mul,
        saturate_monomial, saturate_monomial, Shape.saturated_add_left]
    | add y z hy hz => rw [mul_add, mul_add, map_add, map_add, hy, hz]
  | add x z hx hz => rw [map_add, add_mul, add_mul, map_add, map_add, hx, hz]

/-- Being alike after the exponents were cut down is compatible with products. -/
theorem saturate_mul {x x' y y' : MvPolynomial Char K} (hx : saturate x = saturate x')
    (hy : saturate y = saturate y') : saturate (x * y) = saturate (x' * y') := by
  calc saturate (x * y) = saturate (x' * y) := by
        rw [← saturate_mul_left, hx, saturate_mul_left]
    _ = saturate (y' * x') := by rw [mul_comm, ← saturate_mul_left, hy, saturate_mul_left]
    _ = saturate (x' * y') := by rw [mul_comm]

/-- Where no exponent is too large, nothing is cut down. -/
theorem saturate_toMv {p : Polynomial K} (h : ∀ m ∈ p.monomials, m.shape.Bounded) :
    saturate p.toMv = p.toMv := by
  rw [Polynomial.toMv]
  generalize p.monomials = ms at h
  induction ms with
  | nil => exact map_zero _
  | cons m ms ih =>
    obtain ⟨hm, hms⟩ := List.forall_mem_cons.1 h
    rw [Polynomial.sumMv_cons, map_add, ih hms, Monomial.toMv, saturate_monomial, hm.saturated]

end Ring

/-! ## Products of terms -/

section Products

variable {K : Type} [CommRing K] [ZeroTest K] [LawfulZeroTest K]

/-- The product of two monomials, up to exponents that are cut down. -/
theorem Monomial.saturate_mul (m n : Monomial K) :
    saturate (m.mul n).toMv = saturate (m.toMv * n.toMv) := by
  rw [toMv.eq_def m, toMv.eq_def n, MvPolynomial.monomial_mul, mul]
  by_cases h0 : m.coefficient * n.coefficient = 0
  · rw [if_pos ((LawfulZeroTest.isZero_iff _).2 h0), h0, MvPolynomial.monomial_zero, toMv_zero]
  · rw [if_neg (mt (LawfulZeroTest.isZero_iff _).1 h0), toMv_new, saturate_monomial,
      saturate_monomial, Shape.saturated_mul]

namespace Term

theorem toMv_toPolynomial (t : Term K) : t.toPolynomial.toMv = t.toMv := by
  cases t with
  | monomial m => exact Polynomial.toMv_ofMonomial m
  | polynomial p => rfl

/-- The product of two terms, up to exponents that are cut down. -/
theorem saturate_mul (t u : Term K) : saturate (t.mul u).toMv = saturate (t.toMv * u.toMv) := by
  match t, u with
  | .monomial m, .monomial n => exact Monomial.saturate_mul m n
  | .polynomial p, .monomial n =>
    show saturate (p.multiplyMonomial n).toMv = saturate (p.toMv * n.toMv)
    rw [Polynomial.multiplyMonomial, Polynomial.toMv_ofMonomials]
    exact Polynomial.map_sumMv_map_mul saturate fun own _ => Monomial.saturate_mul own n
  | .monomial m, .polynomial q =>
    show saturate (q.multiplyMonomial m).toMv = saturate (m.toMv * q.toMv)
    rw [Polynomial.multiplyMonomial, Polynomial.toMv_ofMonomials, mul_comm]
    exact Polynomial.map_sumMv_map_mul saturate fun own _ => Monomial.saturate_mul own m
  | .polynomial p, .polynomial q =>
    show saturate (p.multiply q).toMv = saturate (p.toMv * q.toMv)
    rw [Polynomial.multiply, Polynomial.toMv_ofMonomials]
    exact Polynomial.map_sumMv_flatMap_mul saturate fun own _ other _ =>
      Monomial.saturate_mul other own

end Term

end Products

/-! ## Repeated squaring -/

namespace Term

section Squaring

variable {K : Type} [Zero K] [Add K] [Mul K] [ZeroTest K] {A : Type} [Monoid A]
variable {D : Term K → A → Prop}

/-- The loop of repeated squaring: `power` and `square` stand for powers of one element, and so
    does what comes out. -/
theorem composeFrom_rel (mul : ∀ {t u a b}, D t a → D u b → D (t.mul u) (a * b)) {a : A} {i j : ℕ}
    {power : Option (Term K)} {square : Term K} (hi : power = none → i = 0)
    (hpower : ∀ t ∈ power, D t (a ^ i)) (hsquare : D square (a ^ j)) (n : ℕ) :
    (composeFrom power square n = none → i + j * n = 0) ∧
      ∀ t ∈ composeFrom power square n, D t (a ^ (i + j * n)) := by
  induction n using Nat.strongRecOn generalizing power square i j with
  | ind n ih =>
    rw [composeFrom.eq_def]
    split
    · rename_i h0
      rw [h0, mul_zero, add_zero]
      exact ⟨hi, hpower⟩
    · rename_i h0
      have parity : n = n % 2 + 2 * (n / 2) := (Nat.mod_add_div n 2).symm
      dsimp only
      generalize hnext : (if n % 2 = 1 then _ else power) = next
      -- The factor taken now has the exponent of the last bit.
      have hnext : (next = none → i + j * (n % 2) = 0) ∧
          ∀ t ∈ next, D t (a ^ (i + j * (n % 2))) := by
        subst hnext
        rcases Nat.mod_two_eq_zero_or_one n with even | odd
        · rw [even, mul_zero, add_zero]
          exact ⟨hi, hpower⟩
        · rw [odd, mul_one, if_pos rfl]
          cases power with
          | none =>
            rw [hi rfl, zero_add]
            refine ⟨nofun, ?_⟩
            rintro t ⟨⟩
            exact hsquare
          | some s =>
            refine ⟨nofun, ?_⟩
            rintro t ⟨⟩
            rw [pow_add]
            exact mul (hpower s rfl) hsquare
      split
      · rename_i half
        rwa [show n % 2 = n by omega] at hnext
      · rename_i half
        have double : D (square.mul square) (a ^ (j + j)) := by
          rw [pow_add]
          exact mul hsquare hsquare
        have rest := ih (n / 2) (by omega) hnext.1 hnext.2 double
        have exponent : i + j * (n % 2) + (j + j) * (n / 2) = i + j * n := by
          conv_rhs => rw [parity]
          ring
        rwa [exponent] at rest

/-- A relation that products preserve holds between powers. -/
theorem compose_rel [One K] (one : D .one 1)
    (mul : ∀ {t u a b}, D t a → D u b → D (t.mul u) (a * b)) {t : Term K} {a : A} (ht : D t a)
    (n : ℕ) : D (t.compose n) (a ^ n) := by
  have start : D t (a ^ 1) := by rwa [pow_one]
  have nothing : ∀ u ∈ (none : Option (Term K)), D u (a ^ 0) := nofun
  obtain ⟨nothing, power⟩ := composeFrom_rel mul (fun _ => rfl) nothing start n
  rw [zero_add, one_mul] at nothing power
  rw [compose]
  split
  · rename_i u hu
    exact power u hu
  · rename_i hnone
    rw [nothing hnone, pow_zero]
    exact one

theorem iterate_rel [One K] (one : D .one 1)
    (mul : ∀ {t u a b}, D t a → D u b → D (t.mul u) (a * b)) {t : Term K} {a : A} (ht : D t a)
    (n : ℕ) : D ((fun power => power.mul t)^[n] .one) (a ^ n) := by
  induction n with
  | zero =>
    rw [pow_zero]
    exact one
  | succ n ih =>
    rw [Function.iterate_succ_apply', pow_succ]
    exact mul ih ht

end Squaring

/-! ## Up to the largest exponent -/

variable {K : Type} [CommRing K] [ZeroTest K]

theorem closed_bounded : Monomial.Closed fun m : Monomial K => m.shape.Bounded := by
  simp only [Shape.bounded_iff_over]
  exact Monomial.closed_over _

/-- A term whose exponents can be stored is a ring element up to exponents that are cut down. -/
def StandsFor (t : Term K) (x : MvPolynomial Char K) : Prop :=
  (t.Reduced fun m => m.shape.Bounded) ∧ saturate t.toMv = saturate x

namespace StandsFor

variable {t u : Term K} {x y : MvPolynomial Char K}

theorem self (h : t.Reduced fun m => m.shape.Bounded) : t.StandsFor t.toMv := ⟨h, rfl⟩

theorem constant (value : K) : (Term.monomial (.constant value)).StandsFor (MvPolynomial.C value) :=
  ⟨closed_bounded.constant value, congrArg saturate (Monomial.toMv_constant value)⟩

theorem one : (one : Term K).StandsFor 1 := by
  rw [← MvPolynomial.C_1]
  exact constant 1

variable [LawfulZeroTest K]

theorem mul (ht : t.StandsFor x) (hu : u.StandsFor y) : (t.mul u).StandsFor (x * y) :=
  ⟨ht.1.mul closed_bounded hu.1, (saturate_mul t u).trans (SamePoly.saturate_mul ht.2 hu.2)⟩

theorem compose (ht : t.StandsFor x) (n : ℕ) : (t.compose n).StandsFor (x ^ n) :=
  compose_rel one mul ht n

theorem iterate (ht : t.StandsFor x) (n : ℕ) :
    StandsFor ((fun power : Term K => power.mul t)^[n] .one) (x ^ n) :=
  iterate_rel one mul ht n

/-- The polynomial of a term has the exponents cut down. -/
theorem toPolynomial (ht : t.StandsFor x) :
    (t.toPolynomial.Reduced fun m => m.shape.Bounded) ∧ t.toPolynomial.toMv = saturate x := by
  have reduced := ht.1.toPolynomial
  rw [← saturate_toMv reduced.kind, toMv_toPolynomial]
  exact ⟨reduced, ht.2⟩

/-- Terms that stand for the same ring element have the same polynomial up to the order of the
    terms. -/
theorem sameTerms (ht : t.StandsFor x) (hu : u.StandsFor x) :
    Polynomial.SameTerms (· = ·) t.toPolynomial u.toPolynomial := by
  obtain ⟨left, meaning⟩ := ht.toPolynomial
  obtain ⟨right, meaning'⟩ := hu.toPolynomial
  refine .of_coefficient eq_equivalence LawfulZeroTest.isZero_iff left right fun s => ?_
  rw [Polynomial.coefficient_eq left.canonical, meaning, ← meaning',
    ← Polynomial.coefficient_eq right.canonical]

end StandsFor

/-! ## Coefficients of powers -/

variable [LawfulZeroTest K]

/-- **A power by repeated squaring is the repeated product**, for every term that the operations can
    make: the same shapes with the same coefficients, also where exponents stay at the largest one,
    for the exponent zero and for zero terms. -/
theorem sameTerms_compose (t : Term K) (ht : t.Reduced fun m => m.shape.Bounded) (n : ℕ) :
    Polynomial.SameTerms (· = ·) (t.compose n).toPolynomial
      ((fun power : Term K => power.mul t)^[n] .one).toPolynomial := by
  have start := StandsFor.self ht
  have squaring : (t.compose n).StandsFor (t.toMv ^ n) := start.compose n
  exact squaring.sameTerms (start.iterate n)

/-- The square of `x^3000000000 - 1`, where an exponent stays at the largest one. -/
theorem sameTerms_compose_large :
    let large : Shape := .ofList [('x', 3000000000)]
    let t : Term (Number ℚ) := .polynomial ⟨[⟨1, large⟩, ⟨-1, .one⟩]⟩
    (t.Reduced fun m => m.shape.Bounded) ∧
      Polynomial.SameTerms (· = ·) (t.compose 2).toPolynomial
        ((fun power : Term (Number ℚ) => power.mul t)^[2] .one).toPolynomial ∧
      (large.mul large).powers = [('x', maxExponent)] := by
  intro large t
  have reduced : t.Reduced fun m => m.shape.Bounded := by
    refine ⟨by decide, by decide, List.forall_mem_cons.2 ⟨?_, List.forall_mem_singleton.2 ?_⟩⟩
    · exact Shape.bounded_iff_over.2 (Shape.over_ofList fun _ _ => trivial)
    · exact Shape.bounded_iff_over.2 .one
  exact ⟨reduced, sameTerms_compose t reduced 2, by decide⟩

end Term

end SamePoly
