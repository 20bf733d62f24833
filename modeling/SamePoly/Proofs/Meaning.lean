/-
  Polynomials as elements of the polynomial ring.

  A polynomial stands for the sum of its monomials in the ring over all characters.  The
  operations on monomials, polynomials and terms are those of the ring as long as no exponent
  passes the largest one that can be stored, which a bound on the total degree rules out.

  * `Monomial.toMv`, `Polynomial.toMv`, `Term.toMv`: what a value stands for.
  * `Polynomial.Canonical`: distinct shapes and no zero coefficient.
  * `Polynomial.coefficient_eq`: the coefficients of a canonical polynomial are those of the
    ring element.
  * `Term.Denotes`: a term stands for a ring element and is canonical, which sums, products
    and powers preserve.
-/
import SamePoly.Proofs.ExactNumber
import SamePoly.Proofs.Reduced
import SamePoly.Proofs.Shape

namespace SamePoly

open MvPolynomial (monomial coeff totalDegree)

/-- A zero test that finds exactly the zero of a ring. -/
class LawfulZeroTest (K : Type) [Zero K] [ZeroTest K] : Prop where
  isZero_iff (x : K) : ZeroTest.isZero x = true ↔ x = 0

instance : LawfulZeroTest (Number ℚ) := ⟨fun _ => Number.isZero_iff⟩

variable {K : Type} [CommRing K]

/-! ## Ring elements -/

/-- An exponent of a shape is no greater than the sum of all of them. -/
theorem Shape.exponent_le_sum (s : Shape) (c : Char) :
    s.exponent c ≤ s.toFinsupp.sum fun _ e => e := by
  by_cases h : s.exponent c = 0
  · rw [h]
    exact Nat.zero_le _
  · exact Finset.single_le_sum (f := s.toFinsupp) (fun _ _ => Nat.zero_le _)
      (Finsupp.mem_support_iff.2 h)

namespace Monomial

/-- The ring element of a monomial. -/
noncomputable def toMv (m : Monomial K) : MvPolynomial Char K :=
  monomial m.shape.toFinsupp m.coefficient

theorem toMv_zero : (zero : Monomial K).toMv = 0 := MvPolynomial.monomial_zero

theorem toMv_constant (value : K) : (constant value).toMv = MvPolynomial.C value := by
  rw [toMv, constant, Shape.toFinsupp_one]
  rfl

theorem toMv_one : (one : Monomial K).toMv = 1 := by
  rw [one, toMv_constant, MvPolynomial.C_1]

theorem exponent_le_totalDegree {m : Monomial K} (h : m.coefficient ≠ 0) (c : Char) :
    m.shape.exponent c ≤ totalDegree m.toMv := by
  rw [toMv, MvPolynomial.totalDegree_monomial _ h]
  exact m.shape.exponent_le_sum c

end Monomial

namespace Polynomial

/-- The ring element of a list of monomials. -/
noncomputable def sumMv (ms : List (Monomial K)) : MvPolynomial Char K :=
  (ms.map Monomial.toMv).sum

/-- The ring element of a polynomial. -/
noncomputable def toMv (p : Polynomial K) : MvPolynomial Char K := sumMv p.monomials

@[simp] theorem sumMv_nil : sumMv ([] : List (Monomial K)) = 0 := rfl

@[simp] theorem sumMv_cons (m : Monomial K) (ms : List (Monomial K)) :
    sumMv (m :: ms) = m.toMv + sumMv ms := List.sum_cons

theorem sumMv_append (ms ns : List (Monomial K)) : sumMv (ms ++ ns) = sumMv ms + sumMv ns := by
  rw [sumMv, List.map_append, List.sum_append]
  rfl

/-- Distinct shapes, each with a coefficient that is not zero. -/
structure Canonical (p : Polynomial K) : Prop where
  distinct : (p.monomials.map Monomial.shape).Nodup
  nonzero : ∀ m ∈ p.monomials, m.coefficient ≠ 0

theorem Canonical.zero : (zero : Polynomial K).Canonical := ⟨List.nodup_nil, fun _ h => nomatch h⟩

theorem coeff_sumMv_of_notMem {ms : List (Monomial K)} {s : Shape}
    (h : s ∉ ms.map Monomial.shape) : coeff s.toFinsupp (sumMv ms) = 0 := by
  induction ms with
  | nil => exact MvPolynomial.coeff_zero _
  | cons m rest ih =>
    rw [List.map_cons, List.mem_cons, not_or] at h
    rw [sumMv_cons, MvPolynomial.coeff_add, ih h.2, add_zero, Monomial.toMv,
      MvPolynomial.coeff_monomial, if_neg fun he => h.1 (Shape.toFinsupp_injective he).symm]

theorem coeff_sumMv_of_mem {ms : List (Monomial K)} (distinct : (ms.map Monomial.shape).Nodup)
    {m : Monomial K} (hm : m ∈ ms) : coeff m.shape.toFinsupp (sumMv ms) = m.coefficient := by
  induction ms with
  | nil => cases hm
  | cons n rest ih =>
    rw [List.map_cons, List.nodup_cons] at distinct
    rw [sumMv_cons, MvPolynomial.coeff_add, Monomial.toMv, MvPolynomial.coeff_monomial]
    rcases List.mem_cons.1 hm with rfl | hm
    · rw [if_pos rfl, coeff_sumMv_of_notMem distinct.1, add_zero]
    · have differ : n.shape ≠ m.shape := fun he =>
        distinct.1 (he ▸ List.mem_map_of_mem hm)
      rw [if_neg fun he => differ (Shape.toFinsupp_injective he), zero_add]
      exact ih distinct.2 hm

/-- The coefficients of a canonical polynomial are those of its ring element. -/
theorem coefficient_eq {p : Polynomial K} (hp : p.Canonical) (s : Shape) :
    p.coefficient s = coeff s.toFinsupp p.toMv := by
  rw [coefficient, toMv]
  cases hf : p.find? s with
  | none =>
    refine (coeff_sumMv_of_notMem fun hs => ?_).symm
    obtain ⟨m, hm, same⟩ := List.mem_map.1 hs
    exact List.find?_eq_none.1 hf m hm (decide_eq_true same)
  | some m =>
    rw [find?] at hf
    have same := List.find?_some hf
    rw [decide_eq_true_eq] at same
    rw [← same]
    exact (coeff_sumMv_of_mem hp.distinct (List.mem_of_find?_eq_some hf)).symm

/-- No exponent of a canonical polynomial passes its total degree. -/
theorem exponent_le_totalDegree {p : Polynomial K} (hp : p.Canonical) {m : Monomial K}
    (hm : m ∈ p.monomials) (c : Char) : m.shape.exponent c ≤ totalDegree p.toMv := by
  have support : m.shape.toFinsupp ∈ p.toMv.support := by
    rw [MvPolynomial.mem_support_iff, toMv, coeff_sumMv_of_mem hp.distinct hm]
    exact hp.nonzero m hm
  exact (m.shape.exponent_le_sum c).trans (MvPolynomial.le_totalDegree support)

end Polynomial

namespace Term

/-- The ring element of a term. -/
noncomputable def toMv : Term K → MvPolynomial Char K
  | .monomial m => m.toMv
  | .polynomial p => p.toMv

/-- A term that stands for a ring element and whose polynomial is canonical. -/
def Denotes (t : Term K) (q : MvPolynomial Char K) : Prop :=
  t.toMv = q ∧ ∀ p, t = .polynomial p → p.Canonical

theorem Denotes.monomial {m : Monomial K} {q : MvPolynomial Char K} (h : m.toMv = q) :
    (Term.monomial m).Denotes q := ⟨h, fun _ he => nomatch he⟩

theorem Denotes.polynomial {p : Polynomial K} {q : MvPolynomial Char K} (hp : p.Canonical)
    (h : p.toMv = q) : (Term.polynomial p).Denotes q := by
  refine ⟨h, fun p' he => ?_⟩
  cases he
  exact hp

theorem Denotes.canonical {p : Polynomial K} {q : MvPolynomial Char K}
    (h : (Term.polynomial p).Denotes q) : p.Canonical := h.2 p rfl

theorem Denotes.constant (value : K) :
    (Term.monomial (.constant value)).Denotes (MvPolynomial.C value) :=
  .monomial (Monomial.toMv_constant value)

theorem Denotes.one : (one : Term K).Denotes 1 := .monomial Monomial.toMv_one

end Term

/-! ## Monomials -/

variable [ZeroTest K] [LawfulZeroTest K]

namespace Monomial

theorem isZero_iff {m : Monomial K} : m.isZero = true ↔ m.coefficient = 0 :=
  LawfulZeroTest.isZero_iff _

theorem toMv_of_isZero {m : Monomial K} (h : m.isZero = true) : m.toMv = 0 := by
  rw [toMv, isZero_iff.1 h, MvPolynomial.monomial_zero]

/-- Dropping the shape of a zero monomial does not change what it stands for. -/
theorem toMv_new (value : K) (s : Shape) : (new value s).toMv = monomial s.toFinsupp value := by
  by_cases h : value = 0
  · rw [toMv, new, h, MvPolynomial.monomial_zero, MvPolynomial.monomial_zero]
  · rw [toMv, new, if_neg (mt (LawfulZeroTest.isZero_iff value).1 h)]

/-- The product of two monomials is that of the ring unless an exponent grows too large. -/
theorem toMv_mul {m n : Monomial K}
    (h : m.coefficient ≠ 0 → n.coefficient ≠ 0 →
      ∀ c, m.shape.exponent c + n.shape.exponent c ≤ maxExponent) :
    (m.mul n).toMv = m.toMv * n.toMv := by
  rw [toMv.eq_def m, toMv.eq_def n, MvPolynomial.monomial_mul, mul]
  by_cases h0 : m.coefficient * n.coefficient = 0
  · rw [if_pos ((LawfulZeroTest.isZero_iff _).2 h0), h0, MvPolynomial.monomial_zero]
    exact toMv_zero
  · rw [if_neg (mt (LawfulZeroTest.isZero_iff _).1 h0), toMv_new,
      Shape.toFinsupp_mul (h (left_ne_zero_of_mul h0) (right_ne_zero_of_mul h0))]

end Monomial

/-! ## Sums and products of polynomials -/

namespace Polynomial

theorem sumMv_absorbInto (m : Monomial K) (ms : List (Monomial K)) :
    sumMv (absorbInto m ms) = sumMv ms + m.toMv := by
  induction ms with
  | nil =>
    rw [absorbInto]
    split
    · rename_i h
      rw [Monomial.toMv_of_isZero h, add_zero]
    · rw [sumMv_cons, sumMv_nil, zero_add, add_zero]
  | cons known rest ih =>
    rw [absorbInto]
    split
    · rename_i same
      have same : known.shape = m.shape := of_decide_eq_true same
      have merged : (Monomial.new (known.coefficient + m.coefficient) m.shape).toMv =
          known.toMv + m.toMv := by
        rw [Monomial.toMv_new, map_add, Monomial.toMv, Monomial.toMv, same]
      dsimp only
      split
      · rename_i h
        have cancel := Monomial.toMv_of_isZero h
        rw [merged] at cancel
        rw [sumMv_cons, add_right_comm, cancel, zero_add]
      · rw [sumMv_cons, sumMv_cons, merged, add_right_comm]
    · rw [sumMv_cons, sumMv_cons, ih, add_assoc]

theorem toMv_absorb (p : Polynomial K) (m : Monomial K) :
    (p.absorb m).toMv = p.toMv + m.toMv := sumMv_absorbInto m p.monomials

theorem Canonical.absorb {p : Polynomial K} (h : p.Canonical) (m : Monomial K) :
    (p.absorb m).Canonical := by
  refine ⟨distinct_absorbInto m h.distinct, fun n hn => ?_⟩
  rcases shape_of_mem_absorbInto hn with hn | ⟨-, nonzero⟩
  · exact h.nonzero n hn
  · exact mt Monomial.isZero_iff.2 (Bool.eq_false_iff.1 nonzero)

theorem foldl_absorb (ms : List (Monomial K)) {p : Polynomial K} (h : p.Canonical) :
    (ms.foldl absorb p).Canonical ∧ (ms.foldl absorb p).toMv = p.toMv + sumMv ms := by
  induction ms generalizing p with
  | nil => exact ⟨h, (add_zero _).symm⟩
  | cons m rest ih =>
    obtain ⟨canonical, meaning⟩ := ih (h.absorb m)
    refine ⟨canonical, ?_⟩
    rw [List.foldl_cons, meaning, toMv_absorb, sumMv_cons, add_assoc]

theorem Canonical.ofMonomials (ms : List (Monomial K)) : (ofMonomials ms).Canonical :=
  (foldl_absorb ms Canonical.zero).1

theorem toMv_ofMonomials (ms : List (Monomial K)) : (ofMonomials ms).toMv = sumMv ms :=
  (foldl_absorb ms Canonical.zero).2.trans (zero_add _)

theorem Canonical.ofMonomial (m : Monomial K) : (ofMonomial m).Canonical := Canonical.zero.absorb m

theorem toMv_ofMonomial (m : Monomial K) : (ofMonomial m).toMv = m.toMv :=
  (toMv_absorb zero m).trans (zero_add _)

section

variable {A : Type} [AddCommMonoid A]

omit [LawfulZeroTest K] in
/-- What an additive map makes of the products with a monomial, it makes of their sum. -/
theorem map_sumMv_map_mul (f : MvPolynomial Char K →+ A) {ms : List (Monomial K)} {m : Monomial K}
    (h : ∀ own ∈ ms, f (own.mul m).toMv = f (own.toMv * m.toMv)) :
    f (sumMv (ms.map fun own => own.mul m)) = f (sumMv ms * m.toMv) := by
  induction ms with
  | nil => exact congrArg f (zero_mul _).symm
  | cons own rest ih =>
    rw [List.map_cons, sumMv_cons, sumMv_cons, add_mul, map_add, map_add, h own List.mem_cons_self,
      ih fun k hk => h k (List.mem_cons_of_mem _ hk)]

omit [LawfulZeroTest K] in
theorem map_sumMv_flatMap_mul (f : MvPolynomial Char K →+ A) {ms ns : List (Monomial K)}
    (h : ∀ own ∈ ms, ∀ other ∈ ns, f (other.mul own).toMv = f (other.toMv * own.toMv)) :
    f (sumMv (ms.flatMap fun own => ns.map fun other => other.mul own)) =
      f (sumMv ms * sumMv ns) := by
  induction ms with
  | nil => exact congrArg f (zero_mul _).symm
  | cons own rest ih =>
    rw [List.flatMap_cons, sumMv_append, sumMv_cons, add_mul, map_add, map_add,
      map_sumMv_map_mul f (h own List.mem_cons_self), mul_comm own.toMv,
      ih fun k hk => h k (List.mem_cons_of_mem _ hk)]

end

omit [LawfulZeroTest K] in
theorem sumMv_map_mul {ms : List (Monomial K)} {m : Monomial K}
    (h : ∀ own ∈ ms, (own.mul m).toMv = own.toMv * m.toMv) :
    sumMv (ms.map fun own => own.mul m) = sumMv ms * m.toMv :=
  map_sumMv_map_mul (.id _) h

omit [LawfulZeroTest K] in
theorem sumMv_flatMap_mul {ms ns : List (Monomial K)}
    (h : ∀ own ∈ ms, ∀ other ∈ ns, (other.mul own).toMv = other.toMv * own.toMv) :
    sumMv (ms.flatMap fun own => ns.map fun other => other.mul own) = sumMv ms * sumMv ns :=
  map_sumMv_flatMap_mul (.id _) h

end Polynomial

/-! ## Terms -/

namespace Term

/-- The polynomial of a term is canonical and stands for the same ring element. -/
theorem Denotes.toPolynomial {t : Term K} {q : MvPolynomial Char K} (h : t.Denotes q) :
    t.toPolynomial.Canonical ∧ t.toPolynomial.toMv = q := by
  cases t with
  | monomial m => exact ⟨Polynomial.Canonical.ofMonomial m, (Polynomial.toMv_ofMonomial m).trans h.1⟩
  | polynomial p => exact ⟨h.canonical, h.1⟩

theorem Denotes.add {t u : Term K} {q r : MvPolynomial Char K} (ht : t.Denotes q)
    (hu : u.Denotes r) : (t.add u).Denotes (q + r) := by
  rw [← ht.1, ← hu.1]
  cases t with
  | monomial m =>
    cases u with
    | monomial n =>
      show (addMonomials m n).Denotes (m.toMv + n.toMv)
      rw [addMonomials]
      split
      · rename_i same
        have same : m.shape = n.shape := of_decide_eq_true same
        refine .monomial ?_
        rw [Monomial.toMv_new, map_add, Monomial.toMv, Monomial.toMv, same]
      · refine .polynomial ((Polynomial.Canonical.ofMonomial m).absorb n) ?_
        rw [Polynomial.toMv_absorb, Polynomial.toMv_ofMonomial]
    | polynomial p =>
      exact .polynomial (hu.canonical.absorb m) ((Polynomial.toMv_absorb p m).trans (add_comm _ _))
  | polynomial p =>
    cases u with
    | monomial n => exact .polynomial (ht.canonical.absorb n) (Polynomial.toMv_absorb p n)
    | polynomial q =>
      obtain ⟨canonical, meaning⟩ := Polynomial.foldl_absorb q.monomials ht.canonical
      exact .polynomial canonical meaning

/-- The product of two terms is that of the ring when the degrees add up to no more than an
    exponent can hold. -/
theorem Denotes.mul {t u : Term K} {q r : MvPolynomial Char K} (ht : t.Denotes q)
    (hu : u.Denotes r) (degree : totalDegree q + totalDegree r ≤ maxExponent) :
    (t.mul u).Denotes (q * r) := by
  rw [← ht.1, ← hu.1] at degree ⊢
  cases t with
  | monomial m =>
    cases u with
    | monomial n =>
      refine .monomial (Monomial.toMv_mul fun hm hn c => ?_)
      exact (Nat.add_le_add (Monomial.exponent_le_totalDegree hm c)
        (Monomial.exponent_le_totalDegree hn c)).trans degree
    | polynomial p =>
      refine .polynomial (Polynomial.Canonical.ofMonomials _) ?_
      rw [Polynomial.multiplyMonomial, Polynomial.toMv_ofMonomials, Polynomial.sumMv_map_mul, mul_comm]
      · rfl
      · intro own hown
        refine Monomial.toMv_mul fun _ hm c => ?_
        rw [add_comm]
        exact (Nat.add_le_add (Monomial.exponent_le_totalDegree hm c)
          (Polynomial.exponent_le_totalDegree hu.canonical hown c)).trans degree
  | polynomial p =>
    cases u with
    | monomial n =>
      refine .polynomial (Polynomial.Canonical.ofMonomials _) ?_
      rw [Polynomial.multiplyMonomial, Polynomial.toMv_ofMonomials, Polynomial.sumMv_map_mul]
      · rfl
      · intro own hown
        refine Monomial.toMv_mul fun _ hn c => ?_
        exact (Nat.add_le_add (Polynomial.exponent_le_totalDegree ht.canonical hown c)
          (Monomial.exponent_le_totalDegree hn c)).trans degree
    | polynomial r =>
      refine .polynomial (Polynomial.Canonical.ofMonomials _) ?_
      rw [Polynomial.multiply, Polynomial.toMv_ofMonomials, Polynomial.sumMv_flatMap_mul]
      · rfl
      · intro own hown other hother
        refine Monomial.toMv_mul fun _ _ c => ?_
        rw [add_comm]
        exact (Nat.add_le_add (Polynomial.exponent_le_totalDegree ht.canonical hown c)
          (Polynomial.exponent_le_totalDegree hu.canonical hother c)).trans degree

/-- What an optional power stands for: no power is the empty product. -/
def DenotesPower (power : Option (Term K)) (q : MvPolynomial Char K) : Prop :=
  match power with
  | none => q = 1
  | some t => t.Denotes q

theorem composeFrom_denotes {power : Option (Term K)} {square : Term K}
    {q r : MvPolynomial Char K} (n : ℕ) (hp : DenotesPower power q) (hs : square.Denotes r)
    {a b : ℕ} (ha : totalDegree q ≤ a) (hb : totalDegree r ≤ b) (degree : a + n * b ≤ maxExponent) :
    DenotesPower (composeFrom power square n) (q * r ^ n) := by
  induction n using Nat.strongRecOn generalizing power square q r a b with
  | ind n ih =>
    by_cases h0 : n = 0
    · rw [composeFrom.eq_def, if_pos h0, h0, pow_zero, mul_one]
      exact hp
    have parity : n = n % 2 + 2 * (n / 2) := (Nat.mod_add_div n 2).symm
    -- The factor taken now has the exponent of the last bit.
    obtain ⟨next, hnext, hd⟩ : ∃ next, DenotesPower next (q * r ^ (n % 2)) ∧
        composeFrom power square n =
          if n / 2 = 0 then next else composeFrom next (square.mul square) (n / 2) := by
      rw [composeFrom.eq_def, if_neg h0]
      rcases Nat.mod_two_eq_zero_or_one n with h | h
      · rw [h, pow_zero, mul_one]
        exact ⟨power, hp, rfl⟩
      · rw [h, pow_one]
        have room : a + b ≤ maxExponent := by
          refine le_trans ?_ degree
          exact Nat.add_le_add_left (Nat.le_mul_of_pos_left b (Nat.pos_of_ne_zero h0)) a
        cases power with
        | none =>
          have hq : q = 1 := hp
          rw [hq, one_mul]
          exact ⟨some square, hs, rfl⟩
        | some t => exact ⟨some (t.mul square), hp.mul hs ((Nat.add_le_add ha hb).trans room), rfl⟩
    rw [hd]
    by_cases half : n / 2 = 0
    · rw [if_pos half, show r ^ n = r ^ (n % 2) by rw [Nat.mod_eq_of_lt (by omega)]]
      exact hnext
    · rw [if_neg half]
      have bound : a + n % 2 * b + n / 2 * (b + b) ≤ maxExponent := by
        refine le_trans (le_of_eq ?_) degree
        conv => rhs; rw [parity]
        ring
      have double : b + b ≤ maxExponent :=
        (Nat.le_mul_of_pos_left _ (Nat.pos_of_ne_zero half)).trans (le_of_add_le_right bound)
      have power : q * r ^ n = q * r ^ (n % 2) * (r * r) ^ (n / 2) := by
        rw [← pow_two, ← pow_mul, mul_assoc, ← pow_add, ← parity]
      rw [power]
      refine ih (n / 2) (by omega) hnext (hs.mul hs ((Nat.add_le_add hb hb).trans double))
        ?_ ?_ bound
      · refine (MvPolynomial.totalDegree_mul _ _).trans (Nat.add_le_add ha ?_)
        exact (MvPolynomial.totalDegree_pow _ _).trans (Nat.mul_le_mul_left _ hb)
      · exact (MvPolynomial.totalDegree_mul _ _).trans (Nat.add_le_add hb hb)

/-- A power is that of the ring when its degree is no more than an exponent can hold. -/
theorem Denotes.compose {t : Term K} {q : MvPolynomial Char K} (ht : t.Denotes q) (n : ℕ)
    (degree : n * totalDegree q ≤ maxExponent) : (t.compose n).Denotes (q ^ n) := by
  have start : DenotesPower (none : Option (Term K)) 1 := rfl
  have power := composeFrom_denotes n start ht (le_of_eq MvPolynomial.totalDegree_one)
    le_rfl ((zero_add _).trans_le degree)
  rw [one_mul] at power
  rw [Term.compose]
  cases h : composeFrom none t n with
  | none =>
    rw [h] at power
    have hq : q ^ n = 1 := power
    rw [hq]
    exact .one
  | some u =>
    rw [h] at power
    exact power

end Term

end SamePoly
