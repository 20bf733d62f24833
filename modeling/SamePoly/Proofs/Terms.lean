/-
  Sums and products of terms as sums and products of polynomials.

  A term that is a single monomial takes shorter ways through sums and products.  They come to the
  same terms as the operations on polynomials, with little asked of scalars, because in a sum each
  shape is met once, and a product is made of the same products of monomials.

  * `NeutralZero`: what zero is to finite scalars, up to numerical equality.
  * `Term.coefficient_add`: the coefficients of a sum of terms.
  * `Term.toPolynomial_mul`: a product of terms is that of their polynomials, monomial by monomial.
  * `Term.sameTerms_toPolynomial`: **the shorter ways come to the same terms**.
-/
import SamePoly.Proofs.Saturation

namespace SamePoly

/-- Up to numerical equality, zero is neutral in a sum with a finite scalar and takes a finite
    scalar to zero.  Sums and products commute; nothing is asked of sums that grow too large. -/
structure NeutralZero {K : Type} [Zero K] [Add K] [Mul K] [ZeroTest K] (same : K → K → Prop)
    (finite : K → Prop) : Prop where
  equivalence : Equivalence same
  isZero_iff : ∀ c, ZeroTest.isZero c = true ↔ same c 0
  finite_zero : finite 0
  add_comm : ∀ a b : K, a + b = b + a
  mul_comm : ∀ a b : K, a * b = b * a
  add_zero : ∀ {c z}, finite c → ZeroTest.isZero z = true → same (c + z) c
  mul_zero : ∀ {c z}, finite c → ZeroTest.isZero z = true → ZeroTest.isZero (c * z) = true

variable {K : Type} [Zero K] [Add K] [Mul K] [ZeroTest K] {same : K → K → Prop}
variable {finite : K → Prop} {p q : Polynomial K} {m n : Monomial K} {s : Shape}

namespace NeutralZero

variable (laws : NeutralZero same finite)
include laws

theorem isZero_zero : ZeroTest.isZero (0 : K) = true :=
  (laws.isZero_iff 0).2 (laws.equivalence.refl 0)

theorem zero_add {c z : K} (hc : finite c) (hz : ZeroTest.isZero z = true) : same (z + c) c :=
  laws.add_comm c z ▸ laws.add_zero hc hz

theorem same_zero_add {c : K} (hc : finite c) : same c (0 + c) :=
  laws.equivalence.symm (laws.zero_add hc laws.isZero_zero)

theorem same_add_zero {c : K} (hc : finite c) : same c (c + 0) :=
  laws.equivalence.symm (laws.add_zero hc laws.isZero_zero)

end NeutralZero

/-! ## Sums -/

namespace Polynomial

omit [Zero K] [Mul K] in
theorem ofMonomial_of_isZero (h : m.isZero = true) : ofMonomial m = zero := by
  rw [ofMonomial, absorb, zero, absorbInto, if_pos h]

omit [Zero K] [Mul K] in
theorem ofMonomial_of_nonzero (h : ¬ m.isZero = true) : ofMonomial m = ⟨[m]⟩ := by
  rw [ofMonomial, absorb, zero, absorbInto, if_neg h]

omit [Zero K] [Mul K] in
/-- A zero monomial is not stored, so dropping its variables makes no difference. -/
theorem ofMonomial_new (c : K) (s : Shape) : ofMonomial (.new c s) = ofMonomial ⟨c, s⟩ := by
  by_cases h : ZeroTest.isZero c = true
  · rw [ofMonomial_of_isZero (m := .new c s) h, ofMonomial_of_isZero (m := ⟨c, s⟩) h]
  · rw [Monomial.new, if_neg h]

variable (laws : NeutralZero same finite)
include laws

theorem coefficient_ofMonomial (m : Monomial K) (s : Shape) :
    same ((ofMonomial m).coefficient s) (if m.shape = s then m.coefficient else 0) := by
  have equivalence := laws.equivalence
  by_cases h0 : m.isZero = true
  · rw [ofMonomial_of_isZero h0]
    split
    · exact equivalence.symm ((laws.isZero_iff _).1 h0)
    · exact equivalence.refl 0
  · rw [ofMonomial_of_nonzero h0, coefficient_cons]
    exact equivalence.refl _

theorem finite_coefficient {Q : Monomial K → Prop} (hQ : ∀ m, Q m → finite m.coefficient)
    (hp : p.Reduced Q) (s : Shape) : finite (p.coefficient s) := by
  by_cases hs : s ∈ p.monomials.map Monomial.shape
  · obtain ⟨m, hm, rfl⟩ := List.mem_map.1 hs
    rw [show p.coefficient m.shape = m.coefficient from coefficient_of_mem hp.distinct hm]
    exact hQ m (hp.kind m hm)
  · rw [show p.coefficient s = 0 from coefficient_of_notMem hs]
    exact laws.finite_zero

/-- One more monomial is a sum with the polynomial of that monomial. -/
theorem coefficient_absorb (hp : (p.monomials.map Monomial.shape).Nodup)
    (own : finite (p.coefficient s)) (hm : finite m.coefficient) :
    same ((p.absorb m).coefficient s) (p.coefficient s + (ofMonomial m).coefficient s) := by
  have equivalence := laws.equivalence
  by_cases h : m.shape = s
  · subst h
    have added := coefficient_absorbInto equivalence laws.isZero_iff (laws.same_zero_add hm) hp
    refine equivalence.trans added ?_
    by_cases h0 : m.isZero = true
    · rw [ofMonomial_of_isZero h0]
      exact equivalence.trans (laws.add_zero own h0) (laws.same_add_zero own)
    · rw [ofMonomial_of_nonzero h0, coefficient_cons, if_pos rfl]
      exact equivalence.refl _
  · have left : (p.absorb m).coefficient s = p.coefficient s :=
      coefficient_absorbInto_of_ne h p.monomials
    have right : (ofMonomial m).coefficient s = 0 := coefficient_absorbInto_of_ne h []
    rw [left, right]
    exact laws.same_add_zero own

end Polynomial

namespace Term

variable {t u : Term K}

section Sums

variable (laws : NeutralZero same finite)
include laws

/-- The sum of two monomials is the sum of their polynomials, also where it is a monomial or one
    of them is zero. -/
theorem coefficient_addMonomials (hn : finite n.coefficient) (s : Shape) :
    same ((addMonomials m n).toPolynomial.coefficient s)
      (((Polynomial.ofMonomial m).absorb n).coefficient s) := by
  have equivalence := laws.equivalence
  rw [addMonomials]
  split
  · rename_i alike
    have shape : m.shape = n.shape := of_decide_eq_true alike
    rw [toPolynomial, Polynomial.ofMonomial_new]
    by_cases h0 : m.isZero = true
    · rw [Polynomial.ofMonomial_of_isZero h0]
      have left := Polynomial.coefficient_ofMonomial laws ⟨m.coefficient + n.coefficient, m.shape⟩ s
      have right := equivalence.symm (Polynomial.coefficient_ofMonomial laws n s)
      refine equivalence.trans left (equivalence.trans ?_ right)
      rw [shape]
      split
      · exact laws.zero_add hn h0
      · exact equivalence.refl 0
    · rw [Polynomial.ofMonomial_of_nonzero h0, Polynomial.absorb, Polynomial.absorbInto,
        if_pos alike, ← Polynomial.ofMonomial_new, shape]
      exact equivalence.refl _
  · exact equivalence.refl _

/-- **The coefficients of a sum of terms are the sums of the coefficients.** -/
theorem coefficient_add {Q : Monomial K → Prop} (hQ : ∀ m, Q m → finite m.coefficient)
    (ht : t.Reduced Q) (hu : u.Reduced Q) (s : Shape) :
    same ((t.add u).toPolynomial.coefficient s)
      (t.toPolynomial.coefficient s + u.toPolynomial.coefficient s) := by
  have left := Polynomial.finite_coefficient laws hQ ht.toPolynomial s
  have right := Polynomial.finite_coefficient laws hQ hu.toPolynomial s
  match t, u, ht, hu with
  | .monomial m, .monomial n, hm, hn =>
    have sum := Polynomial.coefficient_absorb laws
      (Polynomial.Reduced.ofMonomial hm).distinct left (hQ n hn)
    exact laws.equivalence.trans (coefficient_addMonomials laws (hQ n hn) s) sum
  | .polynomial p, .monomial n, hp, hn =>
    exact Polynomial.coefficient_absorb laws hp.distinct left (hQ n hn)
  | .monomial m, .polynomial q, hm, hq =>
    have sum := Polynomial.coefficient_absorb laws hq.distinct right (hQ m hm)
    rwa [laws.add_comm] at sum
  | .polynomial p, .polynomial q, hp, hq =>
    exact Polynomial.coefficient_foldl_absorb laws.equivalence laws.isZero_iff
      (fun m hm => laws.same_zero_add (hQ m (hq.kind m hm))) hq.distinct hp.distinct
      (laws.same_add_zero left)

end Sums

end Term

/-! ## Products -/

section Products

variable (laws : NeutralZero same finite)
include laws

theorem Monomial.mul_of_isZero (hm : finite m.coefficient) (hn : n.isZero = true) :
    m.mul n = zero := by
  rw [mul, if_pos (laws.mul_zero hm hn)]

theorem Monomial.mul_comm (hm : m.shape.Bounded) (hn : n.shape.Bounded) : m.mul n = n.mul m := by
  rw [mul, mul, laws.mul_comm, hm.mul_comm hn]

namespace Polynomial

omit laws [Zero K] [Mul K] in
/-- Zero monomials come to nothing. -/
theorem ofMonomials_of_isZero {ms : List (Monomial K)} (h : ∀ m ∈ ms, m.isZero = true) :
    ofMonomials ms = zero := by
  induction ms with
  | nil => rfl
  | cons m ms ih =>
    obtain ⟨hm, hms⟩ := List.forall_mem_cons.1 h
    have nothing : zero.absorb m = zero := ofMonomial_of_isZero hm
    rw [ofMonomials, List.foldl_cons, nothing]
    exact ih hms

theorem multiplyMonomial_of_isZero (hp : ∀ own ∈ p.monomials, finite own.coefficient)
    (hm : m.isZero = true) : p.multiplyMonomial m = zero := by
  refine ofMonomials_of_isZero (List.forall_mem_map.2 fun own hown => ?_)
  rw [Monomial.mul_of_isZero laws (hp own hown) hm]
  exact laws.isZero_zero

/-- The product with a monomial is that with its polynomial. -/
theorem multiply_ofMonomial (hp : ∀ own ∈ p.monomials, finite own.coefficient ∧ own.shape.Bounded)
    (hm : m.shape.Bounded) : p.multiply (ofMonomial m) = p.multiplyMonomial m := by
  by_cases h0 : m.isZero = true
  · rw [multiplyMonomial_of_isZero laws (fun own hown => (hp own hown).1) h0,
      ofMonomial_of_isZero h0]
    refine ofMonomials_of_isZero fun product hproduct => ?_
    obtain ⟨own, -, hproduct⟩ := List.mem_flatMap.1 hproduct
    cases hproduct
  · rw [ofMonomial_of_nonzero h0, multiply, multiplyMonomial, List.map_eq_flatMap]
    refine congrArg ofMonomials (List.flatMap_congr fun own hown => ?_)
    rw [List.map_singleton, Monomial.mul_comm laws hm (hp own hown).2]

/-- A product is taken with the second factor in front, so no law is needed here but for zero. -/
theorem ofMonomial_multiply (hp : ∀ own ∈ p.monomials, finite own.coefficient) :
    (ofMonomial m).multiply p = p.multiplyMonomial m := by
  by_cases h0 : m.isZero = true
  · rw [multiplyMonomial_of_isZero laws hp h0, ofMonomial_of_isZero h0]
    rfl
  · rw [ofMonomial_of_nonzero h0, multiply, multiplyMonomial, List.flatMap_singleton]

theorem ofMonomial_mul (m : Monomial K) (hn : finite n.coefficient) :
    ofMonomial (m.mul n) = (ofMonomial m).multiplyMonomial n := by
  by_cases h0 : m.isZero = true
  · rw [ofMonomial_of_isZero h0]
    refine ofMonomial_of_isZero ?_
    rw [Monomial.mul, if_pos (laws.mul_comm _ _ ▸ laws.mul_zero hn h0)]
    exact laws.isZero_zero
  · rw [ofMonomial_of_nonzero h0]
    rfl

end Polynomial

/-- **A product of terms is the product of their polynomials**, monomial by monomial. -/
theorem Term.toPolynomial_mul {t u : Term K}
    (ht : t.Reduced fun m => finite m.coefficient ∧ m.shape.Bounded)
    (hu : u.Reduced fun m => finite m.coefficient ∧ m.shape.Bounded) :
    (t.mul u).toPolynomial = t.toPolynomial.multiply u.toPolynomial := by
  match t, u, ht, hu with
  | .monomial m, .monomial n, hm, hn =>
    have own := Reduced.toPolynomial (t := .monomial m) hm
    exact (Polynomial.ofMonomial_mul laws m hn.1).trans
      (Polynomial.multiply_ofMonomial laws own.kind hn.2).symm
  | .polynomial p, .monomial n, hp, hn =>
    exact (Polynomial.multiply_ofMonomial laws hp.kind hn.2).symm
  | .monomial m, .polynomial q, hm, hq =>
    exact (Polynomial.ofMonomial_multiply laws fun own hown => (hq.kind own hown).1).symm
  | .polynomial p, .polynomial q, hp, hq => rfl

end Products

/-! ## Both operations -/

namespace Term

/-- **The shorter ways through sums and products come to the same terms** as the operations on
    polynomials, for reduced terms with finite coefficients.  The results need not be finite. -/
theorem sameTerms_toPolynomial (laws : NeutralZero same finite) (t u : Term K)
    (ht : t.Reduced fun m => finite m.coefficient ∧ m.shape.Bounded)
    (hu : u.Reduced fun m => finite m.coefficient ∧ m.shape.Bounded) :
    Polynomial.SameTerms same (t.add u).toPolynomial (t.toPolynomial.add u.toPolynomial) ∧
      Polynomial.SameTerms same (t.mul u).toPolynomial
        (t.toPolynomial.multiply u.toPolynomial) := by
  have equivalence := laws.equivalence
  constructor
  · have closed : Monomial.Closed fun _ : Monomial K => True :=
      ⟨fun _ => trivial, fun _ _ => trivial, fun _ _ => trivial⟩
    have ht' : t.Reduced fun _ => True := ht.mono fun _ _ => trivial
    have hu' : u.Reduced fun _ => True := hu.mono fun _ _ => trivial
    refine .of_coefficient equivalence laws.isZero_iff (ht'.add closed hu').toPolynomial
      (ht'.toPolynomial.add closed hu'.toPolynomial) fun s => ?_
    have finite_of_kind {m : Monomial K} (hm : finite m.coefficient ∧ m.shape.Bounded) :
        finite m.coefficient := hm.1
    have short := coefficient_add laws (fun _ => finite_of_kind) ht hu s
    have long := coefficient_add laws (t := .polynomial t.toPolynomial)
      (u := .polynomial u.toPolynomial) (fun _ => finite_of_kind) ht.toPolynomial hu.toPolynomial s
    exact equivalence.trans short (equivalence.symm long)
  · rw [toPolynomial_mul laws ht hu]
    exact ⟨.refl _, fun s => equivalence.refl _⟩

/-- Fractions satisfy the laws, so `2x` may be added to `x - 1` and multiplied by it. -/
theorem sameTerms_toPolynomial_linear :
    let finite (c : Number ℚ) : Prop := c.isFinite = true
    let x : Shape := .ofList [('x', 1)]
    let t : Term (Number ℚ) := .monomial ⟨2, x⟩
    let u : Term (Number ℚ) := .polynomial ⟨[⟨1, x⟩, ⟨-1, .one⟩]⟩
    NeutralZero (· = ·) finite ∧
      (t.Reduced fun m => finite m.coefficient ∧ m.shape.Bounded) ∧
      (u.Reduced fun m => finite m.coefficient ∧ m.shape.Bounded) ∧
      Polynomial.SameTerms (· = ·) (t.add u).toPolynomial (t.toPolynomial.add u.toPolynomial) ∧
      Polynomial.SameTerms (· = ·) (t.mul u).toPolynomial
        (t.toPolynomial.multiply u.toPolynomial) := by
  intro finite x t u
  have laws : NeutralZero (· = ·) finite := {
    equivalence := eq_equivalence
    isZero_iff := LawfulZeroTest.isZero_iff
    finite_zero := rfl
    add_comm := add_comm
    mul_comm := mul_comm
    add_zero := fun _ hz => by rw [(LawfulZeroTest.isZero_iff _).1 hz, add_zero]
    mul_zero := fun _ hz => by
      rw [(LawfulZeroTest.isZero_iff _).1 hz, mul_zero, LawfulZeroTest.isZero_iff] }
  have linear : x.Bounded := Shape.bounded_iff_over.2 (Shape.over_ofList fun _ _ => trivial)
  have ht : t.Reduced fun m => finite m.coefficient ∧ m.shape.Bounded := ⟨rfl, linear⟩
  have hu : u.Reduced fun m => finite m.coefficient ∧ m.shape.Bounded := by
    refine ⟨by decide, by decide, List.forall_mem_cons.2 ⟨?_, List.forall_mem_singleton.2 ?_⟩⟩
    · exact ⟨rfl, linear⟩
    · exact ⟨rfl, Shape.bounded_iff_over.2 .one⟩
  exact ⟨laws, ht, hu, sameTerms_toPolynomial laws t u ht hu⟩

end Term

end SamePoly
