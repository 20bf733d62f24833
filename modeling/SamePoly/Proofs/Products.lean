/-
  Products and powers of texts in brackets.

  Two accepted texts in brackets side by side stand for the product of their polynomials, and a text
  in brackets with an exponent for a power, but for one thing: an exponent of a variable that would
  pass the largest one stays there.

  * `Yields.unique`: a text yields one term.
  * `Formula.exists_parse_power`: a power of a formula is accepted whatever its degree is.
  * `parse_exponents`: **the exponents of a product or a power of monomials are the sums and products
    of exponents, or the largest exponent where these are larger**.
-/
import SamePoly.Proofs.Construction
import SamePoly.Proofs.Depth
import SamePoly.Proofs.Grouping
import SamePoly.Proofs.Saturation

namespace SamePoly

open MvPolynomial (monomial coeff)

/-! ## One term for each text -/

section Unique

variable {R : Type} [Scalar R]

/-- A text that yields one term only. -/
def Determines (text : List Char) (t : Term (Number R)) : Prop := ∀ u, Yields R text u → u = t

theorem YieldsAll.unique {texts : List (List Char)} {ts us : List (Term (Number R))}
    (h : List.Forall₂ Determines texts ts) (h' : YieldsAll R texts us) : us = ts := by
  induction h generalizing us with
  | nil =>
    cases h'
    rfl
  | cons only _ ih =>
    cases h' with
    | cons hu hus => rw [only _ hu, ih hus]

theorem YieldsPowers.unique {factors : Factors} {ts us : List (Term (Number R))}
    (h : List.Forall₂ (PowerBy Determines) factors ts) (h' : YieldsPowers R factors us) :
    us = ts := by
  induction h generalizing us with
  | nil =>
    cases h'
    rfl
  | cons power _ ih =>
    cases power with
    | numeric hx =>
      cases h' with
      | numeric hx' hus =>
        cases hx.symm.trans hx'
        rw [ih hus]
      | symbolic hx' _ _ => cases hx.symm.trans hx'
    | symbolic hx only =>
      cases h' with
      | numeric hx' _ => cases hx.symm.trans hx'
      | symbolic hx' hu hus =>
        cases hx.symm.trans hx'
        rw [only _ hu, ih hus]

/-- **A text yields one term.** -/
theorem Yields.unique {text : List Char} {t : Term (Number R)} (h : Yields R text t) :
    Determines text t := by
  refine Yields.induction ?_ ?_ ?_ h
  · intro text m hm compiled u h'
    cases h' with
    | monomial _ compiled' =>
      cases compiled.symm.trans compiled'
      rfl
    | sum hs _ =>
      rw [isSum_of_isMonomial hm] at hs
      cases hs
    | product hm' _ _ _ =>
      rw [hm] at hm'
      cases hm'
  · intro text terms hs hterms u h'
    cases h' with
    | monomial hm _ =>
      rw [isSum_of_isMonomial hm] at hs
      cases hs
    | sum _ hterms' => rw [YieldsAll.unique hterms hterms']
    | product _ hs' _ _ =>
      rw [hs] at hs'
      cases hs'
  · intro text powers t hm hs hpowers product u h'
    cases h' with
    | monomial hm' _ =>
      rw [hm] at hm'
      cases hm'
    | sum hs' _ =>
      rw [hs] at hs'
      cases hs'
    | product _ _ hpowers' product' =>
      rw [YieldsPowers.unique hpowers hpowers', product] at product'
      exact (Option.some.inj product').symm

theorem YieldsPowers.forall₂ {factors : Factors} {powers : List (Term (Number R))}
    (h : YieldsPowers R factors powers) : List.Forall₂ (PowerBy (Yields R)) factors powers := by
  cases h with
  | nil => exact .nil
  | numeric hx h => exact .cons (.numeric hx) h.forall₂
  | symbolic hx ht h => exact .cons (.symbolic hx ht) h.forall₂

/-- A product of several factors yields the product of their powers. -/
theorem Yields.exists_powers {text : List Char} {t : Term (Number R)} (h : Yields R text t)
    (hm : isMonomial text = false) (hs : isSum text = false) :
    ∃ powers, List.Forall₂ (PowerBy (Yields R)) (splitComposition text) powers ∧
      Term.product? powers = some t := by
  cases h with
  | monomial hm' _ =>
    rw [hm] at hm'
    cases hm'
  | sum hs' _ =>
    rw [hs] at hs'
    cases hs'
  | product _ _ hpowers product => exact ⟨_, hpowers.forall₂, product⟩

end Unique

/-! ## Single monomials -/

namespace Polynomial

/-- A polynomial with one shape is a monomial or zero. -/
theorem exists_monomial {K : Type} {p : Polynomial K} {s : Shape}
    (distinct : (p.monomials.map Monomial.shape).Nodup) (nonzero : p.isZero = false)
    (only : ∀ m ∈ p.monomials, m.shape = s) : ∃ m, p.monomials = [m] ∧ m.shape = s := by
  obtain ⟨ms⟩ := p
  cases ms with
  | nil => cases nonzero
  | cons m ms =>
    cases ms with
    | nil => exact ⟨m, rfl, only m List.mem_cons_self⟩
    | cons n ms =>
      have first := only m List.mem_cons_self
      have second := only n (List.mem_cons_of_mem _ List.mem_cons_self)
      have apart := (List.nodup_cons.1 distinct).1
      rw [List.map_cons, first, second] at apart
      exact absurd List.mem_cons_self apart

variable {K : Type} [CommRing K] {p : Polynomial K}

theorem isZero_eq_false (h : p.toMv ≠ 0) : p.isZero = false := by
  rw [← Bool.not_eq_true, isZero, List.isEmpty_iff]
  intro empty
  rw [toMv, empty] at h
  exact h sumMv_nil

theorem Canonical.toMv_ne_zero (h : p.Canonical) (nonzero : p.isZero = false) : p.toMv ≠ 0 := by
  intro meaning
  obtain ⟨m, hm⟩ := List.exists_mem_of_ne_nil p.monomials fun empty => by
    rw [isZero, empty] at nonzero
    cases nonzero
  have coefficient := coeff_sumMv_of_mem h.distinct hm
  rw [← toMv, meaning, MvPolynomial.coeff_zero] at coefficient
  exact h.nonzero m hm coefficient.symm

/-- A polynomial that stands for a monomial is one. -/
theorem Canonical.exists_monomial {d : Char →₀ ℕ} {c : K} (h : p.Canonical)
    (meaning : p.toMv = monomial d c) (hc : c ≠ 0) :
    ∃ m, p.monomials = [m] ∧ m.shape.toFinsupp = d := by
  have exponents : ∀ m ∈ p.monomials, m.shape.toFinsupp = d := by
    intro m hm
    by_contra other
    have coefficient := coeff_sumMv_of_mem h.distinct hm
    rw [← toMv, meaning, MvPolynomial.coeff_monomial, if_neg (Ne.symm other)] at coefficient
    exact h.nonzero m hm coefficient.symm
  have nonzero : p.isZero = false := isZero_eq_false fun zero =>
    hc (MvPolynomial.monomial_eq_zero.1 (meaning.symm.trans zero))
  obtain ⟨ms⟩ := p
  cases ms with
  | nil => cases nonzero
  | cons first ms =>
    obtain ⟨m, hm, -⟩ := Polynomial.exists_monomial h.distinct nonzero fun m hm =>
      Shape.toFinsupp_injective
        ((exponents m hm).trans (exponents first List.mem_cons_self).symm)
    exact ⟨m, hm, exponents m (hm ▸ List.mem_singleton_self m)⟩

end Polynomial

/-- In a text without variables there are no exponents. -/
theorem Shape.Over.eq_one {text : List Char} {s : Shape} (h : s.Over (Occurs text))
    (constant : hasVariable text = false) : s = .one := by
  refine Shape.ext (List.eq_nil_iff_forall_not_mem.2 fun x hx => ?_)
  obtain ⟨hc, isName⟩ := (h x hx).1
  rw [hasVariable, List.any_eq_false] at constant
  exact constant x.1 hc isName

/-- A term that stands for a monomial is one, with the exponents cut down. -/
theorem Term.StandsFor.exists_monomial {t : Term (Number ℚ)} {d : Char →₀ ℕ} {c : Number ℚ}
    (h : t.StandsFor (MvPolynomial.monomial d c)) (nonzero : t.toPolynomial.isZero = false) :
    ∃ m, t.toPolynomial.monomials = [m] ∧ ∀ v, m.shape.exponent v = min (d v) maxExponent := by
  obtain ⟨reduced, meaning⟩ := h.toPolynomial
  rw [saturate_monomial] at meaning
  have hc : c ≠ 0 := by
    rintro rfl
    rw [MvPolynomial.monomial_zero] at meaning
    exact reduced.canonical.toMv_ne_zero nonzero meaning
  obtain ⟨m, hm, exponents⟩ := reduced.canonical.exists_monomial meaning hc
  refine ⟨m, hm, fun v => ?_⟩
  rw [← Shape.toFinsupp_apply, exponents, Shape.saturated_apply]

/-! ## Groups as factors -/

/-- Normalized text is not changed before it is evaluated as a factor. -/
theorem WellFormed.prepareFactor_normalize {text : List Char} (h : WellFormed text)
    (nonblank : isBlankText text = false) (e : Exponent) :
    prepareFactor (normalize text) e = (normalize text, e) := by
  have linked := h.normalize_linked nonblank
  rw [prepareFactor.eq_def]
  split
  · rename_i same
    rw [same] at linked
    cases linked.2
  · rename_i same
    rw [same] at linked
    cases linked.2
  · rename_i same
    rw [same] at linked
    cases linked.1
  · rfl

/-- A base that is raised to a natural number is a number only if that is zero. -/
theorem eq_zero_of_symbolicFactor {text : List Char} {k : ℕ} {value : Number ℚ}
    (h : symbolicFactor text (.ofReal ((k : ℤ) : ℚ)) = .ok (.numeric value : Factor ℚ)) : k = 0 := by
  rw [symbolicFactor, Number.exponent?_intCast, if_neg (by omega)] at h
  dsimp only at h
  split at h
  · rename_i zero
    rw [Scalar.isZero_iff] at zero
    exact_mod_cast zero
  · split at h <;> cases h

/-- **A group whose polynomial is a monomial contributes a monomial**, whose exponents are those of
    the group, multiplied. -/
theorem exists_standsFor_of_group {text : List Char} {e : Exponent} {k : ℕ} {t power : Term (Number ℚ)}
    {m : Monomial (Number ℚ)} (h : PowerBy (Yields ℚ) (text, e) power) (he : e.Is k)
    (plain : prepareFactor text e = (text, e)) (ht : Yields ℚ text t)
    (hm : t.toPolynomial.monomials = [m]) :
    ∃ c, power.StandsFor (monomial (k • m.shape.toFinsupp) c) := by
  have reduced := ht.reduced
  have kind : m.shape.Over (Occurs text) :=
    reduced.toPolynomial.kind m (hm ▸ List.mem_singleton_self m)
  have bounded := reduced.mono fun m hm => Shape.bounded_iff_over.2 (hm.mono fun _ _ => trivial)
  cases h with
  | @numeric value hx =>
    refine ⟨value, ?_⟩
    have nothing : k • m.shape.toFinsupp = 0 := by
      rw [evaluateFactor_eq plain he] at hx
      split at hx
      · rw [eq_zero_of_symbolicFactor hx, zero_smul]
      · rename_i constant
        rw [kind.eq_one (Bool.eq_false_iff.2 constant), Shape.toFinsupp_one, smul_zero]
    rw [nothing]
    exact .constant value
  | @symbolic base exponent u hx hu =>
    obtain ⟨rfl, -, -, value, rounded, evaluated, integral, -, rfl⟩ := evaluateFactor_symbolic hx
    rw [plain] at hu evaluated
    obtain rfl := ht.unique u hu
    have exponent : (Scalar.toInt rounded).toNat = k := by
      rw [he.2] at evaluated
      cases evaluated
      rw [Number.exponent?_intCast, if_neg (by omega)] at integral
      cases integral
      rw [Scalar.toInt_intCast, Int.toNat_natCast]
    have meaning : u.toMv = monomial m.shape.toFinsupp m.coefficient := by
      rw [← Term.toMv_toPolynomial, Polynomial.toMv, hm, Polynomial.sumMv_cons,
        Polynomial.sumMv_nil, add_zero, Monomial.toMv]
    refine ⟨m.coefficient ^ k, ?_⟩
    rw [exponent, ← MvPolynomial.monomial_pow, ← meaning]
    exact (Term.StandsFor.self bounded).compose k

/-! ## Powers of formulas -/

/-- A power of a formula with variables is parsed whatever its degree is; exponents that are too
    large are cut down. -/
theorem Formula.exists_parse_power {f : Formula} {s : List Char} (spelled : f.Spelled s)
    (proper : f.Proper) (symbolic : f.isNumeric = false) (degree : f.degree ≤ maxExponent)
    {k : Numeral} (positive : k.value ≠ 0) (small : k.value ≤ maxExponent)
    (depth : nestingDepth (bracketed s ++ '^' :: bracketed k.digits) ≤ maxNestingDepth) :
    ∃ q, parse ℚ (bracketed s ++ '^' :: bracketed k.digits) = .ok q ∧ q.Canonical ∧
      q.toMv = saturate (f.denote ^ k.value) := by
  have raised := spelled.raised k
  have room := raised.nestingDepth.symm.trans_le depth
  rw [Formula.depth] at room
  have digits : Balanced k.digits := (Formula.atom (.decimal k none)).balanced_text
  obtain ⟨t, ht, denotes⟩ := compiles proper degree 1 (by omega)
  have stands : t.StandsFor f.denote := by
    rw [← denotes.1]
    exact .self ((yields_of_compileSum ht).reduced.mono fun m hm =>
      Shape.bounded_iff_over.2 (hm.mono fun _ _ => trivial))
  have compiled : compileSum ℚ (f.power k).text 0 = .ok (t.compose k.value) := by
    have letters := (f.power k).letterInside_text (by simp)
    have large : isMonomial (f.power k).text = false := by
      rw [isMonomial, letters, hasVariable_text, isNumeric, symbolic]
      rfl
    have factor : factorTerm ℚ (f.power k).text 0 (f.text, .literal (bracketed k.digits)) =
        .ok (t.compose k.value) := by
      rw [factorTerm, evaluateFactor_text symbolic (Exponent.is_numeral k) small, if_neg positive]
      dsimp only
      rw [baseTerm_eq (by decide), ht]
      rfl
    rw [compileSum_of_not_isSum (Nat.zero_le _) (isSum_power f k),
      compileProduct_eq (Nat.zero_le _) large (isSum_power f k),
      show splitComposition (f.power k).text = _ from
        splitComposition_power f.balanced_text digits f.text_ne.1,
      List.mapM_cons, factor]
    rfl
  obtain ⟨reduced, meaning⟩ := (stands.compose k.value).toPolynomial
  have finite : (t.compose k.value).toPolynomial.isFinite = true := List.all_eq_true.2 fun m _ => rfl
  refine ⟨_, parse_eq_ok_iff.2 ⟨raised.not_blank, raised.validate proper depth, ?_⟩,
    reduced.canonical, meaning⟩
  rw [compile, raised.normalize, compiled]
  show (if (t.compose k.value).toPolynomial.isFinite then _ else _) = _
  rw [finite, if_pos rfl]
  rfl

/-! ## Accepted texts in brackets -/

section Groups

variable {s t : List Char} {p q r : Polynomial (Number ℚ)} {m n : Monomial (Number ℚ)}

/-- What is known of an accepted text. -/
structure Accepted (text : List Char) (p : Polynomial (Number ℚ)) : Prop where
  wellFormed : WellFormed text
  nonblank : isBlankText text = false
  yields : ∃ t, Yields ℚ (normalize text) t ∧ t.toPolynomial = p

theorem accepted_of_parse {text : List Char} (h : parse ℚ text = .ok p) : Accepted text p := by
  obtain ⟨nonblank, valid, -⟩ := parse_eq_ok_iff.1 h
  obtain ⟨t, ht, rfl, -⟩ := exists_compileSum_of_parse h
  exact ⟨(wellFormed_of_validate valid).1, nonblank, t, yields_of_compileSum ht, rfl⟩

theorem Accepted.balanced {text : List Char} (h : Accepted text p) : Balanced (normalize text) :=
  (h.wellFormed.fit_normalize h.nonblank).layered.balanced

theorem Accepted.ne_nil {text : List Char} (h : Accepted text p) : normalize text ≠ [] :=
  (h.wellFormed.normalize_linked h.nonblank).ne_nil

/-- The monomials of a text without variables have no exponents. -/
theorem Accepted.exponent_eq_zero {text : List Char} (h : Accepted text p)
    (constant : hasVariable (normalize text) = false) (hm : m ∈ p.monomials) (v : Char) :
    m.shape.exponent v = 0 := by
  obtain ⟨t, ht, rfl⟩ := h.yields
  rw [(ht.reduced.toPolynomial.kind m hm).eq_one constant]
  exact Shape.exponent_one v

/-- A text without variables has a constant polynomial. -/
theorem Yields.exists_constant {text : List Char} {t : Term (Number ℚ)} (h : Yields ℚ text t)
    (constant : hasVariable text = false) (nonzero : t.toPolynomial.isZero = false) :
    ∃ m, t.toPolynomial.monomials = [m] ∧ ∀ v, m.shape.exponent v = 0 := by
  have reduced := h.reduced.toPolynomial
  obtain ⟨m, hm, shape⟩ := Polynomial.exists_monomial reduced.distinct nonzero fun m hm =>
    (reduced.kind m hm).eq_one constant
  refine ⟨m, hm, fun v => ?_⟩
  rw [shape]
  exact Shape.exponent_one v

/-- Without letters in brackets there is no variable in the first group. -/
theorem Balanced.constant_of_letterInside {inside rest : List Char} (h : Balanced inside)
    (none : letterInside 0 (SamePoly.bracketed inside ++ rest) = false) :
    hasVariable inside = false ∧ letterInside 0 rest = false := by
  rw [bracketed_append, h.letterInside_group, Bool.or_eq_false_iff] at none
  exact none.imp_left hasVariable_of_any_isLetter

/-- The exponents of a power. -/
theorem exponents_of_power (hp : parse ℚ t = .ok p) (hm : p.monomials = [m]) (k : Numeral)
    (hq : parse ℚ (bracketed t ++ '^' :: bracketed k.digits) = .ok q) (nonzero : q.isZero = false) :
    ∃ n, q.monomials = [n] ∧
      ∀ v, n.shape.exponent v = min (m.shape.exponent v * k.value) maxExponent := by
  have base := accepted_of_parse hp
  obtain ⟨power, hpower, rfl⟩ := (accepted_of_parse hq).yields
  have digits := Exponent.is_numeral k
  rw [base.wellFormed.normalize_power base.nonblank] at hpower
  cases letters : letterInside 0 (bracketed (normalize t) ++ '^' :: bracketed k.digits) with
  | false =>
    have constant := (base.balanced.constant_of_letterInside letters).1
    have whole : hasVariable (bracketed (normalize t) ++ '^' :: bracketed k.digits) = false := by
      rw [hasVariable_append, hasVariable_bracketed, constant]
      exact digits.1
    obtain ⟨n, hn, exponents⟩ := hpower.exists_constant whole nonzero
    refine ⟨n, hn, fun v => ?_⟩
    rw [exponents, base.exponent_eq_zero constant (hm ▸ List.mem_singleton_self m), zero_mul,
      Nat.zero_min]
  | true =>
    have large : isMonomial (bracketed (normalize t) ++ '^' :: bracketed k.digits) = false := by
      rw [isMonomial, letters]
      rfl
    have balanced : Balanced k.digits := (Formula.atom (.decimal k none)).balanced_text
    have single : isSum (bracketed (normalize t) ++ '^' :: bracketed k.digits) = false := by
      rw [bracketed_append, base.balanced.isSum_group]
      exact balanced.signOutside_group []
    obtain ⟨powers, hpowers, product⟩ := hpower.exists_powers large single
    rw [splitComposition_power base.balanced balanced base.ne_nil] at hpowers
    obtain ⟨u, us, hu, hus, rfl⟩ := List.forall₂_cons_left_iff.1 hpowers
    obtain rfl := List.forall₂_nil_left_iff.1 hus
    obtain rfl : u = power := Option.some.inj product
    obtain ⟨b, hb, rfl⟩ := base.yields
    obtain ⟨c, stands⟩ := exists_standsFor_of_group hu digits
      (base.wellFormed.prepareFactor_normalize base.nonblank _) hb hm
    obtain ⟨n, hn, exponents⟩ := stands.exists_monomial nonzero
    refine ⟨n, hn, fun v => ?_⟩
    rw [exponents, Finsupp.smul_apply, Shape.toFinsupp_apply, smul_eq_mul, mul_comm]

/-- The exponents of a product. -/
theorem exponents_of_product (hp : parse ℚ s = .ok p) (hm : p.monomials = [m])
    (hr : parse ℚ t = .ok r) (hn : r.monomials = [n])
    (hq : parse ℚ (bracketed s ++ bracketed t) = .ok q) (nonzero : q.isZero = false) :
    ∃ l, q.monomials = [l] ∧
      ∀ v, l.shape.exponent v = min (m.shape.exponent v + n.shape.exponent v) maxExponent := by
  have left := accepted_of_parse hp
  have right := accepted_of_parse hr
  obtain ⟨whole, hwhole, rfl⟩ := (accepted_of_parse hq).yields
  rw [left.wellFormed.normalize_groups right.wellFormed left.nonblank right.nonblank] at hwhole
  cases letters : letterInside 0 (bracketed (normalize s) ++ bracketed (normalize t)) with
  | false =>
    obtain ⟨constantLeft, behind⟩ := left.balanced.constant_of_letterInside letters
    rw [← List.append_nil (bracketed (normalize t))] at behind
    have constantRight := (right.balanced.constant_of_letterInside behind).1
    have constant : hasVariable (bracketed (normalize s) ++ bracketed (normalize t)) = false := by
      rw [hasVariable_append, hasVariable_bracketed, hasVariable_bracketed, constantLeft,
        constantRight]
      rfl
    obtain ⟨l, hl, exponents⟩ := hwhole.exists_constant constant nonzero
    refine ⟨l, hl, fun v => ?_⟩
    rw [exponents, left.exponent_eq_zero constantLeft (hm ▸ List.mem_singleton_self m),
      right.exponent_eq_zero constantRight (hn ▸ List.mem_singleton_self n), Nat.zero_min]
  | true =>
    have large : isMonomial (bracketed (normalize s) ++ bracketed (normalize t)) = false := by
      rw [isMonomial, letters]
      rfl
    have single : isSum (bracketed (normalize s) ++ bracketed (normalize t)) = false := by
      rw [bracketed_append, left.balanced.isSum_group]
      exact right.balanced.signOutside_group []
    obtain ⟨powers, hpowers, product⟩ := hwhole.exists_powers large single
    obtain ⟨b, hb, rfl⟩ := left.yields
    obtain ⟨b', hb', rfl⟩ := right.yields
    have plain := left.wellFormed.prepareFactor_normalize left.nonblank
    have plain' := right.wellFormed.prepareFactor_normalize right.nonblank
    obtain ⟨c, stands⟩ : ∃ c, whole.StandsFor
        (monomial (m.shape.toFinsupp + n.shape.toFinsupp) c) := by
      rw [splitComposition_product left.balanced right.balanced left.ne_nil] at hpowers
      by_cases same : normalize s = normalize t
      · -- Equal groups are one factor, whose exponent is two.
        rw [← same, push_same left.ne_nil] at hpowers
        obtain ⟨u, us, hu, hus, rfl⟩ := List.forall₂_cons_left_iff.1 hpowers
        obtain rfl := List.forall₂_nil_left_iff.1 hus
        obtain rfl : u = whole := Option.some.inj product
        have two : (Exponent.one.accumulate .one).Is ((2 : ℕ) : ℤ) :=
          Exponent.is_one.accumulate Exponent.is_one
        obtain rfl := hb.unique b' (same ▸ hb')
        obtain rfl : m = n := List.head_eq_of_cons_eq (hm.symm.trans hn)
        rw [← two_nsmul]
        exact exists_standsFor_of_group hu two (plain _) hb hm
      · rw [push_other right.ne_nil same] at hpowers
        obtain ⟨u, us, hu, hus, rfl⟩ := List.forall₂_cons_left_iff.1 hpowers
        obtain ⟨u', us', hu', hus', rfl⟩ := List.forall₂_cons_left_iff.1 hus
        obtain rfl := List.forall₂_nil_left_iff.1 hus'
        obtain rfl : u.mul u' = whole := Option.some.inj product
        have one : Exponent.one.Is ((1 : ℕ) : ℤ) := Exponent.is_one
        obtain ⟨c, stands⟩ := exists_standsFor_of_group hu one (plain _) hb hm
        obtain ⟨c', stands'⟩ := exists_standsFor_of_group hu' one (plain' _) hb' hn
        rw [one_nsmul] at stands stands'
        refine ⟨c * c', ?_⟩
        rw [← MvPolynomial.monomial_mul]
        exact stands.mul stands'
    obtain ⟨l, hl, exponents⟩ := stands.exists_monomial nonzero
    refine ⟨l, hl, fun v => ?_⟩
    rw [exponents, Finsupp.add_apply, Shape.toFinsupp_apply, Shape.toFinsupp_apply]

/-- **Exponents are exact up to the largest one, where they stay.**  In an accepted power or product
    of texts in brackets whose polynomials are monomials, the exponents of the variables are the
    products and the sums of those of the texts, or the largest exponent if that is less. -/
theorem parse_exponents (hp : parse ℚ s = .ok p) (hm : p.monomials = [m]) :
    (∀ (k : Numeral) q, parse ℚ (bracketed s ++ '^' :: bracketed k.digits) = .ok q →
      q.isZero = false → ∃ l, q.monomials = [l] ∧
        ∀ v, l.shape.exponent v = min (m.shape.exponent v * k.value) maxExponent) ∧
    ∀ t r n q, parse ℚ t = .ok r → r.monomials = [n] →
      parse ℚ (bracketed s ++ bracketed t) = .ok q → q.isZero = false → ∃ l, q.monomials = [l] ∧
        ∀ v, l.shape.exponent v = min (m.shape.exponent v + n.shape.exponent v) maxExponent :=
  ⟨fun k _ hq nonzero => exponents_of_power hp hm k hq nonzero,
    fun _ _ _ _ hr hn hq nonzero => exponents_of_product hp hm hr hn hq nonzero⟩

end Groups

/-- The largest exponent. -/
def Numeral.largest : Numeral where
  digits := ['4', '2', '9', '4', '9', '6', '7', '2', '9', '5']
  nonempty := List.cons_ne_nil _ _
  decimal := by simp

/-- The square of a variable, as a power and as a product. -/
theorem parse_exponents_square : ∃ p m q r l l', parse ℚ ['x'] = .ok p ∧ p.monomials = [m] ∧
    parse ℚ "(x)^(2)".toList = .ok q ∧ q.isZero = false ∧ q.monomials = [l] ∧
    parse ℚ "(x)(x)".toList = .ok r ∧ r.isZero = false ∧ r.monomials = [l'] ∧
    (∀ v, l.shape.exponent v = min (m.shape.exponent v * 2) maxExponent) ∧
    ∀ v, l'.shape.exponent v = min (m.shape.exponent v + m.shape.exponent v) maxExponent := by
  have nothing : Spaces [] := nofun
  have letter : (Formula.atom (.letter 'x' rfl)).Spelled ['x'] := .letter rfl
  have product : Formula.Spelled _ "(x)(x)".toList :=
    @Formula.Spelled.binary .product _ _ _ _ [] [] [] [] [] (by simp [Operation.spellings])
      letter letter nothing nothing nothing nothing
  obtain ⟨p, hp, canonical, meaning⟩ := letter.exists_parse trivial (by decide) (by decide)
  obtain ⟨q, hq, -, square⟩ := (letter.raised .two).exists_parse trivial (by decide) (by decide)
  obtain ⟨r, hr, -, square'⟩ := product.exists_parse ⟨trivial, trivial⟩ (by decide) (by decide)
  obtain ⟨m, hm, -⟩ := canonical.exists_monomial meaning one_ne_zero
  have name : (MvPolynomial.X 'x' : MvPolynomial Char (Number ℚ)) ≠ 0 := MvPolynomial.X_ne_zero 'x'
  have nonzero : q.isZero = false := by
    refine Polynomial.isZero_eq_false ?_
    rw [square]
    exact pow_ne_zero 2 name
  have nonzero' : r.isZero = false := by
    refine Polynomial.isZero_eq_false ?_
    rw [square']
    exact mul_ne_zero name name
  obtain ⟨powers, products⟩ := parse_exponents hp hm
  obtain ⟨l, hl, exponents⟩ := powers .two q hq nonzero
  obtain ⟨l', hl', exponents'⟩ := products ['x'] p m r hp hm hr nonzero'
  exact ⟨p, m, q, r, l, l', hp, hm, hq, nonzero, hl, hr, nonzero', hl', exponents, exponents'⟩

/-- The square of a power with the largest exponent is accepted, and has the same exponent. -/
theorem parse_largest_squared : ∃ p m q l, parse ℚ "(x)^(4294967295)".toList = .ok p ∧
    p.monomials = [m] ∧ m.shape.exponent 'x' = 4294967295 ∧
    parse ℚ "((x)^(4294967295))^(2)".toList = .ok q ∧ q.monomials = [l] ∧
    l.shape.exponent 'x' = 4294967295 := by
  have inner : (Formula.power (.atom (.letter 'x' rfl)) .largest).Spelled
      "(x)^(4294967295)".toList := (Formula.Spelled.letter rfl).raised .largest
  have power (n : ℕ) : (MvPolynomial.X 'x' : MvPolynomial Char (Number ℚ)) ^ n =
      monomial (Finsupp.single 'x' n) 1 := MvPolynomial.X_pow_eq_monomial
  obtain ⟨p, hp, canonical, meaning⟩ := inner.exists_parse trivial (by decide) (by decide)
  obtain ⟨q, hq, canonical', meaning'⟩ := Formula.exists_parse_power inner trivial rfl (by decide)
    (k := .two) (by decide) (by decide) (by decide)
  obtain ⟨m, hm, exponents⟩ := canonical.exists_monomial (meaning.trans (power _)) one_ne_zero
  have square : q.toMv = monomial (Shape.saturated (Finsupp.single 'x' (4294967295 * 2))) 1 := by
    rw [meaning', ← saturate_monomial, ← power]
    exact congrArg saturate (pow_mul _ _ _).symm
  obtain ⟨l, hl, exponents'⟩ := canonical'.exists_monomial square one_ne_zero
  refine ⟨p, m, q, l, hp, hm, ?_, hq, hl, ?_⟩
  · rw [← Shape.toFinsupp_apply, exponents, Finsupp.single_eq_same]
    rfl
  · rw [← Shape.toFinsupp_apply, exponents', Shape.saturated_apply, Finsupp.single_eq_same]
    rfl

end SamePoly
