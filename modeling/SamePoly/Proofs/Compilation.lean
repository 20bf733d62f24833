/-
  From factors to products.

  A text that is no sum is compiled by way of its factors, each of which contributes a number
  or a power of a base.

  * `factorTerm`: the term of a factor.
  * `compileProduct_eq`: a product is compiled factor by factor.
  * `Contributes`, `IsNumber`, `Supplies`: what a factor stands for.
  * `exists_compileProduct`: the compiled product stands for the product of what the factors
    stand for.
  * `compileTerms_eq`: a sum is compiled term by term.
-/
import SamePoly.Compile
import SamePoly.Proofs.Decomposition
import SamePoly.Proofs.Meaning

namespace SamePoly

open MvPolynomial (totalDegree)

/-! ## One factor after another -/

/-- The term of a symbolic base raised to an exponent. -/
def baseTerm (R : Type) [Scalar R] (base : List Char) (exponent depth : ℕ) :
    Except PolyError (Term (Number R)) :=
  if isMonomial base then
    (compileMonomial R base).map fun m => (Term.monomial m).compose exponent
  else (compileSum R base (depth + 1)).map fun t => t.compose exponent

/-- What a factor contributes to the product of a text. -/
def factorTerm (R : Type) [Scalar R] (text : List Char) (depth : ℕ) (x : List Char × Exponent) :
    Except PolyError (Term (Number R)) :=
  match (evaluateFactor x.1 x.2 : Except FactorFault (Factor R)) with
  | .error fault => .error (.factor (.lexeme text) fault)
  | .ok (.numeric value) => .ok (.monomial (.constant value))
  | .ok (.symbolic base exponent) => baseTerm R base exponent depth

theorem compileProduct_of_isMonomial {R : Type} [Scalar R] {text : List Char} {depth : ℕ}
    (hd : depth ≤ maxNestingDepth) (h : isMonomial text = true) :
    compileProduct R text depth = (compileMonomial R text).map .monomial := by
  rw [compileProduct, dif_neg (not_lt.2 hd), if_pos h]

theorem compileProduct_eq {R : Type} [Scalar R] {text : List Char} {depth : ℕ}
    (hd : depth ≤ maxNestingDepth) (hm : isMonomial text = false) (hs : isSum text = false) :
    compileProduct R text depth = ((splitComposition text).mapM (factorTerm R text depth)).bind
      fun factors => match Term.product? factors with
        | some product => .ok product
        | none => .error (.noFactor text) := by
  rw [compileProduct, dif_neg (not_lt.2 hd), hm, if_neg Bool.false_ne_true, hs,
    if_neg Bool.false_ne_true]
  rfl

theorem compileSum_of_not_isSum {R : Type} [Scalar R] {text : List Char} {depth : ℕ}
    (hd : depth ≤ maxNestingDepth) (hs : isSum text = false) :
    compileSum R text depth = compileProduct R text depth := by
  rw [compileSum, if_neg (not_lt.2 hd), hs, if_neg Bool.false_ne_true]

theorem isSum_of_isMonomial {text : List Char} (h : isMonomial text = true) :
    isSum text = false := by
  rw [isMonomial, Bool.and_eq_true, Bool.not_eq_true', Bool.not_eq_true'] at h
  exact h.2

/-- A base is compiled one level deeper. -/
theorem baseTerm_eq {R : Type} [Scalar R] {base : List Char} {exponent depth : ℕ}
    (hd : depth + 1 ≤ maxNestingDepth) :
    baseTerm R base exponent depth =
      (compileSum R base (depth + 1)).map fun t => t.compose exponent := by
  rw [baseTerm]
  by_cases h : isMonomial base = true
  · rw [if_pos h, compileSum_of_not_isSum hd (isSum_of_isMonomial h),
      compileProduct_of_isMonomial hd h]
    cases compileMonomial R base <;> rfl
  · rw [if_neg h]

/-- A factor contributes a term that stands for a ring element, whatever text it is from. -/
def Contributes (depth : ℕ) (x : List Char × Exponent) (q : MvPolynomial Char (Number ℚ)) : Prop :=
  ∃ term, (∀ text, factorTerm ℚ text depth x = .ok term) ∧ term.Denotes q

/-- A factor is a number. -/
def IsNumber (x : List Char × Exponent) (z : Number ℚ) : Prop :=
  (evaluateFactor x.1 x.2 : Except FactorFault (Factor ℚ)) = .ok (.numeric z)

/-- A factor whose exponent has an integer value is a power of its base. -/
theorem evaluateFactor_eq {factor base : List Char} {e e' : Exponent} {k : ℤ}
    (hbase : prepareFactor factor e = (base, e')) (he : e'.Is k) :
    (evaluateFactor factor e : Except FactorFault (Factor ℚ)) =
      if hasVariable base then symbolicFactor base (.ofReal (k : ℚ))
      else numericFactor base (.ofReal (k : ℚ)) := by
  rw [evaluateFactor, hbase]
  dsimp only
  rw [he.1, if_neg Bool.false_ne_true, he.2]

theorem IsNumber.contributes {x : List Char × Exponent} {z : Number ℚ} (h : IsNumber x z)
    (depth : ℕ) : Contributes depth x (MvPolynomial.C z) := by
  refine ⟨.monomial (.constant z), fun text => ?_, .constant z⟩
  rw [IsNumber] at h
  rw [factorTerm, h]

/-- The product of a number. -/
theorem foldlM_multiplyFactor {text : List Char} {fs : Factors} {zs : List (Number ℚ)}
    (h : List.Forall₂ IsNumber fs zs) (z : Number ℚ) (s : Shape) :
    fs.foldlM (multiplyFactor ℚ text) (z, s) = .ok (z * zs.prod, s) := by
  induction h generalizing z with
  | nil => rw [List.prod_nil, mul_one]; rfl
  | @cons x w fs zs hx _ ih =>
    rw [IsNumber] at hx
    have step : multiplyFactor ℚ text (z, s) x = .ok (z * w, s) := by rw [multiplyFactor, hx]
    rw [List.foldlM_cons, step, List.prod_cons, ← mul_assoc]
    exact ih (z * w)

theorem wrapVariables_eq_self {text : List Char} (h : hasVariable text = false) :
    wrapVariables text = text := by
  induction text with
  | nil => rfl
  | cons c text ih =>
    rw [hasVariable, List.any_cons, Bool.or_eq_false_iff] at h
    rw [wrapVariables, List.flatMap_cons, h.1, if_neg Bool.false_ne_true, ← wrapVariables, ih h.2]
    rfl

/-- A text without variables whose factors are numbers is their product. -/
theorem compileMonomial_of_isNumber {text : List Char} {zs : List (Number ℚ)}
    (hv : hasVariable text = false) (h : List.Forall₂ IsNumber (splitComposition text) zs) :
    compileMonomial ℚ text = .ok (.new zs.prod .one) := by
  rw [compileMonomial, wrapVariables_eq_self hv, foldlM_multiplyFactor h, one_mul]

/-- What a factor of a text stands for: in a text without variables it is a number. -/
def Supplies (depth : ℕ) (symbolic : Bool) (x : List Char × Exponent)
    (q : MvPolynomial Char (Number ℚ)) : Prop :=
  if symbolic then Contributes depth x q else ∃ z, IsNumber x z ∧ q = MvPolynomial.C z

theorem IsNumber.supplies {x : List Char × Exponent} {z : Number ℚ} (h : IsNumber x z)
    (depth : ℕ) (symbolic : Bool) : Supplies depth symbolic x (MvPolynomial.C z) := by
  cases symbolic with
  | true => exact h.contributes depth
  | false => exact ⟨z, h, rfl⟩

/-- The factors of a text without variables are numbers. -/
theorem Supplies.exists_isNumber {depth : ℕ} {fs : Factors}
    {qs : List (MvPolynomial Char (Number ℚ))} (h : List.Forall₂ (Supplies depth false) fs qs) :
    ∃ zs, List.Forall₂ IsNumber fs zs ∧ qs = zs.map MvPolynomial.C := by
  induction h with
  | nil => exact ⟨[], .nil, rfl⟩
  | @cons x q fs qs hx _ ih =>
    obtain ⟨z, hz, rfl⟩ := hx
    obtain ⟨zs, hzs, rfl⟩ := ih
    exact ⟨z :: zs, .cons hz hzs, rfl⟩

/-- The factors of a text with variables are terms. -/
theorem Supplies.mapM {depth : ℕ} (text : List Char) {fs : Factors}
    {qs : List (MvPolynomial Char (Number ℚ))} (h : List.Forall₂ (Supplies depth true) fs qs) :
    ∃ terms, fs.mapM (factorTerm ℚ text depth) = .ok terms ∧
      List.Forall₂ Term.Denotes terms qs := by
  induction h with
  | nil => exact ⟨[], rfl, .nil⟩
  | @cons x q fs qs hx _ ih =>
    obtain ⟨term, hterm, hdenotes⟩ := hx
    obtain ⟨terms, hterms, hall⟩ := ih
    refine ⟨term :: terms, ?_, .cons hdenotes hall⟩
    rw [List.mapM_cons, hterm text, hterms]
    rfl

theorem foldl_mul_denotes {terms : List (Term (Number ℚ))}
    {qs : List (MvPolynomial Char (Number ℚ))} (h : List.Forall₂ Term.Denotes terms qs)
    {t : Term (Number ℚ)} {q : MvPolynomial Char (Number ℚ)} (ht : t.Denotes q)
    (degree : totalDegree q + (qs.map totalDegree).sum ≤ maxExponent) :
    (terms.foldl Term.mul t).Denotes (q * qs.prod) := by
  induction h generalizing t q with
  | nil => rw [List.prod_nil, mul_one]; exact ht
  | @cons u r terms qs hu _ ih =>
    rw [List.map_cons, List.sum_cons] at degree
    rw [List.prod_cons, ← mul_assoc, List.foldl_cons]
    refine ih (ht.mul hu (by omega)) ?_
    have := MvPolynomial.totalDegree_mul q r
    omega

/-- **A text that is no sum is compiled to the product of what its factors stand for.** -/
theorem exists_compileProduct {text : List Char} {depth : ℕ} (hd : depth ≤ maxNestingDepth)
    (hs : isSum text = false) (hl : letterInside 0 text = hasVariable text)
    {qs : List (MvPolynomial Char (Number ℚ))} (hne : qs ≠ [])
    (h : List.Forall₂ (Supplies depth (hasVariable text)) (splitComposition text) qs)
    (degree : (qs.map totalDegree).sum ≤ maxExponent) :
    ∃ term, compileProduct ℚ text depth = .ok term ∧ term.Denotes qs.prod := by
  cases hv : hasVariable text with
  | false =>
    have hm : isMonomial text = true := by
      rw [isMonomial, hl, hv, hs]
      rfl
    rw [hv] at h
    obtain ⟨zs, hzs, rfl⟩ := Supplies.exists_isNumber h
    refine ⟨.monomial (.new zs.prod .one), ?_, .monomial ?_⟩
    · rw [compileProduct_of_isMonomial hd hm, compileMonomial_of_isNumber hv hzs]
      rfl
    · rw [Monomial.toMv_new, Shape.toFinsupp_one]
      exact map_list_prod MvPolynomial.C zs
  | true =>
    have hm : isMonomial text = false := by
      rw [isMonomial, hl, hv]
      rfl
    rw [hv] at h
    obtain ⟨terms, hterms, hdenotes⟩ := Supplies.mapM text h
    rw [compileProduct_eq hd hm hs, hterms]
    cases hdenotes with
    | nil => exact absurd rfl hne
    | @cons t q terms qs ht hrest =>
      refine ⟨terms.foldl Term.mul t, rfl, ?_⟩
      rw [List.map_cons, List.sum_cons] at degree
      rw [List.prod_cons]
      exact foldl_mul_denotes hrest ht degree

/-! ## Sums -/

theorem mapM_congr {α β ε : Type} {f g : α → Except ε β} {xs : List α}
    (h : ∀ x ∈ xs, f x = g x) : xs.mapM f = xs.mapM g := by
  induction xs with
  | nil => rfl
  | cons x xs ih =>
    rw [List.mapM_cons, List.mapM_cons, h x List.mem_cons_self,
      ih fun y hy => h y (List.mem_cons_of_mem _ hy)]

/-- The terms of a sum are compiled like products. -/
theorem compileTerms_eq {R : Type} [Scalar R] {text : List Char} {depth : ℕ}
    (hd : depth ≤ maxNestingDepth) (shorter : ∀ term ∈ splitSum text, term.length < text.length) :
    compileTerms R text depth =
      ((splitSum text).mapM fun term => compileProduct R term depth).map fun terms =>
        (Term.sum? terms).getD (.monomial .zero) := by
  have terms : ((splitSum text).mapM fun term =>
      if isMonomial term then (compileMonomial R term).map .monomial
      else if _h : term.length < text.length then compileProduct R term depth
      else .error .endless) = (splitSum text).mapM fun term => compileProduct R term depth := by
    refine mapM_congr fun term hterm => ?_
    by_cases hm : isMonomial term = true
    · rw [if_pos hm, compileProduct_of_isMonomial hd hm]
    · rw [if_neg hm, dif_pos (shorter term hterm)]
  rw [compileTerms, terms]
  cases (splitSum text).mapM fun term => compileProduct R term depth <;> rfl

theorem compileSum_of_isSum {R : Type} [Scalar R] {text : List Char} {depth : ℕ}
    (hd : depth ≤ maxNestingDepth) (hs : isSum text = true) :
    compileSum R text depth = compileTerms R text depth := by
  rw [compileSum, if_neg (not_lt.2 hd), hs, if_pos rfl]

end SamePoly
