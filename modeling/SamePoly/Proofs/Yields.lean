/-
  What a text is compiled to.

  The compiled term of a text is described by the terms of its parts, without the depth that
  only stops the compiler.

  * `Yields`, `YieldsAll`, `YieldsPowers`: the terms of a text, of the terms of a sum, and of the
    factors of a product.
  * `yields_of_compileSum`: **a compiled text yields its term**.
-/
import SamePoly.Proofs.Compilation

namespace SamePoly

section Relation

variable (R : Type) [Scalar R]

mutual

/-- The term of a text: that of a monomial, the sum of the terms of a sum, or the product of the
    powers of its factors. -/
inductive Yields : List Char → Term (Number R) → Prop
  | monomial {text : List Char} {m : Monomial (Number R)} :
      isMonomial text = true → compileMonomial R text = .ok m → Yields text (.monomial m)
  | sum {text : List Char} {terms : List (Term (Number R))} :
      isSum text = true → YieldsAll (splitSum text) terms →
      Yields text ((Term.sum? terms).getD (.monomial .zero))
  | product {text : List Char} {powers : List (Term (Number R))} {t : Term (Number R)} :
      isMonomial text = false → isSum text = false → YieldsPowers (splitComposition text) powers →
      Term.product? powers = some t → Yields text t

/-- The terms of several texts. -/
inductive YieldsAll : List (List Char) → List (Term (Number R)) → Prop
  | nil : YieldsAll [] []
  | cons {text : List Char} {texts : List (List Char)} {t : Term (Number R)}
      {terms : List (Term (Number R))} :
      Yields text t → YieldsAll texts terms → YieldsAll (text :: texts) (t :: terms)

/-- The terms of factors: numbers, and powers of the terms of symbolic bases. -/
inductive YieldsPowers : Factors → List (Term (Number R)) → Prop
  | nil : YieldsPowers [] []
  | numeric {x : List Char × Exponent} {factors : Factors} {value : Number R}
      {powers : List (Term (Number R))} :
      evaluateFactor x.1 x.2 = .ok (Factor.numeric value) → YieldsPowers factors powers →
      YieldsPowers (x :: factors) (.monomial (.constant value) :: powers)
  | symbolic {x : List Char × Exponent} {factors : Factors} {base : List Char} {exponent : Nat}
      {t : Term (Number R)} {powers : List (Term (Number R))} :
      evaluateFactor x.1 x.2 = .ok (Factor.symbolic base exponent : Factor R) → Yields base t →
      YieldsPowers factors powers → YieldsPowers (x :: factors) (t.compose exponent :: powers)

end

end Relation

variable {R : Type} [Scalar R]

/-- The power that a factor contributes, the terms of bases being given by `P`. -/
inductive PowerBy (P : List Char → Term (Number R) → Prop) :
    List Char × Exponent → Term (Number R) → Prop
  | numeric {x : List Char × Exponent} {value : Number R} :
      evaluateFactor x.1 x.2 = .ok (Factor.numeric value) → PowerBy P x (.monomial (.constant value))
  | symbolic {x : List Char × Exponent} {base : List Char} {exponent : Nat} {t : Term (Number R)} :
      evaluateFactor x.1 x.2 = .ok (Factor.symbolic base exponent : Factor R) → P base t →
      PowerBy P x (t.compose exponent)

/-- What holds of monomials, and of sums and products if it holds of their parts, holds of every
    compiled text. -/
theorem Yields.induction {P : List Char → Term (Number R) → Prop}
    (monomial : ∀ text m, isMonomial text = true → compileMonomial R text = .ok m →
      P text (.monomial m))
    (sum : ∀ text terms, isSum text = true → List.Forall₂ P (splitSum text) terms →
      P text ((Term.sum? terms).getD (.monomial .zero)))
    (product : ∀ text powers t, isMonomial text = false → isSum text = false →
      List.Forall₂ (PowerBy P) (splitComposition text) powers → Term.product? powers = some t →
      P text t)
    {text : List Char} {t : Term (Number R)} (h : Yields R text t) : P text t :=
  @Yields.rec R _ (fun text t _ => P text t) (fun texts terms _ => List.Forall₂ P texts terms)
    (fun factors powers _ => List.Forall₂ (PowerBy P) factors powers)
    (fun hm hc => monomial _ _ hm hc) (fun hs _ ih => sum _ _ hs ih)
    (fun hm hs _ hp ih => product _ _ _ hm hs ih hp) .nil (fun _ _ ht ih => .cons ht ih) .nil
    (fun hx _ ih => .cons (.numeric hx) ih) (fun hx _ _ ht ih => .cons (.symbolic hx ht) ih) text t h

theorem YieldsAll.of_forall₂ {texts : List (List Char)} {terms : List (Term (Number R))}
    (h : List.Forall₂ (Yields R) texts terms) : YieldsAll R texts terms := by
  induction h with
  | nil => exact .nil
  | cons ht _ ih => exact .cons ht ih

theorem YieldsPowers.of_forall₂ {factors : Factors} {powers : List (Term (Number R))}
    (h : List.Forall₂ (PowerBy (Yields R)) factors powers) : YieldsPowers R factors powers := by
  induction h with
  | nil => exact .nil
  | cons hx _ ih =>
    cases hx with
    | numeric hx => exact .numeric hx ih
    | symbolic hx ht => exact .symbolic hx ht ih

/-! ## Factors -/

/-- A symbolic base raised to a power has an integer exponent other than zero. -/
theorem symbolicFactor_spec {text base : List Char} {value : Number R} {n : ℕ}
    (h : symbolicFactor text value = .ok (Factor.symbolic base n : Factor R)) :
    base = text ∧ ∃ rounded, value.exponent? = .ok rounded ∧ Scalar.isZero rounded = false ∧
      n = (Scalar.toInt rounded).toNat := by
  rw [symbolicFactor] at h
  split at h
  · cases h
  · rename_i rounded integral
    split at h
    · cases h
    · rename_i nonzero
      split at h
      · cases h
      · cases h
        exact ⟨rfl, rounded, integral, Bool.eq_false_iff.2 nonzero, rfl⟩

theorem numericFactor_ne_symbolic {text base : List Char} {value : Number R} {n : ℕ} :
    numericFactor text value ≠ .ok (Factor.symbolic base n : Factor R) := by
  rw [numericFactor]
  intro h
  split at h
  · cases h
  · cases h
  · split at h
    · cases h
    · split at h <;> cases h

/-- A factor that contributes a power of a base has a variable in the base, and an exponent
    without variables whose value is an integer other than zero. -/
theorem evaluateFactor_symbolic {factor base : List Char} {e : Exponent} {n : ℕ}
    (h : evaluateFactor factor e = .ok (Factor.symbolic base n : Factor R)) :
    base = (prepareFactor factor e).1 ∧ hasVariable base = true ∧
      (prepareFactor factor e).2.hasVariable = false ∧
      ∃ value rounded : _, (prepareFactor factor e).2.evaluate = .ok (value : Number R) ∧
        value.exponent? = .ok rounded ∧ Scalar.isZero rounded = false ∧
        n = (Scalar.toInt rounded).toNat := by
  rw [evaluateFactor] at h
  dsimp only at h
  split at h
  · cases h
  · rename_i plain
    split at h
    · cases h
    · rename_i value hvalue
      split at h
      · rename_i symbolic
        obtain ⟨rfl, rounded, integral, nonzero, rfl⟩ := symbolicFactor_spec h
        exact ⟨rfl, symbolic, Bool.eq_false_iff.2 plain, value, rounded, hvalue, integral, nonzero,
          rfl⟩
      · exact absurd h numericFactor_ne_symbolic

/-! ## The compiler -/

theorem forall₂_of_mapM {α β ε : Type} {f : α → Except ε β} {xs : List α} {ys : List β}
    (h : xs.mapM f = .ok ys) : List.Forall₂ (fun x y => f x = .ok y) xs ys := by
  induction xs generalizing ys with
  | nil => cases h; exact .nil
  | cons x xs ih =>
    rw [List.mapM_cons] at h
    cases hx : f x with
    | error e => rw [hx] at h; cases h
    | ok y =>
      rw [hx] at h
      cases hxs : xs.mapM f with
      | error e => rw [hxs] at h; cases h
      | ok zs =>
        rw [hxs] at h
        cases h
        exact .cons hx (ih hxs)

theorem mapM_of_forall₂ {α β ε : Type} {f : α → Except ε β} {xs : List α} {ys : List β}
    (h : List.Forall₂ (fun x y => f x = .ok y) xs ys) : xs.mapM f = .ok ys := by
  induction h with
  | nil => rfl
  | cons hx _ ih =>
    rw [List.mapM_cons, hx, ih]
    rfl

/-- Everything on the right of a pointwise relation is related to something on the left. -/
theorem exists_of_forall₂ {α β : Type} {r : α → β → Prop} {xs : List α} {ys : List β}
    (h : List.Forall₂ r xs ys) {y : β} (hy : y ∈ ys) : ∃ x ∈ xs, r x y := by
  induction h with
  | nil => cases hy
  | cons hxy _ ih =>
    rcases List.mem_cons.1 hy with rfl | hy
    · exact ⟨_, List.mem_cons_self, hxy⟩
    · obtain ⟨x, hx, hr⟩ := ih hy
      exact ⟨x, List.mem_cons_of_mem _ hx, hr⟩

theorem ok_of_map {α β ε : Type} {f : α → β} {result : Except ε α} {b : β}
    (h : result.map f = .ok b) : ∃ a, result = .ok a ∧ f a = b := by
  cases result with
  | error e => cases h
  | ok a => cases h; exact ⟨a, rfl, rfl⟩

/-- A base that was compiled yields its term. -/
theorem powerBy_of_factorTerm {text : List Char} {depth : Nat} {x : List Char × Exponent}
    {t : Term (Number R)} (deeper : ∀ base u, compileSum R base (depth + 1) = .ok u → Yields R base u)
    (h : factorTerm R text depth x = .ok t) : PowerBy (Yields R) x t := by
  rw [factorTerm] at h
  split at h
  · cases h
  · rename_i value hx
    cases h
    exact .numeric hx
  · rename_i base exponent hx
    rw [baseTerm] at h
    split at h
    · rename_i hm
      obtain ⟨m, hc, rfl⟩ := ok_of_map h
      exact .symbolic hx (.monomial hm hc)
    · obtain ⟨u, hu, rfl⟩ := ok_of_map h
      exact .symbolic hx (deeper base u hu)

/-- **A compiled text yields its term.** -/
theorem yields_of_compileSum {text : List Char} {depth : Nat} {t : Term (Number R)}
    (h : compileSum R text depth = .ok t) : Yields R text t := by
  refine (compileSum.mutual_induct (fun text depth => ∀ t, compileSum R text depth = .ok t →
    Yields R text t) (fun text depth => ∀ t, compileProduct R text depth = .ok t → Yields R text t)
    (fun text depth => isSum text = true → ∀ t, compileTerms R text depth = .ok t → Yields R text t)
    ?_ ?_ ?_ ?_ ?_ ?_ ?_ ?_).1 text depth t h
  · intro text depth deep t h
    rw [compileSum, if_pos deep] at h
    cases h
  · intro text depth hd hs ih t h
    rw [compileSum, if_neg hd, if_pos hs] at h
    exact ih hs t h
  · intro text depth hd hs ih t h
    rw [compileSum, if_neg hd, if_neg hs] at h
    exact ih t h
  · intro text depth deep t h
    rw [compileProduct, dif_pos deep] at h
    cases h
  · intro text depth hd hm t h
    rw [compileProduct, dif_neg hd, if_pos hm] at h
    obtain ⟨m, hc, rfl⟩ := ok_of_map h
    exact .monomial hm hc
  · intro text depth hd hm hs ih t h
    rw [compileProduct, dif_neg hd, if_neg hm, if_pos hs] at h
    exact ih hs t h
  · intro text depth hd hm hs ih t h
    rw [Bool.not_eq_true] at hm hs
    rw [compileProduct_eq (not_lt.1 hd) hm hs] at h
    cases hfs : (splitComposition text).mapM (factorTerm R text depth) with
    | error e => rw [hfs] at h; cases h
    | ok powers =>
      rw [hfs, Except.bind] at h
      split at h
      · rename_i product hp
        cases h
        refine .product hm hs (.of_forall₂ ?_) hp
        exact (forall₂_of_mapM hfs).imp fun x u hu => powerBy_of_factorTerm ih hu
      · cases h
  · intro text depth ih hs t h
    rw [compileTerms] at h
    cases hts : (splitSum text).mapM fun term =>
        if isMonomial term then (compileMonomial R term).map .monomial
        else if _h : term.length < text.length then compileProduct R term depth
        else .error .endless with
    | error e => rw [hts] at h; cases h
    | ok terms =>
      rw [hts] at h
      cases h
      refine .sum hs (.of_forall₂ ((forall₂_of_mapM hts).imp fun term u hu => ?_))
      split at hu
      · rename_i hm
        obtain ⟨m, hc, rfl⟩ := ok_of_map hu
        exact .monomial hm hc
      · split at hu
        · rename_i hshorter
          exact ih term hshorter u hu
        · cases hu

end SamePoly
