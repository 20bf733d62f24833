/-
  Comparison of polynomials.

  Each monomial of one polynomial is searched for in the other one, and the other way round.  On
  reduced polynomials the two searches come to one condition on every shape, so the verdict is
  about coefficients and not about the lists that they are kept in.

  * `Polynomial.CloseBy`: the same shapes, with close coefficients.
  * `Polynomial.agree_iff`: **what the two searches decide**.
  * `Distances`: what is asked of numbers, and `distances_rat`: fractions have it.
  * `Decimal.powerOfTen_eq`: a number of digits is the power of ten that it stands for.
  * `Polynomial.comparison_laws`: **a comparison is coefficientwise**, so it depends on no order of
    the monomials, is symmetric, goes on when the tolerance grows, and is an equivalence where the
    tolerance is zero.
-/
import SamePoly.Polynomial.Comparison
import SamePoly.Proofs.RingLaws

namespace SamePoly

namespace Polynomial

/-! ## Two searches -/

section Searches

variable {K : Type} [ZeroTest K] {close : K → K → Bool} {Q : Monomial K → Prop}
variable {p q : Polynomial K} {m : Monomial K} {s : Shape}

omit [ZeroTest K] in
/-- The first monomial of a shape is the only one. -/
theorem find?_eq_some_iff (distinct : (p.monomials.map Monomial.shape).Nodup) :
    p.find? s = some m ↔ m ∈ p.monomials ∧ m.shape = s := by
  rw [find?]
  constructor
  · intro h
    exact ⟨List.mem_of_find?_eq_some h, by simpa using List.find?_some h⟩
  · rintro ⟨hm, rfl⟩
    cases h : p.monomials.find? fun n => decide (n.shape = m.shape) with
    | none => simpa using List.find?_eq_none.1 h m hm
    | some n =>
      have same : n.shape = m.shape := by simpa using List.find?_some h
      rw [List.inj_on_of_nodup_map distinct (List.mem_of_find?_eq_some h) hm same]

omit [ZeroTest K] in
theorem find?_eq_none_iff : p.find? s = none ↔ s ∉ p.monomials.map Monomial.shape := by
  simp [find?]

omit [ZeroTest K] in
theorem coefficient_of_find? [Zero K] (h : p.find? s = some m) :
    p.coefficient s = m.coefficient := by
  rw [coefficient, h]

/-- The same shapes, and for each of them coefficients that are close. -/
structure CloseBy [Zero K] (close : K → K → Prop) (p q : Polynomial K) : Prop where
  shapes : ∀ s, s ∈ p.monomials.map Monomial.shape ↔ s ∈ q.monomials.map Monomial.shape
  coefficients : ∀ s ∈ p.monomials.map Monomial.shape, close (p.coefficient s) (q.coefficient s)

variable [Zero K]

/-- What one search decides. -/
theorem containedIn_iff (hp : p.Reduced Q) (hq : (q.monomials.map Monomial.shape).Nodup) :
    p.containedIn close q = true ↔ ∀ s ∈ p.monomials.map Monomial.shape,
      s ∈ q.monomials.map Monomial.shape ∧ close (q.coefficient s) (p.coefficient s) = true := by
  rw [containedIn, List.all_eq_true, List.forall_mem_map]
  refine forall₂_congr fun m hm => ?_
  have own : p.coefficient m.shape = m.coefficient := coefficient_of_mem hp.distinct hm
  rw [hp.nonzero m hm, Bool.false_or, own]
  cases hfind : q.find? m.shape with
  | none =>
    have missing := find?_eq_none_iff.1 hfind
    exact ⟨nofun, fun h => absurd h.1 missing⟩
  | some n =>
    obtain ⟨hn, shape⟩ := (find?_eq_some_iff hq).1 hfind
    rw [coefficient_of_find? hfind]
    exact ⟨fun h => ⟨List.mem_map.2 ⟨n, hn, shape⟩, h⟩, fun h => h.2⟩

/-- **What the two searches decide**: they find the same shapes, with close coefficients. -/
theorem agree_iff (comm : ∀ z w, close z w = close w z) (hp : p.Reduced Q) (hq : q.Reduced Q) :
    agree close p q = true ↔ CloseBy (fun z w => close z w = true) p q := by
  rw [agree, Bool.and_eq_true, containedIn_iff hp hq.distinct, containedIn_iff hq hp.distinct]
  constructor
  · rintro ⟨there, back⟩
    exact ⟨fun s => ⟨fun hs => (there s hs).1, fun hs => (back s hs).1⟩,
      fun s hs => comm _ _ ▸ (there s hs).2⟩
  · intro h
    exact ⟨fun s hs => ⟨(h.shapes s).1 hs, comm _ _ ▸ h.coefficients s hs⟩,
      fun s hs => ⟨(h.shapes s).2 hs, h.coefficients s ((h.shapes s).2 hs)⟩⟩

end Searches

/-! ## Order of the monomials -/

section Order

variable {K : Type} [ZeroTest K] {Q : Monomial K → Prop} {p p' q q' : Polynomial K} {s : Shape}

theorem Reduced.perm (h : p.Reduced Q) (perm : p'.monomials.Perm p.monomials) : p'.Reduced Q where
  distinct := (perm.map Monomial.shape).nodup_iff.2 h.distinct
  nonzero m hm := h.nonzero m (perm.mem_iff.1 hm)
  kind m hm := h.kind m (perm.mem_iff.1 hm)

/-- The monomials may stand in any order. -/
theorem Reduced.find?_perm (h : p.Reduced Q) (perm : p'.monomials.Perm p.monomials) (s : Shape) :
    p'.find? s = p.find? s := by
  refine Option.ext fun m => ?_
  rw [find?_eq_some_iff h.distinct, find?_eq_some_iff (h.perm perm).distinct, perm.mem_iff]

/-- So no search depends on the order, on either side. -/
theorem Reduced.containedIn_perm {close : K → K → Bool} (hq : q.Reduced Q)
    (left : p'.monomials.Perm p.monomials) (right : q'.monomials.Perm q.monomials) :
    p'.containedIn close q' = p.containedIn close q := by
  rw [containedIn, containedIn, left.all_eq]
  refine congrArg _ (funext fun m => ?_)
  rw [hq.find?_perm right]

theorem Reduced.agree_perm {close : K → K → Bool} (hp : p.Reduced Q) (hq : q.Reduced Q)
    (left : p'.monomials.Perm p.monomials) (right : q'.monomials.Perm q.monomials) :
    agree close p' q' = agree close p q := by
  rw [agree, agree, hq.containedIn_perm left right, hp.containedIn_perm right left]

end Order

/-! ## Verdicts that go over to others -/

section Verdicts

variable {K : Type} [Zero K] {R S : K → K → Prop} {p q r : Polynomial K}

theorem CloseBy.refl (h : ∀ s ∈ p.monomials.map Monomial.shape,
    R (p.coefficient s) (p.coefficient s)) : CloseBy R p p :=
  ⟨fun _ => Iff.rfl, h⟩

theorem CloseBy.trans (hpq : CloseBy R p q) (hqr : CloseBy R q r)
    (h : ∀ s ∈ p.monomials.map Monomial.shape, R (p.coefficient s) (q.coefficient s) →
      R (q.coefficient s) (r.coefficient s) → R (p.coefficient s) (r.coefficient s)) :
    CloseBy R p r := by
  refine ⟨fun s => (hpq.shapes s).trans (hqr.shapes s), fun s hs => ?_⟩
  exact h s hs (hpq.coefficients s hs) (hqr.coefficients s ((hpq.shapes s).1 hs))

end Verdicts

end Polynomial

/-! ## Distances -/

/-- What is asked of numbers: the distance of two numbers does not depend on their order, and for
    finite ones it is zero exactly when they are equal. -/
structure Distances (R : Type) [Scalar R] : Prop where
  comm : ∀ (z w : Number R) (bound : R), (z - w).within bound = (w - z).within bound
  within_zero_iff : ∀ z w : Number R, z.isFinite = true → w.isFinite = true →
    ((z - w).within 0 = true ↔ z.same w = true)
  /-- Numerical equality of finite numbers is an equality. -/
  equality : Equivalence fun z w : {z : Number R // z.isFinite = true} => z.1.same w.1 = true

/-- What is at most one bound away is at most a greater bound away. -/
def BoundsTransitive (R : Type) [Scalar R] : Prop :=
  ∀ (z : Number R) (bound greater : R), z.within bound = true →
    Scalar.atMost bound greater = true → z.within greater = true

namespace Number

/-- A point is as near to the origin as a bound when its squared distance is at most the square of
    the bound. -/
theorem within_iff {z : Number ℚ} {bound : ℚ} :
    z.within bound = true ↔ 0 ≤ bound ∧ z.re ^ 2 + z.im ^ 2 ≤ bound ^ 2 := by
  show (decide (0 ≤ bound.num) && Scalar.atMost (z.re * z.re + z.im * z.im) (bound * bound)) =
    true ↔ _
  rw [Bool.and_eq_true, decide_eq_true_eq, Scalar.atMost_iff, Rat.num_nonneg]
  simp only [pow_two]

theorem same_iff {z w : Number ℚ} : z.same w = true ↔ z = w := by
  rw [same, Bool.and_eq_true, Scalar.same_iff, Scalar.same_iff]
  exact ⟨fun h => ext h.1 h.2, fun h => h ▸ ⟨rfl, rfl⟩⟩

end Number

/-- Fractions have distances. -/
theorem distances_rat : Distances ℚ where
  comm z w bound := by
    rw [Bool.eq_iff_iff, Number.within_iff, Number.within_iff]
    simp only [Number.re_sub, Number.im_sub, sub_sq_comm z.re, sub_sq_comm z.im]
  within_zero_iff z w _ _ := by
    rw [Number.within_iff, Number.same_iff]
    simp only [le_refl, true_and, Number.re_sub, Number.im_sub]
    constructor
    · intro h
      have hre := sq_nonneg (z.re - w.re)
      have him := sq_nonneg (z.im - w.im)
      refine Number.ext ?_ ?_
      · exact sub_eq_zero.1 (pow_eq_zero_iff two_ne_zero |>.1 (by linarith))
      · exact sub_eq_zero.1 (pow_eq_zero_iff two_ne_zero |>.1 (by linarith))
    · rintro rfl
      simp
  equality := by
    simp only [Number.same_iff]
    exact ⟨fun _ => rfl, fun h => h.symm, fun h h' => h.trans h'⟩

theorem boundsTransitive_rat : BoundsTransitive ℚ := by
  intro z bound greater near le
  rw [Number.within_iff] at near ⊢
  rw [Scalar.atMost_iff] at le
  exact ⟨near.1.trans le, near.2.trans (pow_le_pow_left₀ near.1 le 2)⟩

/-! ## Tolerances by digits -/

theorem Decimal.powerFrom_eq (product base : ℚ) (exponent : ℕ) :
    powerFrom product base exponent = product * base ^ exponent := by
  induction exponent using Nat.strongRecOn generalizing product base with
  | ind n ih =>
    have next : (if n % 2 = 1 then product * base else product) = product * base ^ (n % 2) := by
      rcases Nat.mod_two_eq_zero_or_one n with h | h <;> simp [h]
    rw [powerFrom, next]
    split
    · rw [show n % 2 = n by omega]
    · rw [ih (n / 2) (by omega), mul_assoc, ← pow_two, ← pow_mul, ← pow_add, Nat.mod_add_div]

/-- Powers of ten are exact over fractions. -/
theorem Decimal.powerOfTen_eq (n : ℤ) : (powerOfTen n : ℚ) = 10 ^ n := by
  have ten : (Scalar.ofNat 10 : ℚ) = 10 := by decide +kernel
  rw [powerOfTen, powerFrom_eq, ten, one_mul]
  cases n with
  | ofNat n => exact if_neg (by simp)
  | negSucc n =>
    rw [if_pos (Int.negSucc_lt_zero n), zpow_negSucc]
    exact one_div _

namespace Polynomial

variable {R : Type} [Scalar R] {p q r : Polynomial (Number R)} {Q : Monomial (Number R) → Prop}

/-! ## The laws of comparison -/

/-- Coefficients at most a tolerance apart. -/
def Within (tolerance : R) (z w : Number R) : Prop := (z - w).within tolerance = true

instance (tolerance : R) (z w : Number R) : Decidable (Within tolerance z w) :=
  inferInstanceAs (Decidable ((z - w).within tolerance = true))

/-- **A comparison is coefficientwise.** -/
theorem equalsWithin_iff (distances : Distances R) (hp : p.Reduced Q) (hq : q.Reduced Q)
    (tolerance : R) : equalsWithin tolerance p q = true ↔ CloseBy (Within tolerance) p q :=
  agree_iff (fun z w => distances.comm z w tolerance) hp hq

theorem equalsWithin_comm (tolerance : R) (p q : Polynomial (Number R)) :
    equalsWithin tolerance p q = equalsWithin tolerance q p := Bool.and_comm _ _

/-- One search finds no less when more coefficients are close. -/
theorem containedIn_mono {K : Type} [ZeroTest K] {p q : Polynomial K} {close close' : K → K → Bool}
    (h : ∀ z w, close z w = true → close' z w = true) (found : p.containedIn close q = true) :
    p.containedIn close' q = true := by
  rw [containedIn, List.all_eq_true] at found ⊢
  intro m hm
  have := found m hm
  rw [Bool.or_eq_true] at this ⊢
  refine this.imp_right fun counterpart => ?_
  cases hfind : q.find? m.shape with
  | none => rw [hfind] at counterpart; exact counterpart
  | some n =>
    rw [hfind] at counterpart
    exact h _ _ counterpart

theorem equalsWithin_mono {tolerance tolerance' : R}
    (h : ∀ z : Number R, z.within tolerance = true → z.within tolerance' = true)
    (equal : equalsWithin tolerance p q = true) : equalsWithin tolerance' p q = true := by
  rw [equalsWithin, agree, Bool.and_eq_true] at equal ⊢
  exact equal.imp (containedIn_mono fun _ _ => h _) (containedIn_mono fun _ _ => h _)

/-- Reduced polynomials whose coefficients are finite. -/
def Finite (p : Polynomial (Number R)) : Prop := p.Reduced fun m => m.coefficient.isFinite = true

theorem Finite.isFinite_coefficient (h : p.Finite) {s : Shape}
    (hs : s ∈ p.monomials.map Monomial.shape) : (p.coefficient s).isFinite = true := by
  obtain ⟨m, hm, rfl⟩ := List.mem_map.1 hs
  rw [show p.coefficient m.shape = m.coefficient from coefficient_of_mem h.distinct hm]
  exact h.kind m hm

/-- Finite coefficients at distance zero are equal ones. -/
theorem Finite.equalsExact_iff (distances : Distances R) (hp : p.Finite) (hq : q.Finite) :
    p.equalsExact q = true ↔ CloseBy (fun z w => z.same w = true) p q := by
  rw [equalsExact, equalsWithin_iff distances hp hq]
  constructor
  · intro h
    refine ⟨h.shapes, fun s hs => ?_⟩
    exact (distances.within_zero_iff _ _ (hp.isFinite_coefficient hs)
      (hq.isFinite_coefficient ((h.shapes s).1 hs))).1 (h.coefficients s hs)
  · intro h
    refine ⟨h.shapes, fun s hs => ?_⟩
    exact (distances.within_zero_iff _ _ (hp.isFinite_coefficient hs)
      (hq.isFinite_coefficient ((h.shapes s).1 hs))).2 (h.coefficients s hs)

/-- **Exact comparison is an equivalence** on polynomials with finite coefficients. -/
theorem equivalence_equalsExact (distances : Distances R) :
    Equivalence fun p q : {p : Polynomial (Number R) // p.Finite} =>
      p.1.equalsExact q.1 = true where
  refl p := by
    rw [p.2.equalsExact_iff distances p.2]
    refine .refl fun s hs => ?_
    exact distances.equality.refl ⟨p.1.coefficient s, p.2.isFinite_coefficient hs⟩
  symm {p q} h := by
    rw [equalsExact, equalsWithin_comm]
    exact h
  trans {p q r} hpq hqr := by
    rw [p.2.equalsExact_iff distances q.2] at hpq
    rw [q.2.equalsExact_iff distances r.2] at hqr
    rw [p.2.equalsExact_iff distances r.2]
    refine hpq.trans hqr fun s hs first second => ?_
    have hsq := (hpq.shapes s).1 hs
    have finite := r.2.isFinite_coefficient ((hqr.shapes s).1 hsq)
    exact distances.equality.trans (x := ⟨_, p.2.isFinite_coefficient hs⟩)
      (y := ⟨_, q.2.isFinite_coefficient hsq⟩) (z := ⟨_, finite⟩) first second

/-- **Comparison within a tolerance is coefficientwise closeness**, whatever the tolerance is, also
    one that is negative or no number at all.  So the order of the monomials does not matter on
    either side, the sides may be exchanged, and the verdict stays when the tolerance grows.  At
    tolerance zero it is an equivalence of the polynomials with finite coefficients. -/
theorem comparison_laws {R : Type} [Scalar R] (distances : Distances R) :
    (∀ (p q : Polynomial (Number R)) (tolerance : R),
      (p.Reduced fun _ => True) → (q.Reduced fun _ => True) →
        (equalsWithin tolerance p q = true ↔ CloseBy (Within tolerance) p q) ∧
          (∀ p' q' : Polynomial (Number R), p'.monomials.Perm p.monomials →
            q'.monomials.Perm q.monomials →
              equalsWithin tolerance p' q' = equalsWithin tolerance p q) ∧
          equalsWithin tolerance p q = equalsWithin tolerance q p ∧
          (BoundsTransitive R → ∀ greater : R, Scalar.atMost tolerance greater = true →
            equalsWithin tolerance p q = true → equalsWithin greater p q = true)) ∧
      (∀ p q : Polynomial (Number R), p.compare .exact q = p.equalsExact q) ∧
      Equivalence fun p q : {p : Polynomial (Number R) // p.Finite} =>
        p.1.equalsExact q.1 = true := by
  refine ⟨fun p q tolerance hp hq => ⟨?_, ?_, ?_, ?_⟩, fun p q => rfl,
    equivalence_equalsExact distances⟩
  · exact equalsWithin_iff distances hp hq tolerance
  · exact fun p' q' left right => hp.agree_perm hq left right
  · exact equalsWithin_comm tolerance p q
  · intro bounds greater le equal
    exact equalsWithin_mono (fun z near => bounds z tolerance greater near le) equal

/-- The laws for `2x + 1` and `1 + 2.01x`. -/
theorem comparison_laws_linear :
    let x : Shape := .ofList [('x', 1)]
    let p : Polynomial (Number ℚ) := ⟨[⟨⟨2, 0⟩, x⟩, ⟨⟨1, 0⟩, .one⟩]⟩
    let q : Polynomial (Number ℚ) := ⟨[⟨⟨1, 0⟩, .one⟩, ⟨⟨201 / 100, 0⟩, x⟩]⟩
    let turned : Polynomial (Number ℚ) := ⟨[⟨⟨1, 0⟩, .one⟩, ⟨⟨2, 0⟩, x⟩]⟩
    (Distances ℚ ∧ BoundsTransitive ℚ ∧ (p.Reduced fun _ => True) ∧ (q.Reduced fun _ => True) ∧
        turned.monomials.Perm p.monomials ∧ CloseBy (Within (1 / 10)) p q) ∧
      equalsWithin (1 / 10) p q = true ∧ equalsWithin (1 / 10) turned q = true ∧
      equalsWithin (1 / 10) q p = true ∧ equalsWithin 1 p q = true ∧ p.equalsExact p = true ∧
      p.compare .exact p = true := by
  intro x p q turned
  have hp : p.Reduced fun _ => True := ⟨by decide, by decide, fun _ _ => trivial⟩
  have hq : q.Reduced fun _ => True := ⟨by decide, by decide +kernel, fun _ _ => trivial⟩
  have perm : turned.monomials.Perm p.monomials := .swap _ _ _
  have close : CloseBy (Within (1 / 10)) p q := by
    refine ⟨fun s => (List.Perm.swap _ _ _).mem_iff, fun s hs => ?_⟩
    rcases List.mem_pair.1 hs with rfl | rfl
    · decide +kernel
    · decide +kernel
  have laws := (comparison_laws distances_rat).1 p q (1 / 10) hp hq
  have equal : equalsWithin (1 / 10) p q = true := laws.1.2 close
  have exact :=
    (comparison_laws distances_rat).2.2.refl ⟨p, hp.distinct, hp.nonzero, fun _ _ => rfl⟩
  refine ⟨⟨distances_rat, boundsTransitive_rat, hp, hq, perm, close⟩, equal, ?_, ?_, ?_, exact, ?_⟩
  · exact (laws.2.1 turned q perm (.refl _)).trans equal
  · exact laws.2.2.1.symm.trans equal
  · exact laws.2.2.2 boundsTransitive_rat 1 (Scalar.atMost_iff.2 (by norm_num)) equal
  · exact ((comparison_laws distances_rat).2.1 p p).trans exact

end Polynomial

end SamePoly
