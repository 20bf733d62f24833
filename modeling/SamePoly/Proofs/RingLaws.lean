/-
  The ring laws of polynomials.

  The coefficients of a sum are the sums of the coefficients, whatever else the arithmetic of the
  coefficients does.  Over a commutative ring the coefficients of a product are the convolution of
  those of its factors, as long as no exponent grows too large, so the laws of the polynomial ring
  hold up to the order of the terms.

  * `AddsUpTo`: scalars with a commutative sum and a neutral zero, up to numerical equality.
  * `Polynomial.SameTerms`: the same terms in any order.
  * `Polynomial.coefficient_add`: the coefficients of a sum.
  * `Polynomial.coefficient_multiply`: the coefficients of a product.
  * `Polynomial.perm_of_toMv`: canonical polynomials for one ring element have the same terms.
  * `Polynomial.ring_laws`: **sums and products are those of the polynomial ring**.
-/
import SamePoly.Proofs.Meaning

namespace SamePoly

/-! ## Shapes as exponent functions -/

namespace Shape

theorem exists_toFinsupp_eq (f : Char →₀ ℕ) : ∃ s : Shape, s.toFinsupp = f := by
  let names := f.support.sort (· ≤ ·)
  have strict : names.Pairwise (· < ·) := f.support.sortedLT_sort.pairwise
  have sorted : Sorted (names.map fun c => (c, f c)) := by
    rw [Sorted, List.pairwise_map]
    exact strict.imp fun {c d} h => Char.lt_def.1 h
  have positive : Positive (names.map fun c => (c, f c)) := by
    intro p hp
    obtain ⟨c, hc, rfl⟩ := List.mem_map.1 hp
    have support : c ∈ f.support := (Finset.mem_sort _).1 hc
    exact Nat.pos_of_ne_zero (Finsupp.mem_support_iff.1 support)
  let s : Shape := ⟨_, sorted, positive⟩
  refine ⟨s, Finsupp.ext fun c => ?_⟩
  by_cases hc : f c = 0
  · rw [hc, toFinsupp_apply]
    by_contra hne
    obtain ⟨d, -, same⟩ := List.mem_map.1 ((mem_powers_iff hne).2 rfl)
    obtain ⟨rfl, hd⟩ := Prod.mk.inj same
    exact hne (hd.symm.trans hc)
  · have member : c ∈ names := (Finset.mem_sort _).2 (Finsupp.mem_support_iff.2 hc)
    have power : (c, f c) ∈ s.powers := List.mem_map.2 ⟨c, member, rfl⟩
    exact exponent_of_mem power

/-- The exponents of `s` are the sums of those of `a` and `b`. -/
def Splits (s a b : Shape) : Prop := ∀ c, a.exponent c + b.exponent c = s.exponent c

theorem splits_iff {s a b : Shape} : s.Splits a b ↔ a.toFinsupp + b.toFinsupp = s.toFinsupp :=
  ⟨fun h => Finsupp.ext h, fun h c => DFunLike.congr_fun h c⟩

/-- The pairs of shapes that a shape splits into are the pairs of exponent functions that add up
    to its own. -/
theorem bijOn_splits (s : Shape) :
    Set.BijOn (Prod.map toFinsupp toFinsupp) {x : Shape × Shape | s.Splits x.1 x.2}
      ↑(Finset.HasAntidiagonal.antidiagonal s.toFinsupp) := by
  refine ⟨fun x hx => ?_, fun x _ y _ same => ?_, fun y hy => ?_⟩
  · rw [Finset.mem_coe, Finset.HasAntidiagonal.mem_antidiagonal]
    exact splits_iff.1 hx
  · obtain ⟨first, second⟩ := Prod.mk.inj same
    exact Prod.ext (toFinsupp_injective first) (toFinsupp_injective second)
  · obtain ⟨a, ha⟩ := exists_toFinsupp_eq y.1
    obtain ⟨b, hb⟩ := exists_toFinsupp_eq y.2
    rw [Finset.mem_coe, Finset.HasAntidiagonal.mem_antidiagonal, ← ha, ← hb] at hy
    exact ⟨(a, b), splits_iff.2 hy, Prod.ext ha hb⟩

end Shape

/-! ## Sums -/

/-- Up to numerical equality, the sum of scalars is commutative, zero is neutral, and the zero test
    finds the scalars that are equal to zero. -/
structure AddsUpTo {K : Type} [Zero K] [Add K] [ZeroTest K] (same : K → K → Prop) : Prop where
  equivalence : Equivalence same
  isZero_iff : ∀ c, ZeroTest.isZero c = true ↔ same c 0
  comm : ∀ a b, same (a + b) (b + a)
  add_zero : ∀ c, same (c + 0) c

namespace Polynomial

section Sums

variable {K : Type} [Zero K] [ZeroTest K] {same : K → K → Prop}
variable {p q : Polynomial K} {m : Monomial K} {ms : List (Monomial K)} {s : Shape}

/-- The same terms in any order. -/
structure SameTerms (same : K → K → Prop) (p q : Polynomial K) : Prop where
  shapes : (p.monomials.map Monomial.shape).Perm (q.monomials.map Monomial.shape)
  coefficients : ∀ s, same (p.coefficient s) (q.coefficient s)

omit [ZeroTest K] in
@[simp] theorem coefficient_nil (s : Shape) : (⟨[]⟩ : Polynomial K).coefficient s = 0 := rfl

omit [ZeroTest K] in
theorem coefficient_cons (m : Monomial K) (ms : List (Monomial K)) (s : Shape) :
    (⟨m :: ms⟩ : Polynomial K).coefficient s =
      if m.shape = s then m.coefficient else (⟨ms⟩ : Polynomial K).coefficient s := by
  unfold coefficient find?
  by_cases h : m.shape = s <;> simp [h]

omit [ZeroTest K] in
theorem coefficient_of_notMem (h : s ∉ ms.map Monomial.shape) :
    (⟨ms⟩ : Polynomial K).coefficient s = 0 := by
  induction ms with
  | nil => rfl
  | cons m ms ih =>
    simp only [List.map_cons, List.mem_cons, not_or] at h
    rw [coefficient_cons, if_neg (Ne.symm h.1), ih h.2]

omit [ZeroTest K] in
theorem coefficient_of_mem (distinct : (ms.map Monomial.shape).Nodup) (hm : m ∈ ms) :
    (⟨ms⟩ : Polynomial K).coefficient m.shape = m.coefficient := by
  induction ms with
  | nil => cases hm
  | cons n ms ih =>
    simp only [List.map_cons, List.nodup_cons] at distinct
    rw [coefficient_cons]
    rcases List.mem_cons.1 hm with rfl | hm
    · simp
    · have differ : n.shape ≠ m.shape := fun h => distinct.1 (h ▸ List.mem_map_of_mem hm)
      rw [if_neg differ, ih distinct.2 hm]

variable [Add K]

/-- A new monomial leaves the coefficients of the other shapes alone. -/
theorem coefficient_absorbInto_of_ne (h : m.shape ≠ s) (ms : List (Monomial K)) :
    (⟨absorbInto m ms⟩ : Polynomial K).coefficient s = (⟨ms⟩ : Polynomial K).coefficient s := by
  induction ms with
  | nil =>
    rw [absorbInto]
    split
    · rfl
    · rw [coefficient_cons, if_neg h]
  | cons known rest ih =>
    rw [absorbInto]
    split
    · rename_i equal
      have equal : known.shape = m.shape := of_decide_eq_true equal
      dsimp only
      split
      · rw [coefficient_cons, equal, if_neg h]
      · rename_i nonzero
        have shape : (Monomial.new (known.coefficient + m.coefficient) m.shape).shape = m.shape := by
          rw [Monomial.new, if_neg (by exact nonzero)]
        rw [coefficient_cons, coefficient_cons, shape, equal, if_neg h, if_neg h]
    · rw [coefficient_cons, coefficient_cons, ih]

/-- Monomials of other shapes leave a coefficient alone. -/
theorem coefficient_foldl_absorb_of_notMem (h : s ∉ ms.map Monomial.shape) (p : Polynomial K) :
    (ms.foldl absorb p).coefficient s = p.coefficient s := by
  induction ms generalizing p with
  | nil => rfl
  | cons m ms ih =>
    rw [List.map_cons, List.mem_cons, not_or] at h
    rw [List.foldl_cons, ih h.2]
    exact coefficient_absorbInto_of_ne (Ne.symm h.1) p.monomials

section Equality

variable (equivalence : Equivalence same) (isZero_iff : ∀ c, ZeroTest.isZero c = true ↔ same c 0)
include equivalence isZero_iff

/-- A new monomial adds its coefficient to that of its shape. -/
theorem coefficient_absorbInto (alone : same m.coefficient (0 + m.coefficient))
    (distinct : (ms.map Monomial.shape).Nodup) :
    same ((⟨absorbInto m ms⟩ : Polynomial K).coefficient m.shape)
      ((⟨ms⟩ : Polynomial K).coefficient m.shape + m.coefficient) := by
  induction ms with
  | nil =>
    rw [absorbInto]
    split
    · rename_i zero
      exact equivalence.trans (equivalence.symm ((isZero_iff _).1 zero)) alone
    · simpa [coefficient_cons] using alone
  | cons known rest ih =>
    simp only [List.map_cons, List.nodup_cons] at distinct
    rw [absorbInto]
    split
    · rename_i equal
      have equal : known.shape = m.shape := of_decide_eq_true equal
      rw [coefficient_cons, if_pos equal]
      dsimp only
      split
      · rename_i zero
        rw [coefficient_of_notMem (equal ▸ distinct.1)]
        exact equivalence.symm ((isZero_iff _).1 zero)
      · rename_i nonzero
        have shape : (Monomial.new (known.coefficient + m.coefficient) m.shape).shape = m.shape := by
          rw [Monomial.new, if_neg (by exact nonzero)]
        rw [coefficient_cons, if_pos shape]
        exact equivalence.refl _
    · rename_i differ
      have differ : known.shape ≠ m.shape := fun equal => differ (decide_eq_true equal)
      rw [coefficient_cons, coefficient_cons, if_neg differ, if_neg differ]
      exact ih distinct.2

/-- Monomials of distinct shapes are added to the coefficients of their shapes, once each. -/
theorem coefficient_foldl_absorb (alone : ∀ m ∈ ms, same m.coefficient (0 + m.coefficient))
    (hms : (ms.map Monomial.shape).Nodup) (hp : (p.monomials.map Monomial.shape).Nodup)
    (kept : same (p.coefficient s) (p.coefficient s + 0)) :
    same ((ms.foldl absorb p).coefficient s)
      (p.coefficient s + (⟨ms⟩ : Polynomial K).coefficient s) := by
  induction ms generalizing p with
  | nil => exact kept
  | cons m ms ih =>
    simp only [List.map_cons, List.nodup_cons] at hms
    obtain ⟨hm, alone⟩ := List.forall_mem_cons.1 alone
    rw [List.foldl_cons, coefficient_cons]
    by_cases h : m.shape = s
    · subst h
      rw [if_pos rfl, coefficient_foldl_absorb_of_notMem hms.1]
      exact coefficient_absorbInto equivalence isZero_iff hm hp
    · have other : (p.absorb m).coefficient s = p.coefficient s :=
        coefficient_absorbInto_of_ne h p.monomials
      rw [if_neg h, ← other]
      exact ih alone hms.2 (distinct_absorbInto m hp) (other ▸ kept)

end Equality

/-- **The coefficients of a sum are the sums of the coefficients.** -/
theorem coefficient_add (adds : AddsUpTo same) (hp : (p.monomials.map Monomial.shape).Nodup)
    (hq : (q.monomials.map Monomial.shape).Nodup) (s : Shape) :
    same ((p.add q).coefficient s) (p.coefficient s + q.coefficient s) := by
  obtain ⟨equivalence, isZero_iff, comm, add_zero⟩ := adds
  have alone (c : K) : same c (0 + c) :=
    equivalence.trans (equivalence.symm (add_zero c)) (comm c 0)
  exact coefficient_foldl_absorb equivalence isZero_iff (fun m _ => alone m.coefficient) hq hp
    (equivalence.symm (add_zero _))

omit [Add K] in
/-- A shape occurs in a reduced polynomial when its coefficient is not zero. -/
theorem mem_shapes_iff (isZero_iff : ∀ c, ZeroTest.isZero c = true ↔ same c 0) (zero : same 0 0)
    {Q : Monomial K → Prop} (hp : p.Reduced Q) :
    s ∈ p.monomials.map Monomial.shape ↔ ¬ same (p.coefficient s) 0 := by
  constructor
  · intro hs
    obtain ⟨m, hm, rfl⟩ := List.mem_map.1 hs
    rw [show p.coefficient m.shape = m.coefficient from coefficient_of_mem hp.distinct hm,
      ← isZero_iff]
    exact Bool.eq_false_iff.1 (hp.nonzero m hm)
  · intro h
    by_contra hs
    rw [show p.coefficient s = 0 from coefficient_of_notMem hs] at h
    exact h zero

omit [Add K] in
/-- Reduced polynomials with the same coefficients have the same terms. -/
theorem SameTerms.of_coefficient (equivalence : Equivalence same)
    (isZero_iff : ∀ c, ZeroTest.isZero c = true ↔ same c 0) {Q : Monomial K → Prop}
    (hp : p.Reduced Q) (hq : q.Reduced Q) (h : ∀ s, same (p.coefficient s) (q.coefficient s)) :
    SameTerms same p q := by
  have shapes {p : Polynomial K} (hp : p.Reduced Q) (s : Shape) :
      s ∈ p.monomials.map Monomial.shape ↔ ¬ same (p.coefficient s) 0 :=
    mem_shapes_iff isZero_iff (equivalence.refl 0) hp
  refine ⟨(List.perm_ext_iff_of_nodup hp.distinct hq.distinct).2 fun s => ?_, h⟩
  rw [shapes hp, shapes hq, not_iff_not]
  exact ⟨equivalence.trans (equivalence.symm (h s)), equivalence.trans (h s)⟩

omit [Zero K] in
/-- Monomials that are added to a reduced polynomial leave it reduced. -/
theorem Reduced.sum (hp : p.Reduced fun _ => True) (q : Polynomial K) :
    (p.add q).Reduced fun _ => True := by
  suffices fold : ∀ ms : List (Monomial K), ∀ p : Polynomial K, (p.Reduced fun _ => True) →
      (ms.foldl Polynomial.absorb p).Reduced fun _ => True from fold q.monomials p hp
  intro ms
  induction ms with
  | nil => exact fun p hp => hp
  | cons m ms ih =>
    intro p hp
    refine ih (p.absorb m) ⟨distinct_absorbInto m hp.distinct, fun n hn => ?_, fun _ _ => trivial⟩
    exact (shape_of_mem_absorbInto hn).elim (hp.nonzero n) And.right

/-- **The sum of polynomials is commutative up to the order of the terms.** -/
theorem sameTerms_add_comm (adds : AddsUpTo same) (hp : p.Reduced fun _ => True)
    (hq : q.Reduced fun _ => True) : SameTerms same (p.add q) (q.add p) := by
  refine .of_coefficient adds.equivalence adds.isZero_iff (hp.sum q) (hq.sum p) fun s => ?_
  have left := coefficient_add adds hp.distinct hq.distinct s
  have right := coefficient_add adds hq.distinct hp.distinct s
  exact adds.equivalence.trans left
    (adds.equivalence.trans (adds.comm _ _) (adds.equivalence.symm right))

end Sums

/-! ## Products -/

section Products

variable {K : Type} [CommRing K]

/-- Canonical polynomials for one ring element have the same monomials in some order. -/
theorem perm_of_toMv {p q : Polynomial K} (hp : p.Canonical) (hq : q.Canonical)
    (h : p.toMv = q.toMv) : p.monomials.Perm q.monomials := by
  have included : ∀ {p q : Polynomial K}, p.Canonical → q.Canonical → p.toMv = q.toMv →
      ∀ m ∈ p.monomials, m ∈ q.monomials := by
    intro p q hp hq h m hm
    have value : q.coefficient m.shape = m.coefficient := by
      rw [coefficient_eq hq, ← h]
      exact coeff_sumMv_of_mem hp.distinct hm
    have stored : m.shape ∈ q.monomials.map Monomial.shape := by
      by_contra hs
      rw [show q.coefficient m.shape = 0 from coefficient_of_notMem hs] at value
      exact hp.nonzero m hm value.symm
    obtain ⟨n, hn, shape⟩ := List.mem_map.1 stored
    have coefficient : n.coefficient = m.coefficient := by
      rw [← value, ← shape]
      exact (coefficient_of_mem hq.distinct hn).symm
    have same : n = m := by
      cases n
      cases m
      simp_all
    exact same ▸ hn
  refine (List.perm_ext_iff_of_nodup hp.distinct.of_map hq.distinct.of_map).2 fun m => ?_
  exact ⟨included hp hq h m, included hq hp h.symm m⟩

/-- No exponent of a product of monomials of `p` and `q` passes the largest one. -/
def Room (p q : Polynomial K) : Prop :=
  ∀ m ∈ p.monomials, ∀ n ∈ q.monomials, ∀ c, m.shape.exponent c + n.shape.exponent c ≤ maxExponent

omit [CommRing K] in
theorem Room.symm {p q : Polynomial K} (h : Room p q) : Room q p := by
  intro m hm n hn c
  rw [add_comm]
  exact h n hn m hm c

variable [ZeroTest K] [LawfulZeroTest K] {p q r : Polynomial K}

theorem toMv_multiply (room : Room p q) : (p.multiply q).toMv = p.toMv * q.toMv := by
  rw [multiply, toMv_ofMonomials, sumMv_flatMap_mul]
  · rfl
  · intro own hown other hother
    exact Monomial.toMv_mul fun _ _ c => room.symm other hother own hown c

theorem toMv_add (hp : p.Canonical) : (p.add q).toMv = p.toMv + q.toMv :=
  (foldl_absorb q.monomials hp).2

/-- **The coefficients of a product are the convolution of the coefficients.** -/
theorem coefficient_multiply (hp : p.Canonical) (hq : q.Canonical) (room : Room p q) (s : Shape) :
    (p.multiply q).coefficient s =
      ∑ᶠ x ∈ {x : Shape × Shape | s.Splits x.1 x.2}, p.coefficient x.1 * q.coefficient x.2 := by
  have canonical : (p.multiply q).Canonical := Canonical.ofMonomials _
  rw [coefficient_eq canonical, toMv_multiply room, MvPolynomial.coeff_mul,
    ← finsum_mem_coe_finset]
  symm
  apply finsum_mem_eq_of_bijOn _ s.bijOn_splits
  rintro ⟨a, b⟩ -
  rw [coefficient_eq hp, coefficient_eq hq]
  rfl

theorem perm_multiply_comm (room : Room p q) :
    (p.multiply q).monomials.Perm (q.multiply p).monomials := by
  have left : (p.multiply q).Canonical := Canonical.ofMonomials _
  have right : (q.multiply p).Canonical := Canonical.ofMonomials _
  refine perm_of_toMv left right ?_
  rw [toMv_multiply room, toMv_multiply room.symm, mul_comm]

theorem perm_multiply_assoc (hpq : Room p q) (hqr : Room q r) (left : Room (p.multiply q) r)
    (right : Room p (q.multiply r)) :
    ((p.multiply q).multiply r).monomials.Perm (p.multiply (q.multiply r)).monomials := by
  have leftFirst : ((p.multiply q).multiply r).Canonical := Canonical.ofMonomials _
  have rightFirst : (p.multiply (q.multiply r)).Canonical := Canonical.ofMonomials _
  refine perm_of_toMv leftFirst rightFirst ?_
  rw [toMv_multiply left, toMv_multiply right, toMv_multiply hpq, toMv_multiply hqr, mul_assoc]

omit [LawfulZeroTest K] in
/-- The shapes of a sum are those of its summands. -/
theorem shape_of_mem_add {n : Monomial K} (hn : n ∈ (p.add q).monomials) :
    ∃ m, (m ∈ p.monomials ∨ m ∈ q.monomials) ∧ n.shape = m.shape := by
  suffices fold : ∀ ms : List (Monomial K), ∀ p : Polynomial K,
      n ∈ (ms.foldl absorb p).monomials →
        ∃ m, (m ∈ p.monomials ∨ m ∈ ms) ∧ n.shape = m.shape from fold q.monomials p hn
  intro ms
  induction ms with
  | nil => exact fun p hn => ⟨n, .inl hn, rfl⟩
  | cons m ms ih =>
    intro p hn
    obtain ⟨k, hk | hk, shape⟩ := ih (p.absorb m) hn
    · rcases shape_of_mem_absorbInto hk with hk | ⟨same, -⟩
      · exact ⟨k, .inl hk, shape⟩
      · exact ⟨m, .inr List.mem_cons_self, shape.trans same⟩
    · exact ⟨k, .inr (List.mem_cons_of_mem _ hk), shape⟩

omit [LawfulZeroTest K] in
theorem Room.add (hq : Room p q) (hr : Room p r) : Room p (q.add r) := by
  intro m hm n hn c
  obtain ⟨k, hk | hk, shape⟩ := shape_of_mem_add hn
  · rw [shape]
    exact hq m hm k hk c
  · rw [shape]
    exact hr m hm k hk c

theorem perm_multiply_add (hq : q.Canonical) (hpq : Room p q) (hpr : Room p r) :
    (p.multiply (q.add r)).monomials.Perm ((p.multiply q).add (p.multiply r)).monomials := by
  have canonical : (p.multiply q).Canonical := Canonical.ofMonomials _
  have left : (p.multiply (q.add r)).Canonical := Canonical.ofMonomials _
  have right : ((p.multiply q).add (p.multiply r)).Canonical := (foldl_absorb _ canonical).1
  refine perm_of_toMv left right ?_
  rw [toMv_multiply (hpq.add hpr), toMv_add hq, toMv_add canonical, toMv_multiply hpq,
    toMv_multiply hpr, mul_add]

end Products

/-! ## The laws of the polynomial ring -/

/-- Exact scalars add up to equality. -/
theorem addsUpTo_eq (K : Type) [CommRing K] [ZeroTest K] [LawfulZeroTest K] :
    AddsUpTo (fun a b : K => a = b) where
  equivalence := eq_equivalence
  isZero_iff := LawfulZeroTest.isZero_iff
  comm := add_comm
  add_zero := fun c => by rw [add_zero]

/-- Canonical polynomials are reduced. -/
theorem Reduced.ofExact {K : Type} [CommRing K] [ZeroTest K] [LawfulZeroTest K]
    {p : Polynomial K} (hp : p.Canonical) : p.Reduced fun _ => True where
  distinct := hp.distinct
  nonzero m hm := by
    have nonzero : ¬ m.isZero = true := (LawfulZeroTest.isZero_iff _).not.2 (hp.nonzero m hm)
    exact Bool.eq_false_iff.2 nonzero
  kind _ _ := trivial

/-- Reduced polynomials over exact scalars are canonical. -/
theorem Reduced.canonical {K : Type} [CommRing K] [ZeroTest K] [LawfulZeroTest K]
    {Q : Monomial K → Prop} {p : Polynomial K} (hp : p.Reduced Q) : p.Canonical where
  distinct := hp.distinct
  nonzero m hm := mt Monomial.isZero_iff.2 (Bool.eq_false_iff.1 (hp.nonzero m hm))

/-- **Sums and products are those of the polynomial ring.**  In a sum each coefficient is one sum
    of two coefficients, so sums commute up to the order of the terms; only the scalar laws of
    `AddsUpTo` are needed.  Over a commutative ring, the coefficients of a product are the
    convolution of those of its factors wherever the exponents have room, so products commute, are
    associative and distribute over sums, again up to the order of the terms. -/
theorem ring_laws :
    (∀ {K : Type} [Zero K] [Add K] [ZeroTest K] {same : K → K → Prop}, AddsUpTo same →
      ∀ p q : Polynomial K, (p.Reduced fun _ => True) → (q.Reduced fun _ => True) →
        (∀ s, same ((p.add q).coefficient s) (p.coefficient s + q.coefficient s)) ∧
          SameTerms same (p.add q) (q.add p)) ∧
    ∀ {K : Type} [CommRing K] [ZeroTest K] [LawfulZeroTest K] (p q r : Polynomial K),
      p.Canonical → q.Canonical → r.Canonical →
        (Room p q → (∀ s, (p.multiply q).coefficient s =
            ∑ᶠ x ∈ {x : Shape × Shape | s.Splits x.1 x.2}, p.coefficient x.1 * q.coefficient x.2) ∧
          (p.multiply q).monomials.Perm (q.multiply p).monomials) ∧
        (Room p q → Room q r → Room (p.multiply q) r → Room p (q.multiply r) →
          ((p.multiply q).multiply r).monomials.Perm (p.multiply (q.multiply r)).monomials) ∧
        (Room p q → Room p r →
          (p.multiply (q.add r)).monomials.Perm ((p.multiply q).add (p.multiply r)).monomials) := by
  constructor
  · intro K _ _ _ same adds p q hp hq
    exact ⟨coefficient_add adds hp.distinct hq.distinct, sameTerms_add_comm adds hp hq⟩
  · intro K _ _ _ p q r hp hq _
    refine ⟨fun room => ?_, fun hpq hqr left right => ?_, fun hpq hpr => ?_⟩
    · exact ⟨coefficient_multiply hp hq room, perm_multiply_comm room⟩
    · exact perm_multiply_assoc hpq hqr left right
    · exact perm_multiply_add hq hpq hpr

/-- The laws for `x + 1` and `x - 1`. -/
theorem ring_laws_linear :
    let x : Shape := .ofList [('x', 1)]
    let p : Polynomial (Number ℚ) := ⟨[⟨1, x⟩, ⟨1, .one⟩]⟩
    let q : Polynomial (Number ℚ) := ⟨[⟨1, x⟩, ⟨-1, .one⟩]⟩
    ((p.Canonical ∧ q.Canonical) ∧ AddsUpTo (K := Number ℚ) (· = ·) ∧ Room p q ∧ Room p p) ∧
      (p.add q).coefficient x = 1 + 1 ∧ SameTerms (· = ·) (p.add q) (q.add p) ∧
      (p.multiply q).monomials.Perm (q.multiply p).monomials ∧
      (p.multiply (q.add p)).monomials.Perm ((p.multiply q).add (p.multiply p)).monomials := by
  intro x p q
  have canonical : p.Canonical ∧ q.Canonical := by
    refine ⟨⟨by decide, ?_⟩, ⟨by decide, ?_⟩⟩ <;> simp [p, q]
  have linear : ∀ n ∈ [x, Shape.one], ∀ c, n.exponent c ≤ 1 := by
    intro n hn c
    rcases List.mem_pair.1 hn with rfl | rfl
    · show (List.lookup c [('x', 1)]).getD 0 ≤ 1
      rw [List.lookup]
      split <;> simp
    · exact Nat.zero_le 1
  have room : ∀ q' : Polynomial (Number ℚ), (∀ n ∈ q'.monomials, n.shape ∈ [x, Shape.one]) →
      Room p q' := by
    intro q' hq' m hm n hn c
    have kind : ∀ m ∈ p.monomials, m.shape ∈ [x, Shape.one] := by simp [p]
    have left := linear m.shape (kind m hm) c
    have right := linear n.shape (hq' n hn) c
    exact (Nat.add_le_add left right).trans (by decide)
  have hpq : Room p q := room q (by simp [q])
  have hpp : Room p p := room p (by simp [p])
  obtain ⟨value, sum⟩ := ring_laws.1 (addsUpTo_eq _) p q (.ofExact canonical.1)
    (.ofExact canonical.2)
  obtain ⟨product, -, distributes⟩ := ring_laws.2 p q p canonical.1 canonical.2 canonical.1
  exact ⟨⟨canonical, addsUpTo_eq _, hpq, hpp⟩, value x, sum, (product hpq).2, distributes hpq hpp⟩

end Polynomial

end SamePoly
