/-
  Reduced polynomials.

  A polynomial is reduced when its shapes are distinct and no coefficient is zero.  All operations
  keep polynomials reduced, whatever the arithmetic of the coefficients yields, because a sum that
  the zero test finds is taken out at once.

  * `Monomial.Closed`: a kind of monomials that products and changed coefficients do not leave.
  * `Polynomial.Reduced`: distinct shapes, no zero coefficients, monomials of one kind.
  * `Polynomial.Reduced.absorb`: one more monomial keeps a polynomial reduced.
  * `Term.Reduced.add`, `Term.Reduced.mul`, `Term.Reduced.compose`, `Term.Reduced.toPolynomial`:
    so do the operations on terms.
-/
import Mathlib
import SamePoly.Polynomial.Term

namespace SamePoly

variable {K : Type} [ZeroTest K]

/-! ## Monomials -/

namespace Polynomial

variable [Add K] {m n : Monomial K} {ms : List (Monomial K)}

/-- A monomial of a sum was there before or has the shape of the new one. -/
theorem mem_absorbInto (h : n ∈ absorbInto m ms) :
    n ∈ ms ∨ n.isZero = false ∧ (n = m ∨ ∃ c, n = .new c m.shape ∧ n.shape = m.shape) := by
  induction ms with
  | nil =>
    rw [absorbInto] at h
    split at h
    · cases h
    · rename_i nonzero
      rw [List.mem_singleton.1 h]
      exact .inr ⟨Bool.eq_false_iff.2 nonzero, .inl rfl⟩
  | cons known rest ih =>
    rw [absorbInto] at h
    split at h
    · dsimp only at h
      split at h
      · exact .inl (List.mem_cons_of_mem _ h)
      · rename_i nonzero
        rcases List.mem_cons.1 h with rfl | h
        · refine .inr ⟨Bool.eq_false_iff.2 nonzero, .inr ⟨_, rfl, ?_⟩⟩
          rw [Monomial.new, if_neg]
          exact nonzero
        · exact .inl (List.mem_cons_of_mem _ h)
    · rcases List.mem_cons.1 h with rfl | h
      · exact .inl List.mem_cons_self
      · exact (ih h).imp_left (List.mem_cons_of_mem _)

theorem shape_of_mem_absorbInto (h : n ∈ absorbInto m ms) :
    n ∈ ms ∨ n.shape = m.shape ∧ n.isZero = false := by
  rcases mem_absorbInto h with h | ⟨nonzero, rfl | ⟨-, -, same⟩⟩
  · exact .inl h
  · exact .inr ⟨rfl, nonzero⟩
  · exact .inr ⟨same, nonzero⟩

theorem distinct_absorbInto (m : Monomial K) (h : (ms.map Monomial.shape).Nodup) :
    ((absorbInto m ms).map Monomial.shape).Nodup := by
  induction ms with
  | nil =>
    rw [absorbInto]
    split
    · exact List.nodup_nil
    · exact List.nodup_singleton _
  | cons known rest ih =>
    rw [List.map_cons, List.nodup_cons] at h
    rw [absorbInto]
    split
    · rename_i same
      have same : known.shape = m.shape := of_decide_eq_true same
      dsimp only
      split
      · exact h.2
      · rename_i nonzero
        rw [List.map_cons, List.nodup_cons, Monomial.new, if_neg (by exact nonzero), ← same]
        exact h
    · rename_i differ
      rw [List.map_cons, List.nodup_cons]
      refine ⟨fun hmem => ?_, ih h.2⟩
      obtain ⟨n, hn, same⟩ := List.mem_map.1 hmem
      rcases shape_of_mem_absorbInto hn with hn | ⟨hn, -⟩
      · exact h.1 (same ▸ List.mem_map_of_mem hn)
      · exact differ (decide_eq_true (same.symm.trans hn))

end Polynomial

/-- A kind of monomials that holds all constants and that products and changed coefficients do not
    leave. -/
structure Monomial.Closed [Zero K] [Mul K] (Q : Monomial K → Prop) : Prop where
  constant : ∀ c, Q (.constant c)
  new : ∀ {m}, Q m → ∀ c, Q (.new c m.shape)
  mul : ∀ {m n}, Q m → Q n → Q (m.mul n)

/-! ## Polynomials -/

namespace Polynomial

/-- Distinct shapes, no zero coefficients, and only monomials of the kind `Q`. -/
structure Reduced (Q : Monomial K → Prop) (p : Polynomial K) : Prop where
  distinct : (p.monomials.map Monomial.shape).Nodup
  nonzero : ∀ m ∈ p.monomials, m.isZero = false
  kind : ∀ m ∈ p.monomials, Q m

namespace Reduced

variable [Zero K] [Add K] [Mul K] {Q : Monomial K → Prop} {p q : Polynomial K} {m : Monomial K}

omit [Add K] [Zero K] [Mul K] in
theorem zero : (zero : Polynomial K).Reduced Q :=
  ⟨List.nodup_nil, nofun, nofun⟩

/-- **One more monomial keeps a polynomial reduced.** -/
theorem absorb (hQ : Monomial.Closed Q) (h : p.Reduced Q) (hm : Q m) :
    (p.absorb m).Reduced Q where
  distinct := distinct_absorbInto m h.distinct
  nonzero n hn := (shape_of_mem_absorbInto hn).elim (h.nonzero n) And.right
  kind n hn := by
    rcases mem_absorbInto hn with hn | ⟨-, rfl | ⟨c, rfl, -⟩⟩
    · exact h.kind n hn
    · exact hm
    · exact hQ.new hm c

theorem foldl_absorb (hQ : Monomial.Closed Q) {ms : List (Monomial K)} (h : p.Reduced Q)
    (hms : ∀ m ∈ ms, Q m) : (ms.foldl Polynomial.absorb p).Reduced Q := by
  induction ms generalizing p with
  | nil => exact h
  | cons m ms ih =>
    obtain ⟨hm, hms⟩ := List.forall_mem_cons.1 hms
    exact ih (h.absorb hQ hm) hms

omit [Zero K] [Mul K] in
theorem ofMonomial (hm : Q m) : (ofMonomial m).Reduced Q where
  distinct := distinct_absorbInto m List.nodup_nil
  nonzero n hn := (shape_of_mem_absorbInto hn).elim nofun And.right
  kind n hn := by
    show Q n
    change n ∈ absorbInto m [] at hn
    rw [absorbInto] at hn
    split at hn
    · cases hn
    · rw [List.mem_singleton.1 hn]
      exact hm

theorem add (hQ : Monomial.Closed Q) (hp : p.Reduced Q) (hq : q.Reduced Q) : (p.add q).Reduced Q :=
  hp.foldl_absorb hQ hq.kind

theorem multiplyMonomial (hQ : Monomial.Closed Q) (hp : p.Reduced Q) (hm : Q m) :
    (p.multiplyMonomial m).Reduced Q :=
  zero.foldl_absorb hQ (List.forall_mem_map.2 fun n hn => hQ.mul (hp.kind n hn) hm)

theorem multiply (hQ : Monomial.Closed Q) (hp : p.Reduced Q) (hq : q.Reduced Q) :
    (p.multiply q).Reduced Q := by
  refine zero.foldl_absorb hQ fun l hl => ?_
  obtain ⟨m, hm, hl⟩ := List.mem_flatMap.1 hl
  obtain ⟨n, hn, rfl⟩ := List.mem_map.1 hl
  exact hQ.mul (hq.kind n hn) (hp.kind m hm)

end Reduced

end Polynomial

/-! ## Terms -/

namespace Term

variable [Zero K] [Add K] [Mul K] {Q : Monomial K → Prop} {t u : Term K}

/-- A monomial of the kind `Q`, or a reduced polynomial of such monomials. -/
def Reduced (Q : Monomial K → Prop) : Term K → Prop
  | .monomial m => Q m
  | .polynomial p => p.Reduced Q

omit [Zero K] [Add K] [Mul K] in
theorem Reduced.mono {Q' : Monomial K → Prop} (h : t.Reduced Q) (hQ : ∀ m, Q m → Q' m) :
    t.Reduced Q' := by
  cases t with
  | monomial m => exact hQ m h
  | polynomial p => exact ⟨h.distinct, h.nonzero, fun m hm => hQ m (h.kind m hm)⟩

theorem Reduced.add (hQ : Monomial.Closed Q) (ht : t.Reduced Q) (hu : u.Reduced Q) :
    (t.add u).Reduced Q := by
  match t, u, ht, hu with
  | .monomial m, .monomial n, hm, hn =>
    rw [Term.add, addMonomials]
    split
    · exact hQ.new hm _
    · exact (Polynomial.Reduced.ofMonomial hm).absorb hQ hn
  | .polynomial p, .monomial n, hp, hn => exact Polynomial.Reduced.absorb hQ hp hn
  | .monomial m, .polynomial q, hm, hq => exact Polynomial.Reduced.absorb hQ hq hm
  | .polynomial p, .polynomial q, hp, hq => exact Polynomial.Reduced.add hQ hp hq

theorem Reduced.mul (hQ : Monomial.Closed Q) (ht : t.Reduced Q) (hu : u.Reduced Q) :
    (t.mul u).Reduced Q := by
  match t, u, ht, hu with
  | .monomial m, .monomial n, hm, hn => exact hQ.mul hm hn
  | .polynomial p, .monomial n, hp, hn => exact Polynomial.Reduced.multiplyMonomial hQ hp hn
  | .monomial m, .polynomial q, hm, hq => exact Polynomial.Reduced.multiplyMonomial hQ hq hm
  | .polynomial p, .polynomial q, hp, hq => exact Polynomial.Reduced.multiply hQ hp hq

omit [Zero K] [Mul K] in
theorem Reduced.toPolynomial (ht : t.Reduced Q) : t.toPolynomial.Reduced Q := by
  match t, ht with
  | .monomial m, hm => exact Polynomial.Reduced.ofMonomial hm
  | .polynomial p, hp => exact hp

/-! ## Folds -/

/-- What products keep holds of powers. -/
theorem composeFrom_induction {P : Term K → Prop} (mul : ∀ {t u}, P t → P u → P (t.mul u))
    {power : Option (Term K)} {square : Term K} (hpower : ∀ t ∈ power, P t) (hsquare : P square)
    (n : ℕ) : ∀ t ∈ composeFrom power square n, P t := by
  induction n using Nat.strongRecOn generalizing power square with
  | ind n ih =>
    rw [composeFrom.eq_def]
    split
    · exact hpower
    · rename_i hn
      dsimp only
      generalize hnext : (if n % 2 = 1 then _ else power) = next
      have next_all : ∀ t ∈ next, P t := by
        subst hnext
        split
        · cases power with
          | none => rintro t ⟨⟩; exact hsquare
          | some s => rintro t ⟨⟩; exact mul (hpower s rfl) hsquare
        · exact hpower
      split
      · exact next_all
      · exact ih (n / 2) (by omega) next_all (mul hsquare hsquare)

theorem compose_induction [One K] {P : Term K → Prop} (one : P .one)
    (mul : ∀ {t u}, P t → P u → P (t.mul u)) (ht : P t) (n : ℕ) : P (t.compose n) := by
  have nothing : ∀ u ∈ (none : Option (Term K)), P u := nofun
  have power := composeFrom_induction mul nothing ht n
  rw [compose]
  split
  · rename_i u hu
    exact power u hu
  · exact one

omit [ZeroTest K] [Zero K] [Add K] [Mul K] in
theorem foldl_induction {P : Term K → Prop} {f : Term K → Term K → Term K}
    (hf : ∀ {t u}, P t → P u → P (f t u)) {terms : List (Term K)} (ht : P t)
    (hterms : ∀ u ∈ terms, P u) : P (terms.foldl f t) := by
  induction terms generalizing t with
  | nil => exact ht
  | cons u terms ih =>
    obtain ⟨hu, hterms⟩ := List.forall_mem_cons.1 hterms
    exact ih (hf ht hu) hterms

omit [Zero K] [Mul K] in
theorem sum?_induction {P : Term K → Prop} (add : ∀ {t u}, P t → P u → P (t.add u))
    {terms : List (Term K)} (hterms : ∀ u ∈ terms, P u) (h : sum? terms = some t) : P t := by
  cases terms with
  | nil => cases h
  | cons u terms =>
    cases h
    obtain ⟨hu, hterms⟩ := List.forall_mem_cons.1 hterms
    exact foldl_induction add hu hterms

theorem product?_induction {P : Term K → Prop} (mul : ∀ {t u}, P t → P u → P (t.mul u))
    {terms : List (Term K)} (hterms : ∀ u ∈ terms, P u) (h : product? terms = some t) : P t := by
  cases terms with
  | nil => cases h
  | cons u terms =>
    cases h
    obtain ⟨hu, hterms⟩ := List.forall_mem_cons.1 hterms
    exact foldl_induction mul hu hterms

theorem Reduced.compose [One K] (hQ : Monomial.Closed Q) (ht : t.Reduced Q) (n : ℕ) :
    (t.compose n).Reduced Q :=
  compose_induction (hQ.constant 1) (fun ht hu => ht.mul hQ hu) ht n

end Term

end SamePoly
