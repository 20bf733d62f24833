/-
  Shapes as exponent functions.

  A shape is determined by the exponents of its variables, so it stands for a monomial of the
  polynomial ring over all characters.

  * `Shape.exponent_raise`, `Shape.exponent_mul`: the exponents of products.
  * `Shape.ext_exponent`: shapes with the same exponents are equal.
  * `Shape.Bounded`: no exponent passes the largest one.
  * `Shape.toFinsupp`: a shape as an exponent function with finite support.
-/
import Mathlib
import SamePoly.Polynomial.Shape

namespace SamePoly.Shape

/-! ## Lists of powers -/

theorem lookup_eq_none_of_lt {powers : List (Char × ℕ)} {c : Char}
    (h : ∀ p ∈ powers, c.toNat < p.1.toNat) : powers.lookup c = none := by
  refine List.lookup_eq_none_iff.2 fun p hp => ?_
  rw [bne_iff_ne]
  rintro rfl
  exact lt_irrefl _ (h p hp)

theorem lookup_eq_some_of_mem {powers : List (Char × ℕ)} (hs : Sorted powers) {p : Char × ℕ}
    (hp : p ∈ powers) : powers.lookup p.1 = some p.2 := by
  induction powers with
  | nil => cases hp
  | cons q rest ih =>
    obtain ⟨head, tail⟩ := List.pairwise_cons.1 hs
    rcases List.mem_cons.1 hp with rfl | hp
    · rw [List.lookup_cons, beq_self_eq_true]
    · have differ : p.1 ≠ q.1 := fun h => lt_irrefl _ (h ▸ head p hp)
      rw [List.lookup_cons, beq_eq_false_iff_ne.2 differ]
      exact ih tail hp

theorem mem_of_lookup_eq_some {powers : List (Char × ℕ)} {c : Char} {n : ℕ}
    (h : powers.lookup c = some n) : (c, n) ∈ powers := by
  induction powers with
  | nil => simp at h
  | cons q rest ih =>
    rw [List.lookup_cons] at h
    split at h
    · rename_i same
      rw [Option.some.injEq] at h
      rw [beq_iff_eq.1 same, ← h]
      exact List.mem_cons_self
    · exact List.mem_cons_of_mem _ (ih h)

/-- One more power changes one exponent. -/
theorem lookup_insertPower {powers : List (Char × ℕ)} (hs : Sorted powers) (c d : Char) (n : ℕ) :
    (insertPower c n powers).lookup d =
      if d = c then some (min ((powers.lookup c).getD 0 + n) maxExponent)
      else powers.lookup d := by
  induction powers with
  | nil =>
    rw [insertPower, List.lookup_cons]
    by_cases h : d = c
    · simp [h]
    · rw [if_neg h, beq_eq_false_iff_ne.2 h]
  | cons q rest ih =>
    obtain ⟨e, m⟩ := q
    obtain ⟨head, tail⟩ := List.pairwise_cons.1 hs
    rw [insertPower]
    by_cases hce : c = e
    · subst hce
      rw [if_pos (beq_self_eq_true c), List.lookup_cons, List.lookup_cons, List.lookup_cons,
        beq_self_eq_true]
      by_cases h : d = c
      · rw [if_pos h, h, beq_self_eq_true, Option.getD_some]
      · rw [if_neg h, beq_eq_false_iff_ne.2 h]
    · rw [if_neg (mt beq_iff_eq.1 hce)]
      split
      · rename_i less
        have absent : List.lookup c ((e, m) :: rest) = none := by
          have less : c.toNat < e.toNat := by simpa using less
          refine lookup_eq_none_of_lt fun p hp => ?_
          rcases List.mem_cons.1 hp with rfl | hp
          · exact less
          · exact less.trans (head p hp)
        rw [absent, List.lookup_cons]
        by_cases h : d = c
        · rw [if_pos h, h, beq_self_eq_true, Option.getD_none, zero_add]
        · rw [if_neg h, beq_eq_false_iff_ne.2 h]
      · rw [List.lookup_cons, List.lookup_cons, List.lookup_cons, ih tail]
        by_cases h : d = c
        · rw [h, if_pos rfl, if_pos rfl, beq_eq_false_iff_ne.2 hce]
        · rw [if_neg h, if_neg h]

/-! ## Exponents -/

variable {s t : Shape}

@[simp] theorem exponent_one (c : Char) : one.exponent c = 0 := rfl

theorem exponent_of_mem {p : Char × ℕ} (h : p ∈ s.powers) : s.exponent p.1 = p.2 := by
  rw [exponent, lookup_eq_some_of_mem s.sorted h, Option.getD_some]

theorem mem_powers_iff {c : Char} {n : ℕ} (hn : n ≠ 0) :
    (c, n) ∈ s.powers ↔ s.exponent c = n := by
  constructor
  · exact exponent_of_mem
  · intro h
    rw [exponent] at h
    cases hl : s.powers.lookup c with
    | none => rw [hl, Option.getD_none] at h; exact absurd h.symm hn
    | some m => rw [hl, Option.getD_some] at h; exact h ▸ mem_of_lookup_eq_some hl

theorem exponent_raise {n : ℕ} (hn : n ≠ 0) (c d : Char) :
    (s.raise c n).exponent d =
      if d = c then min (s.exponent c + n) maxExponent else s.exponent d := by
  rw [exponent, raise, dif_neg hn, lookup_insertPower s.sorted]
  split
  · rfl
  · rfl

/-- Shapes with the same exponents are equal. -/
theorem ext_exponent (h : ∀ c, s.exponent c = t.exponent c) : s = t := by
  apply ext
  have nodup (u : Shape) : u.powers.Nodup := by
    refine List.Pairwise.imp ?_ u.sorted
    intro p q hlt he
    exact lt_irrefl _ (he ▸ hlt)
  have sub {u v : Shape} (huv : ∀ c, u.exponent c = v.exponent c) : u.powers ⊆ v.powers := by
    rintro ⟨c, n⟩ hp
    have hn : n ≠ 0 := (u.positive _ hp).ne'
    exact (mem_powers_iff hn).2 (huv c ▸ (mem_powers_iff hn).1 hp)
  have perm := (List.subperm_of_subset (nodup s) (sub h)).antisymm
    (List.subperm_of_subset (nodup t) (sub fun c => (h c).symm))
  exact perm.eq_of_pairwise (fun p q _ _ hpq hqp => absurd hqp (lt_asymm hpq)) s.sorted t.sorted

theorem exponent_foldl_raise (powers : List (Char × ℕ)) (hs : Sorted powers)
    (hp : Positive powers) (s : Shape) (c : Char) :
    (powers.foldl (fun product (p : Char × ℕ) => product.raise p.1 p.2) s).exponent c =
      match powers.lookup c with
      | some n => min (s.exponent c + n) maxExponent
      | none => s.exponent c := by
  induction powers generalizing s with
  | nil => rfl
  | cons q rest ih =>
    obtain ⟨head, tail⟩ := List.pairwise_cons.1 hs
    have hq : q.2 ≠ 0 := (hp q List.mem_cons_self).ne'
    rw [List.foldl_cons, ih tail (fun p h => hp p (List.mem_cons_of_mem _ h)), exponent_raise hq,
      List.lookup_cons]
    by_cases h : c = q.1
    · subst h
      rw [lookup_eq_none_of_lt head, if_pos rfl, beq_self_eq_true]
    · rw [if_neg h, beq_eq_false_iff_ne.2 h]

theorem exponent_mul (s t : Shape) (c : Char) :
    (s.mul t).exponent c =
      if t.exponent c = 0 then s.exponent c else min (s.exponent c + t.exponent c) maxExponent := by
  have h := exponent_foldl_raise t.powers t.sorted t.positive s c
  rw [show (s.mul t).exponent c = _ from h]
  rw [exponent.eq_def t c]
  cases hl : t.powers.lookup c with
  | none => rw [Option.getD_none, if_pos rfl]
  | some n =>
    have hn : n ≠ 0 := (t.positive _ (mem_of_lookup_eq_some hl)).ne'
    rw [Option.getD_some, if_neg hn]

/-- The exponents of a product add up as long as they can be stored. -/
theorem exponent_mul_of_le {c : Char} (h : s.exponent c + t.exponent c ≤ maxExponent) :
    (s.mul t).exponent c = s.exponent c + t.exponent c := by
  rw [exponent_mul]
  split
  · rename_i h0
    rw [h0, add_zero]
  · exact min_eq_left h

/-- No exponent passes the largest one. -/
def Bounded (s : Shape) : Prop := ∀ c, s.exponent c ≤ maxExponent

/-- Shapes commute, because an exponent that is kept as it is was not too large. -/
theorem Bounded.mul_comm (hs : s.Bounded) (ht : t.Bounded) : s.mul t = t.mul s := by
  refine ext_exponent fun c => ?_
  have left := hs c
  have right := ht c
  rw [exponent_mul, exponent_mul]
  split <;> split <;> omega

/-! ## Exponent functions -/

/-- A shape as an exponent function. -/
noncomputable def toFinsupp (s : Shape) : Char →₀ ℕ :=
  Finsupp.onFinset (s.powers.map Prod.fst).toFinset s.exponent fun c hc => by
    rw [List.mem_toFinset, List.mem_map]
    exact ⟨(c, s.exponent c), (mem_powers_iff hc).2 rfl, rfl⟩

@[simp] theorem toFinsupp_apply (s : Shape) (c : Char) : s.toFinsupp c = s.exponent c := rfl

theorem toFinsupp_injective : Function.Injective toFinsupp := fun _ _ h =>
  ext_exponent fun c => DFunLike.congr_fun h c

@[simp] theorem toFinsupp_one : one.toFinsupp = 0 := Finsupp.ext fun _ => rfl

theorem toFinsupp_mul (h : ∀ c, s.exponent c + t.exponent c ≤ maxExponent) :
    (s.mul t).toFinsupp = s.toFinsupp + t.toFinsupp :=
  Finsupp.ext fun c => exponent_mul_of_le (h c)

end SamePoly.Shape
