/-
  Complex numbers with exact parts.

  Over exact fractions the numbers of an expression form a field, the Gaussian rationals, and
  the tests on scalars decide what their names say.

  * `Number.instField`: the field of exact numbers, with the operations of `Number`.
  * `Number.power?_intCast`: a power with an integer exponent is the power of the field.
  * `Number.exponent?_intCast`: an integer is an exponent of a symbolic base unless it is
    negative.
-/
import Mathlib
import SamePoly.Number.Power
import SamePoly.Scalar.Exact

namespace SamePoly

/-! ## Tests on fractions -/

namespace Scalar

theorem isZero_iff {x : ℚ} : isZero x = true ↔ x = 0 := by
  show (x.num == (0 : ℚ).num && x.den == (0 : ℚ).den) = true ↔ x = 0
  rw [Bool.and_eq_true, beq_iff_eq, beq_iff_eq]
  exact ⟨fun h => Rat.ext h.1 h.2, fun h => h ▸ ⟨rfl, rfl⟩⟩

theorem same_iff {x y : ℚ} : same x y = true ↔ x = y := by
  show (x.num == y.num && x.den == y.den) = true ↔ x = y
  rw [Bool.and_eq_true, beq_iff_eq, beq_iff_eq]
  exact ⟨fun h => Rat.ext h.1 h.2, fun h => h ▸ ⟨rfl, rfl⟩⟩

theorem less_iff {x y : ℚ} : less x y = true ↔ x < y := by
  exact Iff.rfl

theorem atMost_iff {x y : ℚ} : atMost x y = true ↔ x ≤ y := by
  show (!y.blt x) = true ↔ y.blt x = false
  rw [Bool.not_eq_true']

theorem abs_eq (x : ℚ) : Scalar.abs x = |x| := by
  show (if x.num < 0 then x.neg else x) = |x|
  split
  · rename_i h
    exact (abs_of_neg (Rat.num_neg.1 h)).symm
  · rename_i h
    exact (abs_of_nonneg (Rat.num_nonneg.1 (not_lt.1 h))).symm

theorem ofDecimal_eq (digits places : ℕ) :
    (ofDecimal digits places : ℚ) = digits / 10 ^ places := by
  show mkRat digits (Nat.pow 10 places) = digits / 10 ^ places
  rw [Rat.mkRat_eq_div, Nat.pow_eq]
  push_cast
  rfl

theorem ofNat_eq (n : ℕ) : (Scalar.ofNat n : ℚ) = n := by
  rw [Scalar.ofNat, ofDecimal_eq, pow_zero, div_one]

theorem floor_intCast_add_half (n : ℤ) : ((n : ℚ) + mkRat 1 2).floor = n := by
  rw [add_comm, Rat.floor_add_intCast, show (mkRat 1 2).floor = 0 by rfl, zero_add]

/-- An integer is its own nearest integer. -/
theorem round_intCast (n : ℤ) : Scalar.round (n : ℚ) = n := by
  show (if (n : ℚ).num < 0 then ((Rat.ofInt (((n : ℚ).neg).add (mkRat 1 2)).floor)).neg
    else Rat.ofInt ((n : ℚ).add (mkRat 1 2)).floor) = n
  have up (m : ℤ) : Rat.ofInt ((m : ℚ).add (mkRat 1 2)).floor = (m : ℚ) :=
    congrArg Rat.ofInt (floor_intCast_add_half m)
  split
  · have h : (n : ℚ).neg = ((-n : ℤ) : ℚ) := by
      show -(n : ℚ) = _
      push_cast
      rfl
    rw [h, up]
    show -((-n : ℤ) : ℚ) = n
    push_cast
    exact neg_neg _
  · exact up n

theorem isIntegral_intCast (n : ℤ) : isIntegral (n : ℚ) = true := by
  show (true && same (Scalar.round (n : ℚ)) (n : ℚ)) = true
  rw [Bool.true_and, same_iff, round_intCast]

theorem toInt_intCast (n : ℤ) : toInt (n : ℚ) = n := by
  show (n : ℚ).floor = n
  exact Rat.floor_intCast n

theorem pow_intCast (x : ℚ) (n : ℤ) : Scalar.pow x (n : ℚ) = x ^ n := by
  show (if (n : ℚ).den == 1 then x.zpow (n : ℚ).num else Rat.ofInt 0) = x ^ n
  rw [Rat.den_intCast, Rat.num_intCast]
  rfl

end Scalar

namespace Number

/-! ## The field of exact numbers -/

theorem ext {R : Type} {z w : Number R} (hre : z.re = w.re) (him : z.im = w.im) : z = w := by
  cases z; cases w
  cases hre; cases him
  rfl

@[simp] theorem re_zero : (0 : Number ℚ).re = 0 := rfl
@[simp] theorem im_zero : (0 : Number ℚ).im = 0 := rfl
@[simp] theorem re_one : (1 : Number ℚ).re = 1 := rfl
@[simp] theorem im_one : (1 : Number ℚ).im = 0 := rfl
@[simp] theorem re_add (z w : Number ℚ) : (z + w).re = z.re + w.re := rfl
@[simp] theorem im_add (z w : Number ℚ) : (z + w).im = z.im + w.im := rfl
@[simp] theorem re_sub (z w : Number ℚ) : (z - w).re = z.re - w.re := rfl
@[simp] theorem im_sub (z w : Number ℚ) : (z - w).im = z.im - w.im := rfl
@[simp] theorem re_neg (z : Number ℚ) : (-z).re = -z.re := rfl
@[simp] theorem im_neg (z : Number ℚ) : (-z).im = -z.im := rfl
@[simp] theorem re_mul (z w : Number ℚ) : (z * w).re = z.re * w.re - z.im * w.im := rfl
@[simp] theorem im_mul (z w : Number ℚ) : (z * w).im = z.re * w.im + z.im * w.re := rfl
@[simp] theorem re_ofReal (x : ℚ) : (ofReal x).re = x := rfl
@[simp] theorem im_ofReal (x : ℚ) : (ofReal x).im = 0 := rfl

theorem squaredSize_eq (z : Number ℚ) : z.squaredSize = z.re * z.re + z.im * z.im := rfl

theorem squaredSize_ne_zero {z : Number ℚ} (h : z ≠ 0) : z.squaredSize ≠ 0 := by
  intro h0
  rw [squaredSize_eq] at h0
  have hre := mul_self_nonneg z.re
  have him := mul_self_nonneg z.im
  exact h (ext (mul_self_eq_zero.1 (by linarith)) (mul_self_eq_zero.1 (by linarith)))

theorem re_inverse (z : Number ℚ) : z.inverse.re = z.re / z.squaredSize := rfl
theorem im_inverse (z : Number ℚ) : z.inverse.im = -z.im / z.squaredSize := rfl

theorem mul_inverse {z : Number ℚ} (h : z ≠ 0) : z * z.inverse = 1 := by
  have hs := squaredSize_ne_zero h
  apply ext
  · rw [re_mul, re_inverse, im_inverse]
    field_simp
    rw [squaredSize_eq, re_one]
    ring
  · rw [im_mul, re_inverse, im_inverse, im_one]
    field_simp
    ring

instance instField : Field (Number ℚ) where
  add_assoc _ _ _ := ext (add_assoc _ _ _) (add_assoc _ _ _)
  zero_add _ := ext (zero_add _) (zero_add _)
  add_zero _ := ext (add_zero _) (add_zero _)
  add_comm _ _ := ext (add_comm _ _) (add_comm _ _)
  neg_add_cancel _ := ext (neg_add_cancel _) (neg_add_cancel _)
  sub_eq_add_neg _ _ := ext (sub_eq_add_neg _ _) (sub_eq_add_neg _ _)
  mul_assoc _ _ _ := ext (by simp; ring) (by simp; ring)
  one_mul _ := ext (by simp) (by simp)
  mul_one _ := ext (by simp) (by simp)
  mul_comm _ _ := ext (by simp; ring) (by simp; ring)
  left_distrib _ _ _ := ext (by simp; ring) (by simp; ring)
  right_distrib _ _ _ := ext (by simp; ring) (by simp; ring)
  zero_mul _ := ext (by simp) (by simp)
  mul_zero _ := ext (by simp) (by simp)
  nsmul := nsmulRec
  zsmul := zsmulRec
  inv := inverse
  div_eq_mul_inv z w := by
    apply ext
    · show (z.re * w.re + z.im * w.im) / w.squaredSize = _
      rw [re_mul]
      show _ = z.re * (w.re / w.squaredSize) - z.im * (-w.im / w.squaredSize)
      ring
    · show (z.im * w.re - z.re * w.im) / w.squaredSize = _
      rw [im_mul]
      show _ = z.re * (-w.im / w.squaredSize) + z.im * (w.re / w.squaredSize)
      ring
  exists_pair_ne := ⟨0, 1, fun h => zero_ne_one (congrArg Number.re h)⟩
  mul_inv_cancel _ h := mul_inverse h
  inv_zero := ext (by show (0 : ℚ) / _ = 0; rw [zero_div]) (by
    show (-(0 : ℚ)) / _ = 0
    rw [neg_zero, zero_div])
  nnqsmul := _
  nnqsmul_def _ _ := rfl
  qsmul := _
  qsmul_def _ _ := rfl

theorem inverse_eq (z : Number ℚ) : z.inverse = z⁻¹ := rfl

theorem isZero_iff {z : Number ℚ} : z.isZero = true ↔ z = 0 := by
  rw [isZero, Bool.and_eq_true, Scalar.isZero_iff, Scalar.isZero_iff]
  exact ⟨fun h => ext h.1 h.2, fun h => h ▸ ⟨rfl, rfl⟩⟩

theorem isReal_iff {z : Number ℚ} : z.isReal = true ↔ z.im = 0 := Scalar.isZero_iff

theorem isFinite_eq_true (z : Number ℚ) : z.isFinite = true := rfl

theorem ofReal_add (x y : ℚ) : ofReal (x + y) = ofReal x + ofReal y := ext rfl (add_zero 0).symm

theorem ofReal_mul (x y : ℚ) : ofReal (x * y) = ofReal x * ofReal y :=
  ext (by simp) (by simp)

theorem ofReal_inv (x : ℚ) : ofReal x⁻¹ = (ofReal x)⁻¹ := by
  by_cases hx : x = 0
  · subst hx
    rw [inv_zero]
    exact inv_zero.symm
  · refine eq_inv_of_mul_eq_one_left ?_
    rw [← ofReal_mul, inv_mul_cancel₀ hx]
    rfl

theorem ofReal_pow (x : ℚ) (n : ℕ) : ofReal (x ^ n) = ofReal x ^ n := by
  induction n with
  | zero => rw [pow_zero, pow_zero]; rfl
  | succ n ih => rw [pow_succ, pow_succ, ofReal_mul, ih]

theorem ofReal_zpow (x : ℚ) (n : ℤ) : ofReal (x ^ n) = ofReal x ^ n := by
  cases n with
  | ofNat n => rw [Int.ofNat_eq_natCast, zpow_natCast, zpow_natCast, ofReal_pow]
  | negSucc n => rw [zpow_negSucc, zpow_negSucc, ofReal_inv, ofReal_pow]

theorem eq_ofReal {z : Number ℚ} (h : z.im = 0) : z = ofReal z.re := ext rfl h

theorem divide?_eq (z w : Number ℚ) : z.divide? w = if w = 0 then none else some (z / w) := by
  rw [divide?]
  by_cases hw : w = 0
  · rw [if_pos (isZero_iff.2 hw), if_pos hw]
  · rw [if_neg fun h => hw (isZero_iff.1 h), if_neg hw]
    split
    · rename_i h
      rw [Bool.and_eq_true, isReal_iff, isReal_iff] at h
      conv => rhs; rw [eq_ofReal h.1, eq_ofReal h.2, div_eq_mul_inv, ← ofReal_inv, ← ofReal_mul,
        ← div_eq_mul_inv]
    · rfl

/-! ## Powers -/

theorem powBits_eq (product base : Number ℚ) (exponent : ℕ) :
    powBits product base exponent = product * (base * base) ^ (exponent / 2) := by
  induction exponent using Nat.strongRecOn generalizing product base with
  | ind n ih =>
    rw [powBits]
    split
    · rw [show n / 2 = 0 by omega, pow_zero, mul_one]
    · rw [ih (n / 2) (by omega)]
      rcases Nat.mod_two_eq_zero_or_one (n / 2) with h | h
      · rw [if_neg (by simp [h]), ← pow_two (base * base), ← pow_mul]
        congr 2
        omega
      · rw [if_pos (by simp [h]), mul_assoc, ← pow_two (base * base), ← pow_mul, ← pow_succ']
        congr 2
        omega

theorem powNat_eq (base : Number ℚ) (exponent : ℕ) : base.powNat exponent = base ^ exponent := by
  induction exponent using Nat.strongRecOn generalizing base with
  | ind n ih =>
    rw [powNat]
    split
    · rename_i h
      rw [h, pow_zero]
    · split
      · rw [ih (n / 2) (by omega), ← pow_two, ← pow_mul]
        congr 1
        omega
      · rw [powBits_eq, ← pow_two, ← pow_mul, ← pow_succ']
        congr 1
        omega

theorem powInt_eq (base : Number ℚ) (exponent : ℤ) : base.powInt exponent = base ^ exponent := by
  cases exponent with
  | ofNat n => rw [powInt, powNat_eq, Int.ofNat_eq_natCast, zpow_natCast]
  | negSucc n => rw [powInt, powNat_eq, inverse_eq, zpow_negSucc, inv_pow]

theorem pointPowerNat_eq (z : Number ℚ) (n : ℕ) :
    Scalar.Exact.pointPowerNat z.re z.im n = ((z ^ n).re, (z ^ n).im) := by
  induction n with
  | zero => rfl
  | succ n ih =>
    rw [Scalar.Exact.pointPowerNat, ih, pow_succ, re_mul, im_mul]
    rfl

/-- A power that is too large to multiply step by step is still exact. -/
theorem transcendentalPower_intCast (z : Number ℚ) (n : ℤ) :
    Scalar.transcendentalPower z.re z.im (n : ℚ) 0 = ((z ^ n).re, (z ^ n).im) := by
  show Scalar.Exact.pointPower z.re z.im (n : ℚ) 0 = _
  rw [Scalar.Exact.pointPower, if_pos (by rw [Rat.den_intCast]; rfl), Rat.num_intCast]
  cases n with
  | ofNat n =>
    rw [Int.ofNat_eq_natCast, zpow_natCast]
    exact pointPowerNat_eq z n
  | negSucc n =>
    rw [zpow_negSucc, ← inv_pow]
    exact pointPowerNat_eq z⁻¹ (n + 1)

/-- A power with an integer exponent is the power of the field; zero has no negative
    powers. -/
theorem power?_intCast (base : Number ℚ) (n : ℤ) :
    base.power? (ofReal n) = if base = 0 ∧ n < 0 then none else some (base ^ n) := by
  have real : (ofReal (n : ℚ)).isReal = true := isReal_iff.2 rfl
  have integral : Scalar.isIntegral (ofReal (n : ℚ)).re = true := Scalar.isIntegral_intCast n
  have negative : Scalar.less (ofReal (n : ℚ)).re 0 = true ↔ n < 0 :=
    Scalar.less_iff.trans Int.cast_lt_zero
  have zero : Scalar.isZero (ofReal (n : ℚ)).re = true ↔ n = 0 :=
    Scalar.isZero_iff.trans Int.cast_eq_zero
  rw [power?, real, integral]
  by_cases hb : base = 0
  · rw [if_pos (isZero_iff.2 hb), hb, Bool.not_true, Bool.false_or]
    by_cases hn : n < 0
    · rw [if_pos (negative.2 hn), if_pos ⟨rfl, hn⟩]
    · rw [if_neg (mt negative.1 hn), if_neg fun h : (0 : Number ℚ) = 0 ∧ n < 0 => hn h.2]
      by_cases hz : n = 0
      · rw [if_pos (zero.2 hz), hz, zpow_zero]
      · rw [if_neg (mt zero.1 hz), zero_zpow n hz]
  · rw [if_neg (mt isZero_iff.1 hb), if_neg fun h : base = 0 ∧ n < 0 => hb h.1,
      Bool.true_and, Bool.or_true, Bool.and_true]
    by_cases hreal : base.isReal = true
    · rw [if_pos hreal, re_ofReal, Scalar.pow_intCast, ofReal_zpow, ← eq_ofReal (isReal_iff.1 hreal)]
    · rw [if_neg hreal, Bool.true_and]
      split
      · rw [re_ofReal, Scalar.toInt_intCast, powInt_eq]
      · rw [re_ofReal, im_ofReal, transcendentalPower_intCast]

/-! ## Sizes and exponents -/

/-- A point is nearer to the origin than a bound when its squared distance is less than the
    square of the bound. -/
theorem nearer_iff {z : Number ℚ} {bound : ℚ} (hb : 0 ≤ bound) :
    z.nearer bound = true ↔ z.re ^ 2 + z.im ^ 2 < bound ^ 2 := by
  show (decide (0 ≤ bound.num) && (Scalar.Exact.squaredDistance z.re z.im).blt (bound.mul bound)) =
    true ↔ _
  rw [decide_eq_true (Rat.num_nonneg.2 hb), Bool.true_and, pow_two, pow_two, pow_two]
  exact Iff.rfl

theorem denominatorTolerance_eq : (Scalar.denominatorTolerance : ℚ) = 1 / 10 ^ 10 := by
  rw [Scalar.denominatorTolerance, Scalar.ofDecimal_eq, Nat.cast_one]

theorem integerTolerance_pos : 0 < (Scalar.integerTolerance : ℚ) := by
  rw [Scalar.integerTolerance, Scalar.ofDecimal_eq, Nat.cast_one]
  positivity

/-- The exponent of a symbolic base is any integer that is not negative. -/
theorem exponent?_intCast (n : ℤ) :
    (ofReal (n : ℚ)).exponent? =
      if n < 0 then .error .rationalFunction else .ok (n : ℚ) := by
  have small : Scalar.atMost (Scalar.integerTolerance : ℚ) 0 = false := by
    rw [← Bool.not_eq_true, Scalar.atMost_iff, not_le]
    exact integerTolerance_pos
  have real : Scalar.atMost Scalar.integerTolerance (Scalar.abs (ofReal (n : ℚ)).im) = false := by
    rw [im_ofReal, Scalar.abs_eq, abs_zero]
    exact small
  have integral : Scalar.atMost Scalar.integerTolerance
      (Scalar.abs ((n : ℚ) - Scalar.round (n : ℚ))) = false := by
    rw [Scalar.round_intCast, sub_self, Scalar.abs_eq, abs_zero]
    exact small
  rw [exponent?, real, re_ofReal, integral, Scalar.round_intCast]
  by_cases h : n < 0
  · rw [if_pos h, if_neg Bool.false_ne_true, if_neg (by exact Bool.false_ne_true),
      if_pos (Scalar.less_iff.2 (Int.cast_lt_zero.2 h))]
  · rw [if_neg h, if_neg Bool.false_ne_true, if_neg (by exact Bool.false_ne_true),
      if_neg fun hl => h (Int.cast_lt_zero.1 (Scalar.less_iff.1 hl))]

end Number

end SamePoly
