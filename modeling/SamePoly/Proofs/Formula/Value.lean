/-
  The numeric value of a formula without variables.

  A formula without variables denotes a constant, and evaluating its normalized text as a
  numeric expression gives that constant.

  * `Formula.value`: the constant part of what a formula denotes.
  * `Formula.toSum`: a formula without variables as a numeric expression.
  * `Formula.evaluate_text`: **the value of the normalized text is the constant that the
    formula denotes**.
-/
import SamePoly.Proofs.Formula.Normal
import SamePoly.Proofs.Reader

namespace SamePoly

open Arithmetic (Primary Power Unary Product Sum Token)

namespace Formula

/-! ## Constants -/

/-- The constant part of what a formula denotes. -/
noncomputable def value (f : Formula) : Number ℚ := MvPolynomial.constantCoeff f.denote

/-- A formula without variables denotes a constant. -/
theorem denote_eq_C {f : Formula} (h : f.isNumeric = true) :
    f.denote = MvPolynomial.C f.value := by
  suffices ∃ z, f.denote = MvPolynomial.C z by
    obtain ⟨z, hz⟩ := this
    rw [value, hz, MvPolynomial.constantCoeff_C]
  induction f with
  | atom a =>
    cases a with
    | decimal whole fraction => exact ⟨_, rfl⟩
    | unit => exact ⟨_, rfl⟩
    | letter name isName => cases h
  | negation f ih =>
    obtain ⟨z, hz⟩ := ih h
    exact ⟨-z, by rw [denote, hz, map_neg]⟩
  | binary o f g ihf ihg =>
    rw [isNumeric, Bool.and_eq_true] at h
    obtain ⟨z, hz⟩ := ihf h.1
    obtain ⟨w, hw⟩ := ihg h.2
    cases o with
    | sum => exact ⟨z + w, by rw [denote, hz, hw, map_add]⟩
    | difference => exact ⟨z - w, by rw [denote, hz, hw, map_sub]⟩
    | product => exact ⟨z * w, by rw [denote, hz, hw, map_mul]⟩
    | quotient => exact ⟨_, by rw [denote, hz, ← map_mul]⟩
  | power f n ih =>
    obtain ⟨z, hz⟩ := ih h
    exact ⟨z ^ n.value, by rw [denote, hz, map_pow]⟩

end Formula

theorem Number.AtLeast.ne_zero {bound : ℚ} (hb : 0 < bound) {z : Number ℚ} (h : z.AtLeast bound) :
    z ≠ 0 := by
  rintro rfl
  have : bound ^ 2 ≤ (0 : ℚ) ^ 2 + 0 ^ 2 := h
  have := pow_pos hb 2
  linarith

/-! ## Numeric expressions -/

/-- A primary as a numeric expression of its own. -/
def Arithmetic.Primary.toSum (b : Primary) : Sum := .single (.single (.signed [] (.plain b)))

/-- The primary of an atom without variables. -/
def Atom.toPrimary : Atom → Primary
  | .decimal whole fraction => .number (literal whole fraction)
  | _ => .imaginary none

namespace Formula

/-- A formula without variables as a numeric expression. -/
def toSum : Formula → Sum
  | .atom a => a.toPrimary.toSum
  | .negation f => .single (.single (.signed [.minus] (.plain (.group f.toSum))))
  | .binary .sum f g => .plus (Primary.group f.toSum).toSum (.single (.signed [] (.plain (.group g.toSum))))
  | .binary .difference f g =>
    .minus (Primary.group f.toSum).toSum (.single (.signed [] (.plain (.group g.toSum))))
  | .binary .product f g =>
    .single (.beside (.single (.signed [] (.plain (.group f.toSum)))) (.plain (.group g.toSum)))
  | .binary .quotient f g =>
    .single (.over (.single (.signed [] (.plain (.group f.toSum))))
      (.signed [] (.plain (.group g.toSum))))
  | .power f n =>
    .single (.single (.signed [] (.raised (.group f.toSum)
      (.signed [] (.plain (.group (Primary.number (Atom.literal n none)).toSum))))))

end Formula

theorem spelling_append (ts us : List Token) :
    Token.spelling (ts ++ us) = Token.spelling ts ++ Token.spelling us := List.flatMap_append

theorem spelling_cons (t : Token) (ts : List Token) :
    Token.spelling (t :: ts) = t.text ++ Token.spelling ts := List.flatMap_cons

theorem spelling_group (s : Sum) :
    Token.spelling (Primary.group s).tokens = bracketed (Token.spelling s.tokens) := by
  rw [Primary.tokens, List.cons_append, spelling_cons, spelling_append]
  rfl

namespace Formula

/-- The numeric expression of a formula is spelled as its normalized text. -/
theorem spelling_toSum {f : Formula} (h : f.isNumeric = true) :
    Token.spelling f.toSum.tokens = f.text := by
  induction f with
  | atom a =>
    cases a with
    | decimal whole fraction => exact List.append_nil _
    | unit => rfl
    | letter name isName => cases h
  | negation f ih =>
    show Token.spelling (.minus :: (Primary.group f.toSum).tokens) = _
    rw [spelling_cons, spelling_group, ih h]
    rfl
  | binary o f g ihf ihg =>
    rw [isNumeric, Bool.and_eq_true] at h
    obtain ⟨sign, tokens, spelled⟩ : ∃ sign, (binary o f g).toSum.tokens =
        (Primary.group f.toSum).tokens ++ (sign ++ (Primary.group g.toSum).tokens) ∧
        Token.spelling sign = o.sign := by
      cases o with
      | sum => exact ⟨[.plus], rfl, rfl⟩
      | difference => exact ⟨[.minus], rfl, rfl⟩
      | product => exact ⟨[], rfl, rfl⟩
      | quotient => exact ⟨[.over], rfl, rfl⟩
    rw [tokens, spelling_append, spelling_append, spelling_group, spelling_group, ihf h.1, ihg h.2,
      spelled, text, List.append_assoc]
  | power f n ih =>
    show Token.spelling ((Primary.group f.toSum).tokens ++ .power ::
      (Primary.group (Primary.number (Atom.literal n none)).toSum).tokens) = _
    rw [spelling_append, spelling_cons, spelling_group, spelling_group, ih h]
    show _ = bracketed f.text ++ '^' :: bracketed n.digits
    rw [show Token.spelling (Primary.number (Atom.literal n none)).toSum.tokens = n.digits from
      List.append_nil _]
    rfl

end Formula

theorem Atom.literal_valid (whole : Numeral) (fraction : Option Numeral) :
    (literal whole fraction).Valid := by
  constructor
  · intro c hc
    rcases List.mem_append.1 hc with hc | hc
    · exact whole.decimal c hc
    · cases fraction with
      | none => cases hc
      | some fraction => exact fraction.decimal c hc
  · exact fun h => whole.nonempty (List.append_eq_nil_iff.1 h).1

namespace Arithmetic.Token

/-- Tokens that are read back from their spelling. -/
def Legible (ts : List Token) : Prop := (∀ t ∈ ts, t.Valid) ∧ ts.IsChain Apart

theorem Apart.left {t u : Token} (h : ∀ l, t ≠ .number l) : Apart t u := by
  cases t with
  | number l => exact absurd rfl (h l)
  | _ => trivial

theorem Apart.right {t u : Token} (h : u.isAtom = false) : Apart t u := by
  cases t with
  | number l => exact h
  | _ => trivial

theorem Legible.singleton {t : Token} (h : t.Valid) : Legible [t] := by
  refine ⟨fun u hu => ?_, List.isChain_singleton _⟩
  rw [List.mem_singleton.1 hu]
  exact h

/-- A token that is no atom fits between legible tokens. -/
theorem Legible.cons_append {ts us : List Token} (hts : Legible ts) (hus : Legible us) {t : Token}
    (ht : t.isAtom = false) : Legible (ts ++ t :: us) := by
  have valid : t.Valid := by
    cases t with
    | number l => cases ht
    | imaginary l => cases ht
    | _ => trivial
  have notNumber : ∀ l, t ≠ .number l := by
    rintro l rfl
    cases ht
  refine ⟨fun u hu => ?_, List.isChain_append.2 ⟨hts.2, List.isChain_cons.2 ⟨?_, hus.2⟩, ?_⟩⟩
  · rcases List.mem_append.1 hu with hu | hu
    · exact hts.1 u hu
    · rcases List.mem_cons.1 hu with rfl | hu
      · exact valid
      · exact hus.1 u hu
  · exact fun u _ => .left notNumber
  · rintro u - v hv
    cases hv
    exact .right ht

theorem Legible.nil : Legible [] := ⟨fun _ h => (nomatch h), .nil⟩

/-- Brackets keep tokens legible, whatever follows them. -/
theorem Legible.group_append {s : Sum} (hs : Legible s.tokens) {us : List Token} (hus : Legible us) :
    Legible ((Primary.group s).tokens ++ us) := by
  have inner : Legible (s.tokens ++ .closing :: us) := hs.cons_append hus rfl
  have := Legible.nil.cons_append inner (t := .opening) rfl
  rwa [List.nil_append, show .opening :: (s.tokens ++ .closing :: us) =
    (Primary.group s).tokens ++ us by rw [Primary.tokens, List.cons_append, List.cons_append,
      List.append_assoc, List.singleton_append]] at this

theorem Legible.group {s : Sum} (hs : Legible s.tokens) : Legible (Primary.group s).tokens := by
  have := hs.group_append .nil
  rwa [List.append_nil] at this

end Arithmetic.Token

open Arithmetic.Token (Legible)

/-- The tokens of a numeric formula are read back from their spelling. -/
theorem Formula.legible_toSum (f : Formula) : Legible f.toSum.tokens := by
  induction f with
  | atom a =>
    cases a with
    | decimal whole fraction => exact .singleton (Atom.literal_valid whole fraction)
    | unit => exact .singleton trivial
    | letter name isName => exact .singleton trivial
  | negation f ih => exact Legible.nil.cons_append ih.group (t := .minus) rfl
  | binary o f g ihf ihg =>
    cases o with
    | sum => exact ihf.group.cons_append ihg.group (t := .plus) rfl
    | difference => exact ihf.group.cons_append ihg.group (t := .minus) rfl
    | product => exact ihf.group_append ihg.group
    | quotient => exact ihf.group.cons_append ihg.group (t := .over) rfl
  | power f n ih =>
    have exponent : Legible (Primary.number (Atom.literal n none)).toSum.tokens :=
      .singleton (Atom.literal_valid n none)
    exact ih.group.cons_append exponent.group (t := .power) rfl

/-! ## Values -/

theorem Atom.value_literal (whole : Numeral) (fraction : Option Numeral) :
    (literal whole fraction).value = decimalValue whole fraction := Scalar.ofDecimal_eq _ _

/-- The value of digits without a point is the number that they stand for. -/
theorem Atom.decimalValue_none (n : Numeral) : decimalValue n none = n.value := by
  show ((Nat.ofDigitChars 10 (n.digits ++ []) 0 : ℕ) : ℚ) / 10 ^ 0 = n.value
  rw [List.append_nil, pow_zero, div_one]
  rfl

theorem value?_toSum (b : Primary) :
    (b.toSum.value? : Option (Number ℚ)) = b.value? := by
  rw [Primary.toSum, Sum.value?, Product.value?, Unary.value?, Power.value?]
  cases (b.value? : Option (Number ℚ)) <;> rfl

namespace Formula

/-- The numeric expression of a formula has the value of the formula. -/
theorem value?_toSum {f : Formula} (h : f.isNumeric = true) (proper : f.Proper) :
    (f.toSum.value? : Option (Number ℚ)) = some f.value := by
  induction f with
  | atom a =>
    cases a with
    | decimal whole fraction =>
      rw [toSum, SamePoly.value?_toSum, Atom.toPrimary, Primary.value?, Atom.value_literal, value,
        denote, Atom.denote, MvPolynomial.constantCoeff_C]
    | unit =>
      show ((Primary.imaginary none).toSum.value? : Option (Number ℚ)) = _
      rw [SamePoly.value?_toSum, Primary.value?, value, denote, Atom.denote,
        MvPolynomial.constantCoeff_C]
    | letter name isName => cases h
  | negation f ih =>
    have hf := ih h proper
    simp only [toSum, Sum.value?, Product.value?, Unary.value?, Power.value?, Primary.value?, hf]
    show some (-f.value) = some (MvPolynomial.constantCoeff (-f.denote))
    rw [map_neg, value]
  | binary o f g ihf ihg =>
    rw [isNumeric, Bool.and_eq_true] at h
    have properOperands : f.Proper ∧ g.Proper := by
      cases o with
      | quotient => exact ⟨proper.1, proper.2.1⟩
      | _ => exact proper
    have hf := ihf h.1 properOperands.1
    have hg := ihg h.2 properOperands.2
    cases o with
    | sum =>
      simp only [toSum, Primary.toSum, Sum.value?, Product.value?, Unary.value?, Power.value?,
        Primary.value?, hf, hg]
      show some (f.value + g.value) = some (MvPolynomial.constantCoeff (f.denote + g.denote))
      rw [map_add, value, value]
    | difference =>
      simp only [toSum, Primary.toSum, Sum.value?, Product.value?, Unary.value?, Power.value?,
        Primary.value?, hf, hg]
      show some (f.value - g.value) = some (MvPolynomial.constantCoeff (f.denote - g.denote))
      rw [map_sub, value, value]
    | product =>
      simp only [toSum, Sum.value?, Product.value?, Unary.value?, Power.value?, Primary.value?, hf,
        hg]
      show some (f.value * g.value) = some (MvPolynomial.constantCoeff (f.denote * g.denote))
      rw [map_mul, value, value]
    | quotient =>
      have nonzero : g.value ≠ 0 := proper.2.2.2.ne_zero (by norm_num)
      simp only [toSum, Sum.value?, Product.value?, Unary.value?, Power.value?, Primary.value?, hf,
        hg]
      show f.value.divide? g.value = some (MvPolynomial.constantCoeff
        (f.denote * MvPolynomial.C (MvPolynomial.constantCoeff g.denote)⁻¹))
      rw [Number.divide?_eq, if_neg nonzero, map_mul, MvPolynomial.constantCoeff_C, div_eq_mul_inv,
        value, value]
  | power f n ih =>
    have hf := ih h proper
    have hn : ((Primary.number (Atom.literal n none)).toSum.value? : Option (Number ℚ)) =
        some (.ofReal ((n.value : ℤ) : ℚ)) := by
      rw [SamePoly.value?_toSum, Primary.value?, Atom.value_literal, Atom.decimalValue_none]
      rfl
    have power : f.value.power? (.ofReal ((n.value : ℤ) : ℚ)) = some (f.value ^ n.value) := by
      rw [Number.power?_intCast, if_neg fun hz : f.value = 0 ∧ (n.value : ℤ) < 0 =>
        absurd hz.2 (not_lt.2 (Int.natCast_nonneg _)), zpow_natCast]
    simp only [toSum, Sum.value?, Product.value?, Unary.value?, Power.value?, Primary.value?, hf, hn]
    show (f.value.power? (.ofReal ((n.value : ℤ) : ℚ))).bind some = some (f.power n).value
    rw [power, value, value, denote, map_pow]
    rfl

end Formula

theorem evaluate_spelling {s : Sum} {z : Number ℚ} (legible : Legible s.tokens)
    (hz : s.value? = some z) : evaluate (Token.spelling s.tokens) = .ok z := by
  have read : Sum.read? (Token.spelling s.tokens) = some s := by
    rw [Sum.read?, Token.scan?_spelling legible.1 legible.2]
    exact Sum.ofTokens?_tokens s
  rw [evaluate, read]
  dsimp only
  rw [hz]

namespace Formula

variable {f : Formula}

/-- **The value of the normalized text is the constant that the formula denotes.** -/
theorem evaluate_text (h : f.isNumeric = true) (proper : f.Proper) :
    (evaluate f.text : Except EvalError (Number ℚ)) = .ok f.value := by
  rw [← spelling_toSum h]
  exact evaluate_spelling f.legible_toSum (value?_toSum h proper)

/-- Brackets do not change the value. -/
theorem evaluate_bracketed_text (h : f.isNumeric = true) (proper : f.Proper) :
    (evaluate (bracketed f.text) : Except EvalError (Number ℚ)) = .ok f.value := by
  rw [← spelling_toSum h, ← spelling_group]
  refine evaluate_spelling (s := (Primary.group f.toSum).toSum) f.legible_toSum.group ?_
  rw [SamePoly.value?_toSum]
  exact value?_toSum h proper

end Formula

namespace Numeral

variable (n : Numeral)

theorem formulaValue : (Formula.atom (.decimal n none)).value = .ofReal ((n.value : ℤ) : ℚ) := by
  rw [Formula.value, Formula.denote, Atom.denote, MvPolynomial.constantCoeff_C,
    Atom.decimalValue_none]
  rfl

theorem evaluate_digits :
    (evaluate n.digits : Except EvalError (Number ℚ)) = .ok (.ofReal ((n.value : ℤ) : ℚ)) := by
  rw [← n.formulaValue]
  exact Formula.evaluate_text (f := .atom (.decimal n none)) rfl trivial

/-- The value of an exponent in brackets. -/
theorem evaluate_bracketed :
    (evaluate (bracketed n.digits) : Except EvalError (Number ℚ)) =
      .ok (.ofReal ((n.value : ℤ) : ℚ)) := by
  rw [← n.formulaValue]
  exact Formula.evaluate_bracketed_text (f := .atom (.decimal n none)) rfl trivial

/-- A minus sign in front of digits. -/
theorem evaluate_minus :
    (evaluate ('-' :: n.digits) : Except EvalError (Number ℚ)) =
      .ok (-.ofReal ((n.value : ℤ) : ℚ)) := by
  have digits : Token.spelling (Primary.number (Atom.literal n none)).tokens = n.digits :=
    List.append_nil _
  have literal : Legible (Primary.number (Atom.literal n none)).tokens :=
    .singleton (t := .number (Atom.literal n none)) (Atom.literal_valid n none)
  let negated := Sum.single (.single (.signed [.minus] (.plain (.number (Atom.literal n none)))))
  have legible : Legible negated.tokens := Legible.nil.cons_append (t := .minus) literal rfl
  have value : (negated.value? : Option (Number ℚ)) = some (-.ofReal ((n.value : ℤ) : ℚ)) := by
    rw [Sum.value?, Product.value?, Unary.value?, Power.value?, Primary.value?, Atom.value_literal,
      Atom.decimalValue_none]
    rfl
  rw [← digits]
  exact evaluate_spelling legible value

end Numeral

end SamePoly
