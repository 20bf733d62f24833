/-
  The trees that normalized text spells.

  In normalized text that is read as a numeric expression a power stands between brackets, a sign
  in front of an operand, and a multiplication sign behind a digit.  So a factor of a product is a
  literal or a group with a tower behind it, and only the first one has a sign.

  * `Abuts`: neighbours in such text.
  * `Power.isGroup`, `Product.ending`: what a power and a product end in.
  * `Product.isSeparated`: literals that groups are divided by stand alone.
  * `Product.IsIntegral`: powers outside brackets have integer exponents.
  * `Power.exists_tower`: **a power that ends in a group is a group with a tower** behind it.
  * `Product.withSigns`: a product with other signs in front of it, and what that does to its value.
  * `Product.signs_cases`, `Product.unsigned_behind`: a product has one sign or none, and none
    behind an operator.
  * `Product.signOutside`: no sign stands outside the brackets of a product, but in front of it.
-/
import SamePoly.Proofs.Exponents
import SamePoly.Proofs.Idempotence

namespace SamePoly

open Arithmetic Token

namespace Arithmetic

/-! ## Groups and literals -/

/-- A bracketed sum. -/
def Primary.isGroup : Primary → Bool
  | .group _ => true
  | _ => false

/-- A group, or something with an exponent. -/
def Power.isGroup : Power → Bool
  | .plain b => b.isGroup
  | .raised _ _ => true

/-- A group behind any number of signs. -/
def Unary.isGroup : Unary → Bool
  | .signed _ q => q.isGroup

/-- What a product ends in. -/
inductive Ending where
  /-- A group. -/
  | group
  /-- Literals that go on from the start or from the last group. -/
  | stretch
  /-- A literal that a group is divided by. -/
  | quotient
deriving DecidableEq

/-- What a product ends in. -/
def Product.ending : Product → Ending
  | .single u => if u.isGroup then .group else .stretch
  | .times _ u => if u.isGroup then .group else .stretch
  | .over p u => if u.isGroup then .group else if p.ending = .group then .quotient else .stretch
  | .beside _ q => if q.isGroup then .group else .stretch

/-- No literal stands right behind one that a group is divided by. -/
def Product.isSeparated : Product → Bool
  | .single _ => true
  | .times p u => p.isSeparated && (u.isGroup || p.ending != .quotient)
  | .over p u => p.isSeparated && (u.isGroup || p.ending != .quotient)
  | .beside p q => p.isSeparated && (q.isGroup || p.ending != .quotient)

/-- No product of a sum has a literal right behind one that a group is divided by. -/
def Sum.isSeparated : Sum → Bool
  | .single p => p.isSeparated
  | .plus s p => s.isSeparated && p.isSeparated
  | .minus s p => s.isSeparated && p.isSeparated

/-! ## Exponents -/

/-- The exponent is an integer. -/
def Power.IsIntegral : Power → Prop
  | .plain _ => True
  | .raised _ e => ∃ n : ℤ, (e.value? : Option (Number ℚ)) = some (.ofReal n)

/-- The exponent behind the signs is an integer. -/
def Unary.IsIntegral : Unary → Prop
  | .signed _ q => q.IsIntegral

/-- The exponents of a product outside its brackets are integers. -/
def Product.IsIntegral : Product → Prop
  | .single u => u.IsIntegral
  | .times p u => p.IsIntegral ∧ u.IsIntegral
  | .over p u => p.IsIntegral ∧ u.IsIntegral
  | .beside p q => p.IsIntegral ∧ q.IsIntegral

/-- The exponents of a sum outside its brackets are integers. -/
def Sum.IsIntegral : Sum → Prop
  | .single p => p.IsIntegral
  | .plus s p => s.IsIntegral ∧ p.IsIntegral
  | .minus s p => s.IsIntegral ∧ p.IsIntegral

/-! ## Text of trees -/

/-- The text of a tree is read if its tokens are read back. -/
theorem Sum.reads {s : Sum} (lexed : Lexed s.tokens) : Reads s.text :=
  Option.isSome_iff_exists.2 ⟨s, Sum.read?_eq_some_iff.2 ⟨lexed, rfl⟩⟩

theorem Sum.balanced_text {s : Sum} (lexed : Lexed s.tokens) : Balanced s.text :=
  balanced_of_read? (Sum.reads lexed)

theorem Primary.spelling_group (s : Sum) :
    spelling (Primary.group s).tokens = '(' :: (s.text ++ [')']) := by
  simp [Primary.tokens, spelling_append, Sum.text, Token.text]

theorem Primary.lexed_of_group {s : Sum} (lexed : Lexed (Primary.group s).tokens) :
    Lexed s.tokens :=
  lexed.of_isInfix ⟨[.opening], [.closing], rfl⟩

/-- An opening bracket stands at the start of nothing but a group. -/
theorem Primary.exists_group_of_head? {b : Primary} {rest : List Token}
    (valid : ∀ t ∈ b.tokens ++ rest, t.Valid)
    (opens : (spelling (b.tokens ++ rest)).head? = some '(') : ∃ s, b = .group s := by
  cases b with
  | group s => exact ⟨s, rfl⟩
  | number l =>
    exact absurd opens (head?_spelling_ne (s := .opening) rfl rfl valid (by rintro u ⟨⟩; nofun))
  | imaginary l =>
    exact absurd opens (head?_spelling_ne (s := .opening) rfl rfl valid (by rintro u ⟨⟩; nofun))

end Arithmetic

/-! ## Neighbours -/

/-- Neighbours in normalized text that is read. -/
structure Abuts (c d : Char) : Prop where
  finds : FindsOperand c d
  before : DigitBefore c d
  power : PowerBetweenBrackets c d

namespace Arithmetic

theorem Primary.tokens_ne_nil (b : Primary) : b.tokens ≠ [] := by
  obtain ⟨t, ts, tokens, -⟩ := b.exists_tokens
  exact tokens ▸ List.cons_ne_nil t ts

theorem Unary.tokens_ne_nil (u : Unary) : u.tokens ≠ [] := by
  obtain ⟨signs, q⟩ := u
  obtain ⟨t, ts, hq, -⟩ := q.exists_tokens
  rw [Unary.tokens, hq]
  exact List.append_ne_nil_of_right_ne_nil _ (List.cons_ne_nil _ _)

theorem Product.tokens_ne_nil (p : Product) : p.tokens ≠ [] := by
  cases p with
  | single u => exact u.tokens_ne_nil
  | _ p _ => exact List.append_ne_nil_of_left_ne_nil p.tokens_ne_nil _

/-- The text of tokens starts with a symbol. -/
theorem Token.exists_spelling {ts : List Token} (lexed : Lexed ts) (nonempty : ts ≠ []) :
    ∃ c text, spelling ts = c :: text := by
  obtain ⟨t, ts, rfl⟩ := List.exists_cons_of_ne_nil nonempty
  obtain ⟨c, text, starts⟩ := Token.exists_cons (lexed.valid t List.mem_cons_self)
  exact ⟨c, text ++ spelling ts, by rw [spelling_cons, starts, List.cons_append]⟩

/-- The text of tokens ends with a symbol. -/
theorem Token.exists_getLast?_spelling {ts : List Token} (lexed : Lexed ts) (nonempty : ts ≠ []) :
    ∃ c, (spelling ts).getLast? = some c := by
  obtain ⟨c, text, starts⟩ := Token.exists_spelling lexed nonempty
  exact Option.ne_none_iff_exists'.1
    (mt List.getLast?_eq_none_iff.1 (starts ▸ List.cons_ne_nil c text))

/-- A signed power that starts with an opening bracket has no signs. -/
theorem Unary.signs_of_head? {signs : List Sign} {q : Power}
    (valid : ∀ t ∈ (Unary.signed signs q).tokens, t.Valid)
    (opens : (spelling (Unary.signed signs q).tokens).head? = some '(') : signs = [] := by
  cases signs with
  | nil => rfl
  | cons sign signs =>
    refine absurd opens (head?_spelling_ne (s := .opening) rfl rfl valid ?_)
    rintro u ⟨⟩
    cases sign <;> nofun

theorem Token.Lexed.of_append {ts us : List Token} (lexed : Lexed (ts ++ us)) :
    Lexed ts ∧ Lexed us :=
  ⟨lexed.of_isInfix (List.prefix_append _ _).isInfix,
    lexed.of_isInfix (List.suffix_append _ _).isInfix⟩

theorem Token.Lexed.of_append_cons {t : Token} {ts us : List Token}
    (lexed : Lexed (ts ++ t :: us)) : Lexed ts ∧ Lexed us :=
  lexed.of_append.imp_right fun behind => behind.of_isInfix (List.suffix_cons _ _).isInfix

theorem Power.spelling_raised (b : Primary) (e : Unary) :
    spelling (Power.raised b e).tokens = spelling b.tokens ++ '^' :: spelling e.tokens :=
  spelling_append b.tokens (.power :: e.tokens)

theorem Product.spelling_times (p : Product) (u : Unary) :
    spelling (Product.times p u).tokens = spelling p.tokens ++ '*' :: spelling u.tokens :=
  spelling_append p.tokens (.times :: u.tokens)

theorem Product.spelling_over (p : Product) (u : Unary) :
    spelling (Product.over p u).tokens = spelling p.tokens ++ '/' :: spelling u.tokens :=
  spelling_append p.tokens (.over :: u.tokens)

theorem Product.spelling_beside (p : Product) (q : Power) :
    spelling (Product.beside p q).tokens = spelling p.tokens ++ spelling q.tokens :=
  spelling_append p.tokens q.tokens

mutual

/-- A signed power that starts with an opening bracket is a tower of groups. -/
theorem Unary.groupTower (u : Unary) (lexed : Lexed u.tokens)
    (chain : (spelling u.tokens).IsChain Abuts) (opens : (spelling u.tokens).head? = some '(') :
    GroupTower (spelling u.tokens) := by
  match u with
  | .signed signs q =>
    obtain rfl := Unary.signs_of_head? lexed.valid opens
    exact Power.groupTower q lexed chain opens

theorem Power.groupTower (q : Power) (lexed : Lexed q.tokens)
    (chain : (spelling q.tokens).IsChain Abuts) (opens : (spelling q.tokens).head? = some '(') :
    GroupTower (spelling q.tokens) := by
  match q with
  | .plain b =>
    have valid : ∀ t ∈ b.tokens, t.Valid := lexed.valid
    have opens : (spelling b.tokens).head? = some '(' := opens
    rw [← List.append_nil b.tokens] at valid opens
    obtain ⟨s, rfl⟩ := Primary.exists_group_of_head? valid opens
    rw [Power.tokens, Primary.spelling_group]
    exact .single (Sum.balanced_text (Primary.lexed_of_group lexed))
  | .raised b e =>
    obtain ⟨s, rfl⟩ := Primary.exists_group_of_head? lexed.valid opens
    obtain ⟨lexedBase, lexedExponent⟩ := lexed.of_append_cons
    have whole : spelling (Power.raised (.group s) e).tokens =
        '(' :: (s.text ++ ')' :: '^' :: spelling e.tokens) := by
      rw [Power.spelling_raised, Primary.spelling_group]
      simp
    rw [whole] at chain ⊢
    have behind : ('^' :: spelling e.tokens).IsChain Abuts := chain.tail.right_of_append.tail
    refine .link (Sum.balanced_text (Primary.lexed_of_group lexedBase)) ?_
    refine Unary.groupTower e lexedExponent behind.tail ?_
    obtain ⟨d, rest, starts⟩ := Token.exists_spelling lexedExponent e.tokens_ne_nil
    rw [starts] at behind ⊢
    exact congrArg some ((List.isChain_cons_cons.1 behind).1.power.2 rfl)

end

/-- A closing bracket stands at the end of nothing but a group. -/
theorem Primary.exists_group_of_getLast? {b : Primary} (lexed : Lexed b.tokens)
    (closes : (spelling b.tokens).getLast? = some ')') : ∃ s, b = .group s := by
  have literal {l : Literal} (hl : l.Valid) : l.text.getLast? ≠ some ')' := fun last =>
    absurd (Literal.isLiteral_of_mem_text hl (List.mem_of_getLast? last)) (by decide)
  cases b with
  | group s => exact ⟨s, rfl⟩
  | number l =>
    have hl : l.Valid := lexed.valid _ List.mem_cons_self
    have whole : spelling (Primary.number l).tokens = l.text := List.append_nil _
    exact absurd (whole ▸ closes) (literal hl)
  | imaginary l =>
    cases l with
    | none => cases closes
    | some l =>
      have whole : spelling (Primary.imaginary (some l)).tokens = l.text ++ ['i'] :=
        List.append_nil _
      rw [whole, List.getLast?_concat] at closes
      cases closes

/-- **A power that ends in a group is a group with a tower** behind it, or without one. -/
theorem Power.exists_tower {q : Power} (lexed : Lexed q.tokens)
    (chain : (spelling q.tokens).IsChain Abuts) (group : q.isGroup = true) :
    ∃ s : Sum, Lexed s.tokens ∧ (q = .plain (.group s) ∨
      ∃ e : Unary, q = .raised (.group s) e ∧ Lexed e.tokens ∧ GroupTower (spelling e.tokens)) := by
  cases q with
  | plain b =>
    cases b with
    | group s => exact ⟨s, Primary.lexed_of_group lexed, .inl rfl⟩
    | number l => cases group
    | imaginary l => cases group
  | raised b e =>
    obtain ⟨lexedBase, lexedExponent⟩ := lexed.of_append_cons
    rw [Power.spelling_raised] at chain
    obtain ⟨before, behind⟩ := neighbours_of_isChain _ chain
    have closes : (spelling b.tokens).getLast? = some ')' := by
      obtain ⟨c, last⟩ := Token.exists_getLast?_spelling lexedBase b.tokens_ne_nil
      rw [last, (before c last).power.1 rfl]
    have opens : (spelling e.tokens).head? = some '(' := by
      obtain ⟨d, rest, starts⟩ := Token.exists_spelling lexedExponent e.tokens_ne_nil
      rw [starts] at behind ⊢
      exact congrArg some ((behind d rfl).power.2 rfl)
    obtain ⟨s, rfl⟩ := Primary.exists_group_of_getLast? lexedBase closes
    exact ⟨s, Primary.lexed_of_group lexedBase, .inr ⟨e, rfl, lexedExponent,
      Unary.groupTower e lexedExponent chain.right_of_append.tail opens⟩⟩

/-- A power that does not end in a group is a literal. -/
theorem Power.exists_literal {q : Power} (literal : q.isGroup = false) :
    ∃ b : Primary, b.isGroup = false ∧ q = .plain b := by
  cases q with
  | plain b => exact ⟨b, literal, rfl⟩
  | raised b e => cases literal

/-! ## Signs -/

/-- No sign stands behind an operator. -/
theorem Sign.not_behind {c : Char} (operator : (kind c).isOperator = true) (sign : Sign)
    (text : List Char) : ¬ (c :: (sign.token.text ++ text)).IsChain Abuts := by
  intro chain
  have operand {d : Char} (hd : sign.token.text = [d]) : (kind d).startsOperand = true := by
    rw [hd] at chain
    exact (List.isChain_cons_cons.1 chain).1.finds operator
  cases sign with
  | plus => cases operand (d := '+') rfl
  | minus => cases operand (d := '-') rfl

/-- What signs multiply by. -/
def Sign.unit (signs : List Sign) : Number ℚ := if Sign.negative signs then -1 else 1

theorem Sign.unit_nil : Sign.unit [] = 1 := rfl

theorem Unary.value?_signed (signs : List Sign) (q : Power) :
    ((Unary.signed signs q).value? : Option (Number ℚ)) = q.value?.map (Sign.unit signs * ·) := by
  rw [Unary.value?, Sign.unit]
  cases (q.value? : Option (Number ℚ)) with
  | none => rfl
  | some v =>
    refine congrArg some ?_
    split
    · exact (neg_one_mul v).symm
    · exact (one_mul v).symm

/-- The signs in front of a product. -/
def Product.signs : Product → List Sign
  | .single (.signed signs _) => signs
  | .times p _ => p.signs
  | .over p _ => p.signs
  | .beside p _ => p.signs

/-- A product with other signs in front of it. -/
def Product.withSigns (signs : List Sign) : Product → Product
  | .single (.signed _ q) => .single (.signed signs q)
  | .times p u => .times (p.withSigns signs) u
  | .over p u => .over (p.withSigns signs) u
  | .beside p q => .beside (p.withSigns signs) q

namespace Product

variable {p : Product} {signs : List Sign}

theorem withSigns_signs (p : Product) : p.withSigns p.signs = p := by
  match p with
  | .single (.signed _ _) => rfl
  | .times p _ | .over p _ | .beside p _ => simp only [signs, withSigns, withSigns_signs p]

theorem signs_withSigns (signs : List Sign) (p : Product) : (p.withSigns signs).signs = signs := by
  match p with
  | .single (.signed _ _) => rfl
  | .times p _ | .over p _ | .beside p _ => exact signs_withSigns signs p

theorem tokens_withSigns (signs : List Sign) (p : Product) :
    (p.withSigns signs).tokens = signs.map Sign.token ++ (p.withSigns []).tokens := by
  match p with
  | .single (.signed _ _) => rfl
  | .times p _ | .over p _ | .beside p _ =>
    simp only [withSigns, tokens, tokens_withSigns signs p, List.append_assoc]

theorem tokens_eq (p : Product) :
    p.tokens = p.signs.map Sign.token ++ (p.withSigns []).tokens := by
  rw [← tokens_withSigns, withSigns_signs]

theorem ending_withSigns (signs : List Sign) (p : Product) :
    (p.withSigns signs).ending = p.ending := by
  match p with
  | .single (.signed _ _) => rfl
  | .times p _ | .beside p _ => rfl
  | .over p _ => simp only [withSigns, ending, ending_withSigns signs p]

theorem isSeparated_withSigns (signs : List Sign) (p : Product) :
    (p.withSigns signs).isSeparated = p.isSeparated := by
  match p with
  | .single (.signed _ _) => rfl
  | .times p _ | .over p _ | .beside p _ =>
    simp only [withSigns, isSeparated, isSeparated_withSigns signs p, ending_withSigns]

theorem isIntegral_withSigns (signs : List Sign) (p : Product) :
    (p.withSigns signs).IsIntegral ↔ p.IsIntegral := by
  match p with
  | .single (.signed _ _) => rfl
  | .times p _ | .over p _ | .beside p _ =>
    simp only [withSigns, IsIntegral, isIntegral_withSigns signs p]

/-- Signs in front of a product are a factor of it. -/
theorem value?_withSigns (signs : List Sign) (p : Product) :
    ((p.withSigns signs).value? : Option (Number ℚ)) =
      (p.withSigns []).value?.map (Sign.unit signs * ·) := by
  match p with
  | .single (.signed _ q) =>
    simp only [withSigns, value?, Unary.value?_signed, Option.map_map, Sign.unit_nil]
    exact congrArg (q.value?.map ·) (funext fun v => congrArg (_ * ·) (one_mul v).symm)
  | .times p u =>
    simp only [withSigns, value?, value?_withSigns signs p]
    cases ((p.withSigns []).value? : Option (Number ℚ)) with
    | none => rfl
    | some product =>
      cases (u.value? : Option (Number ℚ)) with
      | none => rfl
      | some operand => exact congrArg some (mul_assoc _ _ _)
  | .over p u =>
    simp only [withSigns, value?, value?_withSigns signs p]
    cases ((p.withSigns []).value? : Option (Number ℚ)) with
    | none => rfl
    | some product =>
      cases (u.value? : Option (Number ℚ)) with
      | none => rfl
      | some operand =>
        show (Sign.unit signs * product).divide? operand = (product.divide? operand).map _
        rw [Number.divide?_eq, Number.divide?_eq]
        split
        · rfl
        · exact congrArg some (mul_div_assoc _ _ _)
  | .beside p q =>
    simp only [withSigns, value?, value?_withSigns signs p]
    cases ((p.withSigns []).value? : Option (Number ℚ)) with
    | none => rfl
    | some product =>
      cases (q.value? : Option (Number ℚ)) with
      | none => rfl
      | some operand => exact congrArg some (mul_assoc _ _ _)

end Product

/-- Behind an operator stands a power without signs. -/
theorem Unary.unsigned_behind {c : Char} (operator : (kind c).isOperator = true) {signs : List Sign}
    {q : Power} (chain : (c :: spelling (Unary.signed signs q).tokens).IsChain Abuts) :
    signs = [] := by
  cases signs with
  | nil => rfl
  | cons sign signs => exact absurd chain (sign.not_behind operator _)

/-- Behind an operator stands a product without signs. -/
theorem Product.unsigned_behind {c : Char} (operator : (kind c).isOperator = true) {p : Product}
    (chain : (c :: spelling p.tokens).IsChain Abuts) : p.signs = [] := by
  rw [p.tokens_eq] at chain
  cases hsigns : p.signs with
  | nil => rfl
  | cons sign signs =>
    rw [hsigns] at chain
    exact absurd chain (sign.not_behind operator _)

/-- At most one sign stands in front of a product. -/
theorem Product.signs_cases {p : Product} (chain : (spelling p.tokens).IsChain Abuts) :
    p.signs = [] ∨ ∃ sign, p.signs = [sign] := by
  rw [p.tokens_eq] at chain
  match hsigns : p.signs with
  | [] => exact .inl rfl
  | [sign] => exact .inr ⟨sign, rfl⟩
  | sign :: second :: signs =>
    rw [hsigns] at chain
    cases sign with
    | plus => exact absurd chain (second.not_behind (c := '+') rfl _)
    | minus => exact absurd chain (second.not_behind (c := '-') rfl _)

/-! ## Signs outside brackets -/

/-- A literal is made of literal symbols and the imaginary unit. -/
theorem Primary.mem_literal {b : Primary} (lexed : Lexed b.tokens) (literal : b.isGroup = false)
    {c : Char} (hc : c ∈ spelling b.tokens) : isLiteral c = true ∨ c = 'i' := by
  have symbol {t : Token} (ht : t.Valid) (atom : t.isAtom = true) (hc : c ∈ spelling [t]) :
      isLiteral c = true ∨ c = 'i' := by
    rw [spelling_cons, spelling_nil, List.append_nil] at hc
    rcases mem_text ht hc with hc | hc | ⟨other, -⟩
    · exact .inl hc
    · exact .inr hc
    · rw [atom] at other
      cases other
  cases b with
  | group s => cases literal
  | number l => exact symbol (lexed.valid _ List.mem_cons_self) rfl hc
  | imaginary l => exact symbol (lexed.valid _ List.mem_cons_self) rfl hc

/-- No symbol of a literal is an operator or a bracket. -/
theorem Primary.ne_of_mem_literal {b : Primary} (lexed : Lexed b.tokens)
    (literal : b.isGroup = false) {c d : Char} (hc : c ∈ spelling b.tokens)
    (hd : isLiteral d = false ∧ d ≠ 'i') : c ≠ d := by
  rintro rfl
  rcases Primary.mem_literal lexed literal hc with h | h
  · rw [hd.1] at h
    cases h
  · exact hd.2 h

theorem signOutside_of_forall {text : List Char}
    (h : ∀ c ∈ text, c ≠ '(' ∧ c ≠ ')' ∧ c ≠ '+' ∧ c ≠ '-') : signOutside 0 text = false := by
  induction text with
  | nil => rfl
  | cons c text ih =>
    obtain ⟨⟨hopen, hclose, hplus, hminus⟩, h⟩ := List.forall_mem_cons.1 h
    rw [signOutside_symbol hopen hclose, ih h]
    simp [hplus, hminus]

theorem GroupTower.signOutside {e : List Char} (h : GroupTower e) :
    SamePoly.signOutside 0 e = false := by
  induction h with
  | single hinside => exact hinside.signOutside_group []
  | link hinside _ ih =>
    rw [hinside.signOutside_group, signOutside_symbol (by decide) (by decide), ih]
    rfl

/-- No sign stands outside the brackets of a power. -/
theorem Power.signOutside {q : Power} (lexed : Lexed q.tokens)
    (chain : (spelling q.tokens).IsChain Abuts) :
    SamePoly.signOutside 0 (spelling q.tokens) = false := by
  cases group : q.isGroup with
  | true =>
    obtain ⟨s, lexedGroup, rfl | ⟨e, rfl, -, tower⟩⟩ := Power.exists_tower lexed chain group
    · rw [Power.tokens, Primary.spelling_group]
      exact (Sum.balanced_text lexedGroup).signOutside_group []
    · rw [Power.spelling_raised, Primary.spelling_group, List.cons_append, List.append_assoc,
        List.singleton_append, (Sum.balanced_text lexedGroup).signOutside_group,
        signOutside_symbol (by decide) (by decide), GroupTower.signOutside tower]
      rfl
  | false =>
    obtain ⟨b, literal, rfl⟩ := Power.exists_literal group
    have ne {c d : Char} (hc : c ∈ spelling b.tokens) (hd : isLiteral d = false ∧ d ≠ 'i') :
        c ≠ d := Primary.ne_of_mem_literal lexed literal hc hd
    exact signOutside_of_forall fun c hc =>
      ⟨ne hc (by decide), ne hc (by decide), ne hc (by decide), ne hc (by decide)⟩

theorem Product.balanced {p : Product} (lexed : Lexed p.tokens) : Balanced (spelling p.tokens) :=
  Sum.balanced_text (s := .single p) lexed

/-- No sign stands outside the brackets of a product without signs in front of it. -/
theorem Product.signOutside {p : Product} (lexed : Lexed p.tokens)
    (chain : (spelling p.tokens).IsChain Abuts) (unsigned : p.signs = []) :
    SamePoly.signOutside 0 (spelling p.tokens) = false := by
  -- A further factor behind an operator.
  have further {p : Product} {t : Token} {c : Char} {u : Unary} (ht : t.text = [c])
      (operator : (kind c).isOperator = true) (hopen : c ≠ '(') (hclose : c ≠ ')')
      (hsign : c ≠ '+' ∧ c ≠ '-') (lexed : Lexed (p.tokens ++ t :: u.tokens))
      (chain : (spelling (p.tokens ++ t :: u.tokens)).IsChain Abuts)
      (first : SamePoly.signOutside 0 (spelling p.tokens) = false) :
      SamePoly.signOutside 0 (spelling (p.tokens ++ t :: u.tokens)) = false := by
    obtain ⟨lexedFirst, lexedLast⟩ := lexed.of_append_cons
    rw [spelling_append, spelling_cons, ht, List.singleton_append] at chain ⊢
    obtain ⟨signs, q⟩ := u
    obtain rfl := Unary.unsigned_behind operator chain.right_of_append
    rw [(Product.balanced lexedFirst).signOutside_zero_append, first,
      signOutside_symbol hopen hclose]
    have last : SamePoly.signOutside 0 (spelling q.tokens) = false :=
      Power.signOutside lexedLast chain.right_of_append.tail
    simp [hsign, Unary.tokens, last]
  match p with
  | .single (.signed signs q) =>
    obtain rfl : signs = [] := unsigned
    exact Power.signOutside lexed chain
  | .times p u =>
    have first := Product.signOutside lexed.of_append_cons.1
      (Product.spelling_times p u ▸ chain).left_of_append unsigned
    exact further rfl rfl (by decide) (by decide) (by decide) lexed chain first
  | .over p u =>
    have first := Product.signOutside lexed.of_append_cons.1
      (Product.spelling_over p u ▸ chain).left_of_append unsigned
    exact further rfl rfl (by decide) (by decide) (by decide) lexed chain first
  | .beside p q =>
    rw [Product.spelling_beside] at chain ⊢
    obtain ⟨lexedFirst, lexedLast⟩ := lexed.of_append
    have first := Product.signOutside lexedFirst chain.left_of_append unsigned
    rw [(Product.balanced lexedFirst).signOutside_zero_append, first]
    exact Power.signOutside lexedLast chain.right_of_append

end Arithmetic

/-! ## Text without variables -/

/-- The symbols of a token are those of expressions, and none is a variable. -/
theorem isVariable_of_mem_text {t : Token} {c : Char} (ht : t.Valid) (hc : c ∈ t.text) :
    isExpected c = true ∧ isVariable c = false := by
  rcases mem_text ht hc with literal | rfl | ⟨atom, hc⟩
  · rw [isLiteral, Bool.or_eq_true, beq_iff_eq] at literal
    rcases literal with digit | rfl
    · exact ⟨by simp [isExpected, digit], isVariable_of_isDigit digit⟩
    · decide
  · decide
  · cases t with
    | number l => cases atom
    | imaginary l => cases atom
    | _ =>
      cases hc
      decide

theorem exists_mem_of_mem_spelling {ts : List Token} {c : Char} (hc : c ∈ spelling ts) :
    ∃ t ∈ ts, c ∈ t.text := List.mem_flatMap.1 hc

/-- No variable occurs in the text of a tree. -/
theorem hasVariable_spelling {ts : List Token} (valid : ∀ t ∈ ts, t.Valid) :
    hasVariable (spelling ts) = false :=
  hasVariable_eq_false fun _ hc =>
    have ⟨t, ht, hc⟩ := exists_mem_of_mem_spelling hc
    (isVariable_of_mem_text (valid t ht) hc).2

theorem letterInside_eq_false {text : List Char} (h : text.any isLetter = false) (depth : ℤ) :
    letterInside depth text = false := by
  induction text generalizing depth with
  | nil => rfl
  | cons c text ih =>
    rw [List.any_cons, Bool.or_eq_false_iff] at h
    rw [letterInside]
    split
    · exact ih h.2 _
    · split
      · exact ih h.2 _
      · split
        · rename_i letter
          rw [Bool.and_assoc, Bool.and_eq_true] at letter
          rw [isLetter, letter.2] at h
          cases h.1
        · exact ih h.2 _

theorem letterInside_spelling {ts : List Token} (valid : ∀ t ∈ ts, t.Valid) :
    letterInside 0 (spelling ts) = false := by
  refine letterInside_eq_false ?_ 0
  rw [any_isLetter, hasVariable_spelling valid]
  intro c hc
  obtain ⟨t, ht, hc⟩ := exists_mem_of_mem_spelling hc
  exact (isVariable_of_mem_text (valid t ht) hc).1

end SamePoly
