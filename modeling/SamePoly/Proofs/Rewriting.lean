/-
  Rewriting numeric expressions token by token.

  A rule replaces every token by what it makes of the token and its neighbours.  A rule that does no
  more than leave out multiplication signs and put brackets around literals keeps the value of a
  tree, since a factor may follow without an operator.

  * `Rule`, `Rule.apply`: rewriting token by token.
  * `Rule.Harmless`: the rules in question; `Rule.drop` leaves out multiplication signs, `Rule.wrap`
    puts brackets around literals.
  * `TimesFits`: no sign stands behind a multiplication sign; it would become an operator.
  * `Sum.exists_apply`: **rewriting by a harmless rule gives the tokens of a tree with the same
    value**.
-/
import SamePoly.Proofs.Reader
import SamePoly.Proofs.Scan
import SamePoly.Arithmetic.Value

namespace SamePoly.Arithmetic

/-! ## Rules -/

/-- What becomes of a token between its neighbours. -/
abbrev Rule : Type := Option Token → Token → Option Token → List Token

/-- Replaces every token of a list; `before` and `behind` are the neighbours of the list. -/
def Rule.apply (f : Rule) (before : Option Token) (ts : List Token) (behind : Option Token) :
    List Token :=
  match ts with
  | [] => []
  | t :: ts => f before t (ts.head?.or behind) ++ Rule.apply f (some t) ts behind

/-- Multiplication signs may go, literals may get brackets, and everything else stays. -/
structure Rule.Harmless (f : Rule) : Prop where
  times : ∀ before behind, f before .times behind = [.times] ∨ f before .times behind = []
  atom : ∀ before t behind, t.isAtom = true →
    f before t behind = [t] ∨ f before t behind = [.opening, t, .closing]
  other : ∀ before t behind, t.isAtom = false → t ≠ .times → f before t behind = [t]

/-- Leaves out multiplication signs unless their neighbours keep them. -/
def Rule.drop (keeps : Option Token → Option Token → Bool) : Rule := fun before t behind =>
  if t = .times ∧ keeps before behind = false then [] else [t]

/-- Puts brackets around atoms with certain neighbours. -/
def Rule.wrap (encloses : Option Token → Option Token → Bool) : Rule := fun before t behind =>
  if t.isAtom = true ∧ encloses before behind = true then [.opening, t, .closing] else [t]

/-- Behind a multiplication sign there is an operand without a sign. -/
def TimesFits (t u : Token) : Prop := t = .times → u.isPrimary = true

namespace Rule

variable {f : Rule} {before behind : Option Token} {ts us : List Token} {t : Token}

theorem apply_append :
    f.apply before (ts ++ us) behind =
      f.apply before ts (us.head?.or behind) ++ f.apply (ts.getLast?.or before) us behind := by
  induction ts generalizing before with
  | nil => simp [apply]
  | cons t ts ih =>
    have last : (t :: ts).getLast?.or before = ts.getLast?.or (some t) := by
      rw [List.getLast?_cons]
      cases ts.getLast? <;> rfl
    rw [List.cons_append, apply, apply, ih, last, List.head?_append, Option.or_assoc,
      List.append_assoc]

theorem harmless_drop (keeps : Option Token → Option Token → Bool) : (drop keeps).Harmless where
  times before behind := by
    unfold drop
    split <;> simp
  atom before t behind h := by
    refine .inl (if_neg fun ht => ?_)
    rw [ht.1] at h
    cases h
  other before t behind _ h := if_neg fun ht => h ht.1

theorem harmless_wrap (encloses : Option Token → Option Token → Bool) :
    (wrap encloses).Harmless where
  times before behind := .inl (if_neg fun h => nomatch h.1)
  atom before t behind _ := by
    unfold wrap
    split <;> simp
  other before t behind h _ := by
    refine if_neg fun ht => ?_
    rw [ht.1] at h
    cases h

/-- An operator between two lists stays where it is. -/
theorem Harmless.apply_operator (hf : f.Harmless) (ht : t.isAtom = false) (htimes : t ≠ .times) :
    f.apply before (ts ++ t :: us) behind =
      f.apply before ts (some t) ++ t :: f.apply (some t) us behind := by
  rw [apply_append, apply, hf.other _ t _ ht htimes]
  rfl

theorem Harmless.apply_signs (hf : f.Harmless) (signs : List Sign) :
    f.apply before (signs.map Sign.token) behind = signs.map Sign.token := by
  induction signs generalizing before with
  | nil => rfl
  | cons sign signs ih =>
    rw [List.map_cons, apply, ih]
    have kept : f before sign.token ((signs.map Sign.token).head?.or behind) = [sign.token] := by
      cases sign with
      | plus => exact hf.other _ _ _ rfl nofun
      | minus => exact hf.other _ _ _ rfl nofun
    rw [kept]
    rfl

end Rule

/-! ## Trees -/

/-- Behind a multiplication sign a factor carries no sign. -/
theorem Unary.signs_eq_nil {signs : List Sign} {q : Power}
    (h : (.times :: (Unary.signed signs q).tokens).IsChain TimesFits) : signs = [] := by
  cases signs with
  | nil => rfl
  | cons sign signs =>
    have := (List.isChain_cons_cons.1 h).1 rfl
    cases sign <;> cases this

variable {f : Rule} {R : Type} [Scalar R]

/-- A primary in brackets. -/
def Primary.bracketed (b : Primary) : Primary := .group (.single (.single (.signed [] (.plain b))))

theorem Primary.value?_bracketed (b : Primary) :
    (b.bracketed.value? : Option (Number R)) = b.value? := by
  have unfolded : (b.bracketed.value? : Option (Number R)) = b.value?.bind some := by
    rw [bracketed, Primary.value?.eq_4, Sum.value?, Product.value?, Unary.value?, Power.value?]
    rfl
  rw [unfolded]
  cases (b.value? : Option (Number R)) <;> rfl

/-- An atom stays or gets brackets. -/
theorem Primary.exists_apply_atom (hf : f.Harmless) {b : Primary} {t : Token}
    (tokens : b.tokens = [t]) (atom : t.isAtom = true) {before behind : Option Token} :
    ∃ b' : Primary, (b'.value? : Option (Number R)) = b.value? ∧
      b'.tokens = f.apply before b.tokens behind := by
  rw [tokens]
  rcases hf.atom before t behind atom with kept | enclosed
  · exact ⟨b, rfl, by simp [tokens, Rule.apply, kept]⟩
  · refine ⟨b.bracketed, b.value?_bracketed, ?_⟩
    simp [bracketed, Primary.tokens, Sum.tokens, Product.tokens, Unary.tokens, Power.tokens, tokens,
      Rule.apply, enclosed]

mutual

/-- **Rewriting a sum** by a harmless rule keeps its value. -/
theorem Sum.exists_apply (hf : f.Harmless) (s : Sum) (h : s.tokens.IsChain TimesFits)
    (before behind : Option Token) :
    ∃ s' : Sum, (s'.value? : Option (Number R)) = s.value? ∧
      s'.tokens = f.apply before s.tokens behind := by
  match s with
  | .single p =>
    obtain ⟨p', value, tokens⟩ := Product.exists_apply hf p h before behind
    exact ⟨.single p', by simp [Sum.value?, value], tokens⟩
  | .plus s p =>
    obtain ⟨hs, hp, -⟩ := List.isChain_append.1 h
    obtain ⟨s', svalue, stokens⟩ := Sum.exists_apply hf s hs before (some .plus)
    obtain ⟨p', pvalue, ptokens⟩ := Product.exists_apply hf p hp.tail (some .plus) behind
    refine ⟨.plus s' p', by simp [Sum.value?, svalue, pvalue], ?_⟩
    rw [Sum.tokens, Sum.tokens, stokens, ptokens, hf.apply_operator (t := .plus) rfl nofun]
  | .minus s p =>
    obtain ⟨hs, hp, -⟩ := List.isChain_append.1 h
    obtain ⟨s', svalue, stokens⟩ := Sum.exists_apply hf s hs before (some .minus)
    obtain ⟨p', pvalue, ptokens⟩ := Product.exists_apply hf p hp.tail (some .minus) behind
    refine ⟨.minus s' p', by simp [Sum.value?, svalue, pvalue], ?_⟩
    rw [Sum.tokens, Sum.tokens, stokens, ptokens, hf.apply_operator (t := .minus) rfl nofun]

theorem Product.exists_apply (hf : f.Harmless) (p : Product) (h : p.tokens.IsChain TimesFits)
    (before behind : Option Token) :
    ∃ p' : Product, (p'.value? : Option (Number R)) = p.value? ∧
      p'.tokens = f.apply before p.tokens behind := by
  match p with
  | .single u =>
    obtain ⟨u', value, tokens⟩ := Unary.exists_apply hf u h before behind
    exact ⟨.single u', by simp [Product.value?, value], tokens⟩
  | .times p (.signed signs q) =>
    obtain ⟨hp, hu, -⟩ := List.isChain_append.1 h
    obtain rfl := Unary.signs_eq_nil hu
    obtain ⟨p', pvalue, ptokens⟩ := Product.exists_apply hf p hp before (some .times)
    obtain ⟨q', qvalue, qtokens⟩ := Power.exists_apply hf q hu.tail (some .times) behind
    have tokens : (Product.times p (.signed [] q)).tokens = p.tokens ++ .times :: q.tokens := rfl
    rw [tokens, Rule.apply_append, Rule.apply, ← qtokens]
    rcases hf.times (p.tokens.getLast?.or before) (q.tokens.head?.or behind) with kept | gone
    · refine ⟨.times p' (.signed [] q'), by simp [Product.value?, Unary.value?, pvalue, qvalue], ?_⟩
      rw [kept]
      exact congrArg (· ++ _) ptokens
    · refine ⟨.beside p' q', ?_, ?_⟩
      · simp [Product.value?, Unary.value?, pvalue, qvalue, Sign.negative]
      · rw [gone]
        exact congrArg (· ++ _) ptokens
  | .over p u =>
    obtain ⟨hp, hu, -⟩ := List.isChain_append.1 h
    obtain ⟨p', pvalue, ptokens⟩ := Product.exists_apply hf p hp before (some .over)
    obtain ⟨u', uvalue, utokens⟩ := Unary.exists_apply hf u hu.tail (some .over) behind
    refine ⟨.over p' u', by simp [Product.value?, pvalue, uvalue], ?_⟩
    rw [Product.tokens, Product.tokens, ptokens, utokens, hf.apply_operator (t := .over) rfl nofun]
  | .beside p q =>
    obtain ⟨hp, hq, -⟩ := List.isChain_append.1 h
    obtain ⟨p', pvalue, ptokens⟩ :=
      Product.exists_apply hf p hp before (q.tokens.head?.or behind)
    obtain ⟨q', qvalue, qtokens⟩ :=
      Power.exists_apply hf q hq (p.tokens.getLast?.or before) behind
    refine ⟨.beside p' q', by simp [Product.value?, pvalue, qvalue], ?_⟩
    rw [Product.tokens, Product.tokens, ptokens, qtokens, Rule.apply_append]

theorem Unary.exists_apply (hf : f.Harmless) (u : Unary) (h : u.tokens.IsChain TimesFits)
    (before behind : Option Token) :
    ∃ u' : Unary, (u'.value? : Option (Number R)) = u.value? ∧
      u'.tokens = f.apply before u.tokens behind := by
  match u with
  | .signed signs q =>
    obtain ⟨-, hq, -⟩ := List.isChain_append.1 h
    obtain ⟨q', value, tokens⟩ :=
      Power.exists_apply hf q hq ((signs.map Sign.token).getLast?.or before) behind
    refine ⟨.signed signs q', by simp [Unary.value?, value], ?_⟩
    rw [Unary.tokens, Unary.tokens, tokens, Rule.apply_append, hf.apply_signs]

theorem Power.exists_apply (hf : f.Harmless) (q : Power) (h : q.tokens.IsChain TimesFits)
    (before behind : Option Token) :
    ∃ q' : Power, (q'.value? : Option (Number R)) = q.value? ∧
      q'.tokens = f.apply before q.tokens behind := by
  match q with
  | .plain b =>
    obtain ⟨b', value, tokens⟩ := Primary.exists_apply hf b h before behind
    exact ⟨.plain b', by simp [Power.value?, value], tokens⟩
  | .raised b e =>
    obtain ⟨hb, he, -⟩ := List.isChain_append.1 h
    obtain ⟨b', bvalue, btokens⟩ := Primary.exists_apply hf b hb before (some .power)
    obtain ⟨e', evalue, etokens⟩ := Unary.exists_apply hf e he.tail (some .power) behind
    refine ⟨.raised b' e', by simp [Power.value?, bvalue, evalue], ?_⟩
    rw [Power.tokens, Power.tokens, btokens, etokens, hf.apply_operator (t := .power) rfl nofun]

theorem Primary.exists_apply (hf : f.Harmless) (b : Primary) (h : b.tokens.IsChain TimesFits)
    (before behind : Option Token) :
    ∃ b' : Primary, (b'.value? : Option (Number R)) = b.value? ∧
      b'.tokens = f.apply before b.tokens behind := by
  match b with
  | .number l => exact Primary.exists_apply_atom hf rfl rfl
  | .imaginary l => exact Primary.exists_apply_atom hf rfl rfl
  | .group s =>
    obtain ⟨hs, -, -⟩ := List.isChain_append.1 (List.IsChain.tail h)
    obtain ⟨s', value, tokens⟩ := Sum.exists_apply hf s hs (some .opening) (some .closing)
    refine ⟨.group s', by simp [Primary.value?, value], ?_⟩
    have closed : f.apply (some .opening) (s.tokens ++ [.closing]) behind =
        f.apply (some .opening) s.tokens (some .closing) ++ [.closing] :=
      hf.apply_operator (t := .closing) rfl nofun
    rw [Primary.tokens, Primary.tokens, List.cons_append, List.cons_append, Rule.apply,
      hf.other _ .opening _ rfl nofun, closed, tokens]
    rfl

end

end SamePoly.Arithmetic
