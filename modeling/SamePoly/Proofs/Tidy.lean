/-
  The tokens of well-formed numeric text.

  A well-formed text has digits on both sides of every point and an operand behind every operator,
  and so have its tokens.  Nothing is said there about the imaginary unit, which belongs to the
  literal in front of it.

  * `Token.UnitFits`: no operator that normalization works on stands next to a unit and a literal.
  * `Token.Tidy`: tokens with the neighbours that they have in well-formed text.
  * `tidy_of_wellFormed`: **the tokens of a well-formed text are tidy**, if the imaginary unit fits.
  * `Token.Tidy.drop`, `Token.Tidy.wrap`: tokens stay tidy without some multiplication signs, and
    with brackets around literals.
-/
import SamePoly.Proofs.Acceptance
import SamePoly.Proofs.WellFormed
import SamePoly.Proofs.Rewriting

namespace SamePoly

open Arithmetic

namespace Arithmetic.Token

/-- No power has a literal with a unit as its base or its exponent, and no multiplication sign
    stands between a literal and a unit. -/
structure UnitFits (ts : List Token) : Prop where
  base : ∀ l, ¬ [.imaginary (some l), .power] <:+: ts
  exponent : ∀ l, ¬ [.power, .imaginary (some l)] <:+: ts
  factor : ∀ l, ¬ [.number l, .times, .imaginary none] <:+: ts

/-- Digits in front of the point of a literal, and behind it if no unit follows. -/
def Full : Token → Prop
  | .number l => l.whole ≠ [] ∧ l.fraction ≠ some []
  | .imaginary (some l) => l.whole ≠ []
  | _ => True

/-- Two tokens that may stand side by side. -/
structure Fits (t u : Token) : Prop where
  apart : Apart t u
  operand : t = .times ∨ t = .power → u.isPrimary = true
  base : ∀ l, t = .imaginary (some l) → u ≠ .power
  exponent : ∀ l, t = .power → u ≠ .imaginary (some l)

theorem Fits.timesFits {t u : Token} (h : Fits t u) : TimesFits t u := fun ht => h.operand (.inl ht)

/-- Tokens with the neighbours that they have in well-formed text. -/
structure Tidy (ts : List Token) : Prop where
  valid : ∀ t ∈ ts, t.Valid
  full : ∀ t ∈ ts, t.Full
  fits : ts.IsChain Fits

theorem spelling_append (ts us : List Token) : spelling (ts ++ us) = spelling ts ++ spelling us :=
  List.flatMap_append

/-- A token that is no atom is one symbol. -/
theorem exists_symbol {t : Token} (h : t.isAtom = false) :
    ∃ c, t.text = [c] ∧ c.isDigit = false := by
  match t, h with
  | .plus, _ => exact ⟨'+', rfl, rfl⟩
  | .minus, _ => exact ⟨'-', rfl, rfl⟩
  | .times, _ => exact ⟨'*', rfl, rfl⟩
  | .over, _ => exact ⟨'/', rfl, rfl⟩
  | .power, _ => exact ⟨'^', rfl, rfl⟩
  | .opening, _ => exact ⟨'(', rfl, rfl⟩
  | .closing, _ => exact ⟨')', rfl, rfl⟩

/-- The last symbol of a token that is no number is no digit. -/
theorem exists_last {t : Token} (h : ∀ l, t ≠ .number l) :
    ∃ front c, t.text = front ++ [c] ∧ c.isDigit = false := by
  by_cases atom : t.isAtom = true
  · match t, atom with
    | .number l, _ => exact absurd rfl (h l)
    | .imaginary none, _ => exact ⟨[], 'i', rfl, rfl⟩
    | .imaginary (some l), _ => exact ⟨l.text, 'i', rfl, rfl⟩
  · obtain ⟨c, hc, digit⟩ := exists_symbol (Bool.eq_false_iff.2 atom)
    exact ⟨[], c, hc, digit⟩

end Arithmetic.Token

/-! ## Neighbours -/

open Arithmetic.Token

section Neighbours

variable {t u : Token} {l m : Literal} {ts us : List Token}

/-- No two multiplication signs stand side by side. -/
theorem isChain_of_accepts {depth : ℕ} {wants : Bool} (h : accepts depth wants ts = true) :
    ts.IsChain fun t u => t = .times → u ≠ .times := by
  induction ts generalizing depth wants with
  | nil => exact .nil
  | cons t ts ih =>
    have tail : ∃ depth wants, accepts depth wants ts = true ∧ (t = .times → wants = true) := by
      by_cases times : t = .times
      · subst times
        exact ⟨_, _, (Bool.and_eq_true_iff.1 h).2, fun _ => rfl⟩
      · suffices rest : ∃ depth wants, accepts depth wants ts = true by
          obtain ⟨depth, wants, hts⟩ := rest
          exact ⟨depth, wants, hts, fun ht => absurd ht times⟩
        cases t with
        | number _ | imaginary _ | plus | minus | opening => exact ⟨_, _, h⟩
        | closing =>
          cases depth with
          | zero => cases h
          | succ depth => exact ⟨_, _, (Bool.and_eq_true_iff.1 h).2⟩
        | _ => exact ⟨_, _, (Bool.and_eq_true_iff.1 h).2⟩
    obtain ⟨depth, wants, hts, hwants⟩ := tail
    refine List.isChain_cons.2 ⟨fun u hu ht => ?_, ih hts⟩
    rintro rfl
    cases ts with
    | nil => cases hu
    | cons v ts =>
      cases hu
      rw [hwants ht] at hts
      cases hts

/-- A literal that another one follows has a point, and so has the other one. -/
theorem apart_of_separators (hl : l.Valid) (hu : u.Valid) (merges : ¬ (number l).Merges u)
    {rest : List Char} (h : Everywhere SeparatorFits (l.text ++ (u.text ++ rest))) :
    Apart (.number l) u := by
  by_contra atom
  have literal : ∃ m : Literal, m.Valid ∧ ¬ (l.fraction = none ∨ m.whole ≠ []) ∧
      ∃ tail, u.text ++ rest = m.text ++ tail := by
    cases u with
    | number m => exact ⟨m, hu, merges, rest, rfl⟩
    | imaginary m =>
      cases m with
      | none => exact absurd trivial merges
      | some m => exact ⟨m, hu, merges, 'i' :: rest, by simp [Token.text]⟩
    | _ => exact absurd rfl atom
  obtain ⟨m, hm, apart, tail, htail⟩ := literal
  obtain ⟨whole, fraction⟩ := l
  obtain ⟨whole', fraction'⟩ := m
  simp only [not_or, not_not] at apart
  cases fraction with
  | none => exact apart.1 rfl
  | some f =>
    obtain rfl : whole' = [] := apart.2
    cases fraction' with
    | none => exact hm.2 rfl
    | some f' =>
      have hf : ∀ c ∈ f, isDigitOrSpace c = true := fun c hc => by
        simp [isDigitOrSpace, Literal.isDigit_of_mem_fraction hl rfl hc]
      rw [htail, Literal.text, List.append_assoc, List.cons_append] at h
      have := h.of_append.single rfl '.'
      rw [List.dropWhile_append_of_pos hf] at this
      exact absurd (this rfl) (by decide)

/-- A multiplication sign or a power has an operand without a sign behind it. -/
theorem isPrimary_of_operators {c : Char} {rest : List Char} (hc : c = '*' ∨ c = '^')
    (fits : OperatorFits c (u.text ++ rest)) (htimes : c = '*' → u ≠ .times) :
    u.isPrimary = true := by
  have operator : isOperator c = true ∧ isBinary c = true := by
    rcases hc with rfl | rfl <;> decide
  obtain ⟨d, hd, noSign⟩ := fits.operand operator.1
  have closing := fits.closing operator.2
  match u with
  | .number _ | .imaginary _ | .opening => rfl
  | .plus | .minus | .over | .power =>
    cases hd
    cases noSign
  | .closing => exact absurd rfl closing
  | .times =>
    rcases hc with rfl | rfl
    · exact absurd rfl (htimes rfl)
    · exact absurd rfl (fits.single rfl)

/-- A literal of well-formed text has digits in front of its point. -/
theorem whole_ne_nil {before rest : List Char} (hl : l.Valid)
    (h : Everywhere SeparatorFits (before ++ (l.text ++ rest)))
    (start : before = [] → ∀ d, ahead (l.text ++ rest) = some d → isSeparator d = false)
    (last : ∀ c ∈ before.getLast?, c.isDigit = false) : l.whole ≠ [] := by
  obtain ⟨whole, fraction⟩ := l
  rintro rfl
  cases fraction with
  | none => exact hl.2 rfl
  | some f =>
    rcases List.eq_nil_or_concat before with rfl | ⟨front, c, rfl⟩
    · exact absurd (start rfl '.' rfl) (by decide)
    · rw [List.concat_eq_append, List.append_assoc, List.singleton_append] at h
      have := h.of_append.whole (last c (by simp)) '.' rfl
      exact absurd this (by decide)

end Neighbours

/-! ## Tidy tokens -/

namespace WellFormed

variable {ts : List Token} {l : Literal}

theorem fits (wf : WellFormed (spelling ts)) (lexed : Lexed ts) (unit : UnitFits ts)
    {depth : ℕ} {wants : Bool} (accepted : accepts depth wants ts = true) : ts.IsChain Fits := by
  rw [List.isChain_iff_forall_rel_of_append_cons_cons]
  rintro t u front rest rfl
  have text : spelling (front ++ t :: u :: rest) =
      spelling front ++ (t.text ++ (u.text ++ spelling rest)) := by
    simp [spelling_append]
  have ht : t.Valid := lexed.valid t (by simp)
  have hu : u.Valid := lexed.valid u (by simp)
  have single := List.isChain_iff_forall_rel_of_append_cons_cons.1 (isChain_of_accepts accepted) rfl
  have merges := List.isChain_iff_forall_rel_of_append_cons_cons.1 lexed.separate rfl
  have operators := text ▸ wf.operators
  have separators := text ▸ wf.separators
  constructor
  · cases t with
    | number l => exact apart_of_separators ht hu merges separators.right
    | _ => trivial
  · rintro (rfl | rfl)
    · exact isPrimary_of_operators (.inl rfl) operators.of_append fun _ => single rfl
    · exact isPrimary_of_operators (.inr rfl) operators.of_append nofun
  · rintro l rfl rfl
    exact unit.base l ⟨front, rest, by simp⟩
  · rintro l rfl rfl
    exact unit.exponent l ⟨front, rest, by simp⟩

/-- The symbol in front of an atom is no digit. -/
theorem last_not_digit {t : Token} {front rest : List Token}
    (fits : (front ++ t :: rest).IsChain Fits) (ht : t.isAtom = true) :
    ∀ c ∈ (spelling front).getLast?, c.isDigit = false := by
  rcases List.eq_nil_or_concat front with rfl | ⟨front, u, rfl⟩
  · nofun
  · rw [List.concat_eq_append, List.append_assoc, List.singleton_append] at fits
    have link := List.isChain_iff_forall_rel_of_append_cons_cons.1 fits rfl
    have notNumber : ∀ l, u ≠ .number l := by
      rintro l rfl
      rw [show t.isAtom = false from link.apart] at ht
      cases ht
    obtain ⟨before, c, hc, digit⟩ := exists_last notNumber
    intro d hd
    obtain rfl : c = d := by simpa [spelling_append, hc] using hd
    exact digit

/-- A number with a point has a digit behind it. -/
theorem fraction_ne_nil {rest : List Token} {before : List Char}
    (fits : (.number l :: rest).IsChain Fits)
    (h : Everywhere SeparatorFits (before ++ (l.text ++ spelling rest))) :
    l.fraction ≠ some [] := by
  intro hf
  have point : l.text ++ spelling rest = l.whole ++ '.' :: spelling rest := by
    simp [Literal.text, hf]
  rw [point] at h
  obtain ⟨d, r, hrest, digit⟩ := h.right.of_append.fraction rfl
  cases rest with
  | nil => cases hrest
  | cons u rest =>
    obtain ⟨c, hc, noDigit⟩ := exists_symbol (List.isChain_cons_cons.1 fits).1.apart
    obtain rfl : c = d := by
      rw [spelling_cons, hc] at hrest
      cases hrest
      rfl
    rw [noDigit] at digit
    cases digit

theorem full (wf : WellFormed (spelling ts)) (lexed : Lexed ts) (fits : ts.IsChain Fits)
    {t : Token} (ht : t ∈ ts) : t.Full := by
  obtain ⟨front, rest, rfl⟩ := List.append_of_mem ht
  have text : spelling (front ++ t :: rest) = spelling front ++ (t.text ++ spelling rest) := by
    simp [spelling_append]
  have separators := text ▸ wf.separators
  have valid := lexed.valid t ht
  have start : spelling front = [] → ∀ d, ahead (t.text ++ spelling rest) = some d →
      isSeparator d = false := by
    intro hfront d hd
    refine (wf.start d ?_).1
    rw [text, hfront]
    exact hd
  match t with
  | .number l =>
    exact ⟨whole_ne_nil valid separators start (last_not_digit fits rfl),
      fraction_ne_nil (List.isChain_append.1 fits).2.1 separators⟩
  | .imaginary (some l) =>
    have unit :
        (Token.imaginary (some l)).text ++ spelling rest = l.text ++ 'i' :: spelling rest := by
      simp [Token.text]
    rw [unit] at separators start
    exact whole_ne_nil valid separators start (last_not_digit fits rfl)
  | .imaginary none | .plus | .minus | .times | .over | .power | .opening | .closing => trivial

end WellFormed

/-- **The tokens of a well-formed text are tidy**, if the imaginary unit fits. -/
theorem tidy_of_wellFormed {s : Sum} (wf : WellFormed s.text) (lexed : Lexed s.tokens)
    (unit : UnitFits s.tokens) : Tidy s.tokens := by
  have accepted : accepts 0 true (s.tokens ++ []) = true := by
    rw [Sum.accepts_tokens]
    rfl
  rw [List.append_nil] at accepted
  have fits := wf.fits lexed unit accepted
  exact ⟨lexed.valid, fun _ => wf.full lexed fits, fits⟩

namespace Arithmetic

/-! ## Neighbours that always fit -/

namespace Token

variable {t u : Token}

theorem fits_opening_left : Fits .opening u := ⟨trivial, by simp, nofun, nofun⟩

theorem fits_closing_left : Fits .closing u := ⟨trivial, by simp, nofun, nofun⟩

theorem fits_opening_right : Fits t .opening := by
  refine ⟨?_, fun _ => rfl, fun _ _ => nofun, fun _ _ => nofun⟩
  cases t <;> trivial

theorem fits_closing_right (h : t.isAtom = true) : Fits t .closing := by
  refine ⟨?_, ?_, ?_, ?_⟩
  · cases t <;> trivial
  · rintro (rfl | rfl) <;> cases h
  · rintro l - ⟨⟩
  · rintro l - ⟨⟩

theorem Fits.ne_times (h : Fits .times u) : u ≠ .times := by
  rintro rfl
  cases h.operand (.inl rfl)

end Token

open Token

/-! ## Tidy tokens stay tidy -/

namespace Token.Tidy

variable {ts : List Token} {t u : Token}

theorem tail (h : Tidy (t :: ts)) : Tidy ts :=
  ⟨fun u hu => h.valid u (List.mem_cons_of_mem t hu),
    fun u hu => h.full u (List.mem_cons_of_mem t hu), h.fits.tail⟩

theorem fits_head (h : Tidy (t :: u :: ts)) : Fits t u := (List.isChain_cons_cons.1 h.fits).1

theorem lexed (h : Tidy ts) : Lexed ts :=
  ⟨h.valid, h.fits.imp fun _ _ fits => fits.apart.not_merges⟩

theorem timesFits (h : Tidy ts) : ts.IsChain TimesFits := h.fits.imp fun _ _ => Fits.timesFits

end Token.Tidy

namespace Rule

variable {keeps encloses : Option Token → Option Token → Bool} {before behind : Option Token}
  {t u : Token} {ts : List Token}

theorem drop_of_ne (ht : t ≠ .times) : drop keeps before t behind = [t] :=
  if_neg fun h => ht h.1

theorem mem_of_mem_drop (h : u ∈ (drop keeps).apply before ts behind) : u ∈ ts := by
  induction ts generalizing before with
  | nil => exact h
  | cons t ts ih =>
    rcases List.mem_append.1 h with h | h
    · unfold drop at h
      split at h
      · cases h
      · rw [List.mem_singleton.1 h]
        exact List.mem_cons_self
    · exact List.mem_cons_of_mem t (ih h)

/-- Behind a token that stays, the tokens that are left fit as long as what stands around a dropped
    multiplication sign does. -/
theorem isChain_drop (fits : (t :: ts).IsChain Fits)
    (gap : ∀ t' u, [t', .times, u] <:+: t :: ts → keeps (some t') (some u) = false → Fits t' u) :
    (t :: (drop keeps).apply (some t) ts none).IsChain Fits := by
  induction ts generalizing t with
  | nil => exact .singleton t
  | cons u ts ih =>
    obtain ⟨htu, hts⟩ := List.isChain_cons_cons.1 fits
    have rest := ih hts fun t' u' inside => gap t' u' (inside.trans (List.suffix_cons t _).isInfix)
    rw [apply]
    by_cases kept : drop keeps (some t) u (ts.head?.or none) = [u]
    · rw [kept]
      exact List.isChain_cons_cons.2 ⟨htu, rest⟩
    · obtain ⟨rfl, gone⟩ : u = .times ∧ keeps (some t) (ts.head?.or none) = false := by
        by_contra h
        exact kept (if_neg h)
      rw [drop, if_pos ⟨rfl, gone⟩, List.nil_append]
      cases ts with
      | nil => exact .singleton t
      | cons v ts =>
        have hv := (List.isChain_cons_cons.1 hts).1.ne_times
        rw [apply, drop_of_ne hv] at rest ⊢
        refine List.isChain_cons_cons.2 ⟨gap t v ?_ gone, rest.tail⟩
        exact (List.prefix_append [t, .times, v] ts).isInfix

theorem apply_drop_cons (ht : t ≠ .times) :
    (drop keeps).apply before (t :: ts) behind = t :: (drop keeps).apply (some t) ts behind := by
  rw [apply, drop_of_ne ht]
  rfl

theorem mem_of_mem_wrap (h : u ∈ (wrap encloses).apply before ts behind) :
    u ∈ ts ∨ u = .opening ∨ u = .closing := by
  induction ts generalizing before with
  | nil => exact .inl h
  | cons t ts ih =>
    rcases List.mem_append.1 h with h | h
    · unfold wrap at h
      split at h
      · simp only [List.mem_cons, List.not_mem_nil, or_false] at h ⊢
        tauto
      · exact .inl (by simpa using .inl (List.mem_singleton.1 h))
    · exact (ih h).imp_left (List.mem_cons_of_mem t)

/-- Behind a token or the bracket that closes behind it, the tokens with their brackets fit. -/
theorem isChain_wrap (encloses : Option Token → Option Token → Bool)
    (fits : (t :: ts).IsChain Fits) :
    (t :: (wrap encloses).apply (some t) ts none).IsChain Fits ∧
      (.closing :: (wrap encloses).apply (some t) ts none).IsChain Fits := by
  induction ts generalizing t with
  | nil => exact ⟨.singleton t, .singleton _⟩
  | cons u ts ih =>
    obtain ⟨htu, hts⟩ := List.isChain_cons_cons.1 fits
    obtain ⟨bare, closed⟩ := ih hts
    rw [apply]
    by_cases enclosed : u.isAtom = true ∧ encloses (some t) (ts.head?.or none) = true
    · rw [wrap, if_pos enclosed]
      have block : (u :: .closing :: (wrap encloses).apply (some u) ts none).IsChain Fits :=
        List.isChain_cons_cons.2 ⟨fits_closing_right enclosed.1, closed⟩
      have bracketed := List.isChain_cons_cons.2 ⟨fits_opening_left (u := u), block⟩
      exact ⟨List.isChain_cons_cons.2 ⟨fits_opening_right, bracketed⟩,
        List.isChain_cons_cons.2 ⟨fits_closing_left, bracketed⟩⟩
    · rw [wrap, if_neg enclosed]
      have closed := List.isChain_cons_cons.2 ⟨fits_closing_left, bare⟩
      exact ⟨List.isChain_cons_cons.2 ⟨htu, bare⟩, closed⟩

end Rule

namespace Token.Tidy

variable {keeps encloses : Option Token → Option Token → Bool} {ts : List Token}

/-- **Dropping multiplication signs** leaves tidy tokens tidy, if what stands around them fits. -/
theorem drop (h : Tidy ts)
    (gap : ∀ t u, [t, .times, u] <:+: ts → keeps (some t) (some u) = false → Fits t u) :
    Tidy ((Rule.drop keeps).apply none ts none) where
  valid t ht := h.valid t (Rule.mem_of_mem_drop ht)
  full t ht := h.full t (Rule.mem_of_mem_drop ht)
  fits := by
    cases ts with
    | nil => exact .nil
    | cons t ts =>
      have chain := Rule.isChain_drop h.fits gap
      rw [Rule.apply, Rule.drop]
      split
      · exact chain.tail
      · exact chain

/-- **Brackets around literals** leave tidy tokens tidy. -/
theorem wrap (h : Tidy ts) : Tidy ((Rule.wrap encloses).apply none ts none) where
  valid t ht := by
    rcases Rule.mem_of_mem_wrap ht with ht | rfl | rfl
    · exact h.valid t ht
    · trivial
    · trivial
  full t ht := by
    rcases Rule.mem_of_mem_wrap ht with ht | rfl | rfl
    · exact h.full t ht
    · trivial
    · trivial
  fits := by
    cases ts with
    | nil => exact .nil
    | cons t ts =>
      obtain ⟨bare, closed⟩ := Rule.isChain_wrap encloses h.fits
      rw [Rule.apply, Rule.wrap]
      split
      · rename_i enclosed
        exact List.isChain_cons_cons.2 ⟨fits_opening_left,
          List.isChain_cons_cons.2 ⟨fits_closing_right enclosed.1, closed⟩⟩
      · exact bare

end Token.Tidy

end Arithmetic

end SamePoly
