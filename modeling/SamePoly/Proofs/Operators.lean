/-
  The operators of well-formed text and their operands.

  The check of operators looks for pairs of symbols that are out of place.  Read piece by piece,
  with `**` as one operator, what it lets pass is a condition on each piece and the next one.

  * `pieces`: a text without its spaces, `**` being one piece.
  * `Piece.Fits`: what the check asks of a piece and the next one.
  * `incorrectOperators_eq_nil_iff_pieces`: **the check finds nothing exactly in text whose pieces
    fit and which does not start with a binary operator**.
  * `OperandAhead`: what stands behind a power.
  * `operands_of_operator`: **every operator of a well-formed text stands between operands**, but
    for a sign in front of a closing bracket and for multiplication signs with spaces between them.
-/
import SamePoly.Proofs.Normalization

namespace SamePoly

/-! ## Pieces -/

/-- A piece of a text: the operator `**`, or a single symbol. -/
inductive Piece where
  | power
  | symbol (c : Char)
deriving DecidableEq

/-- The pieces of a text, spaces left out. -/
def pieces : List Char → List Piece
  | '*' :: '*' :: rest => .power :: pieces rest
  | c :: rest => if c = ' ' then pieces rest else .symbol c :: pieces rest
  | [] => []

namespace Piece

/-- `+` or `-`. -/
def isSign : Piece → Bool
  | power => false
  | symbol c => c == '+' || c == '-'

/-- An operator that needs an operand before it. -/
def isBinary : Piece → Bool
  | power => true
  | symbol c => SamePoly.isBinary c

/-- An operator. -/
def isOperator (p : Piece) : Bool := p.isSign || p.isBinary

/-- The first symbol of an operand. -/
def startsOperand : Piece → Bool
  | power => false
  | symbol c => c.isLower || c.isDigit || c == '('

/-- The last symbol of an operand. -/
def endsOperand : Piece → Bool
  | power => false
  | symbol c => c.isLower || c.isDigit || c == ')'

/-- What the check of operators asks of a piece and the next one. -/
structure Fits (p : Piece) (next : Option Piece) : Prop where
  operand : p.isOperator = true →
    ∃ q ∈ next, q.isOperator = true → p = .symbol '*' ∧ q = .symbol '*'
  opening : p = .symbol '(' → ∀ q ∈ next, q.isBinary = false ∧ q ≠ .symbol ')'
  closing : p.isBinary = true → next ≠ some (.symbol ')')

theorem isOperator_symbol (c : Char) : (symbol c).isOperator = SamePoly.isOperator c := by
  simp [isOperator, isSign, isBinary, SamePoly.isBinary, SamePoly.isOperator, Bool.or_assoc]

end Piece

/-- A condition on each piece and the pieces behind it. -/
def EachPiece (Q : Piece → Option Piece → Prop) (ps : List Piece) : Prop :=
  ∀ before p after, ps = before ++ p :: after → Q p after.head?

theorem eachPiece_nil {Q : Piece → Option Piece → Prop} : EachPiece Q [] := by
  intro before p after h
  cases before <;> cases h

theorem eachPiece_cons {Q : Piece → Option Piece → Prop} {p : Piece} {ps : List Piece} :
    EachPiece Q (p :: ps) ↔ Q p ps.head? ∧ EachPiece Q ps := by
  constructor
  · refine fun h => ⟨h [] p ps rfl, fun before q after hps => h (p :: before) q after ?_⟩
    rw [hps, List.cons_append]
  · rintro ⟨first, rest⟩ before q after h
    cases before with
    | nil =>
      cases h
      exact first
    | cons r before =>
      cases h
      exact rest before q after rfl

theorem pieces_cons {c : Char} {rest : List Char} (hc : c ≠ ' ')
    (hstar : c = '*' → rest.head? ≠ some '*') : pieces (c :: rest) = .symbol c :: pieces rest := by
  rw [pieces.eq_def]
  split
  · rename_i heq
    cases heq
    exact absurd rfl (hstar rfl)
  · rename_i heq
    cases heq
    rw [if_neg hc]
  · rename_i heq
    cases heq

theorem pieces_space (rest : List Char) : pieces (' ' :: rest) = pieces rest := by
  rw [pieces, if_pos rfl]
  nofun

/-- The piece that is ahead. -/
theorem head?_pieces (text : List Char) :
    (ahead text = none ∧ (pieces text).head? = none) ∨
      (∃ rest, text.dropWhile (· == ' ') = '*' :: '*' :: rest ∧ (pieces text).head? = some .power) ∨
        ∃ c rest, text.dropWhile (· == ' ') = c :: rest ∧ (c = '*' → rest.head? ≠ some '*') ∧
          (pieces text).head? = some (.symbol c) := by
  induction text with
  | nil => exact .inl ⟨rfl, rfl⟩
  | cons c rest ih =>
    by_cases hc : c = ' '
    · subst hc
      rw [pieces_space, ahead_space]
      exact ih
    · have here : (c :: rest).dropWhile (· == ' ') = c :: rest := by
        rw [List.dropWhile_cons, if_neg (by simpa using hc)]
      right
      by_cases hstar : c = '*' → rest.head? ≠ some '*'
      · exact .inr ⟨c, rest, here, hstar, by rw [pieces_cons hc hstar]; rfl⟩
      · push Not at hstar
        obtain ⟨rfl, hrest⟩ := hstar
        obtain ⟨tail, rfl⟩ := List.head?_eq_some_iff.1 hrest
        exact .inl ⟨tail, here, rfl⟩

section Everywhere

variable {P : Char → List Char → Prop} {Q : Piece → Option Piece → Prop} {text : List Char}

/-- From a condition on each symbol to one on each piece. -/
theorem Everywhere.eachPiece
    (symbol : ∀ c rest, c ≠ ' ' → (c = '*' → rest.head? ≠ some '*') → P c rest →
      Q (.symbol c) (pieces rest).head?)
    (power : ∀ rest, P '*' ('*' :: rest) → P '*' rest → Q .power (pieces rest).head?)
    (h : Everywhere P text) : EachPiece Q (pieces text) := by
  fun_induction pieces text with
  | case1 rest ih => exact eachPiece_cons.2 ⟨power rest h.1 h.2.1, ih h.2.2⟩
  | case2 rest hstars ih => exact ih h.2
  | case3 c rest hstars hc ih =>
    refine eachPiece_cons.2 ⟨symbol c rest hc (fun hstar hrest => ?_) h.1, ih h.2⟩
    obtain ⟨tail, rfl⟩ := List.head?_eq_some_iff.1 hrest
    exact hstars tail hstar rfl
  | case4 => exact eachPiece_nil

/-- And back, if the condition says nothing about spaces. -/
theorem EachPiece.everywhere (space : ∀ rest, P ' ' rest)
    (symbol : ∀ c rest, c ≠ ' ' → (c = '*' → rest.head? ≠ some '*') →
      Q (.symbol c) (pieces rest).head? → P c rest)
    (power : ∀ rest, Q .power (pieces rest).head? → P '*' ('*' :: rest) ∧ P '*' rest)
    (h : EachPiece Q (pieces text)) : Everywhere P text := by
  fun_induction pieces text with
  | case1 rest ih =>
    obtain ⟨first, tail⟩ := eachPiece_cons.1 h
    obtain ⟨star, star'⟩ := power rest first
    exact ⟨star, star', ih tail⟩
  | case2 rest hstars ih => exact ⟨space rest, ih h⟩
  | case3 c rest hstars hc ih =>
    obtain ⟨first, tail⟩ := eachPiece_cons.1 h
    refine ⟨symbol c rest hc (fun hstar hrest => ?_) first, ih tail⟩
    obtain ⟨after, rfl⟩ := List.head?_eq_some_iff.1 hrest
    exact hstars after hstar rfl
  | case4 => trivial

end Everywhere

/-! ## The check of operators, piece by piece -/

section Fits

variable {c : Char} {rest : List Char}

/-- The conditions on an operator that is not part of `**`: only a multiplication sign has an
    operator behind it, which is another one. -/
theorem operatorFits_iff (hstar : c = '*' → rest.head? ≠ some '*') :
    OperatorFits c rest ↔
      (isOperator c = true → ∃ d, ahead rest = some d ∧ (isOperator d = true → c = '*' ∧ d = '*')) ∧
        (c = '*' → ∀ r, rest.dropWhile (· == ' ') ≠ '*' :: '*' :: r) ∧
          (c = '(' → ∀ d, ahead rest = some d → isBinary d = false ∧ d ≠ ')') ∧
            (isBinary c = true → ahead rest ≠ some ')') := by
  have butTimes (e : Char) : isOperatorButTimes e = true ↔ isOperator e = true ∧ e ≠ '*' := by
    rw [isOperatorButTimes, Bool.and_eq_true, bne_iff_ne]
  constructor
  · intro h
    refine ⟨fun hc => ?_, h.stars, h.opening, h.closing⟩
    obtain ⟨d, hd, but⟩ := h.operand hc
    refine ⟨d, hd, fun hop => ?_⟩
    have times : d = '*' := by
      by_contra hne
      rw [(butTimes d).2 ⟨hop, hne⟩] at but
      cases but
    subst times
    by_contra hne
    exact h.single ((butTimes c).2 ⟨hc, fun he => hne ⟨he, rfl⟩⟩) hd
  · rintro ⟨operand, stars, opening, closing⟩
    refine ⟨fun hc => ?_, fun hc hd => ?_, stars, ?_, opening, closing⟩
    · obtain ⟨d, hd, times⟩ := operand hc
      refine ⟨d, hd, ?_⟩
      rw [← Bool.not_eq_true, butTimes]
      rintro ⟨hop, hne⟩
      exact hne (times hop).2
    · obtain ⟨hop, hne⟩ := (butTimes c).1 hc
      obtain ⟨d, hd', times⟩ := operand hop
      rw [hd] at hd'
      cases hd'
      exact hne (times rfl).1
    · rintro rfl r rfl
      exact absurd rfl (hstar rfl)

/-- A symbol by itself fits exactly if it fits as a piece. -/
theorem operatorFits_iff_symbol (hstar : c = '*' → rest.head? ≠ some '*') :
    OperatorFits c rest ↔ (Piece.symbol c).Fits (pieces rest).head? := by
  have fits (next : Option Piece) : (Piece.symbol c).Fits next ↔
      (isOperator c = true →
        ∃ q ∈ next, q.isOperator = true → Piece.symbol c = .symbol '*' ∧ q = .symbol '*') ∧
        (Piece.symbol c = .symbol '(' → ∀ q ∈ next, q.isBinary = false ∧ q ≠ .symbol ')') ∧
          (isBinary c = true → next ≠ some (.symbol ')')) := by
    rw [← Piece.isOperator_symbol]
    exact ⟨fun h => ⟨h.1, h.2, h.3⟩, fun h => ⟨h.1, h.2.1, h.2.2⟩⟩
  rw [operatorFits_iff hstar, fits]
  rcases head?_pieces rest with ⟨hahead, hnext⟩ | ⟨r, hdrop, hnext⟩ | ⟨d, r, hdrop, hd, hnext⟩
  · rw [hahead, hnext]
    have drop : rest.dropWhile (· == ' ') = [] := List.head?_eq_none_iff.1 hahead
    simp [drop]
  · have hahead : ahead rest = some '*' := by rw [ahead, hdrop]; rfl
    have times : isOperator '*' = true := rfl
    rw [hahead, hnext]
    have star : c = '*' → isOperator c = true := by
      rintro rfl
      rfl
    simp [hdrop, times, Piece.isOperator, Piece.isBinary, isBinary]
    rw [← Bool.not_eq_true]
    tauto
  · have hahead : ahead rest = some d := by rw [ahead, hdrop]; rfl
    have stars : ∀ s, rest.dropWhile (· == ' ') ≠ '*' :: '*' :: s := by
      intro s h
      rw [hdrop] at h
      cases h
      exact hd rfl rfl
    rw [hahead, hnext]
    simp [stars, Piece.isOperator_symbol, Piece.isBinary]

/-- An operand is ahead: no operator and no closing bracket. -/
def OperandAhead (text : List Char) : Prop :=
  ∃ d, ahead text = some d ∧ isOperator d = false ∧ d ≠ ')'

theorem OperatorFits.behind_caret (h : OperatorFits '^' rest) : OperandAhead rest := by
  obtain ⟨d, hd, but⟩ := h.operand rfl
  have times : d ≠ '*' := fun he => h.single rfl (he ▸ hd)
  exact ⟨d, hd, isOperator_eq_false_iff.2 ⟨but, times⟩, fun he => h.closing rfl (he ▸ hd)⟩

theorem OperatorFits.behind_stars (first : OperatorFits '*' ('*' :: rest))
    (second : OperatorFits '*' rest) : OperandAhead rest := by
  obtain ⟨d, hd, -⟩ := second.operand rfl
  exact ⟨d, hd, first.power rfl rest rfl d hd, fun he => second.closing rfl (he ▸ hd)⟩

/-- Two adjacent stars fit exactly if they fit as one piece. -/
theorem operatorFits_iff_power :
    OperatorFits '*' ('*' :: rest) ∧ OperatorFits '*' rest ↔
      Piece.power.Fits (pieces rest).head? := by
  constructor
  · rintro ⟨first, second⟩
    obtain ⟨d, hd, noOperator, hclose⟩ := first.behind_stars second
    have next : (pieces rest).head? = some (.symbol d) := by
      rcases head?_pieces rest with ⟨hahead, -⟩ | ⟨r, hdrop, -⟩ | ⟨e, r, hdrop, -, hnext⟩
      · rw [hd] at hahead
        cases hahead
      · rw [ahead, hdrop] at hd
        cases hd
        cases noOperator
      · rw [ahead, hdrop] at hd
        cases hd
        exact hnext
    rw [next]
    refine ⟨fun _ => ⟨_, rfl, fun hop => ?_⟩, fun hneg => ?_, fun _ he => ?_⟩
    · rw [Piece.isOperator_symbol, noOperator] at hop
      cases hop
    · cases hneg
    · cases he
      exact hclose rfl
  · intro h
    obtain ⟨q, hq, plain⟩ := h.operand rfl
    have noOperator : q.isOperator = false := by
      rw [← Bool.not_eq_true]
      intro hop
      cases (plain hop).1
    obtain ⟨d, hd, hahead⟩ : ∃ d, q = .symbol d ∧ ahead rest = some d := by
      rcases head?_pieces rest with ⟨-, hnext⟩ | ⟨r, -, hnext⟩ | ⟨e, r, hdrop, -, hnext⟩
      · rw [hnext] at hq
        cases hq
      · rw [hnext] at hq
        cases hq
        cases noOperator
      · rw [hnext] at hq
        cases hq
        exact ⟨e, rfl, by rw [ahead, hdrop]; rfl⟩
    subst hd
    rw [Piece.isOperator_symbol] at noOperator
    have hclose : d ≠ ')' := by
      rintro rfl
      exact h.closing rfl hq
    have alone : rest.head? ≠ some '*' := by
      intro hr
      obtain ⟨r, rfl⟩ := List.head?_eq_some_iff.1 hr
      rw [ahead_cons (by decide)] at hahead
      cases hahead
      cases noOperator
    constructor
    · constructor
      · exact fun _ => ⟨'*', ahead_cons (by decide) rest, rfl⟩
      · rintro ⟨⟩
      · rintro - r hr
        rw [List.dropWhile_cons, if_neg (by decide)] at hr
        cases hr
        exact alone rfl
      · rintro - r hr e he
        cases hr
        rw [hahead] at he
        cases he
        exact noOperator
      · rintro ⟨⟩
      · rw [ahead_cons (by decide)]
        rintro - ⟨⟩
    · rw [operatorFits_iff fun _ => alone]
      refine ⟨fun _ => ⟨d, hahead, fun hop => ?_⟩, fun _ r hr => ?_, fun hneg => ?_, fun _ he => ?_⟩
      · rw [noOperator] at hop
        cases hop
      · rw [ahead, hr] at hahead
        cases hahead
        cases noOperator
      · cases hneg
      · rw [hahead] at he
        cases he
        exact hclose rfl

end Fits

/-- **The check of operators finds nothing exactly in text whose pieces fit** and that does not
    start with a binary operator. -/
theorem incorrectOperators_eq_nil_iff_pieces (text : List Char) :
    incorrectOperators text = [] ↔
      (∀ p ∈ (pieces text).head?, p.isBinary = false) ∧ EachPiece Piece.Fits (pieces text) := by
  have start : (∀ d, ahead text = some d → isBinary d = false) ↔
      ∀ p ∈ (pieces text).head?, p.isBinary = false := by
    rcases head?_pieces text with ⟨hahead, hnext⟩ | ⟨r, hdrop, hnext⟩ | ⟨d, r, hdrop, hd, hnext⟩
    · simp [hahead, hnext]
    · have hahead : ahead text = some '*' := by rw [ahead, hdrop]; rfl
      simp [hahead, hnext, isBinary, Piece.isBinary]
    · have hahead : ahead text = some d := by rw [ahead, hdrop]; rfl
      simp [hahead, hnext, Piece.isBinary]
  rw [incorrectOperators_eq_nil_iff, start, and_comm]
  refine and_congr_right fun _ => ⟨?_, ?_⟩
  · exact Everywhere.eachPiece (fun c rest _ hstar => (operatorFits_iff_symbol hstar).1)
      fun rest first second => operatorFits_iff_power.1 ⟨first, second⟩
  · refine EachPiece.everywhere (fun rest => ?_)
      (fun c rest _ hstar => (operatorFits_iff_symbol hstar).2) fun rest => operatorFits_iff_power.2
    constructor <;> simp [isOperator, isOperatorButTimes, isBinary]

/-! ## Operands -/

/-- What the checks of numbers and symbols ask of a piece and the next one. -/
structure Piece.Known (p : Piece) (next : Option Piece) : Prop where
  expected : ∀ c, p = .symbol c → isExpected c = true ∧ c ≠ ' '
  whole : ∀ c, Piece.symbol c ∈ next → isSeparator c = true →
    ∃ d, p = .symbol d ∧ d.isDigit = true
  fraction : ∀ c, p = .symbol c → isSeparator c = true →
    ∃ d, next = some (.symbol d) ∧ d.isDigit = true

/-- The places where an operator may stand. -/
structure Placed (before : List Piece) (p : Piece) (after : List Piece) : Prop where
  behind : ∃ q ∈ after.head?, q.startsOperand = true ∨
    p.isSign = true ∧ q = .symbol ')' ∨ p = .symbol '*' ∧ q = .symbol '*'
  binary : p.isBinary = true →
    ∃ q ∈ before.getLast?, q.endsOperand = true ∨ p = .symbol '*' ∧ q = .symbol '*'
  sign : p.isSign = true → ∀ q ∈ before.getLast?, q.endsOperand = true ∨ q = .symbol '('

section Operands

variable {text : List Char} {p q : Piece} {before after : List Piece}

theorem ahead_of_head?_pieces {c : Char} (h : (pieces text).head? = some (.symbol c)) :
    ahead text = some c := by
  rcases head?_pieces text with ⟨-, hnext⟩ | ⟨r, -, hnext⟩ | ⟨d, r, hdrop, -, hnext⟩
  · rw [h] at hnext
    cases hnext
  · rw [h] at hnext
    cases hnext
  · rw [h] at hnext
    cases hnext
    rw [ahead, hdrop]
    rfl

theorem WellFormed.known (h : WellFormed text) : EachPiece Piece.Known (pieces text) := by
  have both := everywhere_and.2 ⟨everywhere_of_forall h.expected, h.separators⟩
  refine both.eachPiece (fun c rest hc _ fits => ⟨?_, ?_, ?_⟩)
    fun rest _ fits => ⟨nofun, fun c hnext separator => ?_, nofun⟩
  · intro d hd
    cases hd
    exact ⟨fits.1.1, hc⟩
  · intro d hnext separator
    refine ⟨c, rfl, ?_⟩
    by_contra hdigit
    have none := fits.2.whole (Bool.eq_false_iff.2 hdigit) d (ahead_of_head?_pieces hnext)
    rw [none] at separator
    cases separator
  · intro d hd separator
    cases hd
    obtain ⟨e, r, rfl, digit⟩ := fits.2.fraction separator
    refine ⟨e, ?_, digit⟩
    rw [pieces_cons (by rintro rfl; cases digit) (by rintro rfl; cases digit)]
    rfl
  · have none := fits.2.whole rfl c (ahead_of_head?_pieces hnext)
    rw [none] at separator
    cases separator

/-- A digit is no operator. -/
theorem Piece.ne_digit (hp : p.isOperator = true) : ¬∃ d, p = .symbol d ∧ d.isDigit = true := by
  rintro ⟨d, rfl, digit⟩
  rw [isOperator_symbol] at hp
  rcases isOperator_cases hp with rfl | rfl | rfl | rfl | rfl | rfl <;> cases digit

/-- The piece in front of an operator. -/
theorem Piece.Fits.before_operator (fits : q.Fits (some p)) (known : q.Known (some p))
    (hp : p.isOperator = true) :
    q.endsOperand = true ∨ p = .symbol '*' ∧ q = .symbol '*' ∨ q = .symbol '(' := by
  by_cases hq : q.isOperator = true
  · obtain ⟨r, hr, times⟩ := fits.operand hq
    cases hr
    exact .inr (.inl (times hp).symm)
  · cases q with
    | power => exact absurd rfl hq
    | symbol c =>
      obtain ⟨expected, space⟩ := known.expected c rfl
      rw [isOperator_symbol] at hq
      rcases isExpected_cases expected with hc | hc | hc | hc | rfl | rfl | rfl
      · exact .inl (by simp [endsOperand, hc])
      · exact .inl (by simp [endsOperand, hc])
      · exact absurd hc hq
      · obtain ⟨d, hd, digit⟩ := known.fraction c rfl hc
        exact absurd ⟨d, Option.some.inj hd, digit⟩ (ne_digit hp)
      · exact .inr (.inr rfl)
      · exact .inl rfl
      · exact absurd rfl space

/-- The piece behind an operator. -/
theorem Piece.Fits.behind_operator (fits : p.Fits (some q)) (known : p.Known (some q))
    (expected : ∀ c, q = .symbol c → isExpected c = true ∧ c ≠ ' ') (hp : p.isOperator = true) :
    q.startsOperand = true ∨ p.isSign = true ∧ q = .symbol ')' ∨
      p = .symbol '*' ∧ q = .symbol '*' := by
  by_cases hq : q.isOperator = true
  · obtain ⟨r, hr, times⟩ := fits.operand hp
    cases hr
    exact .inr (.inr (times hq))
  · cases q with
    | power => exact absurd rfl hq
    | symbol c =>
      obtain ⟨expected, space⟩ := expected c rfl
      rw [isOperator_symbol] at hq
      rcases isExpected_cases expected with hc | hc | hc | hc | rfl | rfl | rfl
      · exact .inl (by simp [startsOperand, hc])
      · exact .inl (by simp [startsOperand, hc])
      · exact absurd hc hq
      · exact absurd (known.whole c rfl hc) (ne_digit hp)
      · exact .inl rfl
      · have sign : p.isBinary = false := Bool.eq_false_iff.2 fun h => fits.closing h rfl
        rw [isOperator, sign, Bool.or_false] at hp
        exact .inr (.inl ⟨hp, rfl⟩)
      · exact absurd rfl space

/-- **Every operator of well-formed text stands between operands**, a sign also at the start of an
    expression.  Only a sign may have a closing bracket behind it, and only two multiplication
    signs with spaces between them may stand side by side. -/
theorem operands_of_operator (h : malformed? text = none)
    (whole : pieces text = before ++ p :: after) (hp : p.isOperator = true) :
    Placed before p after := by
  rw [malformed?_eq_none_iff] at h
  obtain ⟨start, fits⟩ := (incorrectOperators_eq_nil_iff_pieces text).1
    ((incorrectOperators_eq_nil_iff text).2 ⟨h.operators, fun d hd => (h.start d hd).2⟩)
  have known := h.known
  have front : before = [] ∧ p.isBinary = false ∨ ∃ ps q, before = ps ++ [q] ∧
      (q.endsOperand = true ∨ p = .symbol '*' ∧ q = .symbol '*' ∨
        q = .symbol '(' ∧ p.isBinary = false) := by
    rcases List.eq_nil_or_concat before with rfl | ⟨ps, q, rfl⟩
    · exact .inl ⟨rfl, start p (by rw [whole]; rfl)⟩
    · simp only [List.concat_eq_append, List.append_assoc] at whole ⊢
      have fits := fits ps q (p :: after) whole
      refine .inr ⟨ps, q, rfl, ?_⟩
      rcases fits.before_operator (known ps q (p :: after) whole) hp with hq | hq | hq
      · exact .inl hq
      · exact .inr (.inl hq)
      · exact .inr (.inr ⟨hq, (fits.opening hq p rfl).1⟩)
  constructor
  · obtain ⟨q, hq, -⟩ := (fits before p after whole).operand hp
    refine ⟨q, hq, ?_⟩
    obtain ⟨tail, rfl⟩ := List.head?_eq_some_iff.1 hq
    refine (fits before p _ whole).behind_operator (known before p _ whole) ?_ hp
    exact (known (before ++ [p]) q tail (by rw [whole, List.append_assoc]; rfl)).expected
  · intro binary
    rcases front with ⟨-, hb⟩ | ⟨ps, q, rfl, hq | hq | ⟨-, hb⟩⟩
    · rw [hb] at binary
      cases binary
    · exact ⟨q, List.getLast?_concat, .inl hq⟩
    · exact ⟨q, List.getLast?_concat, .inr hq⟩
    · rw [hb] at binary
      cases binary
  · intro sign r hr
    rcases front with ⟨rfl, -⟩ | ⟨ps, q, rfl, hq⟩
    · cases hr
    · rw [List.getLast?_concat] at hr
      cases hr
      rcases hq with hq | ⟨rfl, -⟩ | ⟨hq, -⟩
      · exact .inl hq
      · cases sign
      · exact .inr hq

/-- The power of `x**2*(3)` stands between a variable and a number. -/
theorem operands_of_power : malformed? "x**2*(3)".toList = none ∧
    pieces "x**2*(3)".toList = [.symbol 'x'] ++ .power :: "2*(3)".toList.map .symbol ∧
      Placed [.symbol 'x'] .power ("2*(3)".toList.map .symbol) := by
  have fine : malformed? "x**2*(3)".toList = none := by decide +kernel
  have whole : pieces "x**2*(3)".toList =
      [.symbol 'x'] ++ .power :: "2*(3)".toList.map .symbol := by decide +kernel
  exact ⟨fine, whole, operands_of_operator fine whole rfl⟩

/-- The check lets a sign in front of a closing bracket pass, and multiplication signs with a space
    between them. -/
theorem dangling_operators :
    (malformed? "(2+)".toList = none ∧
      pieces "(2+)".toList = [.symbol '(', .symbol '2'] ++ .symbol '+' :: [.symbol ')'] ∧
        (Piece.symbol ')').startsOperand = false) ∧
      malformed? "x * * 2".toList = none ∧
        pieces "x * * 2".toList = [.symbol 'x'] ++ .symbol '*' :: [.symbol '*', .symbol '2'] ∧
          (Piece.symbol '*').startsOperand = false := by
  decide +kernel

end Operands

end SamePoly
