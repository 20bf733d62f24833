/-
  The value of an exponent and the value of its text.

  An exponent is added up summand by summand, and its text is read as one expression.  The two come
  to the same, because every summand is spelled by a tree that keeps together behind a `+` and in
  brackets: a power, or a group with a minus in front of it.

  * `Reads.of_group`: a group of text that is read is read itself.
  * `GroupTower.exists_power`: a tower of groups of text that is read is spelled by a power.
  * `Exponent.IsCollected`: the exponents that the decomposition of a product collects.
  * `Exponent.IsCollected.exists_tree`: their text is spelled by a tree with their value.
  * `ZeroNeutral`: what is asked of scalars, and `zeroNeutral_rat`: fractions have it.
  * `evaluate_exponent_text`: **an exponent means what its text says**.
-/
import SamePoly.Proofs.Contributions
import SamePoly.Proofs.Preservation
import SamePoly.Proofs.Readable

namespace SamePoly

open Arithmetic Token

variable {text rest before inside after : List Char} {ts us : List Token}

/-! ## Tokens of parts -/

namespace Arithmetic.Token

theorem Lexed.of_isInfix {part : List Token} (h : Lexed ts) (hpart : part <:+: ts) : Lexed part :=
  ⟨fun t ht => h.valid t (hpart.subset ht), List.IsChain.infix h.separate hpart⟩

/-- A token that is one symbol keeps what stands around it apart. -/
theorem Lexed.append_cons {t : Token} (ht : t.isAtom = false) (hts : Lexed ts) (hus : Lexed us) :
    Lexed (ts ++ t :: us) := by
  have left (u : Token) : ¬ u.Merges t := by
    cases u with
    | number l => exact (show Apart (.number l) t from ht).not_merges
    | _ => exact id
  have right (u : Token) : ¬ t.Merges u := by
    cases t with
    | number l => cases ht
    | _ => exact id
  have valid : t.Valid := by
    cases t with
    | number l => cases ht
    | imaginary l => cases ht
    | _ => trivial
  refine ⟨?_, ?_⟩
  · exact List.forall_mem_append.2 ⟨hts.valid, List.forall_mem_cons.2 ⟨valid, hus.valid⟩⟩
  · refine List.isChain_append.2 ⟨hts.separate, List.isChain_cons.2 ⟨?_, hus.separate⟩, ?_⟩
    · exact fun u _ => right u
    · rintro u _ _ ⟨⟩
      exact left u

theorem Lexed.cons {t : Token} (ht : t.isAtom = false) (hts : Lexed ts) : Lexed (t :: ts) :=
  .append_cons ht .nil hts

/-- A symbol that is a token of its own cuts a text between tokens. -/
theorem exists_of_spelling_eq {s : Token} {d : Char} (hs : s.isAtom = false) (hd : s.text = [d])
    (valid : ∀ t ∈ ts, t.Valid) (h : spelling ts = before ++ d :: after) :
    ∃ front behind, ts = front ++ s :: behind ∧ spelling front = before ∧
      spelling behind = after := by
  induction ts generalizing before with
  | nil => simp at h
  | cons t ts ih =>
    obtain ⟨ht, valid⟩ := List.forall_mem_cons.1 valid
    rw [spelling_cons] at h
    rcases List.append_eq_append_iff.1 h with ⟨more, rfl, hrest⟩ | ⟨more, htext, hrest⟩
    · obtain ⟨front, behind, rfl, rfl, rfl⟩ := ih valid hrest
      exact ⟨t :: front, behind, rfl, rfl, rfl⟩
    · cases more with
      | nil =>
        rw [List.append_nil] at htext
        obtain ⟨front, behind, rfl, hfront, rfl⟩ := @ih [] valid hrest.symm
        exact ⟨t :: front, behind, rfl, by rw [spelling_cons, hfront, htext, List.append_nil], rfl⟩
      | cons e more =>
        obtain ⟨rfl, hafter⟩ := List.cons.inj hrest
        have same : t = s := by
          by_contra other
          exact ne_of_mem_text hs hd ht other (htext ▸ by simp) rfl
        subst same
        rw [hd] at htext
        have alone : before = [] ∧ more = [] := by
          have length := congrArg List.length htext
          simp only [List.length_append, List.length_cons, List.length_nil] at length
          exact ⟨List.length_eq_zero_iff.1 (by omega), List.length_eq_zero_iff.1 (by omega)⟩
        obtain ⟨rfl, rfl⟩ := alone
        exact ⟨[], ts, rfl, rfl, hafter.symm⟩

end Arithmetic.Token

/-! ## Groups of text that is read -/

/-- Text that is read is made of tokens, and the pass accepts it. -/
theorem reads_iff : Reads text ↔
    ∃ ts, Lexed ts ∧ spelling ts = text ∧ acceptsText 0 true text = true := by
  rw [Reads, Option.isSome_iff_exists]
  constructor
  · rintro ⟨s, read⟩
    obtain ⟨lexed, rfl⟩ := Sum.read?_eq_some_iff.1 read
    exact ⟨s.tokens, lexed, rfl, acceptsText_of_read? (Option.isSome_iff_exists.2 ⟨s, read⟩)⟩
  · rintro ⟨ts, lexed, rfl, accepted⟩
    rw [acceptsText_spelling lexed.valid, ← ofTokens?_isSome_iff,
      Option.isSome_iff_exists] at accepted
    obtain ⟨s, hs⟩ := accepted
    obtain rfl := Sum.tokens_of_ofTokens? hs
    exact ⟨s, Sum.read?_eq_some_iff.2 ⟨lexed, rfl⟩⟩

/-- The pass over accepted text comes to every part of it. -/
theorem exists_acceptsText_of_append {depth : ℕ} {wants : Bool}
    (h : acceptsText depth wants (before ++ rest) = true) :
    ∃ depth' wants', acceptsText depth' wants' rest = true := by
  induction before generalizing depth wants with
  | nil => exact ⟨depth, wants, h⟩
  | cons c before ih =>
    rcases acceptsText_cases h with ⟨-, depth', wants', next⟩ | ⟨-, next⟩
    · exact ih next
    · exact ih next

/-- What the pass does at balanced text does not depend on the brackets around it. -/
theorem Balanced.exists_acceptsText (h : Balanced text) {depth : ℕ} {wants : Bool}
    (accepted : acceptsText depth wants (text ++ rest) = true) :
    ∃ wants', acceptsText depth wants' rest = true ∧ ∀ depth more,
      acceptsText depth wants (text ++ more) = acceptsText depth wants' more := by
  induction h generalizing depth wants rest with
  | nil => exact ⟨wants, accepted, fun _ _ => rfl⟩
  | @symbol c tail hopen hclose _ ih =>
    rw [List.cons_append] at accepted
    have known : kind c ≠ .other := by
      intro hk
      rw [acceptsText_other hk] at accepted
      cases accepted
    have starts : wants = true → isBinary c = false := by
      rintro rfl
      rw [← Bool.not_eq_true, isBinary_iff known]
      rintro (hk | hk | hk) <;>
        (rcases kind_of_acceptsText accepted with h | h | h <;> rw [hk] at h <;> cases h)
    rw [acceptsText_symbol hopen hclose known starts] at accepted
    obtain ⟨wants', accepted, pass⟩ := ih accepted
    refine ⟨wants', accepted, fun depth more => ?_⟩
    rw [List.cons_append, acceptsText_symbol hopen hclose known starts, pass]
  | @group inside tail _ _ ihInside ih =>
    have spelled (more : List Char) : '(' :: (inside ++ ')' :: tail) ++ more =
        '(' :: (inside ++ ')' :: (tail ++ more)) := by simp
    rw [spelled, acceptsText_opening] at accepted
    obtain ⟨wantsInside, accepted, passInside⟩ := ihInside accepted
    rw [acceptsText_closing, Bool.and_eq_true, Bool.not_eq_true'] at accepted
    obtain ⟨rfl, accepted⟩ := accepted
    obtain ⟨wants', accepted, pass⟩ := ih accepted
    refine ⟨wants', accepted, fun depth more => ?_⟩
    rw [spelled, acceptsText_opening, passInside, acceptsText_closing, pass]
    rfl

/-- **A group of text that is read is read itself.** -/
theorem Reads.of_group (h : Reads (before ++ '(' :: (inside ++ ')' :: after)))
    (hinside : Balanced inside) : Reads inside := by
  obtain ⟨ts, lexed, spelled, accepted⟩ := reads_iff.1 h
  obtain ⟨front, behind, rfl, -, spelled⟩ :=
    exists_of_spelling_eq (s := .opening) rfl rfl lexed.valid spelled
  have lexedBehind : Lexed behind := lexed.of_isInfix ((List.suffix_cons _ _).trans
    (List.suffix_append _ _)).isInfix
  obtain ⟨own, behind, rfl, rfl, -⟩ :=
    exists_of_spelling_eq (s := .closing) rfl rfl lexedBehind.valid spelled
  obtain ⟨depth, wants, accepted⟩ := exists_acceptsText_of_append accepted
  rw [acceptsText_opening] at accepted
  obtain ⟨wants', accepted, pass⟩ := hinside.exists_acceptsText accepted
  rw [acceptsText_closing, Bool.and_eq_true, Bool.not_eq_true'] at accepted
  obtain ⟨rfl, -⟩ := accepted
  refine reads_iff.2 ⟨own, lexedBehind.of_isInfix (List.prefix_append _ _).isInfix, rfl, ?_⟩
  have alone := pass 0 []
  rw [List.append_nil] at alone
  exact alone

/-! ## Trees of exponents -/

/-- A part of a text that is read. -/
def Within (part : List Char) : Prop := ∃ text, Reads text ∧ part <:+: text

theorem Within.of_isInfix {part : List Char} (h : Within text) (hpart : part <:+: text) :
    Within part := by
  obtain ⟨whole, reads, within⟩ := h
  exact ⟨whole, reads, hpart.trans within⟩

theorem Within.reads (h : Within ('(' :: (inside ++ [')']))) (hinside : Balanced inside) :
    Reads inside := by
  obtain ⟨_, reads, before, after, rfl⟩ := h
  have whole : Reads (before ++ '(' :: (inside ++ ')' :: after)) := by simpa using reads
  exact whole.of_group hinside

theorem Arithmetic.Primary.lexed_group {s : Sum} (lexed : Lexed s.tokens) :
    Lexed (Primary.group s).tokens :=
  (lexed.append_cons rfl .nil).cons rfl

/-- A group of text that is read is the spelling of a tree. -/
theorem exists_primary (h : Within ('(' :: (inside ++ [')']))) (hinside : Balanced inside) :
    ∃ b : Primary, Lexed b.tokens ∧ spelling b.tokens = '(' :: (inside ++ [')']) := by
  obtain ⟨s, read⟩ := Option.isSome_iff_exists.1 (h.reads hinside)
  obtain ⟨lexed, rfl⟩ := Sum.read?_eq_some_iff.1 read
  refine ⟨.group s, Primary.lexed_group lexed, ?_⟩
  simp [Primary.tokens, spelling_append, Sum.text, Token.text]

/-- A tower of groups of text that is read is the spelling of a power. -/
theorem GroupTower.exists_power {e : List Char} (h : GroupTower e) (within : Within e) :
    ∃ q : Power, Lexed q.tokens ∧ spelling q.tokens = e := by
  induction h with
  | single hinside =>
    obtain ⟨b, lexed, spelled⟩ := exists_primary within hinside
    exact ⟨.plain b, lexed, spelled⟩
  | @link inside e hinside _ ih =>
    have whole : '(' :: (inside ++ ')' :: '^' :: e) = '(' :: (inside ++ [')']) ++ '^' :: e := by simp
    rw [whole] at within
    obtain ⟨b, lexed, spelled⟩ :=
      exists_primary (within.of_isInfix (List.prefix_append _ _).isInfix) hinside
    obtain ⟨q, lexedRest, spelledRest⟩ :=
      ih (within.of_isInfix ((List.suffix_cons _ _).trans (List.suffix_append _ _)).isInfix)
    refine ⟨.raised b (.signed [] q), lexed.append_cons rfl lexedRest, ?_⟩
    rw [whole, ← spelled, ← spelledRest]
    exact spelling_append _ _

/-! ## Exponents of factors -/

section Values

variable {R : Type} [Scalar R]

theorem toOption_evaluate_text {s : Sum} (lexed : Lexed s.tokens) :
    (evaluate s.text : Except EvalError (Number R)).toOption = s.value? := by
  rw [Sum.evaluate_text lexed]
  cases (s.value? : Option (Number R)) <;> rfl

/-- A sum of one factor. -/
def Arithmetic.Sum.ofUnary (u : Unary) : Sum := .single (.single u)

/-- A group with a minus in front of it. -/
def Arithmetic.Unary.minus (s : Sum) : Unary := .signed [.minus] (.plain (.group s))

theorem Arithmetic.Unary.value?_signed_nil (q : Power) :
    ((Unary.signed [] q).value? : Option (Number R)) = q.value? := by
  rw [Unary.value?]
  cases (q.value? : Option (Number R)) <;> rfl

theorem Arithmetic.Unary.value?_minus (s : Sum) :
    ((Unary.minus s).value? : Option (Number R)) = s.value?.map (-·) := by
  rw [Unary.minus, Unary.value?, Power.value?, Primary.value?]
  cases (s.value? : Option (Number R)) <;> rfl

theorem Arithmetic.Unary.tokens_minus (s : Sum) :
    (Unary.minus s).tokens = .minus :: .opening :: s.tokens ++ [.closing] := rfl

theorem Arithmetic.Unary.lexed_minus {s : Sum} (lexed : Lexed s.tokens) :
    Lexed (Unary.minus s).tokens :=
  (Primary.lexed_group lexed).cons rfl

theorem Arithmetic.Unary.spelling_minus (s : Sum) :
    spelling (Unary.minus s).tokens = '-' :: '(' :: s.text ++ [')'] := by
  simp [Unary.tokens_minus, spelling_append, Sum.text, Token.text]

namespace Exponent

/-- The value of an exponent, if it has one. -/
def value? (e : Exponent) : Option (Number R) := e.evaluate.toOption

theorem value?_negated (e : Exponent) :
    ((negated e).value? : Option (Number R)) = e.value?.map (-·) := by
  rw [value?, evaluate, value?]
  cases (e.evaluate : Except EvalError (Number R)) <;> rfl

theorem addAll_cons (total : Number R) (e : Exponent) (es : List Exponent) :
    (addAll total (e :: es)).toOption = (e.value?.map (total + ·)).bind fun total =>
      (addAll total es).toOption := by
  rw [addAll, value?]
  cases (e.evaluate : Except EvalError (Number R)) <;> rfl

theorem joined_cons (e : Exponent) (es : List Exponent) :
    joined (e :: es) = e.text ++ es.flatMap fun e => '+' :: e.text := by
  induction es generalizing e with
  | nil => simp [joined]
  | cons f es ih => rw [joined, ih, List.flatMap_cons, List.cons_append]; simp

/-- One, or a tower of groups. -/
inductive IsPlain : Exponent → Prop
  | one : IsPlain .one
  | tower {e : List Char} : GroupTower e → IsPlain (.literal e)

/-- What one group contributes as an exponent. -/
inductive IsSummand : Exponent → Prop
  | plain {e : Exponent} : IsPlain e → IsSummand e
  | negated {e : Exponent} : IsPlain e → IsSummand (.negated e)

/-- What several groups contribute to the exponent of one factor. -/
inductive IsCollected : Exponent → Prop
  | single {e : Exponent} : IsSummand e → IsCollected e
  | sum {es : List Exponent} : es ≠ [] → (∀ e ∈ es, IsSummand e) → IsCollected (.sum es)

theorem IsPlain.exists_power {e : Exponent} (h : e.IsPlain) (within : ∀ p ∈ e.pieces, Within p) :
    ∃ q : Power, Lexed q.tokens ∧ spelling q.tokens = e.text ∧
      (e.value? : Option (Number R)) = q.value? := by
  obtain ⟨q, lexed, spelled⟩ : ∃ q : Power, Lexed q.tokens ∧ spelling q.tokens = e.text := by
    cases h with
    | one => exact ⟨.plain (.number ⟨['1'], none⟩), by decide, rfl⟩
    | tower htower => exact htower.exists_power (within _ List.mem_cons_self)
  refine ⟨q, lexed, spelled, ?_⟩
  have read : Lexed (Sum.ofUnary (.signed [] q)).tokens := lexed
  have same : e.evaluate = (SamePoly.evaluate e.text : Except EvalError (Number R)) := by cases h <;> rfl
  have value : ((Sum.ofUnary (.signed [] q)).value? : Option (Number R)) = q.value? :=
    Unary.value?_signed_nil q
  rw [value?, same, ← spelled, ← value, ← toOption_evaluate_text read]
  rfl

theorem IsSummand.exists_unary {e : Exponent} (h : e.IsSummand) (within : ∀ p ∈ e.pieces, Within p) :
    ∃ u : Unary, Lexed u.tokens ∧ spelling u.tokens = e.text ∧
      (e.value? : Option (Number R)) = u.value? := by
  cases h with
  | plain h =>
    obtain ⟨q, lexed, spelled, value⟩ := h.exists_power (R := R) within
    exact ⟨.signed [] q, lexed, spelled, value.trans (Unary.value?_signed_nil q).symm⟩
  | @negated inner h =>
    obtain ⟨q, lexed, spelled, value⟩ := h.exists_power (R := R) within
    have inner : ((Sum.ofUnary (.signed [] q)).value? : Option (Number R)) = q.value? :=
      Unary.value?_signed_nil q
    refine ⟨.minus (.ofUnary (.signed [] q)), Unary.lexed_minus lexed, ?_, ?_⟩
    · rw [Unary.spelling_minus, text, ← spelled]
      rfl
    · rw [value?_negated, Unary.value?_minus, inner, value]

/-- Numbers that count as the same: zero is neutral, and sums and negatives keep it up. -/
structure Neutral (same : Number R → Number R → Prop) : Prop where
  refl : ∀ v, same v v
  zero_add : ∀ v, same (0 + v) v
  add : ∀ {v w}, same v w → ∀ u, same (v + u) (w + u)
  neg : ∀ {v w}, same v w → same (-v) (-w)

variable {same : Number R → Number R → Prop}

theorem Neutral.rel_refl (neutral : Neutral same) (value : Option (Number R)) :
    Option.Rel same value value := by
  cases value with
  | none => exact .none
  | some v => exact .some (neutral.refl v)

theorem Neutral.rel_neg (neutral : Neutral same) {value value' : Option (Number R)}
    (h : Option.Rel same value value') : Option.Rel same (value.map (-·)) (value'.map (-·)) := by
  cases h with
  | none => exact .none
  | some h => exact .some (neutral.neg h)

/-- One more summand on both sides. -/
theorem Neutral.rel_plus (neutral : Neutral same) {s : Sum} {u : Unary}
    {total : Option (Number R)} (h : Option.Rel same total s.value?) :
    Option.Rel same (total.bind fun total => u.value?.map (total + ·))
      (Sum.plus s (.single u)).value? := by
  rw [Sum.value?, Product.value?]
  generalize (s.value? : Option (Number R)) = value at h
  cases h with
  | none => exact .none
  | some h =>
    cases (u.value? : Option (Number R)) with
    | none => exact .none
    | some operand => exact .some (neutral.add h operand)

/-- A sum that is added up summand by summand is the sum of the joined text. -/
theorem exists_sum (neutral : Neutral same) {es : List Exponent} (h : ∀ e ∈ es, e.IsSummand)
    (within : ∀ p ∈ allPieces es, Within p) {s : Sum} (lexed : Lexed s.tokens)
    {total : Option (Number R)} (hs : Option.Rel same total s.value?) :
    ∃ s' : Sum, Lexed s'.tokens ∧ s'.text = s.text ++ es.flatMap (fun e => '+' :: e.text) ∧
      Option.Rel same (total.bind fun total => (addAll total es).toOption) s'.value? := by
  induction es generalizing s total with
  | nil =>
    refine ⟨s, lexed, (List.append_nil _).symm, ?_⟩
    cases total <;> exact hs
  | cons e es ih =>
    obtain ⟨he, hes⟩ := List.forall_mem_cons.1 h
    rw [allPieces, List.forall_mem_append] at within
    obtain ⟨u, lexedUnary, spelled, value⟩ := he.exists_unary (R := R) within.1
    have next := neutral.rel_plus (u := u) hs
    obtain ⟨s', lexed', text, rel⟩ := ih hes within.2 (s := .plus s (.single u))
      (lexed.append_cons rfl lexedUnary) next
    refine ⟨s', lexed', ?_, ?_⟩
    · rw [text, List.flatMap_cons, ← spelled, Sum.text, Sum.text, Sum.tokens, Product.tokens,
        spelling_append]
      simp [Token.text]
    · rw [← value] at rel
      cases total with
      | none => exact rel
      | some total =>
        rw [Option.bind_some, addAll_cons]
        exact rel

/-- **The text of an exponent is the spelling of a tree with its value.** -/
theorem IsCollected.exists_tree (neutral : Neutral same) {e : Exponent} (h : e.IsCollected)
    (within : ∀ p ∈ e.pieces, Within p) :
    ∃ s : Sum, Lexed s.tokens ∧ s.text = e.text ∧ Option.Rel same e.value? s.value? := by
  cases h with
  | single h =>
    obtain ⟨u, lexed, spelled, value⟩ := h.exists_unary (R := R) within
    exact ⟨.ofUnary u, lexed, spelled, value ▸ neutral.rel_refl _⟩
  | @sum es hne h =>
    cases es with
    | nil => exact absurd rfl hne
    | cons e es =>
      obtain ⟨he, hes⟩ := List.forall_mem_cons.1 h
      have within : ∀ p ∈ allPieces (e :: es), Within p := within
      rw [allPieces, List.forall_mem_append] at within
      obtain ⟨u, lexed, spelled, value⟩ := he.exists_unary (R := R) within.1
      have first : Option.Rel same (e.value?.map (0 + ·)) (Sum.ofUnary u).value? := by
        rw [value]
        show Option.Rel same (u.value?.map (0 + ·)) u.value?
        cases (u.value? : Option (Number R)) with
        | none => exact .none
        | some v => exact .some (neutral.zero_add v)
      obtain ⟨s, lexed, text, rel⟩ := exists_sum neutral hes within.2 (s := .ofUnary u) lexed first
      refine ⟨s, lexed, ?_, ?_⟩
      · rw [text, Exponent.text, joined_cons, ← spelled]
        rfl
      · rw [← addAll_cons] at rel
        exact rel

/-- So is the text of its negative. -/
theorem IsCollected.exists_tree_of (neutral : Neutral same) {e f : Exponent} (h : f.IsCollected)
    (he : e = f ∨ e = .negated f) (within : ∀ p ∈ e.pieces, Within p) :
    ∃ s : Sum, Lexed s.tokens ∧ s.text = e.text ∧ Option.Rel same e.value? s.value? := by
  rcases he with rfl | rfl
  · exact h.exists_tree neutral within
  · obtain ⟨s, lexed, spelled, rel⟩ := h.exists_tree neutral within
    refine ⟨.ofUnary (.minus s), Unary.lexed_minus lexed, ?_, ?_⟩
    · rw [text, ← spelled]
      exact Unary.spelling_minus s
    · rw [value?_negated]
      show Option.Rel same _ (Unary.minus s).value?
      rw [Unary.value?_minus]
      exact neutral.rel_neg rel

mutual

/-- The texts that an exponent is made of stand in its text. -/
theorem infix_text (e : Exponent) : ∀ p ∈ e.pieces, p <:+: e.text := by
  match e with
  | .literal text =>
    intro p hp
    rw [List.mem_singleton.1 hp]
    exact List.infix_rfl
  | .sum summands => exact infix_joined summands
  | .negated inner =>
    intro p hp
    have behind : inner.text <:+: '-' :: '(' :: inner.text ++ [')'] := ⟨['-', '('], [')'], rfl⟩
    exact (infix_text inner p hp).trans behind

theorem infix_joined (es : List Exponent) : ∀ p ∈ allPieces es, p <:+: joined es := by
  match es with
  | [] => exact nofun
  | [e] =>
    intro p hp
    rw [allPieces, allPieces, List.append_nil] at hp
    exact infix_text e p hp
  | e :: f :: es =>
    have whole : joined (e :: f :: es) = e.text ++ '+' :: joined (f :: es) := rfl
    rw [allPieces, List.forall_mem_append, whole]
    constructor
    · exact fun p hp => (infix_text e p hp).trans (List.prefix_append _ _).isInfix
    · intro p hp
      have behind := (List.suffix_cons '+' (joined (f :: es))).trans (List.suffix_append e.text _)
      exact (infix_joined (f :: es) p hp).trans behind.isInfix

end

/-- **An exponent has a value when its text has one**, and the values count as the same. -/
theorem IsCollected.evaluate_text (neutral : Neutral same) {e f : Exponent} (h : f.IsCollected)
    (he : e = f ∨ e = .negated f) :
    ((∃ v : Number R, e.evaluate = .ok v) ↔
        ∃ w : Number R, SamePoly.evaluate e.text = .ok w) ∧
      ∀ v w : Number R, e.evaluate = .ok v → SamePoly.evaluate e.text = .ok w → same v w := by
  -- Both sides have no value unless all texts of the exponent are read.
  have related (within : ∀ p ∈ e.pieces, Within p) :
      Option.Rel same e.value? (SamePoly.evaluate e.text : Except EvalError (Number R)).toOption := by
    obtain ⟨s, lexed, spelled, rel⟩ := h.exists_tree_of neutral he within
    rwa [← toOption_evaluate_text lexed, spelled] at rel
  have of_exponent {v : Number R} (hv : e.evaluate = .ok v) : ∀ p ∈ e.pieces, Within p :=
    fun p hp => ⟨p, reads_of_evaluate e hv p hp, List.infix_rfl⟩
  have of_text {w : Number R} (hw : SamePoly.evaluate e.text = .ok w) : ∀ p ∈ e.pieces, Within p :=
    fun p hp => ⟨e.text, .of_evaluate hw, infix_text e p hp⟩
  refine ⟨⟨?_, ?_⟩, ?_⟩
  · rintro ⟨v, hv⟩
    have rel := related (of_exponent hv)
    rw [value?, hv] at rel
    cases hw : (SamePoly.evaluate e.text : Except EvalError (Number R)) with
    | error cause => rw [hw] at rel; cases rel
    | ok w => exact ⟨w, rfl⟩
  · rintro ⟨w, hw⟩
    have rel := related (of_text hw)
    rw [value?, hw] at rel
    cases hv : (e.evaluate : Except EvalError (Number R)) with
    | error cause => rw [hv] at rel; cases rel
    | ok v => exact ⟨v, rfl⟩
  · intro v w hv hw
    have rel := related (of_exponent hv)
    rw [value?, hv, hw] at rel
    cases rel with
    | some h => exact h

end Exponent

/-! ## Zeros -/

/-- Equal scalars, or two zeros of any sign. -/
def Scalar.Alike (x y : R) : Prop := x = y ∨ (Scalar.isZero x = true ∧ Scalar.isZero y = true)

/-- Numbers with equal parts, where the sign of a zero does not count. -/
def Number.Alike (v w : Number R) : Prop := Scalar.Alike v.re w.re ∧ Scalar.Alike v.im w.im

variable (R) in
/-- A zero of any sign is neutral in a sum, and its negative is a zero. -/
structure ZeroNeutral : Prop where
  isZero_zero : Scalar.isZero (0 : R) = true
  isZero_neg : ∀ x : R, Scalar.isZero x = true → Scalar.isZero (-x) = true
  zero_add : ∀ x y : R, Scalar.isZero x = true → Scalar.Alike (x + y) y

theorem Scalar.Alike.of_common {x y z : R} (hx : Scalar.Alike x z) (hy : Scalar.Alike y z) :
    Scalar.Alike x y := by
  rcases hx with rfl | ⟨hx, hz⟩
  · exact hy.imp Eq.symm And.symm
  · rcases hy with rfl | ⟨hy, -⟩
    · exact .inr ⟨hx, hz⟩
    · exact .inr ⟨hx, hy⟩

namespace ZeroNeutral

variable (zero : ZeroNeutral R)
include zero

theorem add {x y : R} (h : Scalar.Alike x y) (z : R) : Scalar.Alike (x + z) (y + z) := by
  rcases h with rfl | ⟨hx, hy⟩
  · exact .inl rfl
  · exact (zero.zero_add x z hx).of_common (zero.zero_add y z hy)

theorem neg {x y : R} (h : Scalar.Alike x y) : Scalar.Alike (-x) (-y) := by
  rcases h with rfl | ⟨hx, hy⟩
  · exact .inl rfl
  · exact .inr ⟨zero.isZero_neg x hx, zero.isZero_neg y hy⟩

theorem neutral : Exponent.Neutral (Number.Alike : Number R → Number R → Prop) where
  refl _ := ⟨.inl rfl, .inl rfl⟩
  zero_add v := ⟨zero.zero_add 0 v.re zero.isZero_zero, zero.zero_add 0 v.im zero.isZero_zero⟩
  add h u := ⟨zero.add h.1 u.re, zero.add h.2 u.im⟩
  neg h := ⟨zero.neg h.1, zero.neg h.2⟩

end ZeroNeutral

theorem zeroNeutral_rat : ZeroNeutral ℚ where
  isZero_zero := rfl
  isZero_neg x hx := by rw [Scalar.isZero_iff.1 hx]; rfl
  zero_add x y hx := .inl (by rw [Scalar.isZero_iff.1 hx]; exact Rat.zero_add y)

end Values

/-! ## Factors of products -/

theorem Segment.AtGroup.isSummand {s : Segment} (h : s.AtGroup) : s.exponent.IsSummand := by
  have plain : (s.tower.elim Exponent.one .literal).IsPlain := by
    cases hs : s.tower with
    | none => exact .one
    | some e => exact .tower (h.tower e hs)
  rw [Segment.exponent]
  split
  · exact .negated plain
  · exact .plain plain

theorem Cut.AtGroups.isSummand {cut : Cut} (h : cut.AtGroups) :
    ∀ x ∈ cut.contributions, x.2.IsSummand := by
  intro x hx
  rcases List.mem_append.1 (List.mem_of_mem_filter hx) with hx | hx
  · obtain ⟨s, hs, hx⟩ := List.mem_flatMap.1 hx
    rcases List.mem_pair.1 hx with rfl | rfl
    · exact .plain .one
    · exact (h.segments s hs).isSummand
  · rw [List.mem_singleton.1 hx]
    exact .plain .one

theorem Exponent.IsCollected.total {es : List Exponent} (hne : es ≠ [])
    (h : ∀ e ∈ es, e.IsSummand) : (Exponent.total es).IsCollected := by
  match es, hne with
  | [e], _ => exact .single (h e List.mem_cons_self)
  | _ :: _ :: _, hne => exact .sum hne h

/-- The exponents of a product are collected from its groups. -/
theorem isCollected_of_mem_splitComposition (balanced : Balanced text)
    (powers : PowersBetweenGroups text) {x : List Char × Exponent}
    (hx : x ∈ splitComposition text) : x.2.IsCollected := by
  obtain ⟨cut, hcut, rfl⟩ := balanced.exists_cut powers
  rw [hcut.splitComposition] at hx
  obtain ⟨factor, hfactor, rfl⟩ := List.mem_map.1 hx
  have some : exponentsOf cut.contributions factor ≠ [] :=
    exponentsOf_eq_nil_iff.not_left.2 (List.mem_eraseDups.1 hfactor)
  exact .total some (forall_exponentsOf hcut.isSummand factor)

/-- **An exponent means what its text says.**  The exponent of a factor has a value exactly when its
    text has one, and so has its negative.  If zero is neutral, the values are the same up to the
    sign of zeros. -/
theorem evaluate_exponent_text {R : Type} [Scalar R] (text : List Char) (balanced : Balanced text)
    (powers : PowersBetweenGroups text) (x : List Char × Exponent) (hx : x ∈ splitComposition text)
    (e : Exponent) (he : e = x.2 ∨ e = .negated x.2) :
    ((∃ v : Number R, e.evaluate = .ok v) ↔ ∃ w : Number R, evaluate e.text = .ok w) ∧
      (ZeroNeutral R → ∀ v w : Number R, e.evaluate = .ok v → evaluate e.text = .ok w →
        v.Alike w) := by
  have collected := isCollected_of_mem_splitComposition balanced powers hx
  have anything : Exponent.Neutral fun _ _ : Number R => True :=
    ⟨fun _ => trivial, fun _ => trivial, fun _ _ => trivial, fun _ => trivial⟩
  exact ⟨(collected.evaluate_text anything he).1,
    fun zero => (collected.evaluate_text zero.neutral he).2⟩

/-- The exponent of a factor that is divided by its square later on. -/
theorem evaluate_exponent_text_repeated :
    let text := "(x)(y)/(x)^(2)".toList
    let e : Exponent := .sum [.one, .negated (.literal "(2)".toList)]
    (Balanced text ∧ PowersBetweenGroups text ∧ (['x'], e) ∈ splitComposition text ∧
      ZeroNeutral ℚ) ∧
      e.text = "1+-((2))".toList ∧ ∃ v : Number ℚ, e.evaluate = .ok v ∧ v.Alike ⟨-1, 0⟩ := by
  intro text e
  have balanced : Balanced text := checkBrackets_eq_none_iff.1 rfl
  have powers : PowersBetweenGroups text := powersBetweenGroups_of_isChain (by decide)
  have symbol (c : Char) (h : c ≠ '(' ∧ c ≠ ')') : Balanced [c] := .symbol h.1 h.2 .nil
  have member : (['x'], e) ∈ splitComposition text := by
    let cut : Cut := ⟨[⟨[], ['x'], none⟩, ⟨[], ['y'], none⟩, ⟨['/'], ['x'], some "(2)".toList⟩], []⟩
    have first : Segment.AtGroup ⟨[], ['x'], none⟩ := ⟨nofun, symbol 'x' (by decide), nofun⟩
    have second : Segment.AtGroup ⟨[], ['y'], none⟩ := ⟨nofun, symbol 'y' (by decide), nofun⟩
    have third : Segment.AtGroup ⟨['/'], ['x'], some "(2)".toList⟩ := by
      refine ⟨List.forall_mem_singleton.2 (by decide), symbol 'x' (by decide), ?_⟩
      rintro _ ⟨⟩
      exact .single (symbol '2' (by decide))
    have groups : cut.AtGroups := by
      refine ⟨List.forall_mem_cons.2 ⟨first, List.forall_mem_cons.2 ⟨second, ?_⟩⟩, nofun⟩
      exact List.forall_mem_singleton.2 third
    have collected : splitComposition text = [(['x'], e), (['y'], .one)] := groups.splitComposition
    rw [collected]
    exact List.mem_cons_self
  obtain ⟨outcome, value⟩ :=
    evaluate_exponent_text (R := ℚ) text balanced powers _ member e (.inl rfl)
  -- The tree of `1+-((2))`.
  let two : Sum := .ofUnary (.signed [] (.plain (.group (.ofUnary (.signed [] (.plain
    (.number ⟨['2'], none⟩)))))))
  let tree : Sum := .plus (.ofUnary (.signed [] (.plain (.number ⟨['1'], none⟩))))
    (.single (.minus two))
  have computed : (tree.value? : Option (Number ℚ)) = some ⟨-1, 0⟩ := by decide +kernel
  have read : (evaluate tree.text : Except EvalError (Number ℚ)) = .ok ⟨-1, 0⟩ := by
    rw [Sum.evaluate_text (by decide), computed]
  obtain ⟨v, hv⟩ := outcome.2 ⟨_, read⟩
  exact ⟨⟨balanced, powers, member, zeroNeutral_rat⟩, rfl, v, hv, value zeroNeutral_rat v _ hv read⟩

end SamePoly
