/-
  Normalized text without slips.

  The checks let a few slips pass: a sign right before a closing bracket, two powers side by side,
  and a multiplication sign next to something that gets brackets.  Normalized text without them is
  clean, and so is everything that it is taken apart into: terms, bases and exponents.  Clean text
  without variables is a numeric expression.

  * `Joins`: neighbours in clean text.
  * `Clean`: text in which only such neighbours stand side by side.
  * `Clean.hasOutcome`: clean text without variables has a value, or a step divides by zero.
  * `Clean.of_mem_splitSum`: the terms of a clean text are clean.
  * `Remains`: what is left of a clean product behind a group.
  * `Clean.of_mem_splitComposition`: **the factors of a clean product and their exponents are
    clean**.
  * `Clean.wrapVariables`: brackets around variables keep a text clean.
-/
import SamePoly.Proofs.Contributions
import SamePoly.Proofs.Depth
import SamePoly.Proofs.Idempotence

namespace SamePoly

variable {text part front back rest run inside term : List Char} {c d : Char}

/-! ## Clean text -/

/-- Neighbours in clean text. -/
structure Joins (c d : Char) : Prop where
  follows : Follows c d
  finds : FindsOperand c d
  before : DigitBefore c d
  behind : DigitBehind c d
  power : PowerBetweenBrackets c d

/-- What may stand at the end of clean text. -/
def Closes (c : Char) : Prop := (kind c).isOperator = false ∧ c ≠ '.'

/-- Text of operands and operators in their places. -/
structure Clean (text : List Char) : Prop where
  known : ∀ c ∈ text, kind c ≠ .other
  balanced : Balanced text
  starts : ∃ c ∈ text.head?, isBinary c = false
  joins : text.IsChain Joins
  ends : ∀ c ∈ text.getLast?, Closes c

namespace Clean

theorem sound (h : Clean text) : Sound text :=
  ⟨h.known, h.joins.imp fun _ _ joins => joins.follows, fun last => (h.ends '.' last).2 rfl⟩

theorem readable (h : Clean text) : Readable text :=
  ⟨h.balanced, h.starts, h.joins.imp fun _ _ joins => joins.finds, fun c hc => (h.ends c hc).1⟩

theorem reads (h : Clean text) (numeric : hasVariable text = false) : Reads text :=
  (isSome_read?_iff h.sound numeric).2 h.readable

/-- Clean text without variables has a value, or a step divides by zero. -/
theorem hasOutcome {R : Type} [Scalar R] (h : Clean text) (numeric : hasVariable text = false) :
    HasOutcome (evaluate text : Except EvalError (Number R)) :=
  (h.reads numeric).hasOutcome

end Clean

/-- A digit stands alone. -/
theorem clean_one : Clean ['1'] where
  known := List.forall_mem_singleton.2 (by decide)
  balanced := .symbol (by decide) (by decide) .nil
  starts := ⟨'1', rfl, rfl⟩
  joins := List.isChain_singleton _
  ends := by
    rintro c ⟨⟩
    exact ⟨rfl, by decide⟩

/-- A digit behind a sign. -/
theorem clean_signed_one (hc : kind c = .sign) : Clean [c, '1'] := by
  have sign := kind_eq_sign_iff.1 hc
  have joins : Joins c '1' := by
    rcases sign with rfl | rfl <;> exact
      { follows := rfl
        finds := fun _ => rfl
        before := fun h => absurd h (by decide)
        behind := fun h => absurd h (by decide)
        power := .of_ne (by decide) (by decide) }
  refine ⟨List.forall_mem_cons.2 ⟨by rw [hc]; decide, clean_one.known⟩, .symbol ?_ ?_ clean_one.balanced,
    ⟨c, rfl, ?_⟩, List.isChain_cons_cons.2 ⟨joins, clean_one.joins⟩, clean_one.ends⟩ <;>
    rcases sign with rfl | rfl <;> decide

/-! ## Parts of clean text -/

/-- In front of something that starts no operand a clean part may end. -/
theorem Joins.closes (h : Joins c d) (hd : (kind d).startsOperand = false) : Closes c := by
  refine ⟨?_, ?_⟩
  · by_contra operator
    rw [Bool.not_eq_false] at operator
    have operand : (kind d).startsOperand = true := h.finds operator
    rw [operand] at hd
    cases hd
  · rintro rfl
    have digit := h.follows.isDigit
    rw [← kind_eq_digit_iff] at digit
    rw [digit] at hd
    cases hd

/-- Behind a closing bracket no other operator than a sign or a `/` or a `^` stands. -/
theorem Joins.of_closing (h : Joins ')' d) (caret : d ≠ '^') (known : kind d ≠ .other)
    (binary : isBinary d = true) : d = '/' := by
  rcases (isBinary_iff known).1 binary with hk | hk | hk
  · cases h.before (kind_eq_star_iff.1 hk)
  · exact kind_eq_slash_iff.1 hk
  · exact absurd (kind_eq_caret_iff.1 hk) caret

/-- The end of a part of clean text in front of something that starts no operand. -/
theorem closes_of_isChain (h : (part ++ back).IsChain Joins)
    (next : ∀ d ∈ back.head?, (kind d).startsOperand = false)
    (ends : ∀ c ∈ (part ++ back).getLast?, Closes c) : ∀ c ∈ part.getLast?, Closes c := by
  intro c hc
  cases back with
  | nil =>
    rw [List.append_nil] at ends
    exact ends c hc
  | cons d back =>
    have joins : Joins c d := (List.isChain_append.1 h).2.2 c hc d rfl
    exact joins.closes (next d rfl)

theorem ends_of_append (h : ∀ c ∈ (front ++ part).getLast?, Closes c) :
    ∀ c ∈ part.getLast?, Closes c := by
  intro c hc
  have nonempty : part ≠ [] := by
    rintro rfl
    cases hc
  rw [List.getLast?_append_of_ne_nil _ nonempty] at h
  exact h c hc

/-- The first part of a clean text. -/
theorem Clean.first (h : Clean (part ++ back)) (balanced : Balanced part) (nonempty : part ≠ [])
    (next : ∀ d ∈ back.head?, (kind d).startsOperand = false) : Clean part where
  known c hc := h.known c (List.mem_append_left _ hc)
  balanced := balanced
  starts := by
    have starts := h.starts
    rwa [List.head?_append_of_ne_nil _ nonempty] at starts
  joins := h.joins.left_of_append
  ends := closes_of_isChain h.joins next h.ends

/-- The second part of a clean text. -/
theorem Clean.second (h : Clean (front ++ part)) (balanced : Balanced front)
    (starts : ∃ c ∈ part.head?, isBinary c = false) : Clean part where
  known c hc := h.known c (List.mem_append_right _ hc)
  balanced := balanced.of_append h.balanced
  starts := starts
  joins := h.joins.right_of_append
  ends := ends_of_append h.ends

/-! ## Terms -/

/-- What stands behind a plus. -/
theorem Clean.behind_plus (h : Clean ('+' :: text)) : Clean text := by
  have plus : Balanced ['+'] := .symbol (by decide) (by decide) .nil
  have whole : Clean (['+'] ++ text) := h
  refine whole.second plus ?_
  cases text with
  | nil => cases (h.ends '+' rfl).1
  | cons d text =>
    have operand : (kind d).startsOperand = true := (List.isChain_cons_cons.1 h.joins).1.finds rfl
    exact ⟨d, rfl, isBinary_of_startsOperand operand⟩

/-- What stands behind a sign, with the sign or without it. -/
theorem Clean.behind_sign (h : Clean (front ++ c :: text)) (balanced : Balanced front)
    (hc : kind c = .sign) : Clean (c :: text) := by
  refine h.second balanced ⟨c, rfl, ?_⟩
  rcases kind_eq_sign_iff.1 hc with rfl | rfl <;> rfl

/-- A term is finished in front of a sign. -/
theorem Clean.of_mem_consTerm {terms : List (List Char)} (h : Clean (part ++ back))
    (balanced : Balanced part) (next : ∀ d ∈ back.head?, kind d = .sign)
    (later : term ∈ terms → Clean term) (hterm : term ∈ consTerm part terms) : Clean term := by
  rcases mem_consTerm hterm with ⟨nonempty, rfl⟩ | hterm
  · refine h.first balanced nonempty fun d hd => ?_
    rw [next d hd]
    rfl
  · exact later hterm

theorem Clean.of_mem_splitSumFrom {passed : List Char} (h : Balanced text)
    (balanced : Balanced passed.reverse) (clean : Clean (passed.reverse ++ text))
    (hterm : term ∈ splitSumFrom 0 passed text) : Clean term := by
  have fresh : Balanced ([] : List Char).reverse := .nil
  have minus : Balanced ['-'].reverse := .symbol (by simp) (by simp) .nil
  induction h generalizing passed with
  | nil =>
    have nothing : ∀ d ∈ ([] : List Char).head?, kind d = .sign := nofun
    exact clean.of_mem_consTerm balanced nothing (absurd · List.not_mem_nil) hterm
  | @symbol c rest hopen hclose _ ih =>
    by_cases hplus : c = '+'
    · subst hplus
      rw [splitSumFrom_plus] at hterm
      have further : Clean rest := (clean.behind_sign balanced rfl).behind_plus
      exact clean.of_mem_consTerm balanced (by rintro d ⟨⟩; rfl) (ih fresh further) hterm
    · by_cases hminus : c = '-'
      · subst hminus
        rw [splitSumFrom_minus] at hterm
        have further : Clean ('-' :: rest) := clean.behind_sign balanced rfl
        exact clean.of_mem_consTerm balanced (by rintro d ⟨⟩; rfl) (ih minus further) hterm
      · rw [splitSumFrom_symbol hopen hclose hplus hminus] at hterm
        refine ih ?_ ?_ hterm
        · rw [List.reverse_cons]
          exact balanced.append (.symbol hopen hclose .nil)
        · rwa [List.reverse_cons, List.append_assoc]
  | @group inside rest hinside _ _ ih =>
    rw [hinside.splitSumFrom_group] at hterm
    refine ih ?_ ?_ hterm
    · rw [List.reverse_append, List.reverse_reverse]
      exact balanced.append hinside.single_group
    · rw [List.reverse_append, List.reverse_reverse, List.append_assoc]
      simpa using clean

/-- The terms of a clean text are clean. -/
theorem Clean.of_mem_splitSum (h : Clean text) (hterm : term ∈ splitSum text) : Clean term := by
  have fresh : Balanced ([] : List Char).reverse := .nil
  exact Clean.of_mem_splitSumFrom h.balanced fresh h hterm

/-! ## Factors -/

/-- What is left of a clean product behind a group, or all of it. -/
structure Remains (text : List Char) : Prop where
  known : ∀ c ∈ text, kind c ≠ .other
  starts : ∀ c ∈ text.head?, isBinary c = true → c = '/'
  joins : text.IsChain Joins
  ends : ∀ c ∈ text.getLast?, Closes c
  single : isSum text = false

/-- Behind a group stand further factors, or a division. -/
theorem Clean.remains (h : Clean (front ++ rest)) (single : isSum (front ++ rest) = false)
    (balanced : Balanced front) (closed : ∀ c ∈ front.getLast?, c = ')') (caret : EndsTower rest) :
    Remains rest where
  known c hc := h.known c (List.mem_append_right _ hc)
  starts c hc binary := by
    rcases List.eq_nil_or_concat front with rfl | ⟨before, d, rfl⟩
    · obtain ⟨first, hfirst, operand⟩ := h.starts
      obtain rfl : c = first := Option.some.inj (hc.symm.trans hfirst)
      rw [operand] at binary
      cases binary
    · rw [List.concat_eq_append] at h closed
      have hd : d = ')' := closed d List.getLast?_concat
      have joins : Joins ')' c :=
        (List.isChain_append.1 h.joins).2.2 ')' (by rw [hd, List.getLast?_concat]; rfl) c hc
      obtain ⟨tail, rfl⟩ := List.head?_eq_some_iff.1 hc
      exact joins.of_closing (fun he => caret (congrArg some he))
        (h.known c (List.mem_append_right _ List.mem_cons_self)) binary
  joins := h.joins.right_of_append
  ends := ends_of_append h.ends
  single := by
    by_cases empty : front = []
    · rwa [empty] at single
    · rw [balanced.isSum_append empty, Bool.or_eq_false_iff] at single
      exact isSum_eq_false_of_signOutside single.2

/-- Clean text as a factor is itself. -/
theorem Clean.prepareFactor (h : Clean text) (e : Exponent) :
    (SamePoly.prepareFactor text e).1 = text := by
  rw [SamePoly.prepareFactor.eq_def]
  split
  · cases (h.ends '+' rfl).1
  · cases (h.ends '-' rfl).1
  · obtain ⟨c, ⟨⟩, operand⟩ := h.starts
    cases operand
  · rfl

/-- A stretch of a product is clean as a factor. -/
theorem Remains.stretch (h : Remains (part ++ back)) (plain : ∀ c ∈ part, c ≠ '(' ∧ c ≠ ')')
    (nonempty : part ≠ []) (ends : ∀ c ∈ part.getLast?, Closes c ∨ part = [c] ∧ kind c = .sign)
    (e : Exponent) : Clean (prepareFactor part e).1 := by
  rw [prepareFactor.eq_def]
  split
  · exact clean_signed_one rfl
  · exact clean_signed_one rfl
  · -- The division goes to the exponent.
    rename_i rest
    have last : ∀ c ∈ rest.getLast?, Closes c := by
      intro c hc
      have whole : c ∈ ('/' :: rest).getLast? := by
        rw [List.getLast?_cons, hc]
        rfl
      rcases ends c whole with closes | ⟨same, -⟩
      · exact closes
      · cases (List.cons.inj same).2
        cases hc
    cases rest with
    | nil =>
      rcases ends '/' rfl with closes | ⟨-, sign⟩
      · cases closes.1
      · cases sign
    | cons d rest =>
      have joins := h.joins.left_of_append
      have operand : (kind d).startsOperand = true := (List.isChain_cons_cons.1 joins).1.finds rfl
      exact {
        known := fun c hc => h.known c (List.mem_append_left _ (List.mem_cons_of_mem _ hc))
        balanced := .of_forall fun c hc => plain c (List.mem_cons_of_mem _ hc)
        starts := ⟨d, rfl, isBinary_of_startsOperand operand⟩
        joins := joins.tail
        ends := last }
  · rename_i plus minus slash
    refine ⟨fun c hc => h.known c (List.mem_append_left _ hc), .of_forall plain, ?_,
      h.joins.left_of_append, fun c hc => ?_⟩
    · cases part with
      | nil => exact absurd rfl nonempty
      | cons c part =>
        refine ⟨c, rfl, Bool.eq_false_iff.2 fun binary => ?_⟩
        exact slash part (congrArg (· :: part) (h.starts c rfl binary))
    · rcases ends c hc with closes | ⟨rfl, sign⟩
      · exact closes
      · rcases kind_eq_sign_iff.1 sign with rfl | rfl
        · exact absurd rfl plus
        · exact absurd rfl minus

/-- The stretch in front of a group, without the operator that joins it to the group. -/
theorem Remains.lead (h : Remains (part ++ '(' :: back))
    (plain : ∀ c ∈ part, c ≠ '(' ∧ c ≠ ')' ∧ c ≠ '^') (nonempty : withoutJoint part ≠ [])
    (e : Exponent) : Clean (prepareFactor (withoutJoint part) e).1 := by
  have brackets : ∀ c ∈ part, c ≠ '(' ∧ c ≠ ')' := fun c hc => ⟨(plain c hc).1, (plain c hc).2.1⟩
  rcases List.eq_nil_or_concat part with rfl | ⟨before, c, rfl⟩
  · exact absurd rfl nonempty
  rw [List.concat_eq_append] at h plain nonempty brackets ⊢
  have joins : Joins c '(' :=
    (List.isChain_append.1 h.joins).2.2 c List.getLast?_concat '(' rfl
  by_cases slash : c = '/'
  · have lead : withoutJoint (before ++ [c]) = before := by simp [withoutJoint, slash]
    rw [lead] at nonempty ⊢
    rw [slash, List.append_assoc, List.singleton_append] at h
    refine h.stretch (fun d hd => brackets d (List.mem_append_left _ hd)) nonempty (fun d hd => ?_) e
    have next : Joins d '/' := (List.isChain_append.1 h.joins).2.2 d hd '/' rfl
    exact .inl (next.closes rfl)
  · have star : c ≠ '*' := fun hc => by cases joins.behind hc
    have lead : withoutJoint (before ++ [c]) = before ++ [c] := by simp [withoutJoint, slash, star]
    rw [lead] at nonempty ⊢
    refine h.stretch brackets nonempty (fun d hd => ?_) e
    rw [List.getLast?_concat] at hd
    obtain rfl : c = d := Option.some.inj hd
    cases operator : (kind c).isOperator with
    | false =>
      refine .inl ⟨operator, ?_⟩
      rintro rfl
      cases joins.follows.isDigit
    | true =>
      -- A sign is all of the stretch, as the product is no sum.
      have sign : kind c = .sign := by
        cases hk : kind c with
        | sign => rfl
        | star => exact absurd (kind_eq_star_iff.1 hk) star
        | slash => exact absurd (kind_eq_slash_iff.1 hk) slash
        | caret => exact absurd (kind_eq_caret_iff.1 hk) (plain c (by simp)).2.2
        | _ =>
          rw [hk] at operator
          cases operator
      refine .inr ⟨?_, sign⟩
      by_contra more
      have front : before ≠ [] := fun empty => more (by rw [empty]; rfl)
      have balanced : Balanced before :=
        .of_forall fun d hd => brackets d (List.mem_append_left _ hd)
      have single := h.single
      rw [List.append_assoc, balanced.isSum_append front, Bool.or_eq_false_iff] at single
      have outside := single.2
      rcases kind_eq_sign_iff.1 sign with rfl | rfl <;> cases outside

/-- What stands in a group of a product is clean. -/
theorem Remains.group (h : Remains (front ++ '(' :: (inside ++ ')' :: back)))
    (balanced : Balanced inside) : Clean inside := by
  have joins := h.joins.right_of_append
  have known : ∀ c ∈ inside, kind c ≠ .other := fun c hc => h.known c (by simp [hc])
  have starts : ∃ c ∈ inside.head?, isBinary c = false := by
    cases inside with
    | nil => cases (List.isChain_cons_cons.1 joins).1.follows
    | cons c inside =>
      exact ⟨c, rfl, isBinary_of_follows_opening (List.isChain_cons_cons.1 joins).1.follows⟩
  refine ⟨known, balanced, starts, joins.tail.left_of_append, fun c hc => ?_⟩
  have next : Joins c ')' := (List.isChain_append.1 joins.tail).2.2 c hc ')' rfl
  exact next.closes rfl

/-- A tower in a product is clean. -/
theorem Remains.tower (h : Remains (front ++ '^' :: (part ++ back))) (tower : GroupTower part) :
    Clean part := by
  have joins := h.joins.right_of_append
  refine ⟨fun c hc => h.known c (by simp [hc]), tower.balanced, ?_, joins.tail.left_of_append,
    fun c hc => ?_⟩
  · cases part with
    | nil => cases tower
    | cons c part =>
      have operand : (kind c).startsOperand = true := (List.isChain_cons_cons.1 joins).1.finds rfl
      exact ⟨c, rfl, isBinary_of_startsOperand operand⟩
  · obtain rfl : ')' = c := Option.some.inj (tower.getLast?.symm.trans hc)
    exact ⟨rfl, by decide⟩

/-- A factor that is clean without its sign and its `/`, with a clean exponent. -/
def CleanFactor (x : List Char × Exponent) : Prop :=
  (∀ e, Clean (prepareFactor x.1 e).1) ∧ ∀ p ∈ x.2.pieces, Clean p

theorem cleanFactor_one (h : ∀ e, Clean (prepareFactor part e).1) : CleanFactor (part, .one) := by
  refine ⟨h, fun p hp => ?_⟩
  rw [List.mem_singleton.1 hp]
  exact clean_one

/-- A segment contributes clean factors. -/
theorem Segment.AtGroup.cleanFactor {s : Segment} (h : s.AtGroup) (remains : Remains (s.spelling ++ back))
    {x : List Char × Exponent} (hx : x ∈ s.contributions) (nonempty : x.1 ≠ []) : CleanFactor x := by
  rw [Segment.spelling_append] at remains
  rcases List.mem_pair.1 hx with rfl | rfl
  · exact cleanFactor_one (remains.lead h.stretch nonempty)
  · have group : Clean s.inside := remains.group h.inside
    refine ⟨fun e => ?_, fun p hp => ?_⟩
    · rw [group.prepareFactor]
      exact group
    · have piece : p ∈ (s.tower.elim .one Exponent.literal).pieces := by
        rw [Segment.exponent] at hp
        split at hp <;> exact hp
      cases ht : s.tower with
      | none =>
        rw [ht] at piece
        rw [List.mem_singleton.1 piece]
        exact clean_one
      | some e =>
        rw [ht] at piece
        rw [List.mem_singleton.1 piece]
        rw [Segment.raise, ht] at remains
        have whole : s.stretch ++ '(' :: (s.inside ++ ')' :: ('^' :: e ++ back)) =
            (s.stretch ++ '(' :: s.inside ++ [')']) ++ '^' :: (e ++ back) := by simp
        exact Remains.tower (whole ▸ remains) (h.tower e ht)

/-! ## Products -/

theorem Segment.AtGroup.balanced {s : Segment} (h : s.AtGroup) : Balanced s.spelling := by
  have stretch : Balanced s.stretch :=
    .of_forall fun c hc => ⟨(h.stretch c hc).1, (h.stretch c hc).2.1⟩
  refine stretch.append (.group h.inside ?_)
  rw [Segment.raise]
  cases ht : s.tower with
  | none => exact .nil
  | some e => exact .symbol (by decide) (by decide) (h.tower e ht).balanced

/-- A segment ends in a bracket. -/
theorem Segment.AtGroup.getLast? {s : Segment} (h : s.AtGroup) : s.spelling.getLast? = some ')' := by
  cases ht : s.tower with
  | none =>
    rw [Segment.spelling, Segment.raise, ht, ← List.cons_append, ← List.append_assoc]
    exact List.getLast?_concat
  | some e =>
    have tower := h.tower e ht
    have nonempty : e ≠ [] := by
      rintro rfl
      cases tower
    have whole : s.spelling = (s.stretch ++ '(' :: s.inside ++ [')', '^']) ++ e := by
      rw [Segment.spelling, Segment.raise, ht]
      simp
    rw [whole, List.getLast?_append_of_ne_nil _ nonempty]
    exact tower.getLast?

theorem Segment.balanced_spellings {segments : List Segment} (h : ∀ s ∈ segments, s.AtGroup) :
    Balanced (Segment.spellings segments) := by
  induction segments with
  | nil => exact .nil
  | cons s segments ih =>
    obtain ⟨hs, h⟩ := List.forall_mem_cons.1 h
    rw [Segment.spellings_cons]
    exact hs.balanced.append (ih h)

theorem Segment.spellings_concat (segments : List Segment) (s : Segment) :
    Segment.spellings (segments ++ [s]) = Segment.spellings segments ++ s.spelling := by
  simp [Segment.spellings]

theorem Segment.getLast?_spellings {segments : List Segment} (h : ∀ s ∈ segments, s.AtGroup) :
    ∀ c ∈ (Segment.spellings segments).getLast?, c = ')' := by
  rcases List.eq_nil_or_concat segments with rfl | ⟨segments, s, rfl⟩
  · exact fun c hc => by cases hc
  · rw [List.concat_eq_append] at h ⊢
    have last : s.spelling.getLast? = some ')' := (h s (by simp)).getLast?
    have nonempty : s.spelling ≠ [] := by
      intro empty
      rw [empty] at last
      cases last
    intro c hc
    rw [Segment.spellings_concat, List.getLast?_append_of_ne_nil _ nonempty, last] at hc
    exact (Option.some.inj hc).symm

theorem Clean.powersBetweenGroups (h : Clean text) : PowersBetweenGroups text := by
  refine powersBetweenGroups_of_isChain
    (isChain_bracketed (h.joins.imp fun _ _ joins => joins.power) ?_ ?_)
  · rintro c hc rfl
    obtain ⟨first, hfirst, operand⟩ := h.starts
    obtain rfl : '^' = first := Option.some.inj (hc.symm.trans hfirst)
    cases operand
  · rintro c hc rfl
    cases (h.ends '^' hc).1

/-- The parts of a clean product contribute clean factors. -/
theorem Cut.AtGroups.cleanFactor {cut : Cut} (h : cut.AtGroups) (clean : Clean cut.spelling)
    (single : isSum cut.spelling = false) {x : List Char × Exponent} (hx : x ∈ cut.contributions) :
    CleanFactor x := by
  obtain ⟨hx, hne⟩ := List.mem_filter.1 hx
  have nonempty : x.1 ≠ [] := by simpa using hne
  rcases List.mem_append.1 hx with hx | hx
  · obtain ⟨s, hs, hx⟩ := List.mem_flatMap.1 hx
    obtain ⟨before, after, whole⟩ := List.append_of_mem hs
    have atGroup := h.segments s hs
    have earlier : ∀ s ∈ before, s.AtGroup := fun s hs =>
      h.segments s (by rw [whole]; exact List.mem_append_left _ hs)
    have spelled : cut.spelling =
        Segment.spellings before ++ (s.spelling ++ (Segment.spellings after ++ cut.last)) := by
      simp [Cut.spelling, whole, Segment.spellings]
    rw [spelled] at clean single
    exact atGroup.cleanFactor (clean.remains single (Segment.balanced_spellings earlier)
      (Segment.getLast?_spellings earlier) (atGroup.endsTower _)) hx nonempty
  · obtain rfl := List.mem_singleton.1 hx
    have remains : Remains (cut.last ++ []) := by
      rw [List.append_nil]
      exact clean.remains single (Segment.balanced_spellings h.segments)
        (Segment.getLast?_spellings h.segments) (endsTower_of_forall h.last)
    refine cleanFactor_one (remains.stretch (fun c hc => ⟨(h.last c hc).1, (h.last c hc).2.1⟩)
      nonempty fun c hc => .inl (remains.ends c ?_))
    rwa [List.append_nil]

/-- What holds of everything that is contributed holds of the factors. -/
theorem Factors.forall_foldl_push {P E : List Char → Prop} {factors : Factors}
    {contributions : List (List Char × Exponent)}
    (known : ∀ x ∈ factors, P x.1 ∧ ∀ p ∈ x.2.pieces, E p)
    (added : ∀ x ∈ contributions, P x.1 ∧ ∀ p ∈ x.2.pieces, E p) :
    ∀ x ∈ contributions.foldl (fun factors x => factors.push x.1 x.2) factors,
      P x.1 ∧ ∀ p ∈ x.2.pieces, E p := by
  induction contributions generalizing factors with
  | nil => exact known
  | cons y contributions ih =>
    obtain ⟨hy, added⟩ := List.forall_mem_cons.1 added
    exact ih (Factors.forall_push known fun _ => hy) added

/-- **The factors of a clean product and their exponents are clean.** -/
theorem Clean.of_mem_splitComposition (h : Clean text) (single : isSum text = false)
    {x : List Char × Exponent} (hx : x ∈ splitComposition text) : CleanFactor x := by
  obtain ⟨cut, atGroups, rfl⟩ := h.balanced.exists_cut h.powersBetweenGroups
  rw [atGroups.splitComposition_eq_foldl] at hx
  have nothing : ∀ y ∈ ([] : Factors), CleanFactor y := nofun
  exact Factors.forall_foldl_push (P := fun factor => ∀ e, Clean (SamePoly.prepareFactor factor e).1)
    (E := Clean) nothing (fun y hy => atGroups.cleanFactor h single hy) x hx

/-! ## Brackets around variables -/

theorem encloses_joins : Encloses Joins where
  opening c d hd joins :=
    { follows := encloses_follows.opening c d hd joins.follows
      finds := fun _ => rfl
      before := fun he => absurd he (by decide)
      behind := fun he => by
        have digit := joins.behind he
        rw [isVariable_of_isDigit digit] at hd
        cases hd
      power := ⟨fun he => absurd he (by decide), fun _ => rfl⟩ }
  inside d hd := by
    have letter := kind_of_isVariable hd
    have caret : d ≠ '^' := (ne_of_isVariable hd).2.2.2
    have star : d ≠ '*' := by
      rintro rfl
      cases hd
    have operator : (kind d).isOperator ≠ true := by
      rw [letter]
      decide
    constructor
    · exact
        { follows := (encloses_follows.inside d hd).1
          finds := fun he => by cases he
          before := fun he => absurd he star
          behind := fun he => absurd he (by decide)
          power := .of_ne (by decide) caret }
    · exact
        { follows := (encloses_follows.inside d hd).2
          finds := fun he => absurd he operator
          before := fun he => absurd he (by decide)
          behind := fun he => absurd he star
          power := .of_ne caret (by decide) }
  closing c d hc joins :=
    { follows := encloses_follows.closing c d hc joins.follows
      finds := fun he => by cases he
      before := fun he => by
        have digit := joins.before he
        rw [isVariable_of_isDigit digit] at hc
        cases hc
      behind := fun he => absurd he (by decide)
      power := ⟨fun _ => rfl, fun he => absurd he (by decide)⟩ }

/-- Brackets around variables make no sum. -/
theorem signOutside_wrapVariables (depth : ℤ) (text : List Char) :
    signOutside depth (wrapVariables text) = signOutside depth text := by
  induction text generalizing depth with
  | nil => rfl
  | cons c text ih =>
    cases hc : isVariable c with
    | true =>
      obtain ⟨hopen, hclose, -⟩ := ne_of_isVariable hc
      have sign : (c == '+' || c == '-') = false := by
        rw [Bool.or_eq_false_iff, beq_eq_false_iff_ne, beq_eq_false_iff_ne]
        constructor <;> (rintro rfl; cases hc)
      have step (depth : ℤ) (rest : List Char) :
          signOutside depth (c :: rest) = signOutside depth rest := by
        rw [signOutside, if_neg (by simpa using hopen), if_neg (by simpa using hclose), sign]
        rfl
      rw [wrapVariables_cons_of_isVariable hc, signOutside_opening, step, signOutside_closing,
        add_sub_cancel_right, ih, step]
    | false =>
      rw [wrapVariables_cons_of_not_isVariable hc, signOutside, signOutside, ih, ih, ih]

theorem isSum_wrapVariables (text : List Char) : isSum (wrapVariables text) = isSum text := by
  cases text with
  | nil => rfl
  | cons c text =>
    cases hc : isVariable c with
    | true =>
      obtain ⟨hopen, hclose, -⟩ := ne_of_isVariable hc
      have inside : Balanced [c] := .symbol hopen hclose .nil
      rw [wrapVariables_cons_of_isVariable hc, isSum_symbol hopen hclose,
        ← signOutside_wrapVariables]
      exact inside.isSum_group _
    | false =>
      rw [wrapVariables_cons_of_not_isVariable hc, isSum, isSum, signOutside_wrapVariables]

/-- Brackets around variables keep a text clean. -/
theorem Clean.wrapVariables (h : Clean text) : Clean (SamePoly.wrapVariables text) where
  known := known_wrapVariables h.known
  balanced := h.balanced.wrapVariables
  starts := by
    obtain ⟨c, hc, operand⟩ := h.starts
    obtain ⟨text, rfl⟩ := List.head?_eq_some_iff.1 hc
    cases isName : isVariable c with
    | true => exact ⟨'(', by rw [wrapVariables_cons_of_isVariable isName]; rfl, rfl⟩
    | false => exact ⟨c, by rw [wrapVariables_cons_of_not_isVariable isName]; rfl, operand⟩
  joins := encloses_joins.isChain h.joins
  ends c hc := by
    by_contra opened
    have bracket : c ≠ ')' := by
      rintro rfl
      exact opened ⟨rfl, by decide⟩
    exact getLast?_wrapVariables bracket (fun last => opened (h.ends c last)) hc

end SamePoly
