/-
  The depth of calls.

  The normalized text of a checked one has as many layers as its brackets are nested.  A sum hands
  its layers on to its terms, and a product hands one layer less on to the contents of its groups,
  one call deeper.  So no call is deeper than the brackets are nested, and the reasons that guard
  the compiler against other texts never come up.

  * `Segment.forall_single`: no stretch of a product is a sum.
  * `Fit.base`: the bases of a fit product are fit, and those that are no monomials have a layer
    less.
  * `Makes.fit`: **a call on fit text makes calls on fit text, deeper by the layers it takes off**.
  * `Fit.not_isInternal`: fit text is not rejected for an internal reason.
  * `parse_not_isInternal`: **internal failures never escape, and no call is deeper than the brackets
    of the text are nested**.
-/
import SamePoly.Proofs.Formula.Normal
import SamePoly.Proofs.Formula.Validity
import SamePoly.Proofs.Monomials

namespace SamePoly

variable {text rest last : List Char} {c : Char} {n : ℕ} {segments : List Segment}

/-! ## Stretches of a product -/

theorem isSum_eq_false_of_signOutside (h : signOutside 0 text = false) : isSum text = false := by
  cases text with
  | nil => rfl
  | cons c text =>
    rw [signOutside] at h
    rw [isSum]
    split at h
    · rwa [if_pos ‹_›]
    · rename_i hopen
      rw [if_neg hopen]
      split at h
      · rwa [if_pos ‹_›]
      · rename_i hclose
        rw [if_neg hclose]
        split at h
        · cases h
        · exact h

theorem Segment.WellCut.balanced_stretch {s : Segment} (h : s.WellCut) : Balanced s.stretch :=
  .of_forall fun c hc => ⟨(h.stretch c hc).1, (h.stretch c hc).2.1⟩

/-- Without a sign outside all brackets there is none in a stretch. -/
theorem Segment.forall_signOutside (cut : ∀ s ∈ segments, s.WellCut)
    (h : signOutside 0 (spellings segments ++ last) = false) :
    (∀ s ∈ segments, signOutside 0 s.stretch = false) ∧ signOutside 0 last = false := by
  induction segments with
  | nil => exact ⟨nofun, h⟩
  | cons s segments ih =>
    obtain ⟨hs, cut⟩ := List.forall_mem_cons.1 cut
    rw [spellings_cons_append, hs.balanced_stretch.signOutside_zero_append,
      hs.inside.signOutside_group, hs.balanced_raise.signOutside_zero_append,
      Bool.or_eq_false_iff, Bool.or_eq_false_iff] at h
    obtain ⟨hall, hlast⟩ := ih cut h.2.2
    exact ⟨List.forall_mem_cons.2 ⟨h.1, hall⟩, hlast⟩

/-- No stretch of a text that is no sum is one. -/
theorem Segment.forall_single (cut : ∀ s ∈ segments, s.WellCut)
    (h : isSum (spellings segments ++ last) = false) :
    (∀ s ∈ segments, isSum s.stretch = false) ∧ isSum last = false := by
  cases segments with
  | nil => exact ⟨nofun, h⟩
  | cons s segments =>
    obtain ⟨hs, cut⟩ := List.forall_mem_cons.1 cut
    rw [spellings_cons_append] at h
    have both : isSum s.stretch = false ∧
        signOutside 0 (s.raise ++ (spellings segments ++ last)) = false := by
      by_cases empty : s.stretch = []
      · rw [empty, List.nil_append, hs.inside.isSum_group] at h
        rw [empty]
        exact ⟨rfl, h⟩
      · rw [hs.balanced_stretch.isSum_append empty, hs.inside.signOutside_group,
          Bool.or_eq_false_iff] at h
        exact h
    obtain ⟨hstretch, behind⟩ := both
    rw [hs.balanced_raise.signOutside_zero_append, Bool.or_eq_false_iff] at behind
    obtain ⟨hall, hlast⟩ := forall_signOutside cut behind.2
    refine ⟨List.forall_mem_cons.2 ⟨hstretch, fun s' hs' => ?_⟩, ?_⟩
    · exact isSum_eq_false_of_signOutside (hall s' hs')
    · exact isSum_eq_false_of_signOutside hlast

/-! ## Fit bases -/

theorem Layered.of_forall (h : ∀ c ∈ text, c ≠ '(' ∧ c ≠ ')') (n : ℕ) : Layered n text := by
  induction text with
  | nil => exact .nil
  | cons c text ih =>
    obtain ⟨⟨hopen, hclose⟩, h⟩ := List.forall_mem_cons.1 h
    exact .symbol hopen hclose (ih h)

/-- Text without brackets and `^`. -/
def IsStretch (text : List Char) : Prop := ∀ c ∈ text, c ≠ '(' ∧ c ≠ ')' ∧ c ≠ '^'

theorem IsStretch.fit (h : IsStretch text) (sound : Sound text) : Fit 0 text where
  sound := sound
  layered := .of_forall (fun c hc => ⟨(h c hc).1, (h c hc).2.1⟩) 0
  starts head := (h '^' (List.mem_of_mem_head? head)).2.2 rfl
  ends last := (h '^' (List.mem_of_mem_getLast? last)).2.2 rfl

theorem IsStretch.isMonomial (h : IsStretch text) (single : isSum text = false) :
    isMonomial text = true := by
  have outside : letterInside 0 text = false :=
    letterInside_of_forall fun c hc => ⟨(h c hc).1, (h c hc).2.1⟩
  rw [SamePoly.isMonomial, outside, single]
  rfl

/-- A base with a variable is the factor without a leading `/`. -/
theorem prepareFactor_cases {factor : List Char} {e : Exponent}
    (letter : hasVariable (prepareFactor factor e).1 = true) :
    (prepareFactor factor e).1 = factor ∨ factor = '/' :: (prepareFactor factor e).1 := by
  revert letter
  rw [prepareFactor.eq_def]
  split
  · exact fun letter => by cases letter
  · exact fun letter => by cases letter
  · exact fun _ => .inr rfl
  · exact fun _ => .inl rfl

theorem Fit.of_slash (fit : Fit n ('/' :: text)) : Fit n text where
  sound := fit.sound.tail
  layered := by
    cases fit.layered with
    | symbol _ _ h => exact h
  starts head := by
    obtain ⟨rest, rfl⟩ := List.head?_eq_some_iff.1 head
    have behind : Follows '/' '^' := (List.isChain_cons_cons.1 fit.sound.adjacent).1
    cases behind
  ends := by
    have whole : (['/'] ++ text).getLast? ≠ some '^' := fit.ends
    exact getLast?_ne_of_append whole

theorem isSum_of_slash (single : isSum ('/' :: text) = false) : isSum text = false := by
  rw [isSum_symbol (by decide) (by decide)] at single
  exact isSum_eq_false_of_signOutside single

/-- A stretch as a base is a fit monomial. -/
theorem IsStretch.base {factor : List Char} {e : Exponent} (h : IsStretch factor)
    (sound : Sound factor) (single : isSum factor = false)
    (letter : hasVariable (prepareFactor factor e).1 = true) :
    Fit 0 (prepareFactor factor e).1 ∧ SamePoly.isMonomial (prepareFactor factor e).1 = true := by
  have bases := prepareFactor_cases letter
  generalize (prepareFactor factor e).1 = base at bases ⊢
  rcases bases with rfl | rfl
  · exact ⟨h.fit sound, h.isMonomial single⟩
  · have behind : IsStretch base := fun c hc => h c (List.mem_cons_of_mem _ hc)
    exact ⟨(h.fit sound).of_slash, behind.isMonomial (isSum_of_slash single)⟩

/-- The contents of groups are atoms or have a layer less. -/
theorem Layered.shaped (h : Layered n text) :
    Shaped (fun _ => True) (fun inside => IsAtom inside ∨ ∃ m, n = m + 1 ∧ Layered m inside) text := by
  induction h with
  | nil => exact .nil
  | symbol hopen hclose _ ih => exact .symbol hopen hclose trivial ih
  | atom ha _ ih => exact .group ha.balanced (.inl ha) ih
  | group hinside _ _ ih => exact .group hinside.balanced (.inr ⟨_, rfl, hinside⟩) ih

theorem IsAtom.isStretch (h : IsAtom text) : IsStretch text := fun c hc => ne_of_atom (h c hc)

theorem IsAtom.isSum (h : IsAtom text) : SamePoly.isSum text = false := by
  refine isSum_of_forall fun c hc => ?_
  obtain ⟨hopen, hclose, -⟩ := ne_of_atom (h c hc)
  refine ⟨hopen, hclose, ?_, ?_⟩ <;>
    (rintro rfl; rcases h _ hc with literal | lower; cases literal; cases lower)

/-- The contents of a group as a base are themselves. -/
theorem Enclosed.prepareFactor {inside : List Char} {e : Exponent} (h : Enclosed inside)
    (letter : hasVariable (SamePoly.prepareFactor inside e).1 = true) :
    (SamePoly.prepareFactor inside e).1 = inside := by
  rcases prepareFactor_cases letter with same | slash
  · exact same
  · obtain ⟨c, hc, first⟩ := h.starts
    rw [slash] at hc
    cases hc
    rcases first with operand | sign
    · cases operand
    · cases sign

/-- **The bases of a fit product are fit, and those that are no monomials have a layer less.** -/
theorem Fit.base {x : List Char × Exponent} {before after : Factors} (fit : Fit n text)
    (single : isSum text = false) (cut : splitComposition text = before ++ x :: after)
    (earlier : ∀ y ∈ before, ∀ p ∈ y.2.pieces, Reads p)
    (letter : hasVariable (prepareFactor x.1 x.2).1 = true) :
    ∃ m, Fit m (prepareFactor x.1 x.2).1 ∧
      (isMonomial (prepareFactor x.1 x.2).1 = true ∨ m + 1 ≤ n) := by
  have sound := fit.sound
  have shaped := fit.layered.shaped
  obtain ⟨segments, last, segmented⟩ :=
    fit.layered.balanced.exists_segmented sound fit.starts fit.ends []
  rw [segmented.spelled] at single sound shaped
  obtain ⟨parts, soundLast⟩ := Segment.forall_sound sound
  obtain ⟨stretches, singleLast⟩ := Segment.forall_single segmented.cut single
  obtain ⟨groups, -⟩ := Segment.forall_shaped segmented.cut shaped
  have filled : ∀ s ∈ segments, s.inside ≠ [] := fun s hs => (parts s hs).2.ne_nil
  rcases segmented.of_earlier filled cut earlier with ⟨s, hs, lead | group⟩ | ⟨same, clean⟩
  · -- The stretch in front of a group.
    obtain ⟨dropped, whole, operator⟩ := withoutOperator_append s.stretch.reverse
    rw [List.reverse_reverse, ← Segment.lead] at whole
    have soundStretch := (parts s hs).1
    have singleStretch := stretches s hs
    have stretch : IsStretch s.lead := fun c hc =>
      (segmented.cut s hs).stretch c (whole ▸ List.mem_append_left dropped hc)
    rw [whole] at soundStretch singleStretch
    have soundLead : Sound s.lead := soundStretch.cut fun d hd => by
      rcases operator d (List.mem_of_mem_head? hd) with rfl | rfl <;> rfl
    have singleLead : isSum s.lead = false := by
      by_cases empty : s.lead = []
      · rw [empty]
        rfl
      · have balanced : Balanced s.lead :=
          .of_forall fun c hc => ⟨(stretch c hc).1, (stretch c hc).2.1⟩
        rw [balanced.isSum_append empty, Bool.or_eq_false_iff] at singleStretch
        exact singleStretch.1
    rw [lead] at letter ⊢
    obtain ⟨fitBase, monomial⟩ := stretch.base soundLead singleLead letter
    exact ⟨0, fitBase, .inl monomial⟩
  · -- The contents of a group.
    have enclosed := (parts s hs).2
    rw [group] at letter ⊢
    rw [enclosed.prepareFactor letter]
    rcases (groups s hs).2 with atom | ⟨m, rfl, layered⟩
    · exact ⟨0, atom.isStretch.fit enclosed.sound, .inl (atom.isStretch.isMonomial atom.isSum)⟩
    · refine ⟨m, ⟨enclosed.sound, layered, ?_, enclosed.ends⟩, .inr le_rfl⟩
      intro head
      obtain ⟨c, hc, first⟩ := enclosed.starts
      rw [head] at hc
      cases hc
      rcases first with operand | sign
      · cases operand
      · cases sign
  · rw [same] at letter ⊢
    obtain ⟨fitBase, monomial⟩ := IsStretch.base clean soundLast singleLast letter
    exact ⟨0, fitBase, .inl monomial⟩

/-- A fit product that is no monomial has a factor. -/
theorem Fit.splitComposition_ne_nil (fit : Fit n text) (single : isSum text = false)
    (large : isMonomial text = false) : splitComposition text ≠ [] := by
  have sound := fit.sound
  obtain ⟨segments, last, segmented⟩ :=
    fit.layered.balanced.exists_segmented sound fit.starts fit.ends []
  have spelled := segmented.spelled
  rw [spelled] at sound
  have extended : (segments.foldl Segment.push []).Extends (splitComposition text) := by
    rcases segmented.added with ⟨-, -, added⟩ | ⟨-, added⟩
    · rw [splitComposition, added]
      exact Factors.extends_push _ _ _
    · rw [splitComposition, added]
      exact Factors.extends_splitCompositionFrom _ _ _ _ _
  cases segments with
  | nil =>
    rcases segmented.added with ⟨-, clean, -⟩ | ⟨⟨s, hs, -⟩, -⟩
    · have stretch : IsStretch text := by
        rw [spelled]
        exact clean
      rw [stretch.isMonomial single] at large
      cases large
    · cases hs
  | cons s segments =>
    have filled : s.inside ≠ [] := ((Segment.forall_sound sound).1 s List.mem_cons_self).2.ne_nil
    obtain ⟨y, hy, -⟩ := Segment.exists_mem_foldl_push List.mem_cons_self filled []
    obtain ⟨z, hz, -⟩ := extended.exists_mem hy
    exact List.ne_nil_of_mem hz

/-! ## Calls on fit text -/

variable {R : Type} [Scalar R]

/-- **A call on fit text makes calls on fit text, deeper by the layers it takes off.** -/
theorem Makes.fit {call call' : Call} {bound : ℕ} (h : Makes R call call') (fit : Fit n call.text)
    (room : call.depth + n ≤ bound) : ∃ m, Fit m call'.text ∧ call'.depth + m ≤ bound := by
  cases h with
  | single _ _ => exact ⟨n, fit, room⟩
  | @term text term depth before after _ _ cut _ _ =>
    have hterm : term ∈ splitSum text := by
      rw [cut]
      exact List.mem_append_right _ List.mem_cons_self
    exact ⟨n, (fit.of_mem_splitSum hterm).1, room⟩
  | sum _ _ => exact ⟨n, fit, room⟩
  | @base text base depth exponent x before after _ _ single cut earlier symbolic deep =>
    obtain ⟨rfl, letter, -⟩ := evaluateFactor_symbolic symbolic
    have reads : ∀ y ∈ before, ∀ p ∈ y.2.pieces, Reads p := fun y hy => by
      obtain ⟨u, hu⟩ := earlier y hy
      exact reads_of_factorTerm hu
    obtain ⟨m, fitBase, monomial | layer⟩ := fit.base single cut reads letter
    · rw [monomial] at deep
      cases deep
    · refine ⟨m, fitBase, ?_⟩
      simp only [Call.depth] at room ⊢
      omega

theorem Reaches.fit {call call' : Call} {bound : ℕ} (h : Reaches R call call')
    (fit : Fit n call.text) (room : call.depth + n ≤ bound) :
    ∃ m, Fit m call'.text ∧ call'.depth + m ≤ bound := by
  induction h with
  | refl => exact ⟨n, fit, room⟩
  | tail _ made ih =>
    obtain ⟨m, fit, room⟩ := ih
    exact made.fit fit room

theorem Fit.shrinks {call : Call} (fit : Fit n call.text) : call.Shrinks :=
  fun sum _ hterm => fit.layered.balanced.length_lt_of_mem_splitSum sum hterm

/-! ## Internal reasons -/

theorem error_of_map {α β ε : Type} {f : α → β} {result : Except ε α} {e : ε}
    (h : result.map f = .error e) : result = .error e := by
  cases result with
  | error e' => cases h; rfl
  | ok a => cases h

theorem Fit.not_isInternal_of_monomial {e : PolyError} (fit : Fit n text)
    (monomial : isMonomial text = true) (h : compileMonomial R text = .error e) :
    e.isInternal = false := by
  rw [isMonomial, Bool.and_eq_true, Bool.not_eq_true'] at monomial
  exact not_isInternal_of_compileMonomial fit.layered.balanced fit.sound fit.starts fit.ends
    monomial.1 h

/-- An error of a sum is one of the text as a product or of one of its terms. -/
theorem exists_of_compileSum_error {depth : ℕ} {e : PolyError} (balanced : Balanced text)
    (hd : depth ≤ maxNestingDepth) (h : compileSum R text depth = .error e) :
    ∃ term, (term = text ∨ term ∈ splitSum text) ∧ isSum term = false ∧
      compileProduct R term depth = .error e := by
  cases sum : isSum text with
  | false =>
    rw [compileSum_of_not_isSum hd sum] at h
    exact ⟨text, .inl rfl, sum, h⟩
  | true =>
    have shorter : ∀ term ∈ splitSum text, term.length < text.length := fun term hterm =>
      balanced.length_lt_of_mem_splitSum sum hterm
    rw [compileSum_of_isSum hd sum, compileTerms_eq hd shorter] at h
    obtain ⟨before, term, after, cut, -, failed⟩ := error_of_mapM (error_of_map h)
    have hterm : term ∈ splitSum text := by
      rw [cut]
      exact List.mem_append_right _ List.mem_cons_self
    exact ⟨term, .inr hterm, (balanced.of_mem_splitSum hterm).2.2, failed⟩

/-- A product fails at one of its factors, if it has any. -/
theorem exists_of_compileProduct_error {depth : ℕ} {e : PolyError} (hd : depth ≤ maxNestingDepth)
    (large : isMonomial text = false) (single : isSum text = false)
    (nonempty : splitComposition text ≠ []) (h : compileProduct R text depth = .error e) :
    ∃ before x after, splitComposition text = before ++ x :: after ∧
      (∀ y ∈ before, ∀ p ∈ y.2.pieces, Reads p) ∧ factorTerm R text depth x = .error e := by
  rw [compileProduct_eq hd large single] at h
  cases factors : (splitComposition text).mapM (factorTerm R text depth) with
  | ok powers =>
    have same := (forall₂_of_mapM factors).length_eq
    rw [factors, Except.bind] at h
    cases powers with
    | nil => exact absurd (List.eq_nil_of_length_eq_zero same) nonempty
    | cons => cases h
  | error e' =>
    rw [factors] at h
    cases h
    obtain ⟨before, x, after, cut, earlier, failed⟩ := error_of_mapM factors
    refine ⟨before, x, after, cut, fun y hy => ?_, failed⟩
    obtain ⟨u, hu⟩ := earlier y hy
    exact reads_of_factorTerm hu

/-- A fit product is not rejected for an internal reason. -/
theorem Fit.not_isInternal_of_product {depth : ℕ} {e : PolyError} (fit : Fit n text)
    (single : isSum text = false) (room : depth + n ≤ maxNestingDepth)
    (h : compileProduct R text depth = .error e) : e.isInternal = false := by
  induction n using Nat.strongRecOn generalizing text depth e with
  | ind n ih =>
    have hd : depth ≤ maxNestingDepth := by omega
    cases monomial : isMonomial text with
    | true =>
      rw [compileProduct_of_isMonomial hd monomial] at h
      exact fit.not_isInternal_of_monomial monomial (error_of_map h)
    | false =>
      obtain ⟨before, x, after, cut, earlier, failed⟩ := exists_of_compileProduct_error hd monomial
        single (fit.splitComposition_ne_nil single monomial) h
      rw [factorTerm] at failed
      split at failed
      · cases failed
        rfl
      · cases failed
      · rename_i base exponent symbolic
        obtain ⟨rfl, letter, -⟩ := evaluateFactor_symbolic symbolic
        obtain ⟨m, fitBase, layer⟩ := fit.base single cut earlier letter
        rw [baseTerm] at failed
        split at failed
        · rename_i small
          exact fitBase.not_isInternal_of_monomial small (error_of_map failed)
        · rename_i large
          have layer : m + 1 ≤ n := layer.resolve_left large
          obtain ⟨term, rfl | hterm, singleTerm, failed⟩ := exists_of_compileSum_error
            fitBase.layered.balanced (by omega) (error_of_map failed)
          · exact ih m (by omega) fitBase singleTerm (by omega) failed
          · exact ih m (by omega) (fitBase.of_mem_splitSum hterm).1 singleTerm (by omega) failed

/-- A fit text is not rejected for an internal reason. -/
theorem Fit.not_isInternal {depth : ℕ} {e : PolyError} (fit : Fit n text)
    (room : depth + n ≤ maxNestingDepth) (h : compileSum R text depth = .error e) :
    e.isInternal = false := by
  obtain ⟨term, rfl | hterm, single, failed⟩ := exists_of_compileSum_error fit.layered.balanced
    ((Nat.le_add_right _ _).trans room) h
  · exact fit.not_isInternal_of_product single room failed
  · exact (fit.of_mem_splitSum hterm).1.not_isInternal_of_product single room failed

/-! ## Checked text -/

/-- The normalized text of a well-formed one is fit for as many layers as its brackets are
    nested. -/
theorem WellFormed.fit_normalize (h : WellFormed text) (nonblank : isBlankText text = false) :
    Fit (nestingDepth text) (normalize text) := by
  have linked := h.normalize_linked nonblank
  refine ⟨linked.sound, h.balanced.normalize_layered le_rfl, fun head => ?_, fun last => ?_⟩
  · obtain ⟨rest, same⟩ := List.head?_eq_some_iff.1 head
    have chain := linked.isChain
    rw [same] at chain
    have opened : Follows '(' '^' := (List.isChain_cons_cons.1 chain).1
    cases opened
  · obtain ⟨d, hd, ends⟩ := linked.getLast?
    rw [List.getLast?_cons, last] at hd
    cases hd
    cases ends

/-- A text that has passed all checks is well-formed, and its brackets are not nested too deeply. -/
theorem wellFormed_of_validate (h : validate R text = .ok ()) :
    WellFormed text ∧ nestingDepth text ≤ maxNestingDepth := by
  obtain ⟨wellFormed, shallow, -⟩ := validate_eq_ok_iff.1 h
  exact ⟨malformed?_eq_none_iff.1 wellFormed, shallow⟩

variable (R) in
/-- A call that is made while a text is parsed: only the normalized text of one that has passed all
    checks is compiled. -/
def ParseMakes (text : List Char) (call : Call) : Prop :=
  isBlankText text = false ∧ validate R text = .ok () ∧ Reaches R (.sum (normalize text) 0) call

/-- **Internal failures never escape.**  No text is rejected for an internal reason.  The calls that
    are made while a text is parsed are no deeper than its brackets are nested, and they are all
    calls: a step of the compiler depends on nothing but the answers to the calls that it makes. -/
theorem parse_not_isInternal (R : Type) [Scalar R] (text : List Char) :
    (∀ e, parse R text = .error e → e.isInternal = false) ∧
    ∀ call, ParseMakes R text call → call.depth ≤ nestingDepth text ∧
      ∀ answer : Call → Except PolyError (Term (Number R)),
        (∀ call', Makes R call call' → answer call' = call'.run R) →
          call.step answer = call.run R := by
  constructor
  · intro e h
    rw [parse_eq] at h
    split at h
    · cases h
      rfl
    · rename_i blank
      have nonblank : isBlankText text = false := Bool.eq_false_iff.2 blank
      cases valid : validate R text with
      | error e' =>
        rw [valid] at h
        cases h
        rw [validate, validateBy] at valid
        split at valid
        · cases valid
          rfl
        · split at valid
          · cases valid
            rfl
          · split at valid
            · cases valid
              rfl
            · cases valid
      | ok _ =>
        obtain ⟨wellFormed, shallow⟩ := wellFormed_of_validate valid
        have fit := wellFormed.fit_normalize nonblank
        rw [valid] at h
        have h : compile R text = .error e := h
        rw [compile] at h
        cases compiled : compileSum R (normalize text) 0 with
        | error e' =>
          rw [compiled] at h
          cases h
          exact fit.not_isInternal (by omega) compiled
        | ok t =>
          rw [compiled] at h
          have h : (if t.toPolynomial.isFinite then Except.ok t.toPolynomial
            else .error (.coefficientOverflow text)) = .error e := h
          split at h
          · cases h
          · cases h
            rfl
  · rintro call ⟨nonblank, valid, reached⟩
    obtain ⟨wellFormed, -⟩ := wellFormed_of_validate valid
    have fit := wellFormed.fit_normalize nonblank
    obtain ⟨m, fitCall, room⟩ := reached.fit fit (Nat.zero_add _).le
    exact ⟨(Nat.le_add_right _ _).trans room, fun answer h => call.step_eq_run fitCall.shrinks h⟩

/-- A sum of bracketed variables makes a call for its first term, which is no deeper than its
    brackets are nested; the empty text is not rejected for an internal reason. -/
theorem parse_not_isInternal_sum :
    (parse ℚ [] = .error .empty ∧ PolyError.isInternal .empty = false) ∧
    ParseMakes ℚ "(x)+(y)".toList (.product "(x)".toList 0) ∧ 0 ≤ nestingDepth "(x)+(y)".toList := by
  have nothing : Spaces [] := nofun
  have spelled : Formula.Spelled _ "(x)+(y)".toList :=
    @Formula.Spelled.binary .sum _ _ _ _ [] [] ['+'] [] [] (List.mem_singleton_self _)
      (@Formula.Spelled.letter 'x' rfl) (@Formula.Spelled.letter 'y' rfl) nothing nothing nothing
      nothing
  have empty : parse ℚ [] = .error .empty := by
    rw [parse_eq]
    rfl
  have made : ParseMakes ℚ "(x)+(y)".toList (.product "(x)".toList 0) := by
    refine ⟨rfl, spelled.validate ⟨trivial, trivial⟩ (by decide), .single ?_⟩
    rw [spelled.normalize]
    exact @Makes.term ℚ _ "(x)+(y)".toList _ 0 [] _ (Nat.zero_le _) rfl rfl nofun rfl
  exact ⟨⟨empty, (parse_not_isInternal ℚ []).1 _ empty⟩, made,
    ((parse_not_isInternal ℚ _).2 _ made).1⟩

end SamePoly
