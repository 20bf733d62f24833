/-
  Brackets that stay open.

  A bracket behind a `^` is no factor of its own, so the groups inside it cut the stretch it belongs
  to off while it is still open.  Such a stretch comes to nothing, and no factor behind it is looked
  at, as long as no empty pair of brackets lets an exponent disappear.

  * `Filled`: text without an empty pair of brackets.
  * `RaisedFrom`, `Raised`: every opening bracket stands right behind a `^`.
  * `Unclosed`: a stretch with an open bracket.
  * `balanced_of_forall_factors`: a filled product is balanced if its factors and exponents are.
  * `Regular.of_cut`: **a factor behind successes only is balanced or unclosed**.
-/
import SamePoly.Proofs.Depth

namespace SamePoly

variable {text part rest run stretch whole : List Char} {c : Char} {divided raised : Bool}
variable {factors more : Factors}

/-! ## Empty pairs of brackets -/

/-- No bracket is closed right behind its opening. -/
def Filled (text : List Char) : Prop := ¬ ['(', ')'] <:+: text

theorem Filled.of_infix (h : Filled text) (hpart : part <:+: text) : Filled part :=
  fun empty => h (empty.trans hpart)

theorem filled_cons :
    Filled (c :: text) ↔ (c = '(' → text.head? ≠ some ')') ∧ Filled text := by
  have first : ['(', ')'] <+: c :: text ↔ c = '(' ∧ text.head? = some ')' := by
    cases text with
    | nil => simp
    | cons d text => simp [List.cons_prefix_cons, eq_comm]
  rw [Filled, List.infix_cons_iff, first, not_or, not_and]
  exact Iff.rfl

theorem Filled.ne_nil (h : Filled ('(' :: (part ++ ')' :: rest))) : part ≠ [] := by
  rintro rfl
  exact (filled_cons.1 h).1 rfl rfl

theorem Filled.wrapVariables (h : Filled text) : Filled (SamePoly.wrapVariables text) := by
  induction text with
  | nil => exact h
  | cons c text ih =>
    obtain ⟨first, hrest⟩ := filled_cons.1 h
    cases hc : isVariable c with
    | true =>
      obtain ⟨hopen, hclose, -⟩ := ne_of_isVariable hc
      rw [wrapVariables_cons_of_isVariable hc, filled_cons, filled_cons, filled_cons]
      simp [hopen, hclose, ih hrest]
    | false =>
      rw [wrapVariables_cons_of_not_isVariable hc, filled_cons]
      exact ⟨fun hopen => head?_wrapVariables (by simp) (first hopen), ih hrest⟩

/-! ## Open brackets -/

/-- Every opening bracket stands right behind a `^`, the first symbol being behind one if `raised`
    says so. -/
def RaisedFrom (raised : Bool) : List Char → Prop
  | [] => True
  | c :: rest => (c = '(' → raised = true) ∧ RaisedFrom (c == '^') rest

/-- Every opening bracket stands right behind a `^`. -/
abbrev Raised (text : List Char) : Prop := RaisedFrom false text

theorem raisedFrom_append :
    RaisedFrom raised (text ++ rest) ↔
      RaisedFrom raised text ∧ RaisedFrom (text.getLast?.elim raised (· == '^')) rest := by
  induction text generalizing raised with
  | nil => simp [RaisedFrom]
  | cons c text ih =>
    have last : (c :: text).getLast?.elim raised (· == '^') =
        text.getLast?.elim (c == '^') (· == '^') := by
      cases text with
      | nil => rfl
      | cons d text =>
        rw [List.getLast?_cons_cons]
        cases h : (d :: text).getLast? with
        | none => simp at h
        | some e => rfl
    rw [List.cons_append, RaisedFrom, RaisedFrom, ih, last, and_assoc]

/-- Brackets behind a `^` belong to the stretch. -/
theorem RaisedFrom.splitCompositionFrom_append (h : RaisedFrom raised run) :
    splitCompositionFrom factors stretch divided raised (run ++ rest) =
      splitCompositionFrom factors (run.reverse ++ stretch)
        (run.getLast?.elim divided (· == '/')) (run.getLast?.elim raised (· == '^')) rest := by
  induction run generalizing stretch divided raised with
  | nil => rfl
  | cons c run ih =>
    obtain ⟨first, hrest⟩ := h
    have step : splitCompositionFrom factors stretch divided raised (c :: (run ++ rest)) =
        splitCompositionFrom factors (c :: stretch) (c == '/') (c == '^') (run ++ rest) := by
      by_cases hopen : c = '('
      · rw [splitCompositionFrom, hopen, first hopen]
        simp
      · exact splitCompositionFrom_symbol hopen
    rw [List.cons_append, step, ih hrest, List.reverse_cons, List.append_assoc]
    cases run with
    | nil => rfl
    | cons d run =>
      rw [List.getLast?_cons_cons]
      cases hlast : (d :: run).getLast? with
      | none => simp at hlast
      | some e => rfl

/-- A stretch is a factor as a whole. -/
theorem RaisedFrom.splitComposition (h : Raised text) (hne : text ≠ []) :
    SamePoly.splitComposition text = [(text, .one)] := by
  have stretch : splitCompositionFrom [] [] false false (text ++ []) = _ :=
    h.splitCompositionFrom_append
  rw [List.append_nil, List.append_nil, splitCompositionFrom_nil, List.reverse_reverse] at stretch
  rw [SamePoly.splitComposition, stretch, push_nil hne]

/-- A stretch of a product with a bracket that is not closed. -/
structure Unclosed (text : List Char) : Prop where
  unbalanced : ¬ Balanced text
  raised : Raised text
  single : isSum text = false
  filled : Filled text

namespace Unclosed

theorem ne_nil (h : Unclosed text) : text ≠ [] := by
  rintro rfl
  exact h.unbalanced .nil

theorem of_slash (h : Unclosed ('/' :: text)) : Unclosed text where
  unbalanced balanced := h.unbalanced (.symbol (by simp) (by simp) balanced)
  raised := h.raised.2
  single := isSum_of_slash h.single
  filled := (filled_cons.1 h.filled).2

/-- The base of an unclosed stretch is one. -/
theorem base {e : Exponent} (h : Unclosed text)
    (letter : hasVariable (prepareFactor text e).1 = true) : Unclosed (prepareFactor text e).1 := by
  rcases prepareFactor_cases letter with same | slash
  · rwa [same]
  · rw [slash] at h
    exact h.of_slash

theorem splitComposition (h : Unclosed text) : SamePoly.splitComposition text = [(text, .one)] :=
  h.raised.splitComposition h.ne_nil

end Unclosed

/-! ## Products with balanced factors -/

/-- A factor with its exponent is balanced. -/
def IsBalanced (x : List Char × Exponent) : Prop := Balanced x.1 ∧ ∀ p ∈ x.2.pieces, Balanced p

/-- An added factor is balanced if all factors are in the end. -/
theorem balanced_of_push {factor : List Char} {e : Exponent}
    (extended : (factors.push factor e).Extends more) (h : ∀ x ∈ more, IsBalanced x) :
    Balanced factor ∧ (factor ≠ [] → ∀ p ∈ e.pieces, Balanced p) := by
  by_cases hne : factor = []
  · rw [hne]
    exact ⟨.nil, fun h => absurd rfl h⟩
  · obtain ⟨y, hy, rfl, kept⟩ := Factors.exists_mem_push factors hne e
    obtain ⟨z, hz, same, kept'⟩ := extended.exists_mem hy
    obtain ⟨balanced, pieces⟩ := h z hz
    exact ⟨same ▸ balanced, fun _ p hp => pieces p (kept' p (kept p hp))⟩

theorem balanced_of_withoutOperator (h : Balanced (withoutOperator stretch)) :
    Balanced stretch.reverse := by
  obtain ⟨dropped, same, operator⟩ := withoutOperator_append stretch
  rw [same]
  refine h.append (.of_forall fun d hd => ?_)
  rcases operator d hd with rfl | rfl <;> simp

/-- A filled product is balanced if its factors and exponents are. -/
theorem balanced_of_forall_factors (filled : Filled text)
    (h : ∀ x ∈ splitCompositionFrom factors stretch divided raised text, IsBalanced x) :
    Balanced (stretch.reverse ++ text) := by
  have assoc {stretch rest : List Char} {c : Char} (h : Balanced ((c :: stretch).reverse ++ rest)) :
      Balanced (stretch.reverse ++ c :: rest) := by
    rwa [List.reverse_cons, List.append_assoc] at h
  fun_induction splitCompositionFrom factors stretch divided raised text with
  | case1 factors stretch divided raised =>
    rw [List.append_nil]
    exact (balanced_of_push (.refl _) h).1
  | case2 factors stretch divided raised c rest _ ih => exact assoc (ih (filled_cons.1 filled).2 h)
  | case3 factors stretch divided raised c rest _ _ flushed found =>
    exact (balanced_of_push (.refl _) h).1
  | case4 factors stretch divided raised c rest _ hopen flushed inside after found exponent _ ih =>
    obtain ⟨rfl, -⟩ : c = '(' ∧ raised = false := by simpa using hopen
    have spelled := splitAtMatch_append found
    rw [← spelled] at filled ⊢
    have extended := Factors.extends_splitCompositionFrom
      (flushed.push inside (if divided then .negated (.literal exponent) else .literal exponent))
      [] false (exponent.getLast? == some '^') (tower after).2
    obtain ⟨hstretch, -⟩ := balanced_of_push ((Factors.extends_push _ _ _).trans extended) h
    obtain ⟨hinside, pieces⟩ := balanced_of_push extended h
    have htower : Balanced (tower after).1 := by
      refine pieces filled.ne_nil _ ?_
      split <;> exact List.mem_singleton_self _
    have behind : Balanced (tower after).2 := by
      refine ih (filled.of_infix ?_) h
      conv_rhs => rw [← tower_append after]
      exact ⟨'(' :: (inside ++ ')' :: '^' :: (tower after).1), [], by simp⟩
    refine (balanced_of_withoutOperator hstretch).append (.group hinside ?_)
    rw [← tower_append after]
    exact .symbol (by simp) (by simp) (htower.append behind)
  | case5 factors stretch divided raised c rest _ hopen flushed inside after _ found _ ih =>
    obtain ⟨rfl, -⟩ : c = '(' ∧ raised = false := by simpa using hopen
    have spelled := splitAtMatch_append found
    rw [← spelled] at filled ⊢
    have extended := Factors.extends_splitCompositionFrom
      (flushed.push inside (if divided then .negated .one else .one)) [] false false after
    obtain ⟨hstretch, -⟩ := balanced_of_push ((Factors.extends_push _ _ _).trans extended) h
    obtain ⟨hinside, -⟩ := balanced_of_push extended h
    have behind : Balanced after := ih (filled.of_infix ⟨'(' :: (inside ++ [')']), [], by simp⟩) h
    exact (balanced_of_withoutOperator hstretch).append (.group hinside behind)
  | case6 factors stretch divided raised c rest _ _ ih => exact assoc (ih (filled_cons.1 filled).2 h)

/-! ## Factors of balanced products -/

theorem signOutside_of_append {depth : ℤ} (h : signOutside depth (part ++ rest) = false) :
    signOutside depth part = false := by
  induction part generalizing depth with
  | nil => rfl
  | cons c part ih =>
    rw [List.cons_append, signOutside] at h
    rw [signOutside]
    split_ifs at h ⊢ <;> exact ih h

/-- Without a sign outside all brackets there is none at the start of the text. -/
theorem isSum_of_append (h : isSum (part ++ rest) = false) : isSum part = false := by
  cases part with
  | nil => rfl
  | cons c part => exact signOutside_of_append h

/-- Behind something balanced there is no sum either. -/
theorem Balanced.isSum_of_append (h : Balanced part) (hne : part ≠ [])
    (single : isSum (part ++ rest) = false) : isSum rest = false := by
  rw [h.isSum_append hne, Bool.or_eq_false_iff] at single
  exact isSum_eq_false_of_signOutside single.2

/-- Filled balanced text that is no sum. -/
structure IsProduct (text : List Char) : Prop where
  balanced : Balanced text
  single : isSum text = false
  filled : Filled text

/-- What stands behind a balanced part of a product is one. -/
theorem IsProduct.of_append (h : IsProduct (part ++ rest)) (hpart : Balanced part)
    (hne : part ≠ []) : IsProduct rest where
  balanced := hpart.of_append h.balanced
  single := hpart.isSum_of_append hne h.single
  filled := h.filled.of_infix (List.suffix_append _ _).isInfix

/-- Filled text that is balanced or a stretch with an open bracket. -/
structure Regular (text : List Char) : Prop where
  filled : Filled text
  brackets : Balanced text ∨ Unclosed text

/-- The base of a regular factor is regular. -/
theorem Regular.base {e : Exponent} (h : Regular text)
    (letter : hasVariable (prepareFactor text e).1 = true) : Regular (prepareFactor text e).1 := by
  rcases prepareFactor_cases letter with same | slash
  · rwa [same]
  · rw [slash] at h
    exact ⟨(filled_cons.1 h.filled).2,
      h.brackets.imp (fun balanced => (balanced.of_symbol (by simp)).2) Unclosed.of_slash⟩

theorem Factors.forall_regular_push {factor : List Char} {e : Exponent}
    (h : ∀ y ∈ factors, Regular y.1) (hf : factor ≠ [] → Regular factor) :
    ∀ y ∈ factors.push factor e, Regular y.1 :=
  Factors.forall_push_of (Q := fun text _ => Regular text) h hf fun _ _ known => known

/-- A stretch in front of a group is balanced or unclosed. -/
theorem IsProduct.regular_withoutOperator (h : IsProduct (stretch.reverse ++ rest))
    (hraised : Raised stretch.reverse) :
    Regular (withoutOperator stretch) ∧
      (Balanced stretch.reverse ∨ Unclosed (withoutOperator stretch)) := by
  obtain ⟨dropped, same, -⟩ := withoutOperator_append stretch
  have filled : Filled (withoutOperator stretch) :=
    h.filled.of_infix (same ▸ ⟨[], dropped ++ rest, by simp⟩)
  by_cases balanced : Balanced (withoutOperator stretch)
  · exact ⟨⟨filled, .inl balanced⟩, .inl (balanced_of_withoutOperator balanced)⟩
  · have single := h.single
    rw [same, List.append_assoc] at single
    rw [same] at hraised
    have unclosed : Unclosed (withoutOperator stretch) :=
      ⟨balanced, (raisedFrom_append.1 hraised).1, SamePoly.isSum_of_append single, filled⟩
    exact ⟨⟨filled, .inr unclosed⟩, .inr unclosed⟩

/-- The group of a product. -/
theorem IsProduct.of_group {inside after : List Char} (h : IsProduct (stretch.reverse ++ '(' :: rest))
    (hstretch : Balanced stretch.reverse) (found : group? rest = some (inside, after)) :
    rest = inside ++ ')' :: after ∧ Balanced inside ∧ Regular inside ∧ inside ≠ [] ∧
      Balanced after := by
  obtain ⟨inside', after', rfl, hinside, hafter⟩ := (hstretch.of_append h.balanced).of_opening
  rw [hinside.group?_append] at found
  cases found
  have group : Filled ('(' :: (inside ++ ')' :: after)) :=
    h.filled.of_infix (List.suffix_append _ _).isInfix
  refine ⟨rfl, hinside, ⟨group.of_infix ⟨['('], ')' :: after, by simp⟩, .inl hinside⟩,
    group.ne_nil, hafter⟩

/-! ## Factors that are looked at -/

section LookedAt

variable {succeeds : List Char × Exponent → Prop} {before after : Factors}
variable {x : List Char × Exponent} (cut : more = before ++ x :: after)
variable (earlier : ∀ y ∈ before, succeeds y)

include cut earlier

/-- Factors that were collected before one that comes to nothing are all that are looked at. -/
theorem regular_of_extends (known : ∀ y ∈ factors, Regular y.1) (extended : factors.Extends more)
    (nothing : ∃ y ∈ factors, ∀ z ∈ more, z.1 = y.1 → (∀ p ∈ y.2.pieces, p ∈ z.2.pieces) →
      ¬ succeeds z) : Regular x.1 := by
  obtain ⟨y, hy, same⟩ := extended.mem_of_earlier cut nothing earlier
  exact same ▸ known y hy

/-- Nothing behind an unclosed stretch is looked at. -/
theorem regular_of_unclosed (known : ∀ y ∈ factors, Regular y.1) (unclosed : Unclosed part)
    (extended : (factors.push part .one).Extends more)
    (fails : ∀ z ∈ more, Unclosed z.1 → ¬ succeeds z) : Regular x.1 := by
  refine regular_of_extends cut earlier
    (Factors.forall_regular_push known fun _ => ⟨unclosed.filled, .inr unclosed⟩) extended ?_
  obtain ⟨y, hy, rfl, -⟩ := Factors.exists_mem_push factors unclosed.ne_nil .one
  exact ⟨y, hy, fun z hz same _ => fails z hz (same ▸ unclosed)⟩

/-- Nothing behind a group whose tower breaks off behind a `^` is looked at. -/
theorem regular_of_broken {e : Exponent} {tower : List Char}
    (known : ∀ y ∈ factors, Regular y.1) (regular : Regular part) (hne : part ≠ [])
    (extended : (factors.push part e).Extends more) (htower : tower ∈ e.pieces)
    (broken : tower.getLast? = some '^')
    (reads : ∀ z ∈ more, succeeds z → ∀ p ∈ z.2.pieces, Reads p) : Regular x.1 := by
  refine regular_of_extends cut earlier
    (Factors.forall_regular_push known fun _ => regular) extended ?_
  obtain ⟨y, hy, -, kept⟩ := Factors.exists_mem_push factors hne e
  refine ⟨y, hy, fun z hz _ kept' success => ?_⟩
  exact getLast?_ne_of_read? (reads z hz success tower (kept' tower (kept tower htower))) broken

/-- On the way through a product, `stretch` having been passed since the last group. -/
theorem regular_of_splitCompositionFrom (known : ∀ y ∈ factors, Regular y.1)
    (product : IsProduct (stretch.reverse ++ text))
    (hraised : raised = stretch.head?.elim false (· == '^')) (hstretch : Raised stretch.reverse)
    (same : more = splitCompositionFrom factors stretch divided raised text)
    (fails : ∀ z ∈ more, Unclosed z.1 → ¬ succeeds z)
    (reads : ∀ z ∈ more, succeeds z → ∀ p ∈ z.2.pieces, Reads p) : Regular x.1 := by
  have shift (stretch rest : List Char) (c : Char) :
      (c :: stretch).reverse ++ rest = stretch.reverse ++ c :: rest := by simp
  have pass {stretch : List Char} {c : Char} (hstretch : Raised stretch.reverse)
      (hc : c = '(' → stretch.head?.elim false (· == '^') = true) :
      Raised (c :: stretch).reverse := by
    rw [List.reverse_cons]
    refine raisedFrom_append.2 ⟨hstretch, ?_⟩
    rw [List.getLast?_reverse]
    exact ⟨hc, trivial⟩
  fun_induction splitCompositionFrom factors stretch divided raised text with
  | case1 factors stretch divided raised =>
    rw [List.append_nil] at product
    have hx : x ∈ factors.push stretch.reverse .one := by
      rw [← same, cut]
      exact List.mem_append_right _ List.mem_cons_self
    exact Factors.forall_regular_push known (fun _ => ⟨product.filled, .inl product.balanced⟩) x hx
  | case2 factors stretch divided raised c rest hc ih =>
    obtain rfl : c = '/' := by simpa using hc
    rw [← shift] at product
    exact ih known product rfl (pass hstretch (by simp)) same
  | case3 factors stretch divided raised c rest _ hopen flushed found =>
    obtain ⟨rfl, rfl⟩ : c = '(' ∧ raised = false := by simpa using hopen
    obtain ⟨-, hbalanced | unclosed⟩ := product.regular_withoutOperator hstretch
    · obtain ⟨inside, after, rfl, hinside, -⟩ := (hbalanced.of_append product.balanced).of_opening
      rw [hinside.group?_append] at found
      cases found
    · refine regular_of_unclosed cut earlier known unclosed ?_ fails
      rw [same]
      exact Factors.extends_push _ _ _
  | case4 factors stretch divided raised c rest _ hopen flushed inside after found exponent _ ih =>
    obtain ⟨rfl, rfl⟩ : c = '(' ∧ raised = false := by simpa using hopen
    obtain ⟨regular, hbalanced | unclosed⟩ := product.regular_withoutOperator hstretch
    · obtain ⟨rfl, hinside, regularInside, hne, hafter⟩ := product.of_group hbalanced found
      have knownStretch := Factors.forall_regular_push known (e := .one) fun _ => regular
      by_cases broken : exponent.getLast? = some '^'
      · refine regular_of_broken cut earlier knownStretch regularInside hne ?_ ?_ broken reads
          (e := if divided then .negated (.literal exponent) else .literal exponent)
        · rw [same]
          exact Factors.extends_splitCompositionFrom _ _ _ _ _
        · split <;> exact List.mem_singleton_self _
      · refine ih (Factors.forall_regular_push knownStretch fun _ => regularInside) ?_
          (beq_eq_false_iff_ne.2 broken) trivial same
        have htower := (hafter.of_symbol (by simp)).2.tower.1
        have group : Balanced (stretch.reverse ++ '(' :: (inside ++ ')' :: '^' :: (tower after).1)) :=
          hbalanced.append (.group hinside (.symbol (by simp) (by simp) htower))
        refine IsProduct.of_append ?_ group (by simp)
        simpa [tower_append] using product
    · refine regular_of_unclosed cut earlier known unclosed ?_ fails
      rw [same]
      exact (Factors.extends_push _ _ _).trans (Factors.extends_splitCompositionFrom _ _ _ _ _)
  | case5 factors stretch divided raised c rest _ hopen flushed inside after _ found _ ih =>
    obtain ⟨rfl, rfl⟩ : c = '(' ∧ raised = false := by simpa using hopen
    obtain ⟨regular, hbalanced | unclosed⟩ := product.regular_withoutOperator hstretch
    · obtain ⟨rfl, hinside, regularInside, -⟩ := product.of_group hbalanced found
      have knownStretch := Factors.forall_regular_push known (e := .one) fun _ => regular
      refine ih (Factors.forall_regular_push knownStretch fun _ => regularInside) ?_ rfl trivial same
      refine IsProduct.of_append ?_ (hbalanced.append hinside.single_group) (by simp)
      simpa using product
    · refine regular_of_unclosed cut earlier known unclosed ?_ fails
      rw [same]
      exact (Factors.extends_push _ _ _).trans (Factors.extends_splitCompositionFrom _ _ _ _ _)
  | case6 factors stretch divided raised c rest _ hopen ih =>
    rw [← shift] at product
    refine ih known product rfl (pass hstretch fun hc => ?_) same
    rw [← hraised]
    simpa [hc] using hopen

end LookedAt

/-- **A factor behind successes only is balanced or unclosed.** -/
theorem Regular.of_cut {succeeds : List Char × Exponent → Prop} {before after : Factors}
    {x : List Char × Exponent} (h : Regular text) (single : isSum text = false)
    (cut : splitComposition text = before ++ x :: after)
    (earlier : ∀ y ∈ before, succeeds y)
    (fails : ∀ z ∈ splitComposition text, Unclosed z.1 → ¬ succeeds z)
    (reads : ∀ z ∈ splitComposition text, succeeds z → ∀ p ∈ z.2.pieces, Reads p) :
    Regular x.1 := by
  rcases h.brackets with balanced | unclosed
  · have product : IsProduct (([] : List Char).reverse ++ text) := ⟨balanced, single, h.filled⟩
    exact regular_of_splitCompositionFrom cut earlier (List.forall_mem_nil _) product rfl trivial
      rfl fails reads
  · have hx : x ∈ splitComposition text := by
      rw [cut]
      exact List.mem_append_right _ List.mem_cons_self
    rw [unclosed.splitComposition, List.mem_singleton] at hx
    rwa [hx]

end SamePoly
