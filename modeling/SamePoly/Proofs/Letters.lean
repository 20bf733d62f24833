/-
  The variables of a compiled text.

  Every stage between a text and its polynomial only passes letters on, so a variable of the
  polynomial is a letter of the text.

  * `Shape.Over`: the variables of a shape are of one kind, and no exponent is too large.
  * `Occurs`: a variable that stands in a text.
  * `occurs_of_evaluateFactor`, `occurs_of_normalize`: the bases of factors and normalized text
    have no letters of their own.
  * `Yields.reduced`: **the term of a text is reduced and has the variables of the text**.
-/
import SamePoly.Proofs.Merging
import SamePoly.Proofs.Summands
import SamePoly.Proofs.Yields

namespace SamePoly

/-! ## Shapes -/

namespace Shape

variable {V W : Char → Prop} {s t : Shape}

/-- All variables satisfy `V`, and no exponent passes the largest one. -/
def Over (V : Char → Prop) (s : Shape) : Prop := ∀ p ∈ s.powers, V p.1 ∧ p.2 ≤ maxExponent

theorem Over.one : one.Over V := nofun

theorem Over.mono (h : s.Over V) (hVW : ∀ c, V c → W c) : s.Over W :=
  fun p hp => (h p hp).imp_left (hVW p.1)

theorem over_insertPower {powers : List (Char × ℕ)} {c : Char}
    (h : ∀ p ∈ powers, V p.1 ∧ p.2 ≤ maxExponent) (hc : V c) (n : ℕ) :
    ∀ p ∈ insertPower c n powers, V p.1 ∧ p.2 ≤ maxExponent := by
  induction powers with
  | nil => exact List.forall_mem_singleton.2 ⟨hc, Nat.min_le_right _ _⟩
  | cons q rest ih =>
    obtain ⟨hq, hrest⟩ := List.forall_mem_cons.1 h
    rw [insertPower]
    split
    · exact List.forall_mem_cons.2 ⟨⟨hq.1, Nat.min_le_right _ _⟩, hrest⟩
    · split
      · exact List.forall_mem_cons.2 ⟨⟨hc, Nat.min_le_right _ _⟩, h⟩
      · exact List.forall_mem_cons.2 ⟨hq, ih hrest⟩

theorem Over.raise (h : s.Over V) {c : Char} (hc : V c) (n : ℕ) : (s.raise c n).Over V := by
  rw [Shape.raise]
  split
  · exact h
  · exact over_insertPower h hc n

theorem Over.foldl_raise {powers : List (Char × ℕ)} (hs : s.Over V) (h : ∀ p ∈ powers, V p.1) :
    (powers.foldl (fun product (c, n) => product.raise c n) s).Over V := by
  induction powers generalizing s with
  | nil => exact hs
  | cons q rest ih =>
    obtain ⟨hq, hrest⟩ := List.forall_mem_cons.1 h
    exact ih (hs.raise hq q.2) hrest

theorem Over.mul (hs : s.Over V) (ht : t.Over V) : (s.mul t).Over V :=
  hs.foldl_raise fun p hp => (ht p hp).1

theorem Over.erase (h : s.Over V) (c : Char) : (s.erase c).Over V :=
  fun p hp => h p (List.mem_filter.1 hp).1

theorem over_ofList {powers : List (Char × ℕ)} (h : ∀ p ∈ powers, V p.1) :
    (ofList powers).Over V := by
  suffices foldl : ∀ s : Shape, s.Over V →
      (powers.foldl (fun s (c, n) => (s.erase c).raise c n) s).Over V from foldl one .one
  induction powers with
  | nil => exact fun _ hs => hs
  | cons q rest ih =>
    obtain ⟨hq, hrest⟩ := List.forall_mem_cons.1 h
    exact fun s hs => ih hrest _ ((hs.erase q.1).raise hq q.2)

end Shape

theorem Monomial.closed_over {K : Type} [ZeroTest K] [Zero K] [Mul K] (V : Char → Prop) :
    Monomial.Closed fun m : Monomial K => m.shape.Over V where
  constant c := .one
  new hm c := by
    rw [Monomial.new]
    split
    · exact .one
    · exact hm
  mul hm hn := by
    rw [Monomial.mul]
    split
    · exact .one
    · rw [Monomial.new]
      split
      · exact .one
      · exact hm.mul hn

/-! ## Monomials -/

/-- A variable that stands in a text. -/
def Occurs (text : List Char) (c : Char) : Prop := c ∈ text ∧ isVariable c = true

theorem Occurs.mono {part text : List Char} {c : Char} (hc : Occurs part c) (h : part ⊆ text) :
    Occurs text c := hc.imp_left (h ·)

theorem occurs_of_wrapVariables {text : List Char} {c : Char} (h : Occurs (wrapVariables text) c) :
    Occurs text c := by
  obtain ⟨hmem, hc⟩ := h
  obtain ⟨d, hd, hcd⟩ := List.mem_flatMap.1 hmem
  split at hcd
  · rcases List.mem_cons.1 hcd with rfl | hcd
    · exact absurd hc (by decide)
    · rcases List.mem_cons.1 hcd with rfl | hcd
      · exact ⟨hd, hc⟩
      · rw [List.mem_singleton.1 hcd] at hc
        exact absurd hc (by decide)
  · rw [List.mem_singleton.1 hcd] at hc ⊢
    exact ⟨hd, hc⟩

/-- Preparing a factor adds no variables. -/
theorem occurs_of_prepareFactor {factor : List Char} {e : Exponent} {c : Char}
    (h : Occurs (prepareFactor factor e).1 c) : Occurs factor c := by
  have digit : ¬ Occurs ['1'] c := by
    rintro ⟨hmem, hc⟩
    rw [List.mem_singleton.1 hmem] at hc
    exact absurd hc (by decide)
  unfold prepareFactor at h
  split at h
  · rcases List.mem_cons.1 h.1 with rfl | hmem
    · exact absurd h.2 (by decide)
    · exact absurd ⟨hmem, h.2⟩ digit
  · rcases List.mem_cons.1 h.1 with rfl | hmem
    · exact absurd h.2 (by decide)
    · exact absurd ⟨hmem, h.2⟩ digit
  · exact h.mono (List.subset_cons_self _ _)
  · exact h

/-- A base consists of symbols of its text. -/
theorem occurs_of_evaluateFactor {R : Type} [Scalar R] {text base : List Char}
    {x : List Char × Exponent} {n : ℕ} (hx : x ∈ splitComposition text)
    (h : evaluateFactor x.1 x.2 = .ok (Factor.symbolic base n : Factor R)) (c : Char)
    (hc : Occurs base c) : Occurs text c := by
  rw [(evaluateFactor_symbolic h).1] at hc
  exact (occurs_of_prepareFactor hc).mono (infix_of_mem_splitComposition hx).subset

variable {R : Type} [Scalar R]

theorem over_of_multiplyFactor {V : Char → Prop} {text : List Char} {x : List Char × Exponent}
    {found more : Number R × Shape} (hfound : found.2.Over V)
    (hx : ∀ base n, evaluateFactor x.1 x.2 = .ok (Factor.symbolic base n : Factor R) →
      ∀ c, Occurs base c → V c)
    (h : multiplyFactor R text found x = .ok more) : more.2.Over V := by
  rw [multiplyFactor] at h
  split at h
  · cases h
  · cases h
    exact hfound
  · rename_i name n hpower
    split at h
    · rename_i letter
      split at h
      · cases h
      · cases h
        exact hfound.raise (hx _ _ hpower name ⟨List.mem_singleton_self _, letter⟩) n
    · cases h
  · cases h

/-- The variables of a monomial stand in its text. -/
theorem over_of_compileMonomial {text : List Char} {m : Monomial (Number R)}
    (h : compileMonomial R text = .ok m) : m.shape.Over (Occurs text) := by
  rw [compileMonomial] at h
  split at h
  · cases h
  · rename_i coefficient shape hfold
    cases h
    suffices fold : ∀ (factors : Factors) (found : Number R × Shape),
        (∀ x ∈ factors, x ∈ splitComposition (wrapVariables text)) →
        found.2.Over (Occurs text) →
        factors.foldlM (multiplyFactor R text) found = .ok (coefficient, shape) →
        shape.Over (Occurs text) by
      exact (Monomial.closed_over _).new (m := ⟨coefficient, shape⟩)
        (fold _ _ (fun _ hx => hx) .one hfold) coefficient
    intro factors
    induction factors with
    | nil =>
      intro found _ hfound h
      cases h
      exact hfound
    | cons x factors ih =>
      intro found hfactors hfound h
      obtain ⟨hx, hfactors⟩ := List.forall_mem_cons.1 hfactors
      rw [List.foldlM_cons] at h
      cases hmore : multiplyFactor R text found x with
      | error e => rw [hmore] at h; cases h
      | ok more =>
        rw [hmore] at h
        refine ih more hfactors (over_of_multiplyFactor hfound (fun base n hpower c hc => ?_) hmore) h
        exact occurs_of_wrapVariables (occurs_of_evaluateFactor hx hpower c hc)

/-! ## Normalized text -/

theorem occurs_of_respellChar {text : List Char} {c : Char} (h : Occurs (text.map respellChar) c) :
    Occurs text c := by
  obtain ⟨hmem, hc⟩ := h
  obtain ⟨d, hd, rfl⟩ := List.mem_map.1 hmem
  unfold respellChar at hc ⊢
  split at hc
  · exact absurd hc (by decide)
  · split at hc
    · exact absurd hc (by decide)
    · rename_i hcomma hcolon
      rw [if_neg hcomma, if_neg hcolon]
      exact ⟨hd, hc⟩

theorem occurs_of_respellPowers {text : List Char} {c : Char} (h : Occurs (respellPowers text) c) :
    Occurs text c := by
  obtain ⟨hmem, hc⟩ := h
  refine ⟨?_, hc⟩
  fun_induction respellPowers text with
  | case1 rest ih =>
    rcases List.mem_cons.1 hmem with rfl | hmem
    · exact absurd hc (by decide)
    · exact List.mem_cons_of_mem _ (List.mem_cons_of_mem _ (ih hmem))
  | case2 d rest _ ih =>
    rcases List.mem_cons.1 hmem with rfl | hmem
    · exact List.mem_cons_self
    · exact List.mem_cons_of_mem _ (ih hmem)
  | case3 => exact hmem

theorem dropTimesAfter_sublist (text : List Char) : List.Sublist (dropTimesAfter text) text := by
  fun_induction dropTimesAfter text with
  | case1 c rest _ ih => exact ih.cons_cons c
  | case2 c rest _ ih => exact (ih.cons '*').cons_cons c
  | case3 c rest _ ih => exact ih.cons_cons c
  | case4 => exact .slnil

theorem dropTimesBefore_sublist (text : List Char) : List.Sublist (dropTimesBefore text) text := by
  fun_induction dropTimesBefore text with
  | case1 c rest _ ih => exact ih.cons_cons '*'
  | case2 c rest _ ih => exact (ih.cons_cons c).cons '*'
  | case3 c rest _ ih => exact ih.cons_cons c
  | case4 => exact .slnil

section Wrapped

variable {p : Char → Bool} (hopening : p '(' = false) (hclosing : p ')' = false)
include hopening hclosing

omit hopening hclosing in
theorem filter_takeWhile_append (text : List Char) :
    (text.takeWhile isLiteral).filter p ++ (text.dropWhile isLiteral).filter p = text.filter p := by
  rw [← List.filter_append, List.takeWhile_append_dropWhile]

/-- Bases are wrapped by adding brackets. -/
theorem filter_wrapBases (text : List Char) : (wrapBases text).filter p = text.filter p := by
  fun_induction wrapBases text with
  | case1 => rfl
  | case2 c rest _ literal _ after h ih =>
    rw [@List.filter_cons _ c rest, ← filter_takeWhile_append rest, h]
    simp [literal, List.filter_cons, hopening, hclosing, ih]
  | case3 c rest _ literal _ _ ih =>
    rw [List.filter_append, ih, List.filter_cons, List.filter_cons,
      ← filter_takeWhile_append rest]
    split <;> rfl
  | case4 c after _ _ ih => simp [List.filter_cons, hopening, hclosing, ih]
  | case5 c after _ _ ih => simp [List.filter_cons, ih]
  | case6 c rest _ _ ih => simp [List.filter_cons, ih]

/-- Exponents are wrapped by adding brackets. -/
theorem filter_wrapExponents (text : List Char) :
    (wrapExponents text).filter p = text.filter p := by
  fun_induction wrapExponents text with
  | case1 c rest _ _ ih =>
    have run := filter_takeWhile_append (p := p) rest
    simp [List.filter_cons, hopening, hclosing, ih, run]
  | case2 c rest _ _ ih => simp [List.filter_cons, hopening, hclosing, ih]
  | case3 c rest _ _ ih => rw [List.filter_cons, ih, ← List.filter_cons]
  | case4 c rest _ ih => rw [List.filter_cons, ih, ← List.filter_cons]
  | case5 => rfl

end Wrapped

theorem occurs_iff_mem_filter {text : List Char} {c : Char} :
    Occurs text c ↔ c ∈ text.filter isVariable := List.mem_filter.symm

/-- The variables of normalized text stand in the text. -/
theorem occurs_of_normalize {text : List Char} {c : Char} (h : Occurs (normalize text) c) :
    Occurs text c := by
  rw [occurs_iff_mem_filter, normalize, filter_wrapExponents (by decide) (by decide),
    filter_wrapBases (by decide) (by decide), ← occurs_iff_mem_filter] at h
  have h := (h.mono (dropTimesBefore_sublist _).subset).mono (dropTimesAfter_sublist _).subset
  exact (occurs_of_respellPowers (occurs_of_respellChar h)).mono (List.filter_subset_self _)

/-! ## Compiled texts -/

/-- **The term of a text is reduced and has the variables of the text.** -/
theorem Yields.reduced {text : List Char} {t : Term (Number R)} (h : Yields R text t) :
    t.Reduced fun m => m.shape.Over (Occurs text) := by
  refine Yields.induction (P := fun text t => t.Reduced fun m => m.shape.Over (Occurs text))
    ?_ ?_ ?_ h
  · exact fun text m _ hm => over_of_compileMonomial hm
  · intro text terms _ hterms
    have closed := Monomial.closed_over (K := Number R) (Occurs text)
    have parts : ∀ t ∈ terms, t.Reduced fun m => m.shape.Over (Occurs text) := by
      intro t ht
      obtain ⟨part, hpart, reduced⟩ := exists_of_forall₂ hterms ht
      exact reduced.mono fun m hm => hm.mono fun c hc => hc.mono (infix_of_mem_splitSum hpart).subset
    cases hsum : Term.sum? terms with
    | none => exact .one
    | some total => exact Term.sum?_induction (fun ht hu => ht.add closed hu) parts hsum
  · intro text powers t _ _ hpowers ht
    have closed := Monomial.closed_over (K := Number R) (Occurs text)
    have parts : ∀ t ∈ powers, t.Reduced fun m => m.shape.Over (Occurs text) := by
      intro t ht
      obtain ⟨x, hx, power⟩ := exists_of_forall₂ hpowers ht
      cases power with
      | numeric _ => exact .one
      | symbolic hbase reduced =>
        refine Term.Reduced.compose closed (reduced.mono fun m hm => hm.mono fun c hc => ?_) _
        exact occurs_of_evaluateFactor hx hbase c hc
    exact Term.product?_induction (fun ht hu => ht.mul closed hu) parts ht

end SamePoly
