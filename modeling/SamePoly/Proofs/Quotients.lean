/-
  Products of numbers.

  A product of numbers is cut at its groups.  What stands behind the last group is nothing, or
  literals that go on from the start or from that group, or a single literal that the group is
  divided by; so each part of the cut is worth a number, and the numbers multiply to the value of
  the product.

  * `Counts`, `Worth`: what a factor is worth, without its exponent and with it.
  * `Cut.AtGroups.exists_isNumber`: the factors that are collected multiply to what the parts of the
    cut are worth.
  * `Arithmetic.Power.exists_towerWorth`: a power is a group with a tower that is worth its value.
  * `Trails`: what stands behind the last group.
  * `IsCut`: a product that is cut into parts which are worth numbers.
  * `Arithmetic.Product.isCut`: **a product is cut at its groups, and what its parts are worth comes
    to its value**.
  * `IsCut.compileMonomial_over`: behind a group a `/` divides by all literals up to the next one.
-/
import SamePoly.Proofs.Clean
import SamePoly.Proofs.Formula.Compilation
import SamePoly.Proofs.Layout

namespace SamePoly

open Arithmetic Token

/-! ## What a factor is worth -/

/-- A factor counts as a number: it has a value, or what is left of it behind a leading `/` has
    one. -/
inductive Counts (factor : List Char) : Number ℚ → Prop
  | whole {base : List Char} {b : Number ℚ} (prepared : ∀ e, prepareFactor factor e = (base, e))
      (numeric : hasVariable base = false) (value : evaluate base = .ok b) : Counts factor b
  | divided {base : List Char} {b : Number ℚ}
      (prepared : ∀ e, prepareFactor factor e = (base, .negated e))
      (numeric : hasVariable base = false) (value : evaluate base = .ok b) (nonzero : b ≠ 0) :
      Counts factor b⁻¹

theorem Counts.unique {factor : List Char} {b c : Number ℚ} (h : Counts factor b)
    (h' : Counts factor c) : b = c := by
  cases h with
  | whole prepared _ value =>
    cases h' with
    | whole prepared' _ value' =>
      obtain ⟨rfl, -⟩ := Prod.mk.inj ((prepared .one).symm.trans (prepared' .one))
      exact Except.ok.inj (value.symm.trans value')
    | divided prepared' _ _ _ => cases (prepared .one).symm.trans (prepared' .one)
  | divided prepared _ value _ =>
    cases h' with
    | whole prepared' _ _ => cases (prepared .one).symm.trans (prepared' .one)
    | divided prepared' _ value' _ =>
      obtain ⟨rfl, -⟩ := Prod.mk.inj ((prepared .one).symm.trans (prepared' .one))
      rw [Except.ok.inj (value.symm.trans value')]

/-- A factor with an exponent is worth a power of what it counts as. -/
def Worth (x : List Char × Exponent) (w : Number ℚ) : Prop :=
  ∃ (b : Number ℚ) (n : ℤ), Counts x.1 b ∧ x.2.Is n ∧ (b ≠ 0 ∨ 0 ≤ n) ∧ w = b ^ n

namespace Worth

variable {factor : List Char} {e f : Exponent} {x : List Char × Exponent} {v w : Number ℚ}

/-- A factor is the number that it is worth. -/
theorem isNumber (h : Worth x w) : IsNumber x w := by
  obtain ⟨b, n, counts, exponent, defined, rfl⟩ := h
  rw [IsNumber]
  cases counts with
  | whole prepared numeric value =>
    rw [evaluateFactor_eq (prepared _) exponent, numeric, if_neg Bool.false_ne_true,
      numericFactor_intCast value defined]
  | @divided base b prepared numeric value nonzero =>
    rw [evaluateFactor_eq (prepared _) exponent.negated, numeric, if_neg Bool.false_ne_true,
      numericFactor_intCast value (.inl nonzero), inv_zpow, zpow_neg]

/-- The exponents of equal factors are added, and what they are worth is multiplied. -/
theorem accumulate (h : Worth (factor, e) v) (h' : Worth (factor, f) w) :
    Worth (factor, e.accumulate f) (v * w) := by
  obtain ⟨b, m, counts, he, defined, rfl⟩ := h
  obtain ⟨c, n, counts', hf, defined', rfl⟩ := h'
  obtain rfl := counts.unique counts'
  by_cases hb : b = 0
  · -- Zero has no negative powers, so nothing is lost when the exponents are added.
    have hm : 0 ≤ m := defined.resolve_left (not_not.2 hb)
    have hn : 0 ≤ n := defined'.resolve_left (not_not.2 hb)
    refine ⟨b, m + n, counts, he.accumulate hf, .inr (by omega), (zpow_add' ?_).symm⟩
    omega
  · exact ⟨b, m + n, counts, he.accumulate hf, .inl hb, (zpow_add₀ hb m n).symm⟩

/-- Behind a `/` a factor is worth the inverse. -/
theorem negated (h : Worth (factor, e) w) (nonzero : w ≠ 0) : Worth (factor, .negated e) w⁻¹ := by
  obtain ⟨b, n, counts, exponent, -, rfl⟩ := h
  refine ⟨b, -n, counts, exponent.negated, ?_, (zpow_neg b n).symm⟩
  by_cases hb : b = 0
  · have zero : n = 0 := by
      by_contra hn
      exact nonzero (by rw [hb, zero_zpow n hn])
    exact .inr (by omega)
  · exact .inl hb

end Worth

/-! ## What a product is worth -/

/-- Factors that are merged are worth the product of what they are worth. -/
theorem exists_worth_push {factors : Factors} {ws : List (Number ℚ)} {factor : List Char}
    {e : Exponent} {w : Number ℚ} (h : List.Forall₂ Worth factors ws) (nonempty : factor ≠ [])
    (hw : Worth (factor, e) w) :
    ∃ vs, List.Forall₂ Worth (factors.push factor e) vs ∧ vs.prod = ws.prod * w := by
  rw [Factors.push, if_neg (by simpa using nonempty)]
  induction h with
  | nil => exact ⟨[w], .cons hw .nil, mul_comm _ _⟩
  | @cons x v factors ws hx rest ih =>
    rw [Factors.push.go]
    split
    · rename_i same
      have same : x.1 = factor := beq_iff_eq.1 same
      refine ⟨v * w :: ws, .cons ?_ rest, ?_⟩
      · subst same
        exact Worth.accumulate hx hw
      · rw [List.prod_cons, List.prod_cons, mul_right_comm]
    · obtain ⟨vs, hvs, product⟩ := ih
      refine ⟨v :: vs, .cons hx hvs, ?_⟩
      rw [List.prod_cons, List.prod_cons, product, mul_assoc]

/-- A contribution to a product, which may be empty, is worth a number. -/
def Adds (x : List Char × Exponent) (w : Number ℚ) : Prop :=
  x.1 = [] ∧ w = 1 ∨ x.1 ≠ [] ∧ Worth x w

/-- What is collected is worth the product of the contributions. -/
theorem exists_worth_foldl {contributions : List (List Char × Exponent)}
    {factors : Factors} {vs ws : List (Number ℚ)} (h : List.Forall₂ Worth factors vs)
    (adds : List.Forall₂ Adds contributions ws) :
    ∃ us, List.Forall₂ Worth
        (contributions.foldl (fun factors x => Factors.push factors x.1 x.2) factors) us ∧
      us.prod = vs.prod * ws.prod := by
  induction adds generalizing factors vs with
  | nil => exact ⟨vs, h, (mul_one _).symm⟩
  | @cons x w contributions ws hx _ ih =>
    rw [List.foldl_cons, List.prod_cons, ← mul_assoc]
    rcases hx with ⟨empty, rfl⟩ | ⟨nonempty, hw⟩
    · rw [Factors.push, if_pos (by simp [empty]), mul_one]
      exact ih h
    · obtain ⟨us, hus, product⟩ := exists_worth_push h nonempty hw
      rw [← product]
      exact ih hus

/-- **The factors of a product that is cut at its groups are numbers**, and their product is that of
    the contributions. -/
theorem Cut.AtGroups.exists_isNumber {cut : Cut} (h : cut.AtGroups) {ws : List (Number ℚ)}
    {w : Number ℚ} (segments : List.Forall₂ Adds (cut.segments.flatMap Segment.contributions) ws)
    (last : Adds (cut.last, .one) w) :
    ∃ zs, List.Forall₂ IsNumber (SamePoly.splitComposition cut.spelling) zs ∧
      zs.prod = ws.prod * w := by
  have all : List.Forall₂ Adds (cut.segments.flatMap Segment.contributions ++ [(cut.last, .one)])
      (ws ++ [w]) := List.rel_append segments (.cons last .nil)
  obtain ⟨zs, hzs, product⟩ := exists_worth_foldl .nil all
  rw [h.splitComposition_eq_foldl, Cut.contributions, foldl_push_filter]
  refine ⟨zs, hzs.imp fun _ _ => Worth.isNumber, ?_⟩
  rw [product, List.prod_nil, one_mul, List.prod_append, List.prod_singleton]

/-! ## Numeric text as a factor -/

/-- Text that is read is not changed before it is evaluated as a factor. -/
theorem Reads.prepareFactor {text : List Char} (h : Reads text) (e : Exponent) :
    SamePoly.prepareFactor text e = (text, e) := by
  have accepted := acceptsText_of_read? h
  rw [SamePoly.prepareFactor.eq_def]
  split
  · cases accepted
  · cases accepted
  · cases accepted
  · rfl

/-- Text with a value counts as it. -/
theorem counts_of_evaluate {text : List Char} {v : Number ℚ} (numeric : hasVariable text = false)
    (value : evaluate text = .ok v) : text ≠ [] ∧ Counts text v := by
  have reads : Reads text := .of_evaluate value
  refine ⟨?_, .whole reads.prepareFactor numeric value⟩
  rintro rfl
  cases acceptsText_of_read? reads

theorem evaluate_tree {s : Arithmetic.Sum} {v : Number ℚ} (lexed : Lexed s.tokens)
    (value : s.value? = some v) : evaluate s.text = .ok v := by
  rw [Sum.evaluate_text lexed, value]

/-- The text of a tree counts as its value. -/
theorem counts_text {s : Arithmetic.Sum} {v : Number ℚ} (lexed : Lexed s.tokens)
    (value : s.value? = some v) : s.text ≠ [] ∧ Counts s.text v :=
  counts_of_evaluate (hasVariable_spelling lexed.valid) (evaluate_tree lexed value)

theorem evaluate_primary {b : Primary} {v : Number ℚ} (lexed : Lexed b.tokens)
    (value : b.value? = some v) : evaluate (spelling b.tokens) = .ok v :=
  evaluate_tree (s := .ofUnary (.signed [] (.plain b))) lexed
    ((Unary.value?_signed_nil (.plain b)).trans value)

/-- Without an exponent a factor is worth what it counts as. -/
theorem Counts.worth {factor : List Char} {b : Number ℚ} (h : Counts factor b) :
    Worth (factor, .one) b :=
  ⟨b, 1, h, Exponent.is_one, .inr zero_le_one, (zpow_one b).symm⟩

/-- A group with a tower, as it is spelled and what it is worth. -/
structure TowerWorth (text : List Char) (w : Number ℚ) (inside : List Char)
    (tower : Option (List Char)) : Prop where
  nonempty : inside ≠ []
  balanced : Balanced inside
  links : ∀ e ∈ tower, GroupTower e
  spelled : text = '(' :: (inside ++ ')' :: tower.elim [] ('^' :: ·))
  worth : Worth (inside, tower.elim .one .literal) w

/-- A group without a tower. -/
theorem towerWorth_group {s : Arithmetic.Sum} {w : Number ℚ} (lexed : Lexed s.tokens)
    (value : s.value? = some w) : TowerWorth (spelling (Primary.group s).tokens) w s.text none := by
  obtain ⟨nonempty, counts⟩ := counts_text lexed value
  exact ⟨nonempty, Sum.balanced_text lexed, nofun, Primary.spelling_group s, counts.worth⟩

/-- **A power that ends in a group is a tower** that is worth its value, if the exponent is an
    integer. -/
theorem Arithmetic.Power.exists_towerWorth {q : Power} {w : Number ℚ} (lexed : Lexed q.tokens)
    (chain : (spelling q.tokens).IsChain Abuts) (integral : q.IsIntegral)
    (group : q.isGroup = true) (value : q.value? = some w) :
    ∃ inside tower, TowerWorth (spelling q.tokens) w inside tower := by
  obtain ⟨s, lexedGroup, rfl | ⟨e, rfl, lexedExponent, tower⟩⟩ :=
    Power.exists_tower lexed chain group
  · exact ⟨s.text, none, towerWorth_group lexedGroup value⟩
  · obtain ⟨n, exponent⟩ := integral
    rw [Power.value?, Primary.value?, exponent] at value
    cases base : (s.value? : Option (Number ℚ)) with
    | none =>
      rw [base] at value
      cases value
    | some b =>
      rw [base] at value
      have value : b.power? (.ofReal n) = some w := value
      rw [Number.power?_intCast] at value
      obtain ⟨nonempty, counts⟩ := counts_text lexedGroup base
      have tree : (Sum.ofUnary e).value? = some (Number.ofReal (n : ℚ)) := exponent
      have evaluated : evaluate (spelling e.tokens) = .ok (Number.ofReal (n : ℚ)) := by
        have read := Sum.evaluate_text (R := ℚ) (s := .ofUnary e) lexedExponent
        rwa [tree] at read
      have is : (Exponent.literal (spelling e.tokens)).Is n :=
        ⟨hasVariable_spelling lexedExponent.valid, evaluated⟩
      refine ⟨s.text, some (spelling e.tokens), nonempty, Sum.balanced_text lexedGroup, ?_, ?_, ?_⟩
      · rintro _ ⟨⟩
        exact tower
      · rw [Power.spelling_raised, Primary.spelling_group]
        simp
      · split at value
        · cases value
        · rename_i defined
          refine ⟨b, n, counts, is, ?_, (Option.some.inj value).symm⟩
          by_contra undefined
          rw [not_or, not_not, not_le] at undefined
          exact defined undefined

/-! ## The cut of a product -/

/-- What stands behind the last group of a product with the given tokens, and what it is worth. -/
def Trails (tokens : List Token) (stretch : List Char) (w : Number ℚ) : Ending → Prop
  | .group => stretch = [] ∧ w = 1
  | .stretch => ∃ q : Product, q.tokens <:+ tokens ∧ spelling q.tokens = stretch ∧ q.value? = some w
  | .quotient => ∃ b : Primary, b.tokens <:+ tokens ∧ '/' :: spelling b.tokens = stretch ∧
      ∃ v, b.value? = some v ∧ v ≠ 0 ∧ w = v⁻¹

/-- The last stretch of a product adds what it is worth. -/
theorem Trails.adds {tokens : List Token} {stretch : List Char} {w : Number ℚ} {ending : Ending}
    (h : Trails tokens stretch w ending) (lexed : Lexed tokens) : Adds (stretch, .one) w := by
  cases ending with
  | group => exact .inl h
  | stretch =>
    obtain ⟨q, part, rfl, value⟩ := h
    obtain ⟨nonempty, counts⟩ :=
      counts_text (s := .single q) (lexed.of_isInfix part.isInfix) value
    exact .inr ⟨nonempty, counts.worth⟩
  | quotient =>
    obtain ⟨b, part, rfl, v, value, nonzero, rfl⟩ := h
    have lexed : Lexed b.tokens := lexed.of_isInfix part.isInfix
    have counts : Counts ('/' :: spelling b.tokens) v⁻¹ := .divided (fun _ => rfl)
      (hasVariable_spelling lexed.valid) (evaluate_primary lexed value) nonzero
    exact .inr ⟨List.cons_ne_nil _ _, counts.worth⟩

/-- The last stretch of a product does not end in an operator. -/
theorem Trails.ends {tokens : List Token} {stretch : List Char} {w : Number ℚ} {ending : Ending}
    (h : Trails tokens stretch w ending) (lexed : Lexed tokens) :
    ∀ c ∈ stretch.getLast?, (kind c).isOperator = false := by
  cases ending with
  | group =>
    rw [h.1]
    exact fun c hc => by cases hc
  | stretch =>
    obtain ⟨q, part, rfl, -⟩ := h
    have reads := Sum.reads (s := .single q) (lexed.of_isInfix part.isInfix)
    exact ends_of_acceptsText (acceptsText_of_read? reads)
  | quotient =>
    obtain ⟨b, part, rfl, v, value, -⟩ := h
    have lexed : Lexed b.tokens := lexed.of_isInfix part.isInfix
    have reads : Reads (spelling b.tokens) := .of_evaluate (evaluate_primary lexed value)
    obtain ⟨c, text, starts⟩ := Token.exists_spelling lexed b.tokens_ne_nil
    rw [starts] at reads ⊢
    rw [List.getLast?_cons_cons]
    exact ends_of_acceptsText (acceptsText_of_read? reads)

/-! ### Steps -/

/-- A product is cut at its groups, and what its parts are worth comes to `m`. -/
def IsCut (tokens : List Token) (ending : Ending) (m : Number ℚ) : Prop :=
  ∃ (cut : Cut) (ws : List (Number ℚ)) (w : Number ℚ), cut.AtGroups ∧
    cut.spelling = spelling tokens ∧
    List.Forall₂ Adds (cut.segments.flatMap Segment.contributions) ws ∧
    Trails tokens cut.last w ending ∧ ws.prod * w = m

/-- A product that is cut at its groups is compiled to what it is worth. -/
theorem IsCut.compileMonomial {tokens : List Token} {ending : Ending} {m : Number ℚ}
    (h : IsCut tokens ending m) (lexed : Lexed tokens) :
    SamePoly.compileMonomial ℚ (spelling tokens) = .ok (.new m .one) := by
  obtain ⟨cut, ws, w, groups, spelled, segments, trails, rfl⟩ := h
  obtain ⟨zs, hzs, product⟩ := groups.exists_isNumber segments (trails.adds lexed)
  rw [spelled] at hzs
  rw [← product, compileMonomial_of_isNumber (hasVariable_spelling lexed.valid) hzs]

/-- A product that ends in a group ends in a bracket. -/
theorem IsCut.getLast? {tokens : List Token} {m : Number ℚ} (h : IsCut tokens .group m) :
    ∀ c ∈ (spelling tokens).getLast?, c = ')' := by
  obtain ⟨⟨segments, last⟩, ws, w, groups, spelled, -, ⟨rfl, -⟩, -⟩ := h
  rw [← spelled, Cut.spelling, List.append_nil]
  exact Segment.getLast?_spellings groups.segments

variable {tokens tokens' : List Token} {ending ending' : Ending} {m r w : Number ℚ}
  {stretch text inside : List Char} {tower : Option (List Char)}

/-- A further group, with a stretch in front of it. -/
theorem isCut_group (segments : List Segment) (stretch : List Char) {ws : List (Number ℚ)}
    (groups : ∀ s ∈ segments, s.AtGroup)
    (adds : List.Forall₂ Adds (segments.flatMap Segment.contributions) ws)
    (plain : ∀ c ∈ stretch, c ≠ '(' ∧ c ≠ ')' ∧ c ≠ '^')
    (lead : Adds (withoutJoint stretch, .one) r) (group : TowerWorth text w inside tower)
    {v : Number ℚ} (worth : Worth (inside, (Segment.mk stretch inside tower).exponent) v)
    (spelled : spelling tokens = Segment.spellings segments ++ (stretch ++ text)) :
    IsCut tokens .group (ws.prod * r * v) := by
  refine ⟨⟨segments ++ [⟨stretch, inside, tower⟩], []⟩, ws ++ [r, v], 1, ⟨?_, nofun⟩, ?_, ?_,
    ⟨rfl, rfl⟩, ?_⟩
  · refine List.forall_mem_append.2 ⟨groups, List.forall_mem_singleton.2 ?_⟩
    exact ⟨plain, group.balanced, group.links⟩
  · rw [Cut.spelling, List.append_nil, Segment.spellings_concat, spelled, group.spelled]
    rfl
  · rw [List.flatMap_append, List.flatMap_singleton]
    refine List.rel_append adds (.cons lead (.cons (.inr ⟨group.nonempty, worth⟩) .nil))
  · rw [List.prod_append, List.prod_cons, List.prod_singleton, mul_one, mul_assoc]

/-- An operator in front of a group is no part of the stretch. -/
theorem withoutJoint_concat {c : Char} (hc : c = '*' ∨ c = '/') (stretch : List Char) :
    withoutJoint (stretch ++ [c]) = stretch := by
  rw [withoutJoint, List.getLast?_concat, List.dropLast_concat, if_pos]
  exact hc.imp (congrArg some) (congrArg some)

theorem withoutJoint_eq_self (h : ∀ c ∈ stretch.getLast?, (kind c).isOperator = false) :
    withoutJoint stretch = stretch := by
  rw [withoutJoint, if_neg]
  rintro (last | last) <;> cases h _ last

/-- Only a group behind a `/` has its exponent negated. -/
theorem exponent_of_ne (h : stretch.getLast? ≠ some '/') (inside : List Char)
    (tower : Option (List Char)) :
    (Segment.mk stretch inside tower).exponent = tower.elim .one .literal := by
  rw [Segment.exponent, if_neg h]

theorem plain_concat {c : Char} (h : ∀ d ∈ stretch, d ≠ '(' ∧ d ≠ ')' ∧ d ≠ '^')
    (hc : c ≠ '(' ∧ c ≠ ')' ∧ c ≠ '^') : ∀ d ∈ stretch ++ [c], d ≠ '(' ∧ d ≠ ')' ∧ d ≠ '^' :=
  List.forall_mem_append.2 ⟨h, List.forall_mem_singleton.2 hc⟩

namespace IsCut

/-- A group that follows without an operator. -/
theorem beside_group (h : IsCut tokens ending m) (lexed : Lexed tokens)
    (group : TowerWorth text w inside tower)
    (spelled : spelling tokens' = spelling tokens ++ text) : IsCut tokens' .group (m * w) := by
  obtain ⟨⟨segments, last⟩, ws, r, groups, spelledFirst, adds, trails, rfl⟩ := h
  have ends := trails.ends lexed
  refine isCut_group segments last groups.segments adds groups.last ?_ group ?_ ?_
  · rw [withoutJoint_eq_self ends]
    exact trails.adds lexed
  · rw [exponent_of_ne fun slash => by cases ends _ slash]
    exact group.worth
  · rw [spelled, ← spelledFirst, Cut.spelling, List.append_assoc]

/-- A product times a group. -/
theorem times_group (h : IsCut tokens ending m) (lexed : Lexed tokens)
    (group : TowerWorth text w inside tower)
    (spelled : spelling tokens' = spelling tokens ++ '*' :: text) :
    IsCut tokens' .group (m * w) := by
  obtain ⟨⟨segments, last⟩, ws, r, groups, spelledFirst, adds, trails, rfl⟩ := h
  refine isCut_group segments (last ++ ['*']) groups.segments adds
    (plain_concat groups.last (by decide)) ?_ group ?_ ?_
  · rw [withoutJoint_concat (.inl rfl)]
    exact trails.adds lexed
  · rw [exponent_of_ne (by rw [List.getLast?_concat]; decide)]
    exact group.worth
  · rw [spelled, ← spelledFirst, Cut.spelling]
    simp

/-- A product divided by a group. -/
theorem over_group (h : IsCut tokens ending m) (lexed : Lexed tokens)
    (group : TowerWorth text w inside tower) (nonzero : w ≠ 0)
    (spelled : spelling tokens' = spelling tokens ++ '/' :: text) :
    IsCut tokens' .group (m * w⁻¹) := by
  obtain ⟨⟨segments, last⟩, ws, r, groups, spelledFirst, adds, trails, rfl⟩ := h
  refine isCut_group segments (last ++ ['/']) groups.segments adds
    (plain_concat groups.last (by decide)) ?_ group ?_ ?_
  · rw [withoutJoint_concat (.inr rfl)]
    exact trails.adds lexed
  · rw [Segment.exponent, if_pos List.getLast?_concat]
    exact group.worth.negated nonzero
  · rw [spelled, ← spelledFirst, Cut.spelling]
    simp

/-- The last stretch goes on. -/
theorem extend {more : List Char} (h : IsCut tokens ending m)
    (plain : ∀ c ∈ more, c ≠ '(' ∧ c ≠ ')' ∧ c ≠ '^')
    (spelled : spelling tokens' = spelling tokens ++ more)
    (trails : ∀ stretch r, Trails tokens stretch r ending →
      Trails tokens' (stretch ++ more) (r * w) ending') : IsCut tokens' ending' (m * w) := by
  obtain ⟨⟨segments, last⟩, ws, r, groups, spelledFirst, adds, trailsFirst, rfl⟩ := h
  refine ⟨⟨segments, last ++ more⟩, ws, r * w, ⟨groups.segments, ?_⟩, ?_, adds,
    trails last r trailsFirst, (mul_assoc _ _ _).symm⟩
  · exact List.forall_mem_append.2 ⟨groups.last, plain⟩
  · rw [spelled, ← spelledFirst, Cut.spelling, Cut.spelling, List.append_assoc]

end IsCut

/-! ### Literals -/

variable {b : Primary} {v : Number ℚ}

namespace Trails

/-- A literal behind a group starts a stretch. -/
theorem beside_of_group (h : Trails tokens stretch r .group) (value : b.value? = some v) :
    Trails (tokens ++ b.tokens) (stretch ++ spelling b.tokens) (r * v) .stretch := by
  obtain ⟨rfl, rfl⟩ := h
  refine ⟨.single (.signed [] (.plain b)), List.suffix_append _ _, rfl, ?_⟩
  rw [one_mul]
  exact (Unary.value?_signed_nil (.plain b)).trans value

/-- A literal goes on with a stretch. -/
theorem beside_of_stretch (h : Trails tokens stretch r .stretch) (value : b.value? = some v) :
    Trails (tokens ++ b.tokens) (stretch ++ spelling b.tokens) (r * v) .stretch := by
  obtain ⟨q, part, rfl, hq⟩ := h
  refine ⟨.beside q (.plain b), List.suffix_append_self_iff.2 part, spelling_append _ _, ?_⟩
  rw [Product.value?, hq, Power.value?, value]
  rfl

theorem times_of_stretch (h : Trails tokens stretch r .stretch) (value : b.value? = some v) :
    Trails (tokens ++ .times :: b.tokens) (stretch ++ '*' :: spelling b.tokens) (r * v)
      .stretch := by
  obtain ⟨q, part, rfl, hq⟩ := h
  refine ⟨.times q (.signed [] (.plain b)), List.suffix_append_self_iff.2 part,
    spelling_append _ _, ?_⟩
  rw [Product.value?, hq, Unary.value?_signed_nil, Power.value?, value]
  rfl

theorem over_of_stretch (h : Trails tokens stretch r .stretch) (value : b.value? = some v)
    (nonzero : v ≠ 0) :
    Trails (tokens ++ .over :: b.tokens) (stretch ++ '/' :: spelling b.tokens) (r * v⁻¹)
      .stretch := by
  obtain ⟨q, part, rfl, hq⟩ := h
  refine ⟨.over q (.signed [] (.plain b)), List.suffix_append_self_iff.2 part,
    spelling_append _ _, ?_⟩
  rw [Product.value?, hq, Unary.value?_signed_nil, Power.value?, value]
  show r.divide? v = _
  rw [Number.divide?_eq, if_neg nonzero, div_eq_mul_inv]

/-- A division of a group by a literal. -/
theorem over_of_group (h : Trails tokens stretch r .group) (value : b.value? = some v)
    (nonzero : v ≠ 0) :
    Trails (tokens ++ .over :: b.tokens) (stretch ++ '/' :: spelling b.tokens) (r * v⁻¹)
      .quotient := by
  obtain ⟨rfl, rfl⟩ := h
  refine ⟨b, (List.suffix_cons _ _).trans (List.suffix_append _ _), rfl, v, value, nonzero, ?_⟩
  exact one_mul _

end Trails

/-! ### The whole product -/

/-- The symbols of a literal. -/
theorem plain_literal (lexed : Lexed b.tokens) (literal : b.isGroup = false) :
    ∀ c ∈ spelling b.tokens, c ≠ '(' ∧ c ≠ ')' ∧ c ≠ '^' := fun _ hc =>
  ⟨Primary.ne_of_mem_literal lexed literal hc (by decide),
    Primary.ne_of_mem_literal lexed literal hc (by decide),
    Primary.ne_of_mem_literal lexed literal hc (by decide)⟩

/-- A sign counts as one or minus one. -/
theorem counts_sign (sign : Sign) : Counts sign.token.text (Sign.unit [sign]) := by
  let one : Power := .plain (.number ⟨['1'], none⟩)
  have value : (one.value? : Option (Number ℚ)) = some 1 := by decide +kernel
  have signed : ((Unary.signed [sign] one).value? : Option (Number ℚ)) =
      some (Sign.unit [sign]) := by
    rw [Unary.value?_signed, value, Option.map_some, mul_one]
  cases sign with
  | plus =>
    have prepared (e : Exponent) : prepareFactor ['+'] e = (['+', '1'], e) := rfl
    exact .whole prepared rfl
      (evaluate_tree (s := .ofUnary (.signed [.plus] one)) (by decide) signed)
  | minus =>
    have prepared (e : Exponent) : prepareFactor ['-'] e = (['-', '1'], e) := rfl
    exact .whole prepared rfl
      (evaluate_tree (s := .ofUnary (.signed [.minus] one)) (by decide) signed)

/-- The signs in front of a group are a factor. -/
theorem adds_signs {signs : List Sign} (few : signs = [] ∨ ∃ sign, signs = [sign]) :
    (∀ c ∈ spelling (signs.map Sign.token), c ≠ '(' ∧ c ≠ ')' ∧ c ≠ '^') ∧
      (spelling (signs.map Sign.token)).getLast? ≠ some '/' ∧
      Adds (withoutJoint (spelling (signs.map Sign.token)), .one) (Sign.unit signs) := by
  rcases few with rfl | ⟨sign, rfl⟩
  · exact ⟨nofun, nofun, .inl ⟨rfl, rfl⟩⟩
  · have worth := (counts_sign sign).worth
    cases sign with
    | plus => exact ⟨List.forall_mem_singleton.2 (by decide), by decide, .inr ⟨by decide, worth⟩⟩
    | minus => exact ⟨List.forall_mem_singleton.2 (by decide), by decide, .inr ⟨by decide, worth⟩⟩

/-- The first factor of a product. -/
theorem isCut_single {signs : List Sign} {q : Power} (lexed : Lexed (Unary.signed signs q).tokens)
    (chain : (spelling (Unary.signed signs q).tokens).IsChain Abuts)
    (few : signs = [] ∨ ∃ sign, signs = [sign]) (integral : q.IsIntegral)
    (value : (Unary.signed signs q).value? = some m) :
    IsCut (Unary.signed signs q).tokens (Product.single (.signed signs q)).ending m := by
  have spelled : spelling (Unary.signed signs q).tokens =
      spelling (signs.map Sign.token) ++ spelling q.tokens := spelling_append _ _
  obtain ⟨plain, slash, adds⟩ := adds_signs few
  have lexedPower : Lexed q.tokens := lexed.of_append.2
  cases group : q.isGroup with
  | true =>
    rw [Unary.value?_signed] at value
    obtain ⟨w, hw, rfl⟩ := Option.map_eq_some_iff.1 value
    obtain ⟨inside, tower, spec⟩ :=
      Power.exists_towerWorth lexedPower (spelled ▸ chain).right_of_append integral group hw
    rw [Product.ending, Unary.isGroup, group, if_pos rfl, ← one_mul (Sign.unit signs)]
    refine isCut_group [] _ (List.forall_mem_nil _) .nil plain adds spec ?_ spelled
    rw [exponent_of_ne slash]
    exact spec.worth
  | false =>
    obtain ⟨b, literal, rfl⟩ := Power.exists_literal group
    rw [Product.ending, Unary.isGroup, group, if_neg Bool.false_ne_true]
    have symbols := List.forall_mem_append.2 ⟨plain, plain_literal lexedPower literal⟩
    have value : (Product.single (.signed signs (.plain b))).value? = some m := value
    exact ⟨⟨[], spelling (Unary.signed signs (.plain b)).tokens⟩, [], m,
      ⟨List.forall_mem_nil _, spelled ▸ symbols⟩, rfl, .nil, ⟨_, List.suffix_rfl, rfl, value⟩,
      one_mul m⟩

variable {p : Product} {q : Power}

/-- A further factor without an operator. -/
theorem IsCut.beside (first : IsCut p.tokens p.ending m) (lexed : Lexed (Product.beside p q).tokens)
    (chain : (spelling (Product.beside p q).tokens).IsChain Abuts) (integral : q.IsIntegral)
    (apart : (q.isGroup || p.ending != .quotient) = true) (value : q.value? = some w) :
    IsCut (Product.beside p q).tokens (Product.beside p q).ending (m * w) := by
  obtain ⟨lexedFirst, lexedLast⟩ := lexed.of_append
  have spelled := Product.spelling_beside p q
  cases group : q.isGroup with
  | true =>
    obtain ⟨inside, tower, spec⟩ :=
      Power.exists_towerWorth lexedLast (spelled ▸ chain).right_of_append integral group value
    rw [Product.ending, group, if_pos rfl]
    exact first.beside_group lexedFirst spec spelled
  | false =>
    obtain ⟨b, literal, rfl⟩ := Power.exists_literal group
    rw [Product.ending, group, if_neg Bool.false_ne_true]
    refine first.extend (plain_literal lexedLast literal) spelled fun stretch r trails => ?_
    cases ending : p.ending with
    | group => exact (ending ▸ trails).beside_of_group value
    | stretch => exact (ending ▸ trails).beside_of_stretch value
    | quotient =>
      rw [group, ending] at apart
      cases apart

/-- A further factor behind a multiplication sign. -/
theorem IsCut.times (first : IsCut p.tokens p.ending m)
    (lexed : Lexed (Product.times p (.signed [] q)).tokens)
    (chain : (spelling (Product.times p (.signed [] q)).tokens).IsChain Abuts)
    (integral : q.IsIntegral) (apart : (q.isGroup || p.ending != .quotient) = true)
    (value : q.value? = some w) :
    IsCut (Product.times p (.signed [] q)).tokens (Product.times p (.signed [] q)).ending
      (m * w) := by
  obtain ⟨lexedFirst, lexedLast⟩ := lexed.of_append_cons
  have spelled : spelling (Product.times p (.signed [] q)).tokens =
      spelling p.tokens ++ '*' :: spelling q.tokens := Product.spelling_times p (.signed [] q)
  rw [spelled] at chain
  cases group : q.isGroup with
  | true =>
    obtain ⟨inside, tower, spec⟩ :=
      Power.exists_towerWorth lexedLast chain.right_of_append.tail integral group value
    rw [Product.ending, Unary.isGroup, group, if_pos rfl]
    exact first.times_group lexedFirst spec spelled
  | false =>
    obtain ⟨b, literal, rfl⟩ := Power.exists_literal group
    rw [Product.ending, Unary.isGroup, group, if_neg Bool.false_ne_true]
    have plain : ∀ c ∈ '*' :: spelling (Power.plain b).tokens, c ≠ '(' ∧ c ≠ ')' ∧ c ≠ '^' :=
      List.forall_mem_cons.2 ⟨by decide, plain_literal lexedLast literal⟩
    refine first.extend plain spelled fun stretch r trails => ?_
    cases ending : p.ending with
    | group =>
      -- No multiplication sign stands behind a bracket.
      have first : IsCut p.tokens .group m := ending ▸ first
      obtain ⟨d, last⟩ := Token.exists_getLast?_spelling lexedFirst p.tokens_ne_nil
      have digit : d.isDigit = true := ((neighbours_of_isChain _ chain).1 d last).before rfl
      rw [first.getLast? d last] at digit
      cases digit
    | stretch => exact (ending ▸ trails).times_of_stretch value
    | quotient =>
      rw [group, ending] at apart
      cases apart

/-- A division by a further factor. -/
theorem IsCut.over (first : IsCut p.tokens p.ending m)
    (lexed : Lexed (Product.over p (.signed [] q)).tokens)
    (chain : (spelling (Product.over p (.signed [] q)).tokens).IsChain Abuts)
    (integral : q.IsIntegral) (apart : (q.isGroup || p.ending != .quotient) = true)
    (value : q.value? = some w) (nonzero : w ≠ 0) :
    IsCut (Product.over p (.signed [] q)).tokens (Product.over p (.signed [] q)).ending
      (m * w⁻¹) := by
  obtain ⟨lexedFirst, lexedLast⟩ := lexed.of_append_cons
  have spelled : spelling (Product.over p (.signed [] q)).tokens =
      spelling p.tokens ++ '/' :: spelling q.tokens := Product.spelling_over p (.signed [] q)
  rw [spelled] at chain
  cases group : q.isGroup with
  | true =>
    obtain ⟨inside, tower, spec⟩ :=
      Power.exists_towerWorth lexedLast chain.right_of_append.tail integral group value
    rw [Product.ending, Unary.isGroup, group, if_pos rfl]
    exact first.over_group lexedFirst spec nonzero spelled
  | false =>
    obtain ⟨b, literal, rfl⟩ := Power.exists_literal group
    rw [Product.ending, Unary.isGroup, group, if_neg Bool.false_ne_true]
    have plain : ∀ c ∈ '/' :: spelling (Power.plain b).tokens, c ≠ '(' ∧ c ≠ ')' ∧ c ≠ '^' :=
      List.forall_mem_cons.2 ⟨by decide, plain_literal lexedLast literal⟩
    refine first.extend plain spelled fun stretch r trails => ?_
    cases ending : p.ending with
    | group => exact (ending ▸ trails).over_of_group value nonzero
    | stretch => exact (ending ▸ trails).over_of_stretch value nonzero
    | quotient =>
      rw [group, ending] at apart
      cases apart

/-- **A product is cut at its groups**, and what its parts are worth comes to its value, if the
    exponents outside brackets are integers and literals that groups are divided by stand alone. -/
theorem Arithmetic.Product.isCut {p : Product} {m : Number ℚ} (lexed : Lexed p.tokens)
    (chain : (spelling p.tokens).IsChain Abuts) (integral : p.IsIntegral)
    (separated : p.isSeparated = true) (value : p.value? = some m) :
    IsCut p.tokens p.ending m := by
  match p with
  | .single (.signed signs q) =>
    exact isCut_single lexed chain (Product.signs_cases chain) integral value
  | .beside p q =>
    rw [Product.isSeparated, Bool.and_eq_true] at separated
    rw [Product.value?] at value
    obtain ⟨m, hm, value⟩ := Option.bind_eq_some_iff.1 value
    obtain ⟨w, hw, ⟨⟩⟩ := Option.bind_eq_some_iff.1 value
    have neighbours := Product.spelling_beside p q ▸ chain
    exact (Product.isCut lexed.of_append.1 neighbours.left_of_append integral.1 separated.1
      hm).beside lexed chain integral.2 separated.2 hw
  | .times p (.signed signs q) =>
    have neighbours := Product.spelling_times p (.signed signs q) ▸ chain
    obtain rfl := Unary.unsigned_behind rfl neighbours.right_of_append
    rw [Product.isSeparated, Bool.and_eq_true] at separated
    rw [Product.value?, Unary.value?_signed_nil] at value
    obtain ⟨m, hm, value⟩ := Option.bind_eq_some_iff.1 value
    obtain ⟨w, hw, ⟨⟩⟩ := Option.bind_eq_some_iff.1 value
    exact (Product.isCut lexed.of_append_cons.1 neighbours.left_of_append integral.1 separated.1
      hm).times lexed chain integral.2 separated.2 hw
  | .over p (.signed signs q) =>
    have neighbours := Product.spelling_over p (.signed signs q) ▸ chain
    obtain rfl := Unary.unsigned_behind rfl neighbours.right_of_append
    rw [Product.isSeparated, Bool.and_eq_true] at separated
    rw [Product.value?, Unary.value?_signed_nil] at value
    obtain ⟨m, hm, value⟩ := Option.bind_eq_some_iff.1 value
    obtain ⟨w, hw, value⟩ := Option.bind_eq_some_iff.1 value
    rw [Number.divide?_eq] at value
    split at value
    · cases value
    · rename_i nonzero
      cases value
      rw [div_eq_mul_inv]
      exact (Product.isCut lexed.of_append_cons.1 neighbours.left_of_append integral.1 separated.1
        hm).over lexed chain integral.2 separated.2 hw nonzero

/-! ### Literals behind a group -/

/-- A group is cut out as a whole. -/
theorem isCut_of_group {s : Arithmetic.Sum} (lexed : Lexed s.tokens) (value : s.value? = some w) :
    IsCut (Primary.group s).tokens .group w := by
  have spec := towerWorth_group lexed value
  have cut := isCut_group [] [] (List.forall_mem_nil _) .nil (List.forall_mem_nil _)
    (.inl ⟨rfl, rfl⟩) spec spec.worth rfl
  rwa [List.prod_nil, one_mul, one_mul] at cut

/-- **Behind a group all literals up to the next one are one factor**, so a `/` in front of them
    divides by their product. -/
theorem IsCut.compileMonomial_over (h : IsCut tokens .group m) (lexed : Lexed tokens) {p : Product}
    (literals : ∀ c ∈ spelling p.tokens, c ≠ '(' ∧ c ≠ ')' ∧ c ≠ '^') (lexedLast : Lexed p.tokens)
    (value : p.value? = some w) (nonzero : w ≠ 0) :
    SamePoly.compileMonomial ℚ (spelling (tokens ++ .over :: p.tokens)) =
      .ok (.new (m * w⁻¹) .one) := by
  obtain ⟨⟨segments, last⟩, ws, r, groups, spelled, adds, ⟨rfl, rfl⟩, rfl⟩ := h
  have quotient : Counts ('/' :: spelling p.tokens) w⁻¹ := .divided (fun _ => rfl)
    (hasVariable_spelling lexedLast.valid) (evaluate_tree (s := .single p) lexedLast value) nonzero
  have cut : Cut.AtGroups ⟨segments, '/' :: spelling p.tokens⟩ :=
    ⟨groups.segments, List.forall_mem_cons.2 ⟨by decide, literals⟩⟩
  obtain ⟨zs, hzs, product⟩ :=
    cut.exists_isNumber adds (.inr ⟨List.cons_ne_nil _ _, quotient.worth⟩)
  have whole : Cut.spelling ⟨segments, '/' :: spelling p.tokens⟩ =
      spelling (tokens ++ .over :: p.tokens) := by
    rw [spelling_append, ← spelled, Cut.spelling, Cut.spelling, List.append_nil]
    rfl
  have valid : ∀ t ∈ tokens ++ .over :: p.tokens, t.Valid :=
    List.forall_mem_append.2 ⟨lexed.valid, List.forall_mem_cons.2 ⟨trivial, lexedLast.valid⟩⟩
  rw [compileMonomial_of_isNumber (hasVariable_spelling valid) (whole ▸ hzs), product, mul_one]

end SamePoly
