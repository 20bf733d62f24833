/-
  Spaces in a text.

  Every check passes over spaces, and normalization takes them out first of all.  So they matter in
  one place only: two multiplication signs are a power if they stand side by side, and two signs if
  there are spaces between them.

  * `withoutSpaces`: a text without its spaces.
  * `StarsTogether`: no two multiplication signs have nothing but spaces between them.
  * `operandBefore_withoutSpaces`, `operandAfter_withoutSpaces`: operands are found in spite of
    spaces.
  * `WellFormed.withoutSpaces`: spaces may be taken out of well-formed text.
  * `parse_withoutSpaces`: **the polynomial of a text is that of the text without its spaces**, if
    one is accepted without them, which is sure if no multiplication signs come together.
-/
import SamePoly.Proofs.Construction
import SamePoly.Proofs.Sites

namespace SamePoly

variable {text rest before after : List Char} {c : Char} {p : Char → Bool}

/-! ## Text without spaces -/

/-- A text without its spaces. -/
def withoutSpaces (text : List Char) : List Char := text.filter (· != ' ')

@[simp] theorem withoutSpaces_nil : withoutSpaces [] = [] := rfl

@[simp] theorem withoutSpaces_space (text : List Char) :
    withoutSpaces (' ' :: text) = withoutSpaces text := rfl

@[simp] theorem withoutSpaces_cons (hc : c ≠ ' ') (text : List Char) :
    withoutSpaces (c :: text) = c :: withoutSpaces text := by
  rw [withoutSpaces, List.filter_cons, if_pos (by simpa using hc)]
  rfl

@[simp] theorem withoutSpaces_append (text rest : List Char) :
    withoutSpaces (text ++ rest) = withoutSpaces text ++ withoutSpaces rest := List.filter_append ..

theorem withoutSpaces_reverse (text : List Char) :
    withoutSpaces text.reverse = (withoutSpaces text).reverse := List.filter_reverse ..

theorem mem_withoutSpaces : c ∈ withoutSpaces text ↔ c ∈ text ∧ c ≠ ' ' := by
  rw [withoutSpaces, List.mem_filter, bne_iff_ne]

theorem Spaces.withoutSpaces (h : Spaces text) : SamePoly.withoutSpaces text = [] :=
  List.filter_eq_nil_iff.2 fun c hc => by simp [h c hc]

/-- A run of symbols that may be spaces is found without them. -/
theorem dropWhile_withoutSpaces (hp : p ' ' = true) (text : List Char) :
    (withoutSpaces text).dropWhile p = withoutSpaces (text.dropWhile p) := by
  induction text with
  | nil => rfl
  | cons c text ih =>
    by_cases space : c = ' '
    · subst space
      rw [withoutSpaces_space, List.dropWhile_cons, if_pos hp, ih]
    · rw [withoutSpaces_cons space, List.dropWhile_cons, List.dropWhile_cons]
      split
      · exact ih
      · rw [withoutSpaces_cons space]

theorem takeWhile_withoutSpaces (hp : p ' ' = true) (text : List Char) :
    (withoutSpaces text).takeWhile p = withoutSpaces (text.takeWhile p) := by
  have parts : (withoutSpaces text).takeWhile p ++ withoutSpaces (text.dropWhile p) =
      withoutSpaces (text.takeWhile p) ++ withoutSpaces (text.dropWhile p) := by
    rw [← withoutSpaces_append, ← dropWhile_withoutSpaces hp, List.takeWhile_append_dropWhile,
      List.takeWhile_append_dropWhile]
  exact List.append_cancel_right parts

/-- What is ahead is the first symbol without spaces. -/
theorem head?_withoutSpaces (text : List Char) : (withoutSpaces text).head? = ahead text := by
  induction text with
  | nil => rfl
  | cons c text ih =>
    by_cases space : c = ' '
    · rw [space, withoutSpaces_space, ih, ahead_space]
    · rw [withoutSpaces_cons space, ahead_cons space]
      rfl

theorem ahead_withoutSpaces (text : List Char) : ahead (withoutSpaces text) = ahead text := by
  rw [← head?_withoutSpaces, withoutSpaces, withoutSpaces, List.filter_filter]
  simp only [Bool.and_self]
  exact head?_withoutSpaces text

theorem hasVariable_withoutSpaces (text : List Char) :
    hasVariable (withoutSpaces text) = hasVariable text := by
  induction text with
  | nil => rfl
  | cons c text ih =>
    by_cases space : c = ' '
    · rw [space]
      exact ih
    · rw [withoutSpaces_cons space, hasVariable, List.any_cons, ← hasVariable, ih]
      rfl

/-- **Normalized text does not depend on spaces.** -/
theorem normalize_withoutSpaces (text : List Char) :
    normalize (withoutSpaces text) = normalize text := by
  rw [normalize, normalize, respell, respell, withoutSpaces, List.filter_filter]
  simp only [Bool.and_self]

theorem deepest_withoutSpaces (depth : ℕ) (text : List Char) :
    deepest depth (withoutSpaces text) = deepest depth text := by
  induction text generalizing depth with
  | nil => rfl
  | cons c text ih =>
    by_cases space : c = ' '
    · rw [space, withoutSpaces_space, ih, deepest_symbol (by decide) (by decide)]
    · rw [withoutSpaces_cons space]
      by_cases hopen : c = '('
      · rw [hopen, deepest, deepest, ih]
      by_cases hclose : c = ')'
      · rw [hclose, deepest, deepest, ih]
      rw [deepest_symbol hopen hclose, deepest_symbol hopen hclose, ih]

theorem Balanced.withoutSpaces (h : Balanced text) : Balanced (SamePoly.withoutSpaces text) := by
  induction h with
  | nil => exact .nil
  | @symbol c text hopen hclose _ ih =>
    by_cases space : c = ' '
    · rwa [space, withoutSpaces_space]
    · rw [withoutSpaces_cons space]
      exact .symbol hopen hclose ih
  | group _ _ ihInside ihRest =>
    rw [withoutSpaces_cons (by decide), withoutSpaces_append, withoutSpaces_cons (by decide)]
    exact .group ihInside ihRest

/-! ## Multiplication signs -/

/-- A multiplication sign with another one ahead has it right behind it. -/
def StarsTogether : List Char → Prop :=
  Everywhere fun c rest => c = '*' → ahead rest = some '*' → rest.head? = some '*'

instance : DecidablePred StarsTogether := fun _ => inferInstanceAs (Decidable (Everywhere _ _))

theorem StarsTogether.exists_star (h : StarsTogether ('*' :: text)) (star : ahead text = some '*') :
    ∃ rest, text = '*' :: rest := List.head?_eq_some_iff.1 (h.1 rfl star)

theorem ahead_of_withoutSpaces (h : withoutSpaces text = c :: rest) : ahead text = some c := by
  rw [← head?_withoutSpaces, h]
  rfl

theorem startsPower_withoutSpaces (together : StarsTogether text) :
    startsPower (withoutSpaces text) = startsPower text := by
  rcases nearest_behind text with h | ⟨spaces, c, rest, rfl, h, space⟩
  · rw [h.withoutSpaces, startsPower, startsPower, h.dropWhile_eq_nil]
    rfl
  have ends : ∀ rest, Ends (· == ' ') (c :: rest) := fun rest => .cons (by simpa using space)
  rw [withoutSpaces_append, h.withoutSpaces, List.nil_append, withoutSpaces_cons space, startsPower,
    startsPower, h.dropWhile, dropWhile_of_ends (ends _), dropWhile_of_ends (ends _)]
  by_cases star : c = '*'
  · subst star
    have second : (∃ more, withoutSpaces rest = '*' :: more) ↔ ∃ more, rest = '*' :: more := by
      constructor
      · rintro ⟨more, found⟩
        exact StarsTogether.exists_star together.right (ahead_of_withoutSpaces found)
      · rintro ⟨more, rfl⟩
        exact ⟨_, withoutSpaces_cons (by decide) more⟩
    by_cases found : ∃ more, rest = '*' :: more
    · obtain ⟨more', same⟩ := second.2 found
      obtain ⟨more, rfl⟩ := found
      rw [same]
      rfl
    · have missing := mt second.1 found
      simp only [not_exists] at found missing
      simp [found, missing]
  · by_cases caret : c = '^' <;> simp [star, caret]

/-! ## Operands -/

/-- The end of a group is found without spaces. -/
theorem reach_withoutSpaces (together : StarsTogether text) (balance : ℤ) :
    reach balance (withoutSpaces text) = withoutSpaces (reach balance text) := by
  induction text generalizing balance with
  | nil => rfl
  | cons c text ih =>
    by_cases space : c = ' '
    · subst space
      rw [reach_cons (groupBeforePower?_symbol (by decide) (by decide) _ _), withoutSpaces_space,
        withoutSpaces_space, ih together.2]
    rw [withoutSpaces_cons space]
    by_cases hopen : c = '('
    · subst hopen
      rw [reach_cons (groupBeforePower?_opening _ _), reach_cons (groupBeforePower?_opening _ _),
        ih together.2, withoutSpaces_cons space]
    by_cases hclose : c = ')'
    · subst hclose
      rw [reach_closing, reach_closing, startsPower_withoutSpaces together.2, ih together.2,
        withoutSpaces_cons space]
      split <;> rfl
    · rw [reach_cons (groupBeforePower?_symbol hopen hclose _ _),
        reach_cons (groupBeforePower?_symbol hopen hclose _ _), ih together.2,
        withoutSpaces_cons space]

/-- A match is found without spaces. -/
theorem splitAtMatch_withoutSpaces {target nested : Char} (ht : target ≠ ' ') (hn : nested ≠ ' ')
    (depth : ℕ) (text : List Char) :
    splitAtMatch target nested depth (withoutSpaces text) =
      (splitAtMatch target nested depth text).map fun x => (withoutSpaces x.1, withoutSpaces x.2) := by
  induction text generalizing depth with
  | nil => rfl
  | cons c text ih =>
    by_cases space : c = ' '
    · subst space
      rw [withoutSpaces_space, ih, splitAtMatch_symbol hn.symm ht.symm, Option.map_map]
      rfl
    rw [withoutSpaces_cons space]
    by_cases same : c = target
    · subst same
      cases depth with
      | zero => simp [splitAtMatch]
      | succ depth => simp [splitAtMatch, ih, Function.comp_def, space]
    · simp [splitAtMatch, ih, Function.comp_def, space, same]

/-- **The operand behind an operator is found without spaces.** -/
theorem operandAfter_withoutSpaces (together : StarsTogether text) :
    operandAfter (withoutSpaces text) = withoutSpaces (operandAfter text) := by
  rcases nearest_behind text with h | ⟨spaces, c, rest, rfl, h, space⟩
  · rw [operandAfter_spaces h, h.withoutSpaces]
    rfl
  have nothing : Spaces [] := nofun
  have front (rest : List Char) : c :: rest = [] ++ c :: rest := rfl
  rw [withoutSpaces_append, h.withoutSpaces, List.nil_append, withoutSpaces_cons space, front]
  by_cases hopen : c = '('
  · subst hopen
    rw [operandAfter_opening nothing, operandAfter_opening h,
      reach_withoutSpaces together.right.2, withoutSpaces_append, h.withoutSpaces,
      withoutSpaces_cons space]
  · rw [operandAfter_symbol nothing space hopen, operandAfter_symbol h space hopen,
      withoutSpaces_append, h.withoutSpaces, ← withoutSpaces_cons space,
      takeWhile_withoutSpaces rfl]
    congr 1
    split
    · rw [withoutSpaces_cons space, withoutSpaces_nil]
    · rfl

/-- **The operand in front of an operator is found without spaces.** -/
theorem operandBefore_withoutSpaces (text : List Char) :
    operandBefore (withoutSpaces text) = withoutSpaces (operandBefore text) := by
  rcases nearest_before text with h | ⟨text, c, spaces, rfl, h, space⟩
  · rw [operandBefore_spaces h, h.withoutSpaces]
    rfl
  have nothing : Spaces [] := nofun
  rw [withoutSpaces_append, withoutSpaces_cons space, h.withoutSpaces]
  by_cases hclose : c = ')'
  · subst hclose
    rw [operandBefore_closing nothing, operandBefore_closing h, groupBefore?,
      ← withoutSpaces_reverse, splitAtMatch_withoutSpaces (by decide) (by decide), ← groupBefore?,
      withoutSpaces_append, withoutSpaces_cons space, h.withoutSpaces]
    congr 1
    cases groupBefore? text.reverse with
    | none => rfl
    | some x =>
      rw [Option.map_some]
      dsimp only
      rw [withoutSpaces_cons (by decide), withoutSpaces_reverse]
  · rw [operandBefore_symbol nothing space hclose, operandBefore_symbol h space hclose,
      withoutSpaces_append, h.withoutSpaces, ← withoutSpaces_reverse, ← withoutSpaces_cons space,
      takeWhile_withoutSpaces rfl]
    congr 1
    split
    · rw [withoutSpaces_cons space, withoutSpaces_nil]
    · rw [withoutSpaces_reverse]

/-! ## Checks -/

/-- What holds at each symbol of a text may hold at each symbol that is left without spaces. -/
theorem Everywhere.withoutSpaces {P Q : Char → List Char → Prop} (h : Everywhere P text)
    (himp : ∀ c rest, c ≠ ' ' → P c rest → Q c (SamePoly.withoutSpaces rest)) :
    Everywhere Q (SamePoly.withoutSpaces text) := by
  induction text with
  | nil => trivial
  | cons c text ih =>
    by_cases space : c = ' '
    · rw [space, withoutSpaces_space]
      exact ih h.2
    · rw [withoutSpaces_cons space]
      exact ⟨himp c text space h.1, ih h.2⟩

/-- What holds everywhere in a text holds everywhere in its ends. -/
theorem Everywhere.suffixes {P : Char → List Char → Prop} (h : Everywhere P text) :
    Everywhere (fun c rest => Everywhere P (c :: rest)) text := by
  induction text with
  | nil => trivial
  | cons c text ih => exact ⟨h, ih h.2⟩

theorem SeparatorFits.withoutSpaces (h : SeparatorFits c rest) :
    SeparatorFits c (SamePoly.withoutSpaces rest) := by
  constructor
  · rw [ahead_withoutSpaces]
    exact h.whole
  · intro separator
    obtain ⟨d, r, rfl, digit⟩ := h.fraction separator
    have space : d ≠ ' ' := by
      rintro rfl
      cases digit
    exact ⟨d, _, withoutSpaces_cons space r, digit⟩
  · rw [dropWhile_withoutSpaces rfl]
    intro separator d hd
    refine h.single separator d ?_
    -- What a run of digits and spaces stops at is no space.
    rw [head?_withoutSpaces] at hd
    cases hrest : rest.dropWhile isDigitOrSpace with
    | nil =>
      rw [hrest] at hd
      cases hd
    | cons e more =>
      have stops := List.head?_dropWhile_not isDigitOrSpace rest
      rw [hrest] at hd stops
      have space : e ≠ ' ' := by
        rintro rfl
        simp [isDigitOrSpace] at stops
      rwa [ahead_cons space] at hd

theorem OperatorFits.withoutSpaces (h : OperatorFits c rest)
    (together : StarsTogether (c :: rest)) : OperatorFits c (SamePoly.withoutSpaces rest) := by
  constructor
  · rw [ahead_withoutSpaces]
    exact h.operand
  · rw [ahead_withoutSpaces]
    exact h.single
  · rintro rfl r found
    have first : ahead (SamePoly.withoutSpaces rest) = some '*' := by
      rw [ahead, found]
      rfl
    rw [ahead_withoutSpaces] at first
    obtain ⟨rest, rfl⟩ := together.exists_star first
    rw [withoutSpaces_cons (by decide), List.dropWhile_cons, if_neg (by decide)] at found
    obtain ⟨rest, rfl⟩ :=
      StarsTogether.exists_star together.2 (ahead_of_withoutSpaces (List.cons.inj found).2)
    exact h.stars rfl rest rfl
  · rintro rfl r found
    obtain ⟨rest, rfl⟩ := together.exists_star (ahead_of_withoutSpaces found)
    rw [withoutSpaces_cons (by decide)] at found
    rw [← (List.cons.inj found).2, ahead_withoutSpaces]
    exact h.power rfl rest rfl
  · rw [ahead_withoutSpaces]
    exact h.opening
  · rw [ahead_withoutSpaces]
    exact h.closing

/-- **Spaces may be taken out of well-formed text.** -/
theorem WellFormed.withoutSpaces (h : WellFormed text) (together : StarsTogether text) :
    WellFormed (SamePoly.withoutSpaces text) := by
  constructor
  · exact h.balanced.withoutSpaces
  · exact fun c hc => h.expected c (mem_withoutSpaces.1 hc).1
  · exact h.separators.withoutSpaces fun c rest _ fits => fits.withoutSpaces
  · refine (everywhere_and.2 ⟨h.operators, Everywhere.suffixes together⟩).withoutSpaces ?_
    exact fun c rest _ fits => fits.1.withoutSpaces fits.2
  · rw [ahead_withoutSpaces]
    exact h.start

/-! ## Faults -/

/-- An operator that is the same one without spaces. -/
structure Site.Tightened (site' : Site rest) (site : Site text) : Prop where
  before : site'.before = withoutSpaces site.before
  after : site'.after = withoutSpaces site.after
  together : StarsTogether site.after

/-- Every division without spaces is one of the text. -/
theorem exists_mem_divisionSitesFrom {text' after' : List Char} (before after : List Char)
    (whole : before.reverse ++ after = text)
    {whole' : (withoutSpaces before).reverse ++ after' = text'}
    (hafter : after' = withoutSpaces after) (together : StarsTogether after) {site' : Site text'}
    (h : site' ∈ divisionSitesFrom (withoutSpaces before) after' whole') :
    ∃ site ∈ divisionSitesFrom before after whole, site'.Tightened site := by
  induction after generalizing before after' with
  | nil =>
    subst hafter
    cases h
  | cons c after ih =>
    have next : (c :: before).reverse ++ after = text := by simpa using whole
    by_cases space : c = ' '
    · subst space
      obtain ⟨site, hsite, same⟩ := ih (' ' :: before) next hafter together.2 h
      exact ⟨site, by rwa [divisionSitesFrom, if_neg (by decide)], same⟩
    rw [withoutSpaces_cons space] at hafter
    subst hafter
    have tail {whole'} (h : site' ∈ divisionSitesFrom (c :: withoutSpaces before)
        (withoutSpaces after) whole') :
        ∃ site ∈ divisionSitesFrom (c :: before) after next, site'.Tightened site := by
      simp only [← withoutSpaces_cons space] at h
      exact ih _ next rfl together.2 h
    rw [divisionSitesFrom] at h ⊢
    split at h
    · rename_i sign
      rw [if_pos sign]
      rcases List.mem_cons.1 h with rfl | h
      · exact ⟨_, List.mem_cons_self, (withoutSpaces_reverse _).symm, rfl, together.2⟩
      · obtain ⟨site, hsite, same⟩ := tail h
        exact ⟨site, List.mem_cons_of_mem _ hsite, same⟩
    · rename_i sign
      rw [if_neg sign]
      exact tail h

/-- Two signs side by side are one power. -/
theorem mem_powerSitesFrom_stars {whole : before.reverse ++ '*' :: '*' :: rest = text}
    {site : Site text} :
    site ∈ powerSitesFrom before ('*' :: '*' :: rest) whole ↔
      site = ⟨before.reverse, ['*', '*'], rest, by simpa using whole, by simp⟩ ∨
        site ∈ powerSitesFrom ('*' :: '*' :: before) rest (by simpa using whole) := by
  rw [powerSitesFrom, List.mem_cons]

/-- Any other symbol is a power if it is a caret. -/
theorem mem_powerSitesFrom_symbol (apart : ¬(c = '*' ∧ ∃ more, rest = '*' :: more))
    {whole : before.reverse ++ c :: rest = text} {site : Site text} :
    site ∈ powerSitesFrom before (c :: rest) whole ↔
      (c = '^' ∧ site = ⟨before.reverse, [c], rest, by simpa using whole, by simp⟩) ∨
        site ∈ powerSitesFrom (c :: before) rest (by simpa using whole) := by
  rw [powerSitesFrom]
  · by_cases caret : c = '^'
    · rw [if_pos (beq_iff_eq.2 caret), List.mem_cons, and_iff_right caret]
    · rw [if_neg (by simpa using caret), or_iff_right fun found => caret found.1]
  · exact fun more _ _ star second => apart ⟨star, more, second⟩

/-- Every power without spaces is one of the text. -/
theorem exists_mem_powerSitesFrom {text' after' : List Char} (before after : List Char)
    (whole : before.reverse ++ after = text)
    {whole' : (withoutSpaces before).reverse ++ after' = text'}
    (hafter : after' = withoutSpaces after) (together : StarsTogether after) {site' : Site text'}
    (h : site' ∈ powerSitesFrom (withoutSpaces before) after' whole') :
    ∃ site ∈ powerSitesFrom before after whole, site'.Tightened site := by
  induction hn : after.length using Nat.strongRecOn generalizing before after after' with
  | ind n ih =>
    cases after with
    | nil =>
      subst hafter
      cases h
    | cons c after =>
      have shorter : after.length < n := by
        rw [← hn]
        exact Nat.lt_succ_self _
      by_cases space : c = ' '
      · subst space
        obtain ⟨site, hsite, same⟩ := ih _ shorter (' ' :: before) after
          (by simpa using whole) hafter together.2 h rfl
        exact ⟨site, (mem_powerSitesFrom_symbol (by simp)).2 (Or.inr hsite), same⟩
      rw [withoutSpaces_cons space] at hafter
      subst hafter
      by_cases stars : c = '*' ∧ ∃ rest, after = '*' :: rest
      · obtain ⟨rfl, rest, rfl⟩ := stars
        rcases mem_powerSitesFrom_stars.1 h with rfl | h
        · exact ⟨_, mem_powerSitesFrom_stars.2 (Or.inl rfl), (withoutSpaces_reverse _).symm, rfl,
            together.2.2⟩
        · obtain ⟨site, hsite, same⟩ := ih _ (Nat.lt_of_succ_lt shorter)
            ('*' :: '*' :: before) rest (by simpa using whole) rfl together.2.2 h rfl
          exact ⟨site, mem_powerSitesFrom_stars.2 (Or.inr hsite), same⟩
      · have stars' : ¬(c = '*' ∧ ∃ rest, withoutSpaces after = '*' :: rest) := by
          rintro ⟨rfl, rest, second⟩
          exact stars ⟨rfl, StarsTogether.exists_star together (ahead_of_withoutSpaces second)⟩
        rcases (mem_powerSitesFrom_symbol stars').1 h with ⟨caret, rfl⟩ | h
        · exact ⟨_, (mem_powerSitesFrom_symbol stars).2 (Or.inl ⟨caret, rfl⟩),
            (withoutSpaces_reverse _).symm, rfl, together.2⟩
        · simp only [← withoutSpaces_cons space] at h
          obtain ⟨site, hsite, same⟩ := ih _ shorter _ _ (by simpa using whole) rfl together.2 h rfl
          exact ⟨site, (mem_powerSitesFrom_symbol stars).2 (Or.inr hsite), same⟩

section Faults

variable {R : Type} [Scalar R] {site' : Site rest} {site : Site text}

theorem Site.Tightened.left (h : site'.Tightened site) :
    site'.left = withoutSpaces site.left := by
  rw [Site.left, Site.left, h.before, operandBefore_withoutSpaces]

theorem Site.Tightened.right (h : site'.Tightened site) :
    site'.right = withoutSpaces site.right := by
  rw [Site.right, Site.right, h.after, operandAfter_withoutSpaces h.together]

/-- A faultless denominator has no variable, so no test for symbolic denominators is needed. -/
theorem Site.Tightened.divisionFault? (h : site'.Tightened site) {vanishes : VanishingTest text}
    (none : SamePoly.divisionFault? R vanishes site = none) (vanishes' : VanishingTest rest) :
    SamePoly.divisionFault? R vanishes' site' = Option.none := by
  rw [divisionFault?_eq_none_iff] at none ⊢
  rwa [h.right, hasVariable_withoutSpaces, normalize_withoutSpaces]

theorem Site.Tightened.powerFault? (h : site'.Tightened site) :
    SamePoly.powerFault? R site' = SamePoly.powerFault? R site := by
  rw [SamePoly.powerFault?, SamePoly.powerFault?, h.left, h.right, hasVariable_withoutSpaces,
    hasVariable_withoutSpaces, normalize_withoutSpaces, normalize_withoutSpaces]

/-- Without spaces there are no new violations. -/
theorem violation?_withoutSpaces (together : StarsTogether text) {vanishes : VanishingTest text}
    (h : violation? R text vanishes = none) (vanishes' : VanishingTest (withoutSpaces text)) :
    violation? R (withoutSpaces text) vanishes' = none := by
  obtain ⟨divisions, powers⟩ := violation?_eq_none_iff.1 h
  refine violation?_eq_none_iff.2 ⟨fun site' hsite' => ?_, fun site' hsite' => ?_⟩
  · obtain ⟨site, hsite, same⟩ : ∃ site ∈ divisionSites text, site'.Tightened site :=
      exists_mem_divisionSitesFrom [] text rfl rfl together hsite'
    exact same.divisionFault? (divisions site hsite) vanishes'
  · obtain ⟨site, hsite, same⟩ : ∃ site ∈ powerSites text, site'.Tightened site :=
      exists_mem_powerSitesFrom [] text rfl rfl together hsite'
    rw [same.powerFault?, powers site hsite]

/-- A text without its spaces passes all checks if the text does. -/
theorem validate_withoutSpaces (together : StarsTogether text) (h : validate R text = .ok ()) :
    validate R (withoutSpaces text) = .ok () := by
  obtain ⟨wellFormed, shallow, fitting⟩ := validate_eq_ok_iff.1 h
  have tight := (malformed?_eq_none_iff.1 wellFormed).withoutSpaces together
  refine validate_eq_ok_iff.2
    ⟨malformed?_eq_none_iff.2 tight, ?_, violation?_withoutSpaces together fitting _⟩
  rwa [nestingDepth, deepest_withoutSpaces]

end Faults

/-! ## Polynomials -/

section Parsing

variable {R : Type} [Scalar R] {p q : Polynomial (Number R)}

/-- Spaces are not all of a text that has a polynomial. -/
theorem isBlankText_withoutSpaces (h : isBlankText text = false) :
    isBlankText (withoutSpaces text) = false := by
  rw [isBlankText, List.all_eq_false] at h
  obtain ⟨c, hc, symbol⟩ := h
  have space : c ≠ ' ' := by
    rintro rfl
    exact symbol rfl
  exact isBlankText_eq_false (mem_withoutSpaces.2 ⟨hc, space⟩) (Bool.eq_false_iff.2 symbol)

/-- The polynomial of a text depends on the normalized text only. -/
theorem compile_congr (same : normalize rest = normalize text) (h : compile R text = .ok p) :
    compile R rest = .ok p := by
  rw [compile] at h ⊢
  rw [same]
  cases ht : compileSum R (normalize text) 0 with
  | error e =>
    rw [ht] at h
    cases h
  | ok t =>
    rw [ht] at h
    change (if t.toPolynomial.isFinite then _ else _) = _ at h
    change (if t.toPolynomial.isFinite then _ else _) = _
    split at h
    · rename_i finite
      rw [if_pos finite]
      exact h
    · cases h

/-- **Spaces do not matter.**  The text without its spaces is given the same polynomial, with the
    same terms in the same order, if it is accepted; and it is accepted if no two multiplication
    signs have nothing but spaces between them. -/
theorem parse_withoutSpaces (h : parse R text = .ok p) :
    (StarsTogether text → parse R (withoutSpaces text) = .ok p) ∧
      ∀ q, parse R (withoutSpaces text) = .ok q → q = p := by
  obtain ⟨nonblank, valid, compiled⟩ := parse_eq_ok_iff.1 h
  have same : compile R (withoutSpaces text) = .ok p :=
    compile_congr (normalize_withoutSpaces text) compiled
  refine ⟨fun together => ?_, fun q hq => ?_⟩
  · exact parse_eq_ok_iff.2
      ⟨isBlankText_withoutSpaces nonblank, validate_withoutSpaces together valid, same⟩
  · obtain ⟨-, -, found⟩ := parse_eq_ok_iff.1 hq
    exact Except.ok.inj (found.symm.trans same)

end Parsing

/-- The square of half a variable may be written with spaces and without. -/
theorem parse_withoutSpaces_halfSquared :
    StarsTogether "((x) :(2)) ** (2)".toList ∧
      ∃ p, parse ℚ "((x) :(2)) ** (2)".toList = .ok p ∧
        parse ℚ (withoutSpaces "((x) :(2)) ** (2)".toList) = .ok p := by
  have together : StarsTogether "((x) :(2)) ** (2)".toList := by decide
  obtain ⟨p, hp, -⟩ := Formula.spelled_halfSquared.exists_parse Formula.proper_halfSquared
    (by decide) (by decide)
  exact ⟨together, p, hp, (parse_withoutSpaces hp).1 together⟩

/-- Three multiplication signs with spaces between them are read as one power, and side by side they
    are turned away. -/
theorem parse_spaced_stars :
    (∃ p, parse ℚ "x * * * 2".toList = .ok p ∧ p.Canonical ∧ p.toMv = MvPolynomial.X 'x' ^ 2) ∧
      withoutSpaces "x * * * 2".toList = "x***2".toList ∧
      parse ℚ "x***2".toList = .error (.malformed (.incorrectOperators [⟨['*', '*', '*'], 1⟩])) := by
  have square : Formula.Spelled (.power (.atom (.letter 'x' rfl)) .two) "(x)^(2)".toList :=
    (Formula.Spelled.letter rfl).raised .two
  refine ⟨?_, rfl, ?_⟩
  · obtain ⟨p, hp, canonical, meaning⟩ := square.exists_parse trivial (by decide) (by decide)
    obtain ⟨-, -, compiled⟩ := parse_eq_ok_iff.1 hp
    have same : normalize "x * * * 2".toList = normalize "(x)^(2)".toList := by decide +kernel
    have valid : validate ℚ "x * * * 2".toList = .ok () := by
      have fine : malformed? "x * * * 2".toList = none := by decide +kernel
      rw [validate, validateBy, fine]
      rfl
    refine ⟨p, parse_eq_ok_iff.2 ⟨rfl, valid, compile_congr same compiled⟩, canonical, ?_⟩
    rw [meaning]
    rfl
  · have faulty : malformed? "x***2".toList =
        some (.incorrectOperators [⟨['*', '*', '*'], 1⟩]) := by decide +kernel
    rw [parse_eq, validate, validateBy, faulty]
    rfl

end SamePoly
