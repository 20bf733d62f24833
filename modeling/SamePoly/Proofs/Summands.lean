/-
  The terms of a sum.

  A sum with balanced brackets is cut at its signs outside all brackets, and no term has such a
  sign behind its first symbol.

  * `Balanced.isSum_append`: signs outside the brackets of two parts.
  * `Balanced.of_mem_splitSum`: **the terms of a balanced text are balanced and no sums themselves**.
  * `Fit`: sound text with layers that does not start or end with a `^`.
  * `Fit.of_mem_splitSum`: **the terms of a fit text are fit and no sums themselves**.
  * `infix_of_mem_splitSum`: terms stand in the text.
  * `Balanced.length_lt_of_mem_splitSum`: the terms of a sum are shorter than the sum.
  * `Balanced.splitSum_append_sign`, `Balanced.splitSum_eq`: a sum is cut at a sign, and a text
    without signs is a term.
  * `splitSum_partition`: **the terms make up the text without the pluses outside its brackets**.
-/
import SamePoly.Proofs.Nesting

namespace SamePoly

variable {text inside rest term : List Char} {c : Char} {n : ℕ}

/-! ## Signs outside all brackets -/

/-- Signs outside the brackets of two parts. -/
theorem Balanced.signOutside_zero_append (h : Balanced text) (rest : List Char) :
    signOutside 0 (text ++ rest) = (signOutside 0 text || signOutside 0 rest) := by
  induction h with
  | nil => rfl
  | symbol hopen hclose _ ih =>
    rw [List.cons_append, signOutside_symbol hopen hclose, signOutside_symbol hopen hclose, ih,
      ← Bool.or_assoc]
  | group hinside _ _ ih =>
    rw [List.cons_append, List.append_assoc, List.cons_append, hinside.signOutside_group,
      hinside.signOutside_group, ih]

/-- Behind something balanced every sign outside brackets makes a sum. -/
theorem Balanced.isSum_append (h : Balanced text) (hne : text ≠ []) (rest : List Char) :
    isSum (text ++ rest) = (isSum text || signOutside 0 rest) := by
  cases h with
  | nil => exact absurd rfl hne
  | symbol hopen hclose hrest =>
    rw [List.cons_append, isSum_symbol hopen hclose, isSum_symbol hopen hclose,
      hrest.signOutside_zero_append]
  | group hinside hrest =>
    rw [List.cons_append, List.append_assoc, List.cons_append, hinside.isSum_group,
      hinside.isSum_group, hrest.signOutside_zero_append]

/-- Two parts without signs outside their brackets make no sum. -/
theorem Balanced.isSum_append_eq_false (h : Balanced text) (single : isSum text = false)
    (hrest : isSum rest = false) (outside : signOutside 0 rest = false) :
    isSum (text ++ rest) = false := by
  by_cases hne : text = []
  · rwa [hne]
  · rw [h.isSum_append hne, single, outside]
    rfl

theorem mem_consTerm {terms : List (List Char)} {t : List Char} (h : term ∈ consTerm t terms) :
    t ≠ [] ∧ term = t ∨ term ∈ terms := by
  rw [consTerm] at h
  split at h
  · exact .inr h
  · rename_i hne
    rcases List.mem_cons.1 h with rfl | h
    · exact .inl ⟨by simpa using hne, rfl⟩
    · exact .inr h

theorem Balanced.of_mem_splitSumFrom {passed : List Char} (h : Balanced text)
    (hpassed : Balanced passed.reverse) (single : isSum passed.reverse = false)
    (hterm : term ∈ splitSumFrom 0 passed text) :
    term ≠ [] ∧ Balanced term ∧ isSum term = false := by
  have fresh : Balanced ([] : List Char).reverse := .nil
  have minus : Balanced ['-'].reverse := .symbol (by simp) (by simp) .nil
  induction h generalizing passed with
  | nil =>
    obtain ⟨hne, rfl⟩ := (mem_consTerm hterm).resolve_right List.not_mem_nil
    exact ⟨hne, hpassed, single⟩
  | @symbol c rest hopen hclose _ ih =>
    by_cases hplus : c = '+'
    · rw [hplus, splitSumFrom_plus] at hterm
      rcases mem_consTerm hterm with ⟨hne, rfl⟩ | hterm
      · exact ⟨hne, hpassed, single⟩
      · exact ih fresh rfl hterm
    · by_cases hminus : c = '-'
      · rw [hminus, splitSumFrom_minus] at hterm
        rcases mem_consTerm hterm with ⟨hne, rfl⟩ | hterm
        · exact ⟨hne, hpassed, single⟩
        · exact ih minus rfl hterm
      · rw [splitSumFrom_symbol hopen hclose hplus hminus] at hterm
        have outside : signOutside 0 [c] = false := by simp [signOutside, hplus, hminus]
        refine ih ?_ ?_ hterm
        · rw [List.reverse_cons]
          exact hpassed.append (.symbol hopen hclose .nil)
        · rw [List.reverse_cons]
          exact hpassed.isSum_append_eq_false single (isSum_symbol hopen hclose []) outside
  | group hinside _ _ ih =>
    rw [hinside.splitSumFrom_group] at hterm
    refine ih ?_ ?_ hterm
    · rw [List.reverse_append, List.reverse_reverse]
      exact hpassed.append hinside.single_group
    · rw [List.reverse_append, List.reverse_reverse]
      exact hpassed.isSum_append_eq_false single (hinside.isSum_group []) (hinside.signOutside_group [])

/-- **The terms of a balanced text are balanced and no sums themselves.** -/
theorem Balanced.of_mem_splitSum (h : Balanced text) (hterm : term ∈ splitSum text) :
    term ≠ [] ∧ Balanced term ∧ isSum term = false := by
  have fresh : Balanced ([] : List Char).reverse := .nil
  exact h.of_mem_splitSumFrom fresh rfl hterm

/-! ## Fit text -/

/-- Sound text with at most `n` layers that does not start or end with a `^`. -/
structure Fit (n : ℕ) (text : List Char) : Prop where
  sound : Sound text
  layered : Layered n text
  starts : text.head? ≠ some '^'
  ends : text.getLast? ≠ some '^'

/-- A text on the way: `term` has been passed since the last sign. -/
structure OnTheWay (n : ℕ) (term text : List Char) : Prop where
  sound : Sound (term.reverse ++ text)
  passed : Layered n term.reverse
  starts : (term.reverse ++ text).head? ≠ some '^'
  ends : (term.reverse ++ text).getLast? ≠ some '^'

theorem Layered.append (h : Layered n text) (hr : Layered n rest) : Layered n (text ++ rest) := by
  induction h with
  | nil => exact hr
  | symbol hopen hclose _ ih => exact .symbol hopen hclose (ih hr)
  | atom ha _ ih =>
    rw [List.cons_append, List.append_assoc, List.cons_append]
    exact .atom ha (ih hr)
  | group hinside _ _ ih =>
    rw [List.cons_append, List.append_assoc, List.cons_append]
    exact .group hinside (ih hr)

/-- A part between two signs goes on with the term. -/
theorem OnTheWay.pass {part : List Char} (way : OnTheWay n term (part ++ rest))
    (hpart : Layered n part) : OnTheWay n (part.reverse ++ term) rest := by
  have whole : (part.reverse ++ term).reverse = term.reverse ++ part := by
    rw [List.reverse_append, List.reverse_reverse]
  constructor
  · rw [whole, List.append_assoc]
    exact way.sound
  · rw [whole]
    exact way.passed.append hpart
  · rw [whole, List.append_assoc]
    exact way.starts
  · rw [whole, List.append_assoc]
    exact way.ends

/-- A term is finished at a sign or at the end. -/
theorem OnTheWay.finish (way : OnTheWay n term text) (hne : term ≠ [])
    (hnext : ∀ d ∈ text.head?, kind d = .sign) : Fit n term.reverse := by
  have nonempty : term.reverse ≠ [] := by simpa using hne
  refine ⟨way.sound.cut fun d hd => ?_, way.passed, ?_, ?_⟩
  · rw [← Bool.not_eq_true, ← kind_eq_digit_iff, hnext d hd]
    nofun
  · have starts := way.starts
    rwa [List.head?_append_of_ne_nil _ nonempty] at starts
  · intro hlast
    cases text with
    | nil => exact way.ends (by rwa [List.append_nil])
    | cons d text =>
      have link : Follows '^' d := (List.isChain_append.1 way.sound.adjacent).2.2 _ hlast d rfl
      rw [Follows, hnext d rfl] at link
      cases link

theorem OnTheWay.of_mem_consTerm {passed : List Char} {terms : List (List Char)}
    (way : OnTheWay n passed text) (hnext : ∀ d ∈ text.head?, kind d = .sign)
    (later : term ∈ terms → Fit n term) (hterm : term ∈ consTerm passed.reverse terms) :
    Fit n term := by
  rcases mem_consTerm hterm with ⟨hne, rfl⟩ | hterm
  · exact way.finish (by simpa using hne) hnext
  · exact later hterm

/-- Behind a plus a further term starts. -/
theorem OnTheWay.plus (way : OnTheWay n term ('+' :: text)) : OnTheWay n [] text := by
  have sound := way.sound.of_append
  have ends : (['+'] ++ text).getLast? ≠ some '^' := getLast?_ne_of_append way.ends
  refine ⟨sound.tail, .nil, fun hhead => ?_, getLast?_ne_of_append ends⟩
  obtain ⟨tail, htail⟩ := List.head?_eq_some_iff.1 hhead
  have htail : text = '^' :: tail := htail
  rw [htail] at sound
  have link : Follows '+' '^' := (List.isChain_cons_cons.1 sound.adjacent).1
  cases link

/-- A minus stays with the term behind it. -/
theorem OnTheWay.minus (way : OnTheWay n term ('-' :: text)) : OnTheWay n ['-'] text :=
  ⟨way.sound.of_append, .symbol (by decide) (by decide) .nil, nofun, getLast?_ne_of_append way.ends⟩

theorem Fit.of_mem_splitSumFrom {passed : List Char} (h : Layered n text)
    (way : OnTheWay n passed text) (hterm : term ∈ splitSumFrom 0 passed text) : Fit n term := by
  induction h generalizing passed with
  | nil => exact way.of_mem_consTerm nofun (absurd · List.not_mem_nil) hterm
  | @symbol n c tail hopen hclose htail ih =>
    by_cases hplus : c = '+'
    · subst hplus
      rw [splitSumFrom_plus] at hterm
      exact way.of_mem_consTerm (by rintro d ⟨⟩; rfl) (ih way.plus) hterm
    · by_cases hminus : c = '-'
      · subst hminus
        rw [splitSumFrom_minus] at hterm
        exact way.of_mem_consTerm (by rintro d ⟨⟩; rfl) (ih way.minus) hterm
      · rw [splitSumFrom_symbol hopen hclose hplus hminus] at hterm
        have pass : OnTheWay n ([c].reverse ++ passed) tail :=
          way.pass (.symbol hopen hclose .nil)
        exact ih pass hterm
  | atom ha htail ih =>
    rw [ha.balanced.splitSumFrom_group] at hterm
    refine ih (OnTheWay.pass ?_ (.atom ha .nil)) hterm
    rwa [List.cons_append, List.append_assoc]
  | group hinside htail _ ih =>
    rw [hinside.balanced.splitSumFrom_group] at hterm
    refine ih (OnTheWay.pass ?_ (.group hinside .nil)) hterm
    rwa [List.cons_append, List.append_assoc]

/-- **The terms of a fit text are fit and no sums themselves.** -/
theorem Fit.of_mem_splitSum (h : Fit n text) (hterm : term ∈ splitSum text) :
    Fit n term ∧ isSum term = false := by
  have way : OnTheWay n [] text := ⟨h.sound, .nil, h.starts, h.ends⟩
  exact ⟨Fit.of_mem_splitSumFrom h.layered way hterm, (h.layered.balanced.of_mem_splitSum hterm).2.2⟩

/-! ## Terms as parts of the text -/

theorem infix_of_mem_splitSumFrom {depth : ℕ} {passed whole : List Char}
    (h : passed.reverse ++ text <:+: whole) (hterm : term ∈ splitSumFrom depth passed text) :
    term <:+: whole := by
  induction text generalizing depth passed with
  | nil =>
    obtain ⟨-, rfl⟩ := (mem_consTerm hterm).resolve_right List.not_mem_nil
    rwa [List.append_nil] at h
  | cons c rest ih =>
    have finished : passed.reverse <:+: whole := (List.prefix_append _ _).isInfix.trans h
    have behind : [c].reverse ++ rest <:+: whole := (List.suffix_append _ _).isInfix.trans h
    have after : ([] : List Char).reverse ++ rest <:+: whole :=
      (List.suffix_cons c rest).isInfix.trans behind
    have longer : (c :: passed).reverse ++ rest <:+: whole := by
      rwa [List.reverse_cons, List.append_assoc]
    rw [splitSumFrom] at hterm
    split_ifs at hterm
    · exact ih longer hterm
    · exact ih longer hterm
    · rcases mem_consTerm hterm with ⟨-, rfl⟩ | hterm
      · exact finished
      · exact ih after hterm
    · rcases mem_consTerm hterm with ⟨-, rfl⟩ | hterm
      · exact finished
      · exact ih behind hterm
    · exact ih longer hterm

/-- The terms of a sum stand in the text. -/
theorem infix_of_mem_splitSum (h : term ∈ splitSum text) : term <:+: text :=
  infix_of_mem_splitSumFrom List.infix_rfl h

/-! ## Lengths -/

theorem length_le_of_mem_consTerm {passed : List Char} {terms : List (List Char)} {m : ℕ}
    (hm : passed.length ≤ m) (later : term ∈ terms → term.length ≤ m)
    (hterm : term ∈ consTerm passed.reverse terms) : term.length ≤ m := by
  rcases mem_consTerm hterm with ⟨-, rfl⟩ | hterm
  · rwa [List.length_reverse]
  · exact later hterm

theorem length_le_of_mem_splitSumFrom {depth : ℕ} {passed : List Char}
    (hterm : term ∈ splitSumFrom depth passed text) : term.length ≤ passed.length + text.length := by
  have within := (infix_of_mem_splitSumFrom List.infix_rfl hterm).length_le
  rwa [List.length_append, List.length_reverse] at within

/-- A term is shorter than the text if a sign behind it starts another one. -/
theorem Balanced.length_lt_of_mem_splitSumFrom {passed : List Char} (h : Balanced text)
    (hne : passed ≠ []) (sign : signOutside 0 text = true)
    (hterm : term ∈ splitSumFrom 0 passed text) : term.length < passed.length + text.length := by
  induction h generalizing passed with
  | nil => cases sign
  | @symbol c tail hopen hclose _ ih =>
    have positive := List.length_pos_iff.2 hne
    have fresh {s : List Char} (hs : s.length ≤ 1)
        (h : term ∈ splitSumFrom 0 s tail) :
        term.length ≤ passed.length + tail.length := by
      have := length_le_of_mem_splitSumFrom h
      omega
    rw [List.length_cons]
    by_cases hplus : c = '+'
    · rw [hplus, splitSumFrom_plus] at hterm
      exact Nat.lt_succ_of_le
        (length_le_of_mem_consTerm (Nat.le_add_right _ _) (fresh (s := []) (Nat.zero_le 1)) hterm)
    · by_cases hminus : c = '-'
      · rw [hminus, splitSumFrom_minus] at hterm
        exact Nat.lt_succ_of_le
          (length_le_of_mem_consTerm (Nat.le_add_right _ _) (fresh le_rfl) hterm)
      · rw [splitSumFrom_symbol hopen hclose hplus hminus] at hterm
        rw [signOutside_symbol hopen hclose, beq_eq_false_iff_ne.2 hplus,
          beq_eq_false_iff_ne.2 hminus] at sign
        have := ih (List.cons_ne_nil c passed) sign hterm
        rw [List.length_cons] at this
        omega
  | @group inside tail hinside _ _ ih =>
    rw [hinside.splitSumFrom_group] at hterm
    rw [hinside.signOutside_group] at sign
    have := ih (by simp) sign hterm
    simp only [List.length_append, List.length_reverse, List.length_cons, List.length_nil] at this ⊢
    omega

/-- **The terms of a sum are shorter than the sum.** -/
theorem Balanced.length_lt_of_mem_splitSum (h : Balanced text) (sum : isSum text = true)
    (hterm : term ∈ splitSum text) : term.length < text.length := by
  cases h with
  | nil => cases sum
  | @symbol c tail hopen hclose htail =>
    rw [isSum_symbol hopen hclose] at sum
    have behind (h : term ∈ splitSumFrom 0 [c] tail) : term.length < (c :: tail).length := by
      have := htail.length_lt_of_mem_splitSumFrom (List.cons_ne_nil c []) sum h
      rw [List.length_singleton] at this
      rw [List.length_cons]
      omega
    by_cases hplus : c = '+'
    · subst hplus
      have : term.length ≤ ([] : List Char).length + tail.length := length_le_of_mem_splitSumFrom hterm
      rw [List.length_nil] at this
      rw [List.length_cons]
      omega
    · by_cases hminus : c = '-'
      · subst hminus
        exact behind hterm
      · rw [splitSum, splitSumFrom_symbol hopen hclose hplus hminus] at hterm
        exact behind hterm
  | @group inside tail hinside htail =>
    rw [hinside.isSum_group] at sum
    rw [splitSum, hinside.splitSumFrom_group] at hterm
    have := htail.length_lt_of_mem_splitSumFrom (by simp) sum hterm
    simp only [List.length_append, List.length_reverse, List.length_cons, List.length_nil] at this ⊢
    omega

/-! ## Cutting at a sign -/

theorem consTerm_append (term : List Char) (terms : List (List Char)) :
    consTerm term terms = consTerm term [] ++ terms := by
  rw [consTerm, consTerm]
  split <;> rfl

/-- At a sign a sum is cut in two. -/
theorem Balanced.splitSumFrom_append_sign (h : Balanced text) (hc : c = '+' ∨ c = '-')
    (passed rest : List Char) :
    splitSumFrom 0 passed (text ++ c :: rest) =
      splitSumFrom 0 passed text ++ splitSum (c :: rest) := by
  induction h generalizing passed with
  | nil =>
    rw [List.nil_append, splitSumFrom, splitSum]
    rcases hc with rfl | rfl
    · rw [splitSumFrom_plus, splitSumFrom_plus, consTerm_append]
      rfl
    · rw [splitSumFrom_minus, splitSumFrom_minus, consTerm_append]
      rfl
  | @symbol d text hopen hclose _ ih =>
    rw [List.cons_append]
    by_cases hplus : d = '+'
    · rw [hplus, splitSumFrom_plus, splitSumFrom_plus, ih, consTerm_append,
        consTerm_append _ (splitSumFrom 0 [] text), List.append_assoc]
    · by_cases hminus : d = '-'
      · rw [hminus, splitSumFrom_minus, splitSumFrom_minus, ih, consTerm_append,
          consTerm_append _ (splitSumFrom 0 ['-'] text), List.append_assoc]
      · rw [splitSumFrom_symbol hopen hclose hplus hminus,
          splitSumFrom_symbol hopen hclose hplus hminus, ih]
  | @group inside text hinside _ _ ih =>
    rw [List.cons_append, List.append_assoc, List.cons_append, hinside.splitSumFrom_group,
      hinside.splitSumFrom_group, ih]

/-- Without a sign outside its brackets a text goes on with the term. -/
theorem Balanced.splitSumFrom_eq (h : Balanced text) (outside : signOutside 0 text = false)
    (passed : List Char) : splitSumFrom 0 passed text = consTerm (passed.reverse ++ text) [] := by
  induction h generalizing passed with
  | nil => rw [splitSumFrom, List.append_nil]
  | @symbol d text hopen hclose _ ih =>
    rw [signOutside_symbol hopen hclose, Bool.or_eq_false_iff] at outside
    have hplus : d ≠ '+' := by
      rintro rfl
      cases outside.1
    have hminus : d ≠ '-' := by
      rintro rfl
      cases outside.1
    rw [splitSumFrom_symbol hopen hclose hplus hminus, ih outside.2, List.reverse_cons,
      List.append_assoc]
    rfl
  | @group inside text hinside _ _ ih =>
    rw [hinside.signOutside_group] at outside
    rw [hinside.splitSumFrom_group, ih outside, List.reverse_append, List.reverse_reverse,
      List.append_assoc]
    congr 2
    simp

theorem Balanced.splitSum_append_sign (h : Balanced text) (hc : c = '+' ∨ c = '-')
    (rest : List Char) : splitSum (text ++ c :: rest) = splitSum text ++ splitSum (c :: rest) :=
  h.splitSumFrom_append_sign hc [] rest

/-- A text without signs outside its brackets is a term, with a minus in front of it or without. -/
theorem Balanced.splitSum_eq (h : Balanced text) (nonempty : text ≠ [])
    (outside : signOutside 0 text = false) :
    splitSum text = [text] ∧ splitSum ('+' :: text) = [text] ∧
      splitSum ('-' :: text) = ['-' :: text] := by
  have single {term : List Char} (h : term ≠ []) : consTerm term [] = [term] := by
    rw [consTerm, if_neg (by simpa using h)]
  have fresh : splitSum text = [text] := (h.splitSumFrom_eq outside []).trans (single nonempty)
  refine ⟨fresh, ?_, ?_⟩
  · rw [splitSum, splitSumFrom_plus]
    exact fresh
  · rw [splitSum, splitSumFrom_minus]
    exact (h.splitSumFrom_eq outside ['-']).trans (single (List.cons_ne_nil _ _))

/-! ## The text without its pluses -/

/-- A text without the pluses outside its brackets; `depth` counts the brackets opened before the
    text and not closed. -/
def withoutOuterPlus (depth : ℤ) : List Char → List Char
  | [] => []
  | c :: rest =>
    let depth' := if c = '(' then depth + 1 else if c = ')' then depth - 1 else depth
    if c = '+' ∧ depth = 0 then withoutOuterPlus depth' rest else c :: withoutOuterPlus depth' rest

theorem withoutOuterPlus_symbol (hopen : c ≠ '(') (hclose : c ≠ ')') (depth : ℤ)
    (rest : List Char) :
    withoutOuterPlus depth (c :: rest) =
      if c = '+' ∧ depth = 0 then withoutOuterPlus depth rest
      else c :: withoutOuterPlus depth rest := by
  rw [withoutOuterPlus, if_neg hopen, if_neg hclose]

theorem withoutOuterPlus_opening (depth : ℤ) (rest : List Char) :
    withoutOuterPlus depth ('(' :: rest) = '(' :: withoutOuterPlus (depth + 1) rest := rfl

theorem withoutOuterPlus_closing (depth : ℤ) (rest : List Char) :
    withoutOuterPlus depth (')' :: rest) = ')' :: withoutOuterPlus (depth - 1) rest := rfl

/-- Nothing goes inside brackets. -/
theorem Balanced.withoutOuterPlus_append (h : Balanced text) {depth : ℤ} (hd : 0 < depth)
    (rest : List Char) :
    withoutOuterPlus depth (text ++ rest) = text ++ withoutOuterPlus depth rest := by
  induction h generalizing depth rest with
  | nil => rfl
  | symbol hopen hclose _ ih =>
    rw [List.cons_append, withoutOuterPlus_symbol hopen hclose, if_neg fun h => hd.ne' h.2, ih hd]
    rfl
  | group _ _ ihInside ih =>
    simp only [List.cons_append, List.append_assoc]
    rw [withoutOuterPlus_opening, ihInside (by omega), withoutOuterPlus_closing,
      add_sub_cancel_right, ih hd]

theorem flatten_consTerm (term : List Char) (terms : List (List Char)) :
    (consTerm term terms).flatten = term ++ terms.flatten := by
  rw [consTerm]
  split
  · rename_i empty
    rw [List.isEmpty_iff.1 empty, List.nil_append]
  · rfl

theorem Balanced.flatten_splitSumFrom (h : Balanced text) (passed : List Char) :
    (splitSumFrom 0 passed text).flatten = passed.reverse ++ withoutOuterPlus 0 text := by
  induction h generalizing passed with
  | nil => exact flatten_consTerm _ _
  | @symbol c rest hopen hclose _ ih =>
    rw [withoutOuterPlus_symbol hopen hclose]
    by_cases hplus : c = '+'
    · rw [hplus, splitSumFrom_plus, flatten_consTerm, ih, if_pos ⟨rfl, rfl⟩]
      rfl
    rw [if_neg fun h => hplus h.1]
    by_cases hminus : c = '-'
    · rw [hminus, splitSumFrom_minus, flatten_consTerm, ih]
      rfl
    · rw [splitSumFrom_symbol hopen hclose hplus hminus, ih, List.reverse_cons, List.append_assoc]
      rfl
  | group hinside _ _ ih =>
    rw [hinside.splitSumFrom_group, ih, withoutOuterPlus_opening,
      hinside.withoutOuterPlus_append (by omega), withoutOuterPlus_closing]
    simp

/-- **The terms of a balanced text are no sums, and together they are the text without the pluses
    outside its brackets.** -/
theorem splitSum_partition (h : checkBrackets text = none) :
    (∀ term ∈ splitSum text, term ≠ [] ∧ checkBrackets term = none ∧ isSum term = false) ∧
      (splitSum text).flatten = withoutOuterPlus 0 text := by
  have balanced := checkBrackets_eq_none_iff.1 h
  refine ⟨fun term hterm => ?_, balanced.flatten_splitSumFrom []⟩
  obtain ⟨hne, hbalanced, single⟩ := balanced.of_mem_splitSum hterm
  exact ⟨hne, checkBrackets_eq_none_iff.2 hbalanced, single⟩

/-- A sum in brackets is one term, and the minus that ends a text is another. -/
theorem splitSum_partition_signs : checkBrackets "+-x+(1+y)z--".toList = none ∧
    splitSum "+-x+(1+y)z--".toList = ["-x".toList, "(1+y)z".toList, "-".toList, "-".toList] ∧
    (splitSum "+-x+(1+y)z--".toList).flatten = "-x(1+y)z--".toList :=
  ⟨by decide, by decide, (splitSum_partition (by decide)).2⟩

end SamePoly
