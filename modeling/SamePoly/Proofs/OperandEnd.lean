/-
  Where a raised group ends.

  The scan for the end of an operand in brackets passes every closing bracket in front of a power
  and counts it as closed once too often.  A group in an exponent makes up for that, a bare exponent
  does not: behind one the scan goes on into the text that follows.

  * `IsLink`, `IsTower`: what a group can be raised to, and powers on top of each other.
  * `PowerOperand`: a group at the start of a text with all of its powers.
  * `reach`, `reach_tower`: the part of a text that the scan reads.
  * `operandAfter_powerOperand`: the operand that is found, and what is found beyond it.
  * `WellFormed.exists_powerOperand`: every group of a well-formed text is an operand.
  * `operandEnd_powerOperand`: **the operand never ends too early, and it ends where it should
    exactly if the last exponent is a group or nothing stands behind it**.
-/
import SamePoly.Operand
import SamePoly.Proofs.Formula.Validity
import SamePoly.Proofs.Operators

namespace SamePoly

/-! ## Towers -/

/-- A symbol of a bare number: a digit, a separator or the imaginary unit. -/
def isNumeral (c : Char) : Bool := c.isDigit || isSeparator c || c == imaginaryUnit

/-- A bracket group, a variable, or a run of the symbols of numbers that the text behind it does
    not go on with. -/
inductive IsLink : List Char → List Char → Prop
  | group {inside : List Char} (rest : List Char) : Balanced inside → IsLink (bracketed inside) rest
  | letter {c : Char} (rest : List Char) : isVariable c = true → IsLink [c] rest
  | numeral {run rest : List Char} : run ≠ [] → (∀ c ∈ run, isNumeral c = true) →
      Ends isNumeral rest → IsLink run rest

/-- A power operator with spaces around it. -/
def IsPowerSign (sign : List Char) : Prop :=
  ∃ left operator right, sign = left ++ (operator ++ right) ∧ Spaces left ∧
    operator ∈ powerSpellings ∧ Spaces right

/-- A power operator and what stands behind it. -/
structure Raising where
  sign : List Char
  exponent : List Char

/-- The text of powers on top of each other. -/
def towerText : List Raising → List Char
  | [] => []
  | r :: tower => r.sign ++ (r.exponent ++ towerText tower)

/-- Powers on top of each other, and text behind them that does not start with a further one. -/
inductive IsTower : List Raising → List Char → Prop
  | nil {rest : List Char} : (∀ sign more, IsPowerSign sign → rest ≠ sign ++ more) →
      IsTower [] rest
  | cons {r : Raising} {tower : List Raising} {rest : List Char} : IsPowerSign r.sign →
      IsLink r.exponent (towerText tower ++ rest) → IsTower tower rest → IsTower (r :: tower) rest

/-- The last exponent, if there is one, is a group. -/
def endsInGroup (tower : List Raising) : Bool :=
  tower.getLast?.all fun r => r.exponent.head? == some '('

/-- A group at the start of a text, possibly behind spaces, and the powers that it is raised to. -/
structure PowerOperand (after : List Char) where
  spaces : List Char
  inside : List Char
  tower : List Raising
  rest : List Char
  isSpaces : Spaces spaces
  balanced : Balanced inside
  isTower : IsTower tower rest
  whole : after = spaces ++ (bracketed inside ++ (towerText tower ++ rest))

/-- The text of the group and its powers. -/
def PowerOperand.text {after : List Char} (o : PowerOperand after) : List Char :=
  o.spaces ++ (bracketed o.inside ++ towerText o.tower)

variable {text before after inside run rest spaces : List Char} {tower : List Raising}
variable {balance : ℤ}

/-! ## The scan -/

/-- What the scan for the end of a group reads: all of the text if it finds no end. -/
def reach (balance : ℤ) (text : List Char) : List Char :=
  match groupBeforePower? balance text with
  | some (inside, _) => inside ++ [')']
  | none => text

theorem reach_cons {c : Char} {next : ℤ}
    (step : groupBeforePower? balance (c :: rest) =
      (groupBeforePower? next rest).map fun x => (c :: x.1, x.2)) :
    reach balance (c :: rest) = c :: reach next rest := by
  rw [reach, step, reach]
  cases groupBeforePower? next rest <;> rfl

/-- A closing bracket ends the scan at balance zero, unless a power stands behind it. -/
theorem reach_closing (balance : ℤ) (rest : List Char) :
    reach balance (')' :: rest) =
      ')' :: if balance = 0 ∧ startsPower rest = false then [] else reach (balance - 1) rest := by
  by_cases ends : balance = 0 ∧ startsPower rest = false
  · rw [if_pos ends]
    simp [reach, groupBeforePower?, ends]
  · rw [if_neg ends]
    refine reach_cons ?_
    rw [groupBeforePower?, if_neg (by simpa using ends)]
    rfl

/-- Symbols that are no brackets are passed. -/
theorem reach_run (hrun : ∀ c ∈ run, c ≠ '(' ∧ c ≠ ')') (rest : List Char) :
    reach balance (run ++ rest) = run ++ reach balance rest := by
  induction run with
  | nil => rfl
  | cons c run ih =>
    obtain ⟨⟨hopen, hclose⟩, hrun⟩ := List.forall_mem_cons.1 hrun
    rw [List.cons_append, reach_cons (groupBeforePower?_symbol hopen hclose _ _), ih hrun,
      List.cons_append]

/-- Balanced text is passed as well. -/
theorem reach_append (h : Balanced text) (hb : 0 ≤ balance) (rest : List Char) :
    reach balance (text ++ rest) = text ++ reach balance rest := by
  rw [reach, h.groupBeforePower?_append hb, reach]
  cases groupBeforePower? balance rest <;> simp

/-- A group ends if no power stands behind it.  Otherwise its bracket counts as closed twice. -/
theorem reach_group (h : Balanced inside) (rest : List Char) :
    reach 0 (inside ++ ')' :: rest) =
      inside ++ ')' :: if startsPower rest = true then reach (-1) rest else [] := by
  rw [reach_append h le_rfl, reach_closing]
  by_cases power : startsPower rest = true <;> simp [power]

theorem IsPowerSign.symbols {sign : List Char} (h : IsPowerSign sign) :
    ∀ c ∈ sign, c ≠ '(' ∧ c ≠ ')' := by
  obtain ⟨left, operator, right, rfl, hleft, hoperator, hright⟩ := h
  have space {spaces : List Char} (h : Spaces spaces) : ∀ c ∈ spaces, c ≠ '(' ∧ c ≠ ')' := by
    intro c hc
    rw [h c hc]
    decide
  have power : ∀ c ∈ operator, c ≠ '(' ∧ c ≠ ')' := by
    rcases List.mem_cons.1 hoperator with rfl | hoperator
    · simp
    · rw [List.mem_singleton.1 hoperator]
      simp
  simp only [List.forall_mem_append]
  exact ⟨space hleft, power, space hright⟩

theorem IsPowerSign.startsPower {sign : List Char} (h : IsPowerSign sign) (rest : List Char) :
    startsPower (sign ++ rest) = true := by
  obtain ⟨left, operator, right, rfl, hleft, hoperator, -⟩ := h
  rw [SamePoly.startsPower, List.append_assoc, hleft.dropWhile, List.append_assoc]
  rcases List.mem_cons.1 hoperator with rfl | hoperator
  · rfl
  · rw [List.mem_singleton.1 hoperator]
    rfl

theorem spaces_takeWhile (text : List Char) : Spaces (text.takeWhile (· == ' ')) := by
  intro c hc
  simpa using List.mem_takeWhile_imp hc

theorem exists_of_startsPower (h : startsPower text = true) :
    ∃ spaces operator rest, text = spaces ++ (operator ++ rest) ∧ Spaces spaces ∧
      operator ∈ powerSpellings := by
  have whole := List.takeWhile_append_dropWhile (p := (· == ' ')) (l := text)
  have spaces := spaces_takeWhile text
  rw [startsPower] at h
  split at h
  · rename_i rest heq
    rw [heq] at whole
    exact ⟨_, ['^'], rest, whole.symm, spaces, List.mem_cons_self⟩
  · rename_i rest heq
    rw [heq] at whole
    exact ⟨_, ['*', '*'], rest, whole.symm, spaces, List.mem_cons_of_mem _ List.mem_cons_self⟩
  · cases h

/-- A power starts exactly where a power operator stands. -/
theorem startsPower_eq_false_iff :
    startsPower text = false ↔ ∀ sign more, IsPowerSign sign → text ≠ sign ++ more := by
  constructor
  · rintro plain sign more hsign rfl
    rw [hsign.startsPower] at plain
    cases plain
  · intro h
    rw [← Bool.not_eq_true]
    intro power
    obtain ⟨spaces, operator, rest, rfl, hspaces, hoperator⟩ := exists_of_startsPower power
    have sign : IsPowerSign (spaces ++ (operator ++ [])) :=
      ⟨spaces, operator, [], rfl, hspaces, hoperator, nofun⟩
    exact h _ rest sign (by simp)

theorem endsInGroup_cons (r : Raising) (htower : tower ≠ []) :
    endsInGroup (r :: tower) = endsInGroup tower := by
  cases tower with
  | nil => exact absurd rfl htower
  | cons s tower => rw [endsInGroup, List.getLast?_cons_cons, endsInGroup]

theorem isNumeral_symbol {c : Char} (h : isNumeral c = true) : c ≠ '(' ∧ c ≠ ')' := by
  constructor <;>
    · rintro rfl
      cases h

theorem startsPower_tower (h : IsTower tower rest) :
    startsPower (towerText tower ++ rest) = !tower.isEmpty := by
  cases h with
  | nil plain => exact startsPower_eq_false_iff.2 plain
  | cons sign _ _ =>
    rw [towerText, List.append_assoc, sign.startsPower]
    rfl

/-- Behind the first closing bracket of a raised group, the scan reads all powers.  It stops there
    if the last exponent is a group, and goes on if it is bare. -/
theorem reach_tower (h : IsTower tower rest) (htower : tower ≠ []) :
    reach (-1) (towerText tower ++ rest) =
      towerText tower ++ if endsInGroup tower = true then [] else reach (-1) rest := by
  induction h with
  | nil _ => exact absurd rfl htower
  | @cons r tower rest sign link isTower ih =>
    obtain ⟨sign', exponent⟩ := r
    simp only [towerText, List.append_assoc] at *
    rw [reach_run sign.symbols]
    congr 1
    -- A bare exponent leaves the count at -1, so what follows decides.
    have bare (hrun : ∀ c ∈ exponent, c ≠ '(' ∧ c ≠ ')') :
        reach (-1) (exponent ++ (towerText tower ++ rest)) = exponent ++ (towerText tower ++
          if endsInGroup (⟨sign', exponent⟩ :: tower) = true then [] else reach (-1) rest) := by
      rw [reach_run hrun]
      cases tower with
      | nil =>
        have last : endsInGroup [⟨sign', exponent⟩] = false := by
          rw [endsInGroup, List.getLast?_singleton, Option.all_some, beq_eq_false_iff_ne]
          exact fun he => (hrun '(' (List.mem_of_mem_head? he)).1 rfl
        rw [last]
        rfl
      | cons s tower => rw [ih (List.cons_ne_nil _ _), endsInGroup_cons _ (List.cons_ne_nil _ _)]
    cases link with
    | @group inside _ balanced =>
      -- The opening bracket brings the count back to 0.
      rw [bracketed_append, reach_cons (groupBeforePower?_opening _ _), neg_add_cancel,
        reach_group balanced, startsPower_tower isTower, bracketed_append]
      cases tower with
      | nil => rfl
      | cons s tower =>
        rw [ih (List.cons_ne_nil _ _), endsInGroup_cons _ (List.cons_ne_nil _ _)]
        rfl
    | letter _ letter =>
      refine bare (List.forall_mem_singleton.2 ⟨?_, ?_⟩) <;>
        · rintro rfl
          cases letter
    | numeral _ numeric _ => exact bare fun c hc => isNumeral_symbol (numeric c hc)

/-! ## The operand -/

theorem operandAfter_opening (h : Spaces spaces) (rest : List Char) :
    operandAfter (spaces ++ '(' :: rest) = spaces ++ '(' :: reach 0 rest := by
  rw [operandAfter.eq_def, h.takeWhile (.cons (by decide)), h.dropWhile, List.dropWhile_cons,
    if_neg (by decide), reach]
  cases found : groupBeforePower? 0 rest <;> simp [found]

/-- **The operand that is found is the group with its powers, and more behind a bare exponent.** -/
theorem operandAfter_powerOperand (o : PowerOperand after) :
    operandAfter after =
      o.text ++ if endsInGroup o.tower = true then [] else reach (-1) o.rest := by
  obtain ⟨spaces, inside, tower, rest, hspaces, balanced, isTower, whole⟩ := o
  show operandAfter after = spaces ++ (bracketed inside ++ towerText tower) ++
    if endsInGroup tower = true then [] else reach (-1) rest
  rw [whole, bracketed_append, operandAfter_opening hspaces, reach_group balanced,
    startsPower_tower isTower, bracketed_append]
  cases tower with
  | nil =>
    simp [towerText, endsInGroup]
  | cons r tower =>
    rw [if_pos (by rfl), reach_tower isTower (List.cons_ne_nil _ _)]
    simp

/-- The scan reads nothing only where nothing is left. -/
theorem reach_eq_nil_iff : reach balance text = [] ↔ text = [] := by
  rw [reach]
  cases found : groupBeforePower? balance text with
  | none => rfl
  | some x =>
    have split := groupBeforePower?_append found
    simp only [List.append_eq_nil_iff, List.cons_ne_nil, and_false, false_iff]
    rintro rfl
    simp at split

theorem utf8Length_eq_zero_iff : utf8Length text = 0 ↔ text = [] := by
  cases text with
  | nil => exact ⟨fun _ => rfl, fun _ => rfl⟩
  | cons c text =>
    have := Char.utf8Size_pos c
    simp only [utf8Length, reduceCtorEq, iff_false]
    omega

/-! ## The operands of well-formed text -/

/-- Spaces go in front of what is ahead. -/
theorem exists_spaces {d : Char} (h : ahead text = some d) :
    ∃ spaces rest, text = spaces ++ d :: rest ∧ Spaces spaces ∧ d ≠ ' ' := by
  obtain ⟨spaces, rest, whole, run⟩ := exists_run_of_head?_dropWhile h
  exact ⟨spaces, rest, whole, fun c hc => beq_iff_eq.1 (run c hc), (mem_of_ahead h).2⟩

/-- Behind a power operator stands something that can be an exponent. -/
theorem WellFormed.exists_link (h : WellFormed (before ++ text)) (behind : OperandAhead text) :
    ∃ spaces link rest, text = spaces ++ (link ++ rest) ∧ Spaces spaces ∧ IsLink link rest ∧
      link ≠ [] := by
  obtain ⟨d, hd, noOperator, closing⟩ := behind
  obtain ⟨spaces, rest, rfl, hspaces, space⟩ := exists_spaces hd
  have numeral (numeric : isNumeral d = true) : ∃ link more, d :: rest = link ++ more ∧
      IsLink link more ∧ link ≠ [] := by
    have nonempty : (d :: rest).takeWhile isNumeral ≠ [] := by
      rw [List.takeWhile_cons, if_pos numeric]
      exact List.cons_ne_nil _ _
    exact ⟨_, _, List.takeWhile_append_dropWhile.symm,
      .numeral nonempty (fun c hc => List.mem_takeWhile_imp hc) (ends_dropWhile _), nonempty⟩
  suffices ∃ link more, d :: rest = link ++ more ∧ IsLink link more ∧ link ≠ [] by
    obtain ⟨link, more, same, hlink⟩ := this
    exact ⟨spaces, link, more, by rw [same], hspaces, hlink⟩
  rcases isExpected_cases (h.expected d (by simp)) with hd | hd | hd | hd | rfl | rfl | rfl
  · by_cases letter : isVariable d = true
    · exact ⟨[d], rest, rfl, .letter rest letter, List.cons_ne_nil _ _⟩
    · refine numeral ?_
      rw [isVariable, hd, Bool.true_and, bne_iff_ne, not_not] at letter
      rw [isNumeral, letter, beq_self_eq_true, Bool.or_true]
  · exact numeral (by rw [isNumeral, hd, Bool.true_or, Bool.true_or])
  · rw [noOperator] at hd
    cases hd
  · exact numeral (by rw [isNumeral, hd, Bool.or_true, Bool.true_or])
  · rw [← List.append_assoc] at h
    obtain ⟨inside, after, rfl, balanced⟩ := h.balanced.exists_group rfl
    exact ⟨bracketed inside, after, (bracketed_append inside after).symm, .group after balanced,
      List.cons_ne_nil _ _⟩
  · exact absurd rfl closing
  · exact absurd rfl space

/-- All powers behind a place of a well-formed text. -/
theorem WellFormed.exists_tower (h : WellFormed (before ++ text)) :
    ∃ tower rest, IsTower tower rest ∧ text = towerText tower ++ rest := by
  induction hn : text.length using Nat.strongRecOn generalizing before text with
  | ind n ih =>
    by_cases power : startsPower text = true
    · obtain ⟨left, operator, tail, rfl, hleft, hoperator⟩ := exists_of_startsPower power
      rw [← List.append_assoc] at h
      have fits := h.operators.right
      have behind : OperandAhead tail := by
        rcases List.mem_cons.1 hoperator with rfl | hoperator
        · exact fits.1.behind_caret
        · rw [List.mem_singleton.1 hoperator] at fits
          exact fits.1.behind_stars fits.2.1
      rw [← List.append_assoc] at h
      obtain ⟨right, link, more, rfl, hright, hlink, nonempty⟩ := h.exists_link behind
      have shorter : more.length < n := by
        have := List.length_pos_of_ne_nil nonempty
        simp only [List.length_append] at hn
        omega
      rw [← List.append_assoc, ← List.append_assoc] at h
      obtain ⟨tower, rest, htower, rfl⟩ := ih _ shorter h rfl
      refine ⟨⟨left ++ (operator ++ right), link⟩ :: tower, rest,
        .cons ⟨left, operator, right, rfl, hleft, hoperator, hright⟩ hlink htower, ?_⟩
      simp [towerText]
    · rw [Bool.not_eq_true, startsPower_eq_false_iff] at power
      exact ⟨[], text, .nil power, rfl⟩

/-- **Every group of a well-formed text is an operand with its powers.** -/
theorem WellFormed.exists_powerOperand (h : WellFormed (before ++ after))
    (group : ahead after = some '(') : Nonempty (PowerOperand after) := by
  obtain ⟨spaces, more, rfl, hspaces, -⟩ := exists_spaces group
  rw [← List.append_assoc] at h
  obtain ⟨inside, behind, rfl, balanced⟩ := h.balanced.exists_group rfl
  have whole : before ++ spaces ++ '(' :: (inside ++ ')' :: behind) =
      (before ++ spaces ++ bracketed inside) ++ behind := by simp [bracketed]
  rw [whole] at h
  obtain ⟨tower, rest, htower, rfl⟩ := h.exists_tower
  exact ⟨spaces, inside, tower, rest, hspaces, balanced, htower, by rw [bracketed_append]⟩

/-! ## The end of the operand -/

/-- **The operand behind a place of a well-formed text never ends before the powers of its group
    do, and it ends there exactly if the last exponent is a group or nothing is left behind it.** -/
theorem operandEnd_powerOperand (h : malformed? text = none) (whole : text = before ++ after)
    (group : ahead after = some '(') :
    Nonempty (PowerOperand after) ∧ ∀ o : PowerOperand after,
      utf8Length (before ++ o.text) ≤ operandEnd text (utf8Length before) ∧
        (operandEnd text (utf8Length before) = utf8Length (before ++ o.text) ↔
          endsInGroup o.tower = true ∨ o.rest = []) := by
  subst whole
  refine ⟨(malformed?_eq_none_iff.1 h).exists_powerOperand group, fun o => ?_⟩
  have ends : operandEnd (before ++ after) (utf8Length before) =
      utf8Length before + utf8Length (operandAfter after) := by
    obtain ⟨c, rest, rfl⟩ : ∃ c rest, after = c :: rest := by
      cases after with
      | nil => cases group
      | cons c rest => exact ⟨c, rest, rfl⟩
    rw [operandEnd, cut_utf8Length]
    simp
  rw [ends, operandAfter_powerOperand o]
  simp only [utf8Length_append]
  by_cases last : endsInGroup o.tower = true
  · simp [last, utf8Length]
  · have beyond : utf8Length (reach (-1) o.rest) = 0 ↔ o.rest = [] := by
      rw [utf8Length_eq_zero_iff, reach_eq_nil_iff]
    simp only [last, Bool.false_eq_true, if_false, false_or, ← beyond]
    omega

theorem isTower_single {link : List Char} (h : IsLink link rest)
    (plain : startsPower rest = false) : IsTower [⟨['^'], link⟩] rest :=
  .cons ⟨[], ['^'], [], rfl, nofun, List.mem_cons_self, nofun⟩ h
    (.nil (startsPower_eq_false_iff.1 plain))

/-- The divisor of `1/(2)^(3)+x` ends behind its exponent. -/
theorem operandEnd_group_exponent : malformed? "1/(2)^(3)+x".toList = none ∧
    ∃ o : PowerOperand "(2)^(3)+x".toList, o.text = "(2)^(3)".toList ∧
      operandEnd "1/(2)^(3)+x".toList 2 = utf8Length ("1/".toList ++ o.text) := by
  have fine : malformed? "1/(2)^(3)+x".toList = none := by decide +kernel
  have whole : "1/(2)^(3)+x".toList = "1/".toList ++ "(2)^(3)+x".toList := by decide
  have tower : IsTower [⟨['^'], bracketed ['3']⟩] "+x".toList :=
    isTower_single (.group _ (.symbol (by decide) (by decide) .nil)) rfl
  obtain ⟨-, ends⟩ := operandEnd_powerOperand fine whole rfl
  exact ⟨fine, ⟨[], ['2'], _, _, nofun, .symbol (by decide) (by decide) .nil, tower, rfl⟩, rfl,
    (ends _).2.2 (.inl rfl)⟩

/-- The divisor of `1/(2)^3+x` should end behind its exponent at place 7, and is the whole rest. -/
theorem operandEnd_bare_exponent : malformed? "1/(2)^3+x".toList = none ∧
    ∃ o : PowerOperand "(2)^3+x".toList, o.text = "(2)^3".toList ∧
      utf8Length ("1/".toList ++ o.text) = 7 ∧ operandEnd "1/(2)^3+x".toList 2 = 9 := by
  have fine : malformed? "1/(2)^3+x".toList = none := by decide +kernel
  have digit : IsLink ['3'] "+x".toList :=
    .numeral (List.cons_ne_nil _ _) (List.forall_mem_singleton.2 rfl) (.cons rfl)
  have tower : IsTower [⟨['^'], ['3']⟩] "+x".toList := isTower_single digit rfl
  exact ⟨fine, ⟨[], ['2'], _, _, nofun, .symbol (by decide) (by decide) .nil, tower, rfl⟩, rfl, rfl,
    by decide⟩

end SamePoly
