/-
  Balanced text.

  Balanced text is a chain of symbols and bracket groups, and every function that follows the
  brackets of a text steps over a balanced part of it.  What each of these functions does at one
  symbol is stated once, and later proofs cite these steps.

  * `Balanced`: text whose brackets are closed in order.
  * `checkBrackets_eq_none_iff`: the bracket check finds no fault exactly in balanced text.
  * `Balanced.group?_append`: a balanced group is found whole.
  * `balanced_of_group?`: a group that is found is balanced.
  * `Balanced.signOutside_append`, `Balanced.letterInside_append`,
    `Balanced.splitSumFrom_append`, `Balanced.deepest_append`,
    `Balanced.groupBeforePower?_append`: the steps of the functions that count brackets.
-/
import Mathlib
import SamePoly.Malformed.Brackets
import SamePoly.Summands
import SamePoly.Normal

namespace SamePoly

/-- Text whose brackets are closed in order. -/
inductive Balanced : List Char → Prop
  | nil : Balanced []
  | symbol {c : Char} {rest : List Char} (hopen : c ≠ '(') (hclose : c ≠ ')') :
      Balanced rest → Balanced (c :: rest)
  | group {inside rest : List Char} :
      Balanced inside → Balanced rest → Balanced ('(' :: (inside ++ ')' :: rest))

/-- A letter other than the imaginary unit. -/
def isLetter (c : Char) : Bool := c != imaginaryUnit && isAlphabetic c

/-! ## Steps of the functions that follow brackets -/

section Steps

variable {c : Char}

theorem splitAtMatch_target_zero (target nested : Char) (rest : List Char) :
    splitAtMatch target nested 0 (target :: rest) = some ([], rest) := by
  simp [splitAtMatch]

theorem splitAtMatch_target_succ (target nested : Char) (depth : ℕ) (rest : List Char) :
    splitAtMatch target nested (depth + 1) (target :: rest) =
      (splitAtMatch target nested depth rest).map fun x => (target :: x.1, x.2) := by
  simp [splitAtMatch]

theorem splitAtMatch_nested {target nested : Char} (h : nested ≠ target) (depth : ℕ)
    (rest : List Char) :
    splitAtMatch target nested depth (nested :: rest) =
      (splitAtMatch target nested (depth + 1) rest).map fun x => (nested :: x.1, x.2) := by
  rw [splitAtMatch.eq_def]
  simp [h]

theorem splitAtMatch_symbol {target nested : Char} (hnested : c ≠ nested) (htarget : c ≠ target)
    (depth : ℕ) (rest : List Char) :
    splitAtMatch target nested depth (c :: rest) =
      (splitAtMatch target nested depth rest).map fun x => (c :: x.1, x.2) := by
  rw [splitAtMatch.eq_def]
  dsimp only
  rw [if_neg (by simpa using htarget), if_neg (by simpa using hnested)]

theorem groupBeforePower?_opening (balance : ℤ) (rest : List Char) :
    groupBeforePower? balance ('(' :: rest) =
      (groupBeforePower? (balance + 1) rest).map fun x => ('(' :: x.1, x.2) := rfl

theorem groupBeforePower?_closing {balance : ℤ} (hb : balance ≠ 0) (rest : List Char) :
    groupBeforePower? balance (')' :: rest) =
      (groupBeforePower? (balance - 1) rest).map fun x => (')' :: x.1, x.2) := by
  rw [groupBeforePower?, beq_eq_false_iff_ne.2 hb]
  rfl

theorem groupBeforePower?_symbol (hopen : c ≠ '(') (hclose : c ≠ ')') (balance : ℤ)
    (rest : List Char) :
    groupBeforePower? balance (c :: rest) =
      (groupBeforePower? balance rest).map fun x => (c :: x.1, x.2) := by
  simp [groupBeforePower?, hopen, hclose]

theorem signOutside_opening (depth : ℤ) (rest : List Char) :
    signOutside depth ('(' :: rest) = signOutside (depth + 1) rest := rfl

theorem signOutside_closing (depth : ℤ) (rest : List Char) :
    signOutside depth (')' :: rest) = signOutside (depth - 1) rest := rfl

theorem signOutside_symbol (hopen : c ≠ '(') (hclose : c ≠ ')') (rest : List Char) :
    signOutside 0 (c :: rest) = ((c == '+' || c == '-') || signOutside 0 rest) := by
  rw [signOutside, if_neg (by simpa using hopen), if_neg (by simpa using hclose)]
  cases (c == '+' || c == '-') <;> rfl

theorem isSum_symbol (hopen : c ≠ '(') (hclose : c ≠ ')') (rest : List Char) :
    isSum (c :: rest) = signOutside 0 rest := by
  rw [isSum, if_neg (by simpa using hopen), if_neg (by simpa using hclose)]

theorem letterInside_opening (depth : ℤ) (rest : List Char) :
    letterInside depth ('(' :: rest) = letterInside (depth + 1) rest := rfl

theorem letterInside_closing (depth : ℤ) (rest : List Char) :
    letterInside depth (')' :: rest) = letterInside (depth - 1) rest := rfl

theorem letterInside_symbol (hopen : c ≠ '(') (hclose : c ≠ ')') (rest : List Char) :
    letterInside 0 (c :: rest) = letterInside 0 rest := by
  rw [letterInside, if_neg (by simpa using hopen), if_neg (by simpa using hclose),
    if_neg (by simp)]

theorem splitSumFrom_opening (depth : ℕ) (term rest : List Char) :
    splitSumFrom depth term ('(' :: rest) = splitSumFrom (depth + 1) ('(' :: term) rest := rfl

theorem splitSumFrom_closing (depth : ℕ) (term rest : List Char) :
    splitSumFrom depth term (')' :: rest) = splitSumFrom (depth - 1) (')' :: term) rest := rfl

theorem splitSumFrom_symbol (hopen : c ≠ '(') (hclose : c ≠ ')') (hplus : c ≠ '+')
    (hminus : c ≠ '-') (term rest : List Char) :
    splitSumFrom 0 term (c :: rest) = splitSumFrom 0 (c :: term) rest := by
  rw [splitSumFrom, if_neg (by simpa using hopen), if_neg (by simpa using hclose),
    if_neg (by simp [hplus]), if_neg (by simp [hminus])]

theorem splitSumFrom_plus (term rest : List Char) :
    splitSumFrom 0 term ('+' :: rest) = consTerm term.reverse (splitSumFrom 0 [] rest) := rfl

theorem splitSumFrom_minus (term rest : List Char) :
    splitSumFrom 0 term ('-' :: rest) = consTerm term.reverse (splitSumFrom 0 ['-'] rest) := rfl

theorem deepest_symbol (hopen : c ≠ '(') (hclose : c ≠ ')') (depth : ℕ) (rest : List Char) :
    deepest depth (c :: rest) = deepest depth rest := by
  rw [deepest]
  · exact hopen
  · exact hclose

theorem checkBracketsFrom_symbol (hopen : c ≠ '(') (hclose : c ≠ ')') (position : ℕ)
    (opened : List ℕ) (rest : List Char) :
    checkBracketsFrom position opened (c :: rest) =
      checkBracketsFrom (position + 1) opened rest := by
  rw [checkBracketsFrom.eq_def]
  dsimp only
  rw [if_neg (by simpa using hopen), if_neg (by simpa using hclose)]

theorem checkBracketsFrom_opening (position : ℕ) (opened : List ℕ) (rest : List Char) :
    checkBracketsFrom position opened ('(' :: rest) =
      checkBracketsFrom (position + 1) (position :: opened) rest := by
  rw [checkBracketsFrom.eq_def]
  rfl

theorem checkBracketsFrom_closing (position place : ℕ) (opened : List ℕ) (rest : List Char) :
    checkBracketsFrom position (place :: opened) (')' :: rest) =
      checkBracketsFrom (position + 1) opened rest := rfl

end Steps

namespace Balanced

variable {text inside rest : List Char}

theorem append (h : Balanced text) (hr : Balanced rest) : Balanced (text ++ rest) := by
  induction h with
  | nil => exact hr
  | symbol hopen hclose _ ih => exact .symbol hopen hclose ih
  | group hinside _ _ ih =>
    rw [List.cons_append, List.append_assoc, List.cons_append]
    exact .group hinside ih

theorem single_group (h : Balanced inside) : Balanced ('(' :: (inside ++ [')'])) := .group h .nil

/-- Text without brackets is balanced. -/
theorem of_forall (h : ∀ c ∈ text, c ≠ '(' ∧ c ≠ ')') : Balanced text := by
  induction text with
  | nil => exact .nil
  | cons c text ih =>
    obtain ⟨hopen, hclose⟩ := h c List.mem_cons_self
    exact .symbol hopen hclose (ih fun d hd => h d (List.mem_cons_of_mem _ hd))

/-! ## Finding the end of a group -/

theorem splitAtMatch_append (h : Balanced text) (depth : ℕ) (rest : List Char) :
    splitAtMatch ')' '(' depth (text ++ rest) =
      (splitAtMatch ')' '(' depth rest).map fun x => (text ++ x.1, x.2) := by
  induction h generalizing depth rest with
  | nil => exact Option.map_id'.symm
  | symbol hopen hclose _ ih =>
    rw [List.cons_append, splitAtMatch_symbol hopen hclose, ih, Option.map_map]
    rfl
  | group _ _ ihInside ih =>
    rw [List.cons_append, List.append_assoc, List.cons_append, splitAtMatch_nested (by decide), ihInside,
      splitAtMatch_target_succ, ih, Option.map_map, Option.map_map, Option.map_map]
    congr 1
    funext x
    simp

/-- A balanced group is found whole. -/
theorem group?_append (h : Balanced inside) (rest : List Char) :
    group? (inside ++ ')' :: rest) = some (inside, rest) := by
  rw [group?, h.splitAtMatch_append, splitAtMatch_target_zero, Option.map_some, List.append_nil]

/-- The group behind an opening bracket is determined by the text. -/
theorem group_unique {inside' rest' : List Char} (h : Balanced inside) (h' : Balanced inside')
    (same : inside ++ ')' :: rest = inside' ++ ')' :: rest') : inside = inside' ∧ rest = rest' := by
  have found := h.group?_append rest
  rw [same, h'.group?_append] at found
  cases found
  exact ⟨rfl, rfl⟩

theorem of_symbol {c : Char} (hopen : c ≠ '(') (h : Balanced (c :: rest)) :
    c ≠ ')' ∧ Balanced rest := by
  cases h with
  | symbol _ hclose hrest => exact ⟨hclose, hrest⟩
  | group _ _ => exact absurd rfl hopen

theorem of_opening (h : Balanced ('(' :: rest)) :
    ∃ inside after, rest = inside ++ ')' :: after ∧ Balanced inside ∧ Balanced after := by
  cases h with
  | symbol hopen _ _ => exact absurd rfl hopen
  | group hinside hafter => exact ⟨_, _, rfl, hinside, hafter⟩

/-- What stands behind a balanced part is balanced. -/
theorem of_append (ht : Balanced text) (h : Balanced (text ++ rest)) : Balanced rest := by
  induction ht with
  | nil => exact h
  | symbol hopen _ _ ih => exact ih (h.of_symbol hopen).2
  | group hinside _ _ ih =>
    rw [List.cons_append, List.append_assoc, List.cons_append] at h
    obtain ⟨inside', after, same, hinside', hafter⟩ := h.of_opening
    obtain ⟨rfl, rfl⟩ := hinside.group_unique hinside' same
    exact ih hafter

/-- Every opening bracket of balanced text is closed. -/
theorem exists_group {before : List Char} (h : Balanced text)
    (whole : text = before ++ '(' :: rest) :
    ∃ inside after, rest = inside ++ ')' :: after ∧ Balanced inside := by
  induction h generalizing before rest with
  | nil => cases before <;> cases whole
  | symbol hopen _ _ ih =>
    cases before with
    | nil =>
      cases whole
      exact absurd rfl hopen
    | cons c before =>
      cases whole
      exact ih rfl
  | @group inside tail balanced _ ihInside ih =>
    cases before with
    | nil =>
      cases whole
      exact ⟨inside, tail, rfl, balanced⟩
    | cons c before =>
      obtain ⟨rfl, same⟩ := List.cons.inj whole
      rcases List.append_eq_append_iff.1 same with ⟨gap, hbefore, hrest⟩ | ⟨gap, hinside, hrest⟩
      · cases gap with
        | nil => cases hrest
        | cons c gap =>
          cases hrest
          exact ih rfl
      · cases gap with
        | nil => cases hrest
        | cons c gap =>
          cases hrest
          obtain ⟨inside', after, rfl, balanced'⟩ := ihInside hinside
          exact ⟨inside', after ++ ')' :: tail, by simp, balanced'⟩

theorem groupBeforePower?_append (h : Balanced text) {balance : ℤ} (hb : 0 ≤ balance)
    (rest : List Char) :
    groupBeforePower? balance (text ++ rest) =
      (groupBeforePower? balance rest).map fun x => (text ++ x.1, x.2) := by
  induction h generalizing balance rest with
  | nil => exact Option.map_id'.symm
  | symbol hopen hclose _ ih =>
    rw [List.cons_append, groupBeforePower?_symbol hopen hclose, ih hb, Option.map_map]
    rfl
  | group _ _ ihInside ih =>
    rw [List.cons_append, List.append_assoc, List.cons_append, groupBeforePower?_opening,
      ihInside (by omega), groupBeforePower?_closing (by omega), add_sub_cancel_right, ih hb,
      Option.map_map, Option.map_map, Option.map_map]
    congr 1
    funext x
    simp

/-- A balanced group that is not raised to a power is an operand of its own. -/
theorem groupBeforePower?_group (h : Balanced inside) {rest : List Char}
    (hr : startsPower rest = false) :
    groupBeforePower? 0 (inside ++ ')' :: rest) = some (inside, rest) := by
  simp [h.groupBeforePower?_append le_rfl, groupBeforePower?, hr]

/-! ## Functions that count brackets -/

theorem signOutside_append (h : Balanced text) {depth : ℤ} (hd : 0 < depth) (rest : List Char) :
    signOutside depth (text ++ rest) = signOutside depth rest := by
  induction h generalizing depth rest with
  | nil => rfl
  | symbol hopen hclose _ ih =>
    rw [List.cons_append, signOutside, if_neg (by simpa using hopen), if_neg (by simpa using hclose),
      if_neg, ih hd]
    rw [Bool.and_eq_true, beq_iff_eq]
    exact fun hz => hd.ne' hz.2
  | group _ _ ihInside ih =>
    rw [List.cons_append, List.append_assoc, List.cons_append, signOutside_opening,
      ihInside (by omega), signOutside_closing, add_sub_cancel_right, ih hd]

/-- A sign that stands outside all brackets is found behind a group as well. -/
theorem signOutside_group (h : Balanced inside) (rest : List Char) :
    signOutside 0 ('(' :: (inside ++ ')' :: rest)) = signOutside 0 rest := by
  rw [signOutside_opening, h.signOutside_append (by omega), signOutside_closing,
    add_sub_cancel_right]

theorem isSum_group (h : Balanced inside) (rest : List Char) :
    isSum ('(' :: (inside ++ ')' :: rest)) = signOutside 0 rest := by
  rw [← h.signOutside_group, isSum, signOutside]
  rfl

theorem letterInside_append (h : Balanced text) {depth : ℤ} (hd : 0 < depth) (rest : List Char) :
    letterInside depth (text ++ rest) = (text.any isLetter || letterInside depth rest) := by
  have bracket : isLetter '(' = false ∧ isLetter ')' = false := by decide +kernel
  induction h generalizing depth rest with
  | nil => rfl
  | @symbol c tail hopen hclose _ ih =>
    rw [List.cons_append, letterInside, if_neg (by simpa using hopen),
      if_neg (by simpa using hclose), List.any_cons, decide_eq_true hd, Bool.true_and, ← isLetter]
    split
    · rename_i letter
      rw [letter, Bool.true_or, Bool.true_or]
    · rename_i letter
      rw [Bool.not_eq_true] at letter
      rw [letter, Bool.false_or, ih hd]
  | @group inside tail _ _ ihInside ih =>
    rw [List.cons_append, List.append_assoc, List.cons_append, letterInside_opening,
      ihInside (by omega), letterInside_closing, add_sub_cancel_right, ih hd, List.any_cons,
      List.any_append, List.any_cons, bracket.1, bracket.2, Bool.false_or, Bool.false_or,
      Bool.or_assoc]

theorem letterInside_group (h : Balanced inside) (rest : List Char) :
    letterInside 0 ('(' :: (inside ++ ')' :: rest)) =
      (inside.any isLetter || letterInside 0 rest) := by
  rw [letterInside_opening, h.letterInside_append (by omega), letterInside_closing,
    add_sub_cancel_right]

theorem splitSumFrom_append (h : Balanced text) (depth : ℕ) (term rest : List Char) :
    splitSumFrom (depth + 1) term (text ++ rest) =
      splitSumFrom (depth + 1) (text.reverse ++ term) rest := by
  induction h generalizing depth term rest with
  | nil => rfl
  | @symbol c tail hopen hclose _ ih =>
    rw [List.cons_append, splitSumFrom, if_neg (by simpa using hopen),
      if_neg (by simpa using hclose), if_neg (by simp), if_neg (by simp), ih, List.reverse_cons,
      List.append_assoc, List.singleton_append]
  | @group inside tail _ _ ihInside ih =>
    rw [List.cons_append, List.append_assoc, List.cons_append, splitSumFrom_opening, ihInside,
      splitSumFrom_closing, Nat.add_sub_cancel, ih]
    congr 1
    simp

/-- A group belongs to the term it stands in. -/
theorem splitSumFrom_group (h : Balanced inside) (term rest : List Char) :
    splitSumFrom 0 term ('(' :: (inside ++ ')' :: rest)) =
      splitSumFrom 0 (('(' :: (inside ++ [')'])).reverse ++ term) rest := by
  rw [splitSumFrom_opening, h.splitSumFrom_append, splitSumFrom_closing, zero_add, Nat.sub_self]
  congr 1
  simp

theorem le_deepest (text : List Char) (depth : ℕ) : depth ≤ deepest depth text := by
  induction text generalizing depth with
  | nil => exact le_rfl
  | cons c text ih =>
    by_cases hopen : c = '('
    · rw [hopen, deepest]
      exact (Nat.le_succ depth).trans (ih _)
    · by_cases hclose : c = ')'
      · rw [hclose, deepest]
        exact le_max_left _ _
      · rw [deepest_symbol hopen hclose]
        exact ih _

theorem deepest_append (h : Balanced text) (depth : ℕ) (rest : List Char) :
    deepest depth (text ++ rest) = max (depth + nestingDepth text) (deepest depth rest) := by
  induction h generalizing depth rest with
  | nil => exact (max_eq_right (le_deepest _ _)).symm
  | @symbol c tail hopen hclose _ ih =>
    rw [List.cons_append, deepest_symbol hopen hclose, ih, nestingDepth, nestingDepth,
      deepest_symbol hopen hclose]
  | @group inside tail _ _ ihInside ih =>
    have step (depth : ℕ) (rest : List Char) :
        deepest depth ('(' :: (inside ++ ')' :: rest)) =
          max (depth + 1 + nestingDepth inside) (deepest depth rest) := by
      rw [deepest, ihInside, deepest, Nat.add_sub_cancel, ← max_assoc,
        max_eq_left (Nat.le_add_right _ _)]
    rw [List.cons_append, List.append_assoc, List.cons_append, step, ih, ← max_assoc,
      show nestingDepth ('(' :: (inside ++ ')' :: tail)) = _ from step 0 tail, ← Nat.add_max_add_left]
    congr 2
    omega

theorem nestingDepth_append (h : Balanced text) (rest : List Char) :
    nestingDepth (text ++ rest) = max (nestingDepth text) (nestingDepth rest) := by
  rw [nestingDepth, h.deepest_append, zero_add]
  rfl

theorem nestingDepth_group (h : Balanced inside) (rest : List Char) :
    nestingDepth ('(' :: (inside ++ ')' :: rest)) =
      max (nestingDepth inside + 1) (nestingDepth rest) := by
  rw [nestingDepth, deepest, h.deepest_append, deepest, ← max_assoc,
    max_eq_left (Nat.le_add_right _ _), zero_add, add_comm]
  rfl

theorem checkBracketsFrom_append (h : Balanced text) (position : ℕ) (opened : List ℕ)
    (rest : List Char) :
    checkBracketsFrom position opened (text ++ rest) =
      checkBracketsFrom (position + text.length) opened rest := by
  induction h generalizing position opened rest with
  | nil => rfl
  | symbol hopen hclose _ ih =>
    rw [List.cons_append, checkBracketsFrom_symbol hopen hclose, ih, List.length_cons]
    congr 1
    omega
  | group _ _ ihInside ih =>
    rw [List.cons_append, List.append_assoc, List.cons_append, checkBracketsFrom_opening, ihInside,
      checkBracketsFrom_closing, ih, List.length_cons, List.length_append, List.length_cons]
    congr 1
    omega

end Balanced

/-! ## Text without brackets -/

/-- No sign stands outside the brackets of text without signs and brackets. -/
theorem isSum_of_forall {text : List Char}
    (h : ∀ c ∈ text, c ≠ '(' ∧ c ≠ ')' ∧ c ≠ '+' ∧ c ≠ '-') : isSum text = false := by
  have outside {text : List Char}
      (h : ∀ c ∈ text, c ≠ '(' ∧ c ≠ ')' ∧ c ≠ '+' ∧ c ≠ '-') : signOutside 0 text = false := by
    induction text with
    | nil => rfl
    | cons c text ih =>
      obtain ⟨hopen, hclose, hplus, hminus⟩ := h c List.mem_cons_self
      rw [signOutside_symbol hopen hclose, ih fun d hd => h d (List.mem_cons_of_mem _ hd)]
      simp [hplus, hminus]
  cases text with
  | nil => rfl
  | cons c text =>
    obtain ⟨hopen, hclose, -⟩ := h c List.mem_cons_self
    rw [isSum_symbol hopen hclose]
    exact outside fun d hd => h d (List.mem_cons_of_mem _ hd)

theorem letterInside_of_forall {text : List Char} (h : ∀ c ∈ text, c ≠ '(' ∧ c ≠ ')') :
    letterInside 0 text = false := by
  induction text with
  | nil => rfl
  | cons c text ih =>
    obtain ⟨hopen, hclose⟩ := h c List.mem_cons_self
    rw [letterInside_symbol hopen hclose, ih fun d hd => h d (List.mem_cons_of_mem _ hd)]

/-- What is left of a text behind the balanced part at its start: nothing, or the bracket that
    closes the group opened last. -/
def ClosesLast (length : ℕ) : List ℕ → List Char → Prop
  | [], rest => rest = []
  | _ :: opened, rest => ∃ after position, rest = ')' :: after ∧ after.length < length ∧
      checkBracketsFrom position opened after = none

theorem exists_balanced_of_checkBracketsFrom {position : ℕ} {opened : List ℕ} {text : List Char}
    (h : checkBracketsFrom position opened text = none) :
    ∃ inside rest, Balanced inside ∧ text = inside ++ rest ∧ ClosesLast text.length opened rest := by
  induction hn : text.length using Nat.strongRecOn generalizing position opened text with
  | ind n ih =>
    have widen {m : ℕ} (hm : m ≤ n) {opened : List ℕ} {rest : List Char}
        (hrest : ClosesLast m opened rest) : ClosesLast n opened rest := by
      cases opened with
      | nil => exact hrest
      | cons place opened =>
        obtain ⟨after, position, hr, hlt, hcheck⟩ := hrest
        exact ⟨after, position, hr, hlt.trans_le hm, hcheck⟩
    cases text with
    | nil =>
      cases opened with
      | nil => exact ⟨[], [], .nil, rfl, rfl⟩
      | cons place opened =>
        rw [checkBracketsFrom] at h
        simp at h
    | cons c text =>
      rw [List.length_cons] at hn
      by_cases hopen : c = '('
      · subst hopen
        rw [checkBracketsFrom_opening] at h
        obtain ⟨inside, rest, hinside, htext, after, place, rfl, hlt, hafter⟩ :=
          ih text.length (by omega) h rfl
        obtain ⟨inside', rest', hinside', hafter', hrest'⟩ := ih after.length (by omega) hafter rfl
        refine ⟨_, rest', hinside.group hinside', ?_, widen (by omega) hrest'⟩
        rw [htext, hafter', List.cons_append, List.append_assoc, List.cons_append]
      · by_cases hclose : c = ')'
        · subst hclose
          cases opened with
          | nil => cases h
          | cons place opened =>
            exact ⟨[], ')' :: text, .nil, rfl, text, position + 1, rfl, by omega, h⟩
        · rw [checkBracketsFrom_symbol hopen hclose] at h
          obtain ⟨inside, rest, hinside, htext, hrest⟩ := ih text.length (by omega) h rfl
          exact ⟨c :: inside, rest, .symbol hopen hclose hinside, congrArg (c :: ·) htext,
            widen (by omega) hrest⟩

/-- The bracket check finds no fault exactly in balanced text. -/
theorem checkBrackets_eq_none_iff {text : List Char} :
    checkBrackets text = none ↔ Balanced text := by
  constructor
  · intro h
    obtain ⟨inside, rest, hinside, htext, hrest⟩ := exists_balanced_of_checkBracketsFrom h
    have hrest : rest = [] := hrest
    rw [htext, hrest, List.append_nil]
    exact hinside
  · intro h
    have whole := h.checkBracketsFrom_append 0 [] []
    rw [List.append_nil] at whole
    rw [checkBrackets, whole]
    rfl

theorem checkBracketsFrom_of_splitAtMatch {depth position : ℕ} {opened : List ℕ}
    {text inside after : List Char} (same : opened.length = depth)
    (h : splitAtMatch ')' '(' depth text = some (inside, after)) :
    checkBracketsFrom position opened inside = none := by
  induction text generalizing depth position opened inside with
  | nil => cases h
  | cons c rest ih =>
    by_cases hclose : c = ')'
    · subst hclose
      cases depth with
      | zero =>
        cases h
        rw [List.eq_nil_of_length_eq_zero same]
        rfl
      | succ depth =>
        obtain ⟨place, opened, rfl⟩ := List.exists_cons_of_length_eq_add_one same
        rw [splitAtMatch_target_succ] at h
        obtain ⟨x, found, hx⟩ := Option.map_eq_some_iff.1 h
        obtain ⟨rfl, rfl⟩ := Prod.mk.inj hx
        rw [checkBracketsFrom_closing]
        exact ih (Nat.succ.inj same) found
    · by_cases hopen : c = '('
      · rw [hopen, splitAtMatch_nested (by decide)] at h
        obtain ⟨x, found, hx⟩ := Option.map_eq_some_iff.1 h
        obtain ⟨rfl, rfl⟩ := Prod.mk.inj hx
        rw [checkBracketsFrom_opening]
        exact ih (congrArg Nat.succ same) found
      · rw [splitAtMatch_symbol hopen hclose] at h
        obtain ⟨x, found, hx⟩ := Option.map_eq_some_iff.1 h
        obtain ⟨rfl, rfl⟩ := Prod.mk.inj hx
        rw [checkBracketsFrom_symbol hopen hclose]
        exact ih same found

/-- A group that is found is balanced, wherever it is found. -/
theorem balanced_of_group? {text inside after : List Char}
    (h : group? text = some (inside, after)) : Balanced inside :=
  checkBrackets_eq_none_iff.1 (checkBracketsFrom_of_splitAtMatch rfl h)

end SamePoly
