/-
  The verdict on the brackets of a text.

  Behind the balanced part at its start, a text ends, closes a bracket that was never opened, or
  opens one that is never closed.  The bracket check tells these three apart.

  * `OpensFirst`: no start of a text closes more brackets than it opens.
  * `Paired`: an opening bracket and the one that closes it, by position.
  * `BracketVerdict`: what a text with a given verdict looks like, by counting and by pairs.
  * `Outcome`, `outcome_checkBrackets`: the three ways a text goes on behind its balanced part.
  * `checkBrackets_eq_iff`: **the bracket check gives exactly the verdict that fits**.
-/
import SamePoly.Proofs.Balance

namespace SamePoly

variable {text inside before rest : List Char}

/-! ## Counting brackets -/

/-- Every start of a text has at least as many opening brackets as closing ones. -/
def OpensFirst (text : List Char) : Prop := ∀ n, (text.take n).count ')' ≤ (text.take n).count '('

namespace OpensFirst

theorem append (h : OpensFirst text) (hrest : OpensFirst rest) : OpensFirst (text ++ rest) := by
  intro n
  rw [List.take_append, List.count_append, List.count_append]
  exact add_le_add (h n) (hrest _)

theorem symbol {c : Char} (hclose : c ≠ ')') (h : OpensFirst rest) : OpensFirst (c :: rest) := by
  intro n
  cases n with
  | zero => exact le_rfl
  | succ n =>
    rw [List.take_succ_cons, List.count_cons_of_ne hclose]
    exact (h n).trans List.count_le_count_cons

theorem single_group (h : OpensFirst inside) : OpensFirst ('(' :: (inside ++ [')'])) := by
  intro n
  cases n with
  | zero => exact le_rfl
  | succ n =>
    have closing : ([')'].take (n - inside.length)).count ')' ≤ 1 :=
      List.count_le_length.trans (List.length_take_le' _ _)
    rw [List.take_succ_cons, List.count_cons_self, List.count_cons_of_ne (by decide),
      List.take_append, List.count_append, List.count_append]
    have := h n
    omega

theorem count_le (h : OpensFirst text) : text.count ')' ≤ text.count '(' := by
  simpa using h text.length

end OpensFirst

namespace Balanced

theorem opensFirst (h : Balanced text) : OpensFirst text := by
  induction h with
  | nil => exact fun _ => by simp
  | symbol _ hclose _ ih => exact ih.symbol hclose
  | @group inside rest _ _ ihInside ih =>
    have whole : '(' :: (inside ++ ')' :: rest) = '(' :: (inside ++ [')']) ++ rest := by simp
    rw [whole]
    exact ihInside.single_group.append ih

theorem count_eq (h : Balanced text) : text.count '(' = text.count ')' := by
  induction h with
  | nil => rfl
  | symbol hopen hclose _ ih => rw [List.count_cons_of_ne hopen, List.count_cons_of_ne hclose, ih]
  | group _ _ ihInside ih =>
    simp [ihInside, ih]
    omega

end Balanced

/-! ## Pairs of brackets -/

/-- The opening bracket at position `i` is closed by the bracket at position `j`. -/
def Paired (text : List Char) (i j : ℕ) : Prop :=
  ∃ before inside after, text = before ++ '(' :: (inside ++ ')' :: after) ∧ Balanced inside ∧
    before.length = i ∧ (before ++ '(' :: inside).length = j

/-- The positions at which a start of a text ends that closes more brackets than it opens. -/
def surplusClosings (text : List Char) : Set ℕ :=
  {p | (text.take (p + 1)).count '(' < (text.take (p + 1)).count ')'}

/-- The positions of opening brackets that nothing closes. -/
def unpairedOpenings (text : List Char) : Set ℕ :=
  {p | text[p]? = some '(' ∧ ∀ q, ¬Paired text p q}

/-- What a text with the given verdict looks like. -/
def BracketVerdict (text : List Char) : Option BracketFault → Prop
  | none => OpensFirst text ∧ text.count '(' = text.count ')'
  | some (.noOpening p) => IsLeast (surplusClosings text) p
  | some (.noEnclosing p) => OpensFirst text ∧ IsLeast (unpairedOpenings text) p

theorem OpensFirst.notMem_surplusClosings (h : OpensFirst text) (p : ℕ) :
    p ∉ surplusClosings text := (h (p + 1)).not_gt

/-- Every opening bracket of balanced text is paired. -/
theorem Balanced.notMem_unpairedOpenings (h : Balanced before) {p : ℕ} (hp : p < before.length) :
    p ∉ unpairedOpenings (before ++ rest) := by
  rintro ⟨opening, unpaired⟩
  rw [List.getElem?_append_left hp, List.getElem?_eq_getElem hp, Option.some_inj] at opening
  have whole : before = before.take p ++ '(' :: before.drop (p + 1) := by
    rw [← opening, ← List.drop_eq_getElem_cons hp, List.take_append_drop]
  obtain ⟨inside, after, behind, balanced⟩ := h.exists_group whole
  rw [behind] at whole
  refine unpaired _ ⟨before.take p, inside, after ++ rest, ?_, balanced, List.length_take_of_le hp.le,
    rfl⟩
  exact (congrArg (· ++ rest) whole).trans (by simp)

/-! ## The part behind the balanced start -/

/-- How a text goes on behind the balanced part at its start. -/
inductive Outcome : Option BracketFault → List Char → Prop
  | balanced {text : List Char} : Balanced text → Outcome none text
  | noOpening {before : List Char} (rest : List Char) :
      Balanced before → Outcome (some (.noOpening before.length)) (before ++ ')' :: rest)
  | noEnclosing {before rest : List Char} :
      Balanced before → OpensFirst rest →
        Outcome (some (.noEnclosing before.length)) (before ++ '(' :: rest)

namespace Outcome

variable {verdict : Option BracketFault}

/-- A balanced part in front of a text does not change how the text goes on. -/
theorem behind (hbefore : Balanced before) (h : Outcome verdict text) :
    ∃ verdict, Outcome verdict (before ++ text) := by
  cases h with
  | balanced h => exact ⟨_, .balanced (hbefore.append h)⟩
  | noOpening rest h =>
    rw [← List.append_assoc]
    exact ⟨_, .noOpening rest (hbefore.append h)⟩
  | noEnclosing h hrest =>
    rw [← List.append_assoc]
    exact ⟨_, .noEnclosing (hbefore.append h) hrest⟩

end Outcome

theorem exists_outcome (text : List Char) : ∃ verdict, Outcome verdict text := by
  induction hn : text.length using Nat.strongRecOn generalizing text with
  | ind n ih =>
    cases text with
    | nil => exact ⟨_, .balanced .nil⟩
    | cons c text =>
      rw [List.length_cons] at hn
      obtain ⟨verdict, outcome⟩ := ih text.length (by omega) text rfl
      by_cases hclose : c = ')'
      · rw [hclose]
        exact ⟨_, .noOpening text .nil⟩
      by_cases hopen : c = '('
      · subst hopen
        cases outcome with
        | balanced h => exact ⟨_, .noEnclosing .nil h.opensFirst⟩
        | noEnclosing h hrest =>
          exact ⟨_, .noEnclosing .nil (h.opensFirst.append (hrest.symbol (by decide)))⟩
        | @noOpening inside rest h =>
          -- The bracket without an opening one closes this one.
          have shorter : rest.length < n := by
            simp only [List.length_append, List.length_cons] at hn
            omega
          obtain ⟨verdict, outcome⟩ := ih rest.length shorter rest rfl
          have whole : '(' :: (inside ++ ')' :: rest) = '(' :: (inside ++ [')']) ++ rest := by simp
          rw [whole]
          exact outcome.behind h.single_group
      · exact outcome.behind (.symbol hopen hclose .nil)

/-- An opening bracket that nothing closes stays at the bottom of the brackets that are open. -/
theorem checkBracketsFrom_of_opensFirst {opened : List ℕ} {p position : ℕ}
    (h : ∀ n, (text.take n).count ')' ≤ opened.length + (text.take n).count '(') :
    checkBracketsFrom position (opened ++ [p]) text = some (.noEnclosing p) := by
  induction text generalizing opened position with
  | nil => simp [checkBracketsFrom]
  | cons c text ih =>
    by_cases hclose : c = ')'
    · subst hclose
      cases opened with
      | nil => simpa using h 1
      | cons q opened =>
        rw [List.cons_append, checkBracketsFrom_closing]
        refine ih fun n => ?_
        have := h (n + 1)
        simp at this
        omega
    by_cases hopen : c = '('
    · subst hopen
      rw [checkBracketsFrom_opening, ← List.cons_append]
      refine ih fun n => ?_
      have := h (n + 1)
      simp at this
      simp
      omega
    · rw [checkBracketsFrom_symbol hopen hclose]
      refine ih fun n => ?_
      have := h (n + 1)
      rwa [List.take_succ_cons, List.count_cons_of_ne hopen, List.count_cons_of_ne hclose] at this

theorem Outcome.checkBrackets_eq {verdict : Option BracketFault} (h : Outcome verdict text) :
    checkBrackets text = verdict := by
  cases h with
  | balanced h => exact checkBrackets_eq_none_iff.2 h
  | noOpening rest h =>
    rw [checkBrackets, h.checkBracketsFrom_append, zero_add]
    rfl
  | @noEnclosing before rest h hrest =>
    rw [checkBrackets, h.checkBracketsFrom_append, checkBracketsFrom_opening, zero_add]
    exact @checkBracketsFrom_of_opensFirst rest [] _ _ fun n => by simpa using hrest n

theorem outcome_checkBrackets (text : List Char) : Outcome (checkBrackets text) text := by
  obtain ⟨verdict, outcome⟩ := exists_outcome text
  rwa [outcome.checkBrackets_eq]

/-! ## The verdict -/

/-- The first closing bracket that is one too many. -/
theorem Balanced.isLeast_surplusClosings (h : Balanced before) (rest : List Char) :
    IsLeast (surplusClosings (before ++ ')' :: rest)) before.length := by
  constructor
  · simp [surplusClosings, List.take_append, List.take_of_length_le, h.count_eq]
  · intro p surplus
    by_contra hp
    rw [surplusClosings, Set.mem_ofPred_eq, List.take_append_of_le_length (by omega)] at surplus
    exact h.opensFirst.notMem_surplusClosings p surplus

/-- The first opening bracket that nothing closes. -/
theorem Balanced.isLeast_unpairedOpenings (h : Balanced before) (hrest : OpensFirst rest) :
    IsLeast (unpairedOpenings (before ++ '(' :: rest)) before.length := by
  refine ⟨⟨by simp, ?_⟩, fun p unpaired => ?_⟩
  · rintro q ⟨before', inside, after, whole, balanced, same, -⟩
    obtain ⟨-, behind⟩ := List.append_inj whole same.symm
    cases behind
    have closed := hrest (inside.length + 1)
    simp [List.take_append, List.take_of_length_le, balanced.count_eq] at closed
  · by_contra hp
    exact h.notMem_unpairedOpenings (by omega) unpaired

theorem Outcome.bracketVerdict {verdict : Option BracketFault} (h : Outcome verdict text) :
    BracketVerdict text verdict := by
  cases h with
  | balanced h => exact ⟨h.opensFirst, h.count_eq⟩
  | noOpening rest h => exact h.isLeast_surplusClosings rest
  | noEnclosing h hrest =>
    exact ⟨h.opensFirst.append (hrest.symbol (by decide)), h.isLeast_unpairedOpenings hrest⟩

/-- A text does not fit two verdicts. -/
theorem Outcome.eq_of_bracketVerdict {verdict verdict' : Option BracketFault}
    (h : Outcome verdict text) (h' : BracketVerdict text verdict') : verdict = verdict' := by
  match h, verdict' with
  | .balanced _, none => rfl
  | .balanced h, some (.noOpening p) => exact absurd h'.1 (h.opensFirst.notMem_surplusClosings p)
  | .balanced h, some (.noEnclosing p) =>
    have unpaired := h'.2.1
    obtain ⟨hp, -⟩ := List.getElem?_eq_some_iff.1 unpaired.1
    rw [← List.append_nil text] at unpaired
    exact absurd unpaired (h.notMem_unpairedOpenings hp)
  | .noOpening rest h, none =>
    exact absurd (h.isLeast_surplusClosings rest).1 (h'.1.notMem_surplusClosings _)
  | .noOpening rest h, some (.noOpening p) => rw [(h.isLeast_surplusClosings rest).unique h']
  | .noOpening rest h, some (.noEnclosing p) =>
    exact absurd (h.isLeast_surplusClosings rest).1 (h'.1.notMem_surplusClosings _)
  | .noEnclosing h hrest, none =>
    have same := h'.2
    have closed := hrest.count_le
    simp only [List.count_append, h.count_eq] at same
    simp at same
    omega
  | .noEnclosing h hrest, some (.noOpening p) =>
    exact absurd h'.1 ((h.opensFirst.append (hrest.symbol (by decide))).notMem_surplusClosings p)
  | .noEnclosing h hrest, some (.noEnclosing p) =>
    rw [(h.isLeast_unpairedOpenings hrest).unique h'.2]

/-- **The bracket check gives exactly the verdict that fits.** -/
theorem checkBrackets_eq_iff {text : List Char} {verdict : Option BracketFault} :
    checkBrackets text = verdict ↔ BracketVerdict text verdict := by
  have outcome := outcome_checkBrackets text
  constructor
  · rintro rfl
    exact outcome.bracketVerdict
  · exact outcome.eq_of_bracketVerdict

/-- The bracket that is opened first among those that nothing closes. -/
example : checkBrackets "(x)(2*((x)".toList = some (.noEnclosing 3) := by decide

end SamePoly
