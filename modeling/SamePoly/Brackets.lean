/-
  Bracket pairs.

  A group is what stands between an opening bracket and the bracket that closes it.

  * `splitAtMatch`: a text up to the bracket that matches one just before it, in either
    direction.
  * `group?`, `groupBefore?`: the group after an opening bracket, and the group before a
    closing one (whose text is given backwards).
  * `groupBeforePower?`: as `group?`, but a closing bracket in front of a power operator
    does not end the group, so `3)**(x)` as a whole belongs to the bracket before it.
  * `matchingBracket?`, `matchingBracketBeforePower?`: the same by place in a text.
-/
import SamePoly.Text.Offset

namespace SamePoly

/-! ## Groups -/

/-- Divides a text at the first `target` that no `nested` before it calls for; `depth`
    further ones are called for already. -/
def splitAtMatch (target nested : Char) : Nat → List Char → Option (List Char × List Char)
  | _, [] => none
  | depth, c :: rest =>
    if c == target then
      match depth with
      | 0 => some ([], rest)
      | depth + 1 =>
        (splitAtMatch target nested depth rest).map fun (inside, after) => (c :: inside, after)
    else
      (splitAtMatch target nested (if c == nested then depth + 1 else depth) rest).map
        fun (inside, after) => (c :: inside, after)

/-- The group after an opening bracket, and the text behind its closing bracket. -/
def group? (text : List Char) : Option (List Char × List Char) := splitAtMatch ')' '(' 0 text

/-- The group before a closing bracket, and the text in front of its opening bracket.
    All texts run backwards. -/
def groupBefore? (text : List Char) : Option (List Char × List Char) :=
  splitAtMatch '(' ')' 0 text

/-- The group, its closing bracket and the text behind it make up the text. -/
theorem splitAtMatch_append {target nested : Char} {depth : Nat} {text inside after : List Char}
    (h : splitAtMatch target nested depth text = some (inside, after)) :
    inside ++ target :: after = text := by
  induction text generalizing depth inside with
  | nil => simp [splitAtMatch] at h
  | cons c rest ih =>
    unfold splitAtMatch at h
    split at h
    · rename_i isTarget
      have := beq_iff_eq.1 isTarget
      subst this
      split at h
      · simp only [Option.some.injEq, Prod.mk.injEq] at h
        obtain ⟨rfl, rfl⟩ := h
        rfl
      · obtain ⟨⟨inside', after'⟩, found, same⟩ := Option.map_eq_some_iff.1 h
        simp only [Prod.mk.injEq] at same
        obtain ⟨rfl, rfl⟩ := same
        simp [ih found]
    · obtain ⟨⟨inside', after'⟩, found, same⟩ := Option.map_eq_some_iff.1 h
      simp only [Prod.mk.injEq] at same
      obtain ⟨rfl, rfl⟩ := same
      simp [ih found]

/-! ## Groups up to a power -/

/-- A power operator, possibly behind spaces. -/
def startsPower (text : List Char) : Bool :=
  match text.dropWhile (· == ' ') with
  | '^' :: _ => true
  | '*' :: '*' :: _ => true
  | _ => false

/-- The group after an opening bracket when closing brackets in front of a power operator
    do not end it.  `balance` counts the brackets opened and not closed so far; each
    closing bracket that was passed over makes it one less. -/
def groupBeforePower? : Int → List Char → Option (List Char × List Char)
  | _, [] => none
  | balance, c :: rest =>
    if c == ')' && balance == 0 && !startsPower rest then some ([], rest)
    else
      let next := if c == ')' then balance - 1 else if c == '(' then balance + 1 else balance
      (groupBeforePower? next rest).map fun (inside, after) => (c :: inside, after)

/-- The group, its closing bracket and the text behind it make up the text. -/
theorem groupBeforePower?_append {balance : Int} {text inside after : List Char}
    (h : groupBeforePower? balance text = some (inside, after)) :
    inside ++ ')' :: after = text := by
  induction text generalizing balance inside with
  | nil => simp [groupBeforePower?] at h
  | cons c rest ih =>
    unfold groupBeforePower? at h
    split at h
    · rename_i ends
      simp only [Bool.and_eq_true, beq_iff_eq] at ends
      simp only [Option.some.injEq, Prod.mk.injEq] at h
      obtain ⟨rfl, rfl⟩ := h
      simp [ends.1.1]
    · obtain ⟨⟨inside', after'⟩, found, same⟩ := Option.map_eq_some_iff.1 h
      simp only [Prod.mk.injEq] at same
      obtain ⟨rfl, rfl⟩ := same
      simp [ih found]

/-! ## Places -/

/-- The place of the bracket that matches the one at a place, the group behind an opening
    bracket being found by `group`. -/
def matchingBy (group : List Char → Option (List Char × List Char)) (text : List Char)
    (place : Nat) : Option Nat :=
  match cut place text with
  | (_, []) => none
  | (_, '(' :: rest) => (group rest).map fun (inside, _) => place + 1 + utf8Length inside
  | (before, _ :: _) => (groupBefore? before.reverse).map fun (_, left) => utf8Length left

/-- The place of the bracket that matches the one at a place. -/
def matchingBracket? : List Char → Nat → Option Nat := matchingBy group?

/-- As `matchingBracket?`, but a closing bracket in front of a power operator does not
    close anything. -/
def matchingBracketBeforePower? : List Char → Nat → Option Nat :=
  matchingBy (groupBeforePower? 0)

/-! ## Depth -/

/-- The greatest number of groups around one place, `depth` groups being open; closing
    brackets without an opening one are ignored. -/
def deepest : Nat → List Char → Nat
  | depth, [] => depth
  | depth, '(' :: rest => deepest (depth + 1) rest
  | depth, ')' :: rest => max depth (deepest (depth - 1) rest)
  | depth, _ :: rest => deepest depth rest

/-- How deeply the brackets of a text are nested. -/
def nestingDepth (text : List Char) : Nat := deepest 0 text

end SamePoly
