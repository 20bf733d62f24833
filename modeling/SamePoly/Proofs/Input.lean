/-
  Expressions from input.

  Input is read line by line until there are enough expressions.  What is read is therefore a first
  part of the entries of the input: its lines that are not blank, with a gap in place of every line
  that is not UTF-8.

  * `entries`: the entries of a byte sequence.
  * `collectExpressions_eq`: **reading takes as many entries as there is room for, and stops at the
    first gap**.
-/
import Mathlib
import SamePoly.Input

namespace SamePoly

/-- The entries of lines: those that are not blank, trimmed, and nothing in place of a line that is
    not UTF-8. -/
def lineEntries (ls : List (List UInt8)) : List (Option (List Char)) :=
  (ls.map fun line => (decode? line).map trim).filter (· ≠ some [])

/-- The entries of a byte sequence. -/
def entries (bytes : List UInt8) : List (Option (List Char)) := lineEntries (lines bytes)

variable {line : List UInt8} {ls : List (List UInt8)} {text : List Char}

theorem lineEntries_gap (h : decode? line = none) :
    lineEntries (line :: ls) = none :: lineEntries ls := by
  simp [lineEntries, h]

theorem lineEntries_blank (h : decode? line = some text) (blank : trim text = []) :
    lineEntries (line :: ls) = lineEntries ls := by
  simp [lineEntries, h, blank]

theorem lineEntries_text (h : decode? line = some text) (filled : trim text ≠ []) :
    lineEntries (line :: ls) = some (trim text) :: lineEntries ls := by
  simp [lineEntries, h, filled]

theorem lineEntries_append (ls ls' : List (List UInt8)) :
    lineEntries (ls ++ ls') = lineEntries ls ++ lineEntries ls' := by
  simp [lineEntries]

/-- The texts in front of the first gap. -/
def beforeGap (es : List (Option (List Char))) : List (List Char) :=
  (es.takeWhile Option.isSome).reduceOption

@[simp] theorem beforeGap_nil : beforeGap [] = [] := rfl

@[simp] theorem beforeGap_gap (es : List (Option (List Char))) : beforeGap (none :: es) = [] := rfl

@[simp] theorem beforeGap_text (es : List (Option (List Char))) :
    beforeGap (some text :: es) = text :: beforeGap es := rfl

theorem beforeGap_map_some (es : List (List Char)) : beforeGap (es.map some) = es := by
  induction es with
  | nil => rfl
  | cons e es ih => rw [List.map_cons, beforeGap_text, ih]

theorem beforeGap_append_gap (es : List (List Char)) (rest : List (Option (List Char))) :
    beforeGap (es.map some ++ none :: rest) = es := by
  induction es with
  | nil => rfl
  | cons e es ih => rw [List.map_cons, List.cons_append, beforeGap_text, ih]

/-- Without a gap all texts stand in front of it. -/
theorem map_some_beforeGap {es : List (Option (List Char))} (h : es.all Option.isSome = true) :
    (beforeGap es).map some = es := by
  induction es with
  | nil => rfl
  | cons e es ih =>
    rw [List.all_cons, Bool.and_eq_true] at h
    obtain ⟨text, rfl⟩ := Option.isSome_iff_exists.1 h.1
    rw [beforeGap_text, List.map_cons, ih h.2]

/-- The lines are read until there are `count` expressions or a line is not UTF-8. -/
theorem collectLines_eq (count : ℕ) (expressions : List (List Char)) (ls : List (List UInt8)) :
    collectLines count expressions ls =
      let taken := (lineEntries ls).take (count - expressions.length)
      ⟨expressions ++ beforeGap taken, taken.all Option.isSome⟩ := by
  induction ls generalizing expressions with
  | nil => simp [collectLines, lineEntries]
  | cons line ls ih =>
    rw [collectLines]
    by_cases full : count ≤ expressions.length
    · rw [if_pos (by rwa [Nat.ble_eq]), Nat.sub_eq_zero_of_le full]
      simp
    · have room : count - expressions.length = count - (expressions.length + 1) + 1 := by omega
      rw [if_neg (by rwa [Nat.ble_eq])]
      cases decoded : decode? line with
      | none => simp [lineEntries_gap decoded, room]
      | some text =>
        dsimp only
        by_cases blank : trim text = []
        · rw [if_pos (List.isEmpty_iff.2 blank), ih, lineEntries_blank decoded blank]
        · rw [if_neg (by rwa [List.isEmpty_iff]), ih, lineEntries_text decoded blank, room]
          simp

/-- **Reading takes as many entries as there is room for, and stops at the first gap.** -/
theorem collectExpressions_eq (bytes : List UInt8) (expressions : List (List Char)) (count : ℕ) :
    collectExpressions bytes expressions count =
      let taken := (entries bytes).take (count - expressions.length)
      ⟨expressions ++ beforeGap taken, taken.all Option.isSome⟩ :=
  collectLines_eq count expressions (lines bytes)

end SamePoly
