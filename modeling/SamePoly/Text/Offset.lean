/-
  Places in a text.

  A place is given by its offset in the UTF-8 encoding of the text.  `cut` divides a
  text at an offset, `charPosition` counts the characters before it.
-/

namespace SamePoly

/-- The length of a text in UTF-8. -/
def utf8Length : List Char → Nat
  | [] => 0
  | c :: rest => c.utf8Size + utf8Length rest

/-- The characters that end at or before an offset, and the others. -/
def cut : Nat → List Char → List Char × List Char
  | _, [] => ([], [])
  | offset, c :: rest =>
    if Nat.ble c.utf8Size offset then
      let (before, after) := cut (offset - c.utf8Size) rest
      (c :: before, after)
    else ([], c :: rest)

/-- The number of characters before an offset. -/
def charPosition (text : List Char) (offset : Nat) : Nat := (cut offset text).1.length

/-- Neither part of a cut loses a character. -/
theorem cut_append (offset : Nat) (text : List Char) :
    (cut offset text).1 ++ (cut offset text).2 = text := by
  induction text generalizing offset with
  | nil => simp [cut]
  | cons c rest ih =>
    unfold cut
    split
    · simpa using ih (offset - c.utf8Size)
    · rfl

@[simp] theorem utf8Length_append (left right : List Char) :
    utf8Length (left ++ right) = utf8Length left + utf8Length right := by
  induction left with
  | nil => simp [utf8Length]
  | cons c left ih => simp [utf8Length, ih, Nat.add_assoc]

/-- Cutting at the end of a first part gives back that part. -/
theorem cut_utf8Length (left right : List Char) :
    cut (utf8Length left) (left ++ right) = (left, right) := by
  induction left with
  | nil =>
    cases right with
    | nil => rfl
    | cons c right =>
      have := Char.utf8Size_pos c
      simp [utf8Length, cut, Nat.ne_of_gt this]
  | cons c left ih =>
    simp [utf8Length, cut, ih]

end SamePoly
