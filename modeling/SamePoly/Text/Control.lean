/-
  Text without control characters.

  What the log shows is safe to print on a terminal: control characters other than white
  space are left out, and so are escape sequences as a whole.  An escape sequence is the
  escape character, any number of symbols from the space to the slash, and one symbol that
  ends it.

  * `isControl`: control characters other than white space.
  * `withoutControls`: a text without them and without escape sequences.
-/

namespace SamePoly

/-- The character that starts an escape sequence. -/
def isEscape (c : Char) : Bool := c.toNat == 0x1b

/-- A symbol inside an escape sequence, which goes on behind it. -/
def isIntermediate (c : Char) : Bool := Nat.ble 0x20 c.toNat && Nat.ble c.toNat 0x2f

/-- An ASCII control character other than tabulator, line feed, form feed and carriage
    return. -/
def isControl (c : Char) : Bool :=
  let n := c.toNat
  (Nat.blt n 0x20 && n != 0x9 && n != 0xa && n != 0xc && n != 0xd) || n == 0x7f

/-- The rest of a text without controls; `escaped` says that it continues an escape
    sequence. -/
def withoutControlsFrom : (escaped : Bool) → List Char → List Char
  | _, [] => []
  | true, c :: rest => withoutControlsFrom (isIntermediate c) rest
  | false, c :: rest =>
    if isEscape c then withoutControlsFrom true rest
    else if isControl c then withoutControlsFrom false rest
    else c :: withoutControlsFrom false rest

/-- A text without control characters and escape sequences. -/
def withoutControls (text : List Char) : List Char := withoutControlsFrom false text

/-- No control character is left. -/
theorem not_isControl_of_mem_withoutControls {text : List Char} {c : Char}
    (h : c ∈ withoutControls text) : isControl c = false := by
  suffices general : ∀ (escaped : Bool), c ∈ withoutControlsFrom escaped text →
      isControl c = false from general false h
  clear h
  induction text with
  | nil =>
    intro escaped h
    simp [withoutControlsFrom] at h
  | cons d rest ih =>
    intro escaped h
    cases escaped with
    | true => exact ih _ h
    | false =>
      unfold withoutControlsFrom at h
      split at h
      · exact ih _ h
      · split at h
        · exact ih _ h
        · rename_i notControl
          rcases List.mem_cons.1 h with rfl | h
          · simpa using notControl
          · exact ih _ h

end SamePoly
