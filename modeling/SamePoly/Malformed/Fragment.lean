/-
  Fragments of a text.

  * `Fragment`: an offending piece of text and the character position it starts at.
  * `fragments`: all pieces that a recogniser accepts, from left to right and without
    overlap.
-/

namespace SamePoly

/-- An offending piece of text and the character position it starts at. -/
structure Fragment where
  text : List Char
  position : Nat
deriving DecidableEq, Repr

/-- A fragment in messages. -/
def Fragment.description (f : Fragment) : String :=
  String.ofList f.text ++ " at " ++ toString f.position ++ " position"

/-- The descriptions of fragments, separated by commas. -/
def Fragment.list (fs : List Fragment) : String :=
  String.intercalate ", " (fs.map Fragment.description)

/-- Accepts a piece at the start of a text by giving its length.  The first argument says
    whether nothing stands before the text. -/
abbrev Recogniser : Type := Bool → List Char → Option Nat

/-- The pieces that start at `position` or later, when the first `skipped` characters
    belong to a piece already found. -/
def fragmentsFrom (recognise : Recogniser) : (position skipped : Nat) → List Char → List Fragment
  | _, _, [] => []
  | position, skipped + 1, _ :: rest => fragmentsFrom recognise (position + 1) skipped rest
  | position, 0, c :: rest =>
    match recognise (position == 0) (c :: rest) with
    | some length =>
      ⟨(c :: rest).take length, position⟩ ::
        fragmentsFrom recognise (position + 1) (length - 1) rest
    | none => fragmentsFrom recognise (position + 1) 0 rest

/-- All pieces of a text that a recogniser accepts: the leftmost first, and each further
    one the leftmost behind it. -/
def fragments (recognise : Recogniser) (text : List Char) : List Fragment :=
  fragmentsFrom recognise 0 0 text

end SamePoly
