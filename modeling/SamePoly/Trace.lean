/-
  The course of a parse.

  * `ParseEvent`: what can be told about the stages of a parse.
  * `parseEvents`: everything that happens while a text is parsed, in order.  The denominators
    that are parsed on the way tell their own course first.
-/
import SamePoly.Parse
import SamePoly.Polynomial.Spelling
import SamePoly.Text.Quoted

namespace SamePoly

/-- A stage of a parse. -/
inductive ParseEvent (R : Type) where
  /-- The text is malformed. -/
  | malformed (text : List Char) (reason : Malformed)
  /-- The expression is no polynomial. -/
  | violation (text : List Char) (reason : Violation)
  /-- The text has passed all checks. -/
  | normalized (text normal : List Char)
  /-- The polynomial is found. -/
  | compiled (text : List Char) (polynomial : Polynomial (Number R))

/-- A stage of a parse in words. -/
def ParseEvent.message {R : Type} [Scalar R] : ParseEvent R → String
  | .malformed text reason =>
    "trivial validation rejected " ++ String.ofList (quoted text) ++ ": " ++ reason.message
  | .violation text reason =>
    "complicated validation rejected " ++ String.ofList (quoted text) ++ ": " ++ reason.message
  | .normalized text normal =>
    "normalized " ++ String.ofList (quoted text) ++ " to " ++ String.ofList (quoted normal)
  | .compiled text polynomial =>
    String.ofList (quoted text) ++ " has " ++ toString polynomial.monomials.length ++
      " terms: " ++ String.ofList polynomial.text

variable (R : Type) [Scalar R]

/-- The divisions that are looked at: all up to the first faulty one. -/
def visitedDivisions (text : List Char) : List (Site text) :=
  go (divisionSites text)
where
  /-- Keeps sites up to the first faulty one. -/
  go : List (Site text) → List (Site text)
    | [] => []
    | site :: rest =>
      match divisionFault? R (fun denominator _ => vanishes R denominator) site with
      | some _ => [site]
      | none => site :: go rest

/-- Everything that happens while a text is parsed. -/
def parseEvents (text : List Char) : List (ParseEvent R) :=
  if isBlankText text then []
  else
    match malformed? text with
    | some reason => [.malformed text reason]
    | none =>
      if maxNestingDepth < nestingDepth text then []
      else
        ((visitedDivisions R text).flatMap fun site =>
          have := site.length_right_lt
          if hasVariable site.right then parseEvents site.right else []) ++
        match violation? R text fun denominator _ => vanishes R denominator with
        | some reason => [.violation text reason]
        | none =>
          .normalized text (normalize text) ::
            match compile R text with
            | .ok polynomial => [.compiled text polynomial]
            | .error _ => []
termination_by text.length

end SamePoly
