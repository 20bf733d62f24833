/-
  A run of the program.

  Two expressions are taken from the options, then from a file, then from standard input,
  and compared as polynomials.  Where files and standard input come from is left open, so a
  run can be studied without either.

  * `Source`: where input comes from.
  * `Outcome`: the exit code and what is written.
  * `run`: a run with given options.
-/
import SamePoly.Command.Options
import SamePoly.Command.Log
import SamePoly.Input

namespace SamePoly.Command

/-- What came of opening a file. -/
inductive FileContent where
  /-- The file cannot be opened. -/
  | closed (reason : String)
  /-- The file can be opened but not read. -/
  | unreadable (reason : String)
  | bytes (content : List UInt8)

/-- Where input comes from. -/
structure Source (m : Type → Type) where
  file : List Char → m FileContent
  input : m (List UInt8)

/-- The exit code of a run and what it writes. -/
structure Outcome where
  exit : Nat
  output : String := ""
  errors : String := ""
deriving DecidableEq, Repr

/-- The reason for input that is not UTF-8. -/
def notUtf8 : String := "stream did not contain valid UTF-8"

/-- A run that ends because input cannot be had. -/
def Outcome.failed (action : String) (name : List Char) (reason : String) : Outcome :=
  ⟨1, "", "Error: Failed to " ++ action ++ " " ++ String.ofList name ++ ": " ++ reason ++ "\n"⟩

/-! ## Reading the expressions -/

/-- Tops up the expressions from a file. -/
def addFromFile (path : List Char) (expressions : List (List Char)) :
    FileContent → Except Outcome (List (List Char))
  | .closed reason => .error (.failed "open" path reason)
  | .unreadable reason => .error (.failed "read" path reason)
  | .bytes content =>
    let collected := collectExpressions content expressions 2
    if collected.readable then .ok collected.expressions
    else .error (.failed "read" path notUtf8)

/-- Tops up the expressions from standard input. -/
def addFromInput (expressions : List (List Char)) (content : List UInt8) :
    Except Outcome (List (List Char)) :=
  let collected := collectExpressions content expressions 2
  if collected.readable then .ok collected.expressions
  else .error (.failed "read" "standard input".toList notUtf8)

variable {R : Type} {m : Type → Type} [Monad m]

/-- The expressions of the options, topped up from the file if there is one. -/
def readFile (source : Source m) (options : Options R) : m (Except Outcome (List (List Char))) :=
  match options.file with
  | none => return .ok options.expressions
  | some path =>
    if Nat.ble 2 options.expressions.length then return .ok options.expressions
    else return addFromFile path options.expressions (← source.file path)

/-- All expressions of a run.  A source is touched only while there are fewer than two. -/
def readExpressions (source : Source m) (options : Options R) :
    m (Except Outcome (List (List Char))) := do
  match (← readFile source options) with
  | .error outcome => return .error outcome
  | .ok expressions =>
    if Nat.ble 2 expressions.length then return .ok expressions
    else return addFromInput expressions (← source.input)

/-! ## Comparing -/

variable [Scalar R]

/-- The name of an expression in messages. -/
def ordinalName (second : Bool) : String := if second then "second" else "first"

/-- The exit code for a rejected expression: 3 and 4 for the first, 5 and 6 for the second,
    a fault of the text before a fault of its meaning. -/
def rejectedCode (second : Bool) (e : PolyError) : Nat :=
  (if second then 5 else 3) + if e.isSyntactic then 0 else 1

/-- The message about a rejected expression. -/
def rejectedMessage (specific second : Bool) (e : PolyError) : String :=
  "Error in " ++ ordinalName second ++ " expression.\n" ++
    if specific then e.report ++ "\n" else ""

/-- The log of a list of events, empty unless it is asked for. -/
def logged (options : Options R) (events : List (Event R)) : String :=
  if options.verbose then String.join (events.map Event.line) else ""

/-- Parses one expression: its polynomial or the end of the run, with the log. -/
def parseLogged (options : Options R) (second : Bool) (text : List Char) :
    String × Except Outcome (Polynomial (Number R)) :=
  let log := logged options ((parseEvents R text).map .parse)
  match parse R text with
  | .error e =>
    (log, .error ⟨rejectedCode second e, "", rejectedMessage options.specific second e⟩)
  | .ok polynomial =>
    (log ++ logged options [.expression (if second then 2 else 1) polynomial], .ok polynomial)

/-- Puts the log in front of what a run writes. -/
def Outcome.after (log : String) (outcome : Outcome) : Outcome :=
  { outcome with errors := log ++ outcome.errors }

/-- Compares two expressions. -/
def compareExpressions (options : Options R) (first second : List Char) : Outcome :=
  match parseLogged options false first with
  | (log, .error outcome) => outcome.after log
  | (firstLog, .ok left) =>
    match parseLogged options true second with
    | (log, .error outcome) => outcome.after (firstLog ++ log)
    | (secondLog, .ok right) =>
      let log := firstLog ++ secondLog ++ logged options [.comparing options.comparison]
      if left.compare options.comparison right then ⟨0, "Polynomials are equal.\n", log⟩
      else ⟨1, "Polynomials are not equal.\n", log⟩

/-- What is done with the expressions of a run. -/
def compareAll (options : Options R) : List (List Char) → Outcome
  | [] => ⟨1, "", "There are no expressions to compare.\n"⟩
  | [_] => ⟨1, "", "There is no second expression to compare with.\n"⟩
  | first :: second :: _ => compareExpressions options first second

/-- A run with given options. -/
def run (source : Source m) (options : Options R) : m Outcome := do
  match (← readExpressions source options) with
  | .error outcome => return outcome
  | .ok expressions => return compareAll options expressions

end SamePoly.Command
