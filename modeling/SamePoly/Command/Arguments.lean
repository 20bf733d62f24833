/-
  The arguments of the command line.

  Arguments are read from left to right.  The value of an option stands in the same argument,
  behind `=` or directly behind a short name, or is the next argument.  Short names of
  options without a value may be joined.  A `--` makes everything behind it an expression.

  This is the outer layer of the program: what a run does (`run`) depends on its options and its
  input, and not on how the options are given.

  * `Request`: a run with options, or the version, or the usage.
  * `Request.ofArguments?`: reading the arguments; nothing if they make no sense.
  * `call`: what the program does with its arguments.
-/
import SamePoly.Scalar.Double
import SamePoly.Command.Session

namespace SamePoly.Command

/-- The options of a run with double precision numbers. -/
abbrev Settings : Type := Options Float

/-- The outcome of reading the arguments. -/
inductive Request where
  | compare (options : Settings)
  | version
  | usage

/-- An option of the command line. -/
inductive Flag where
  | epsilon
  | decimal
  | exact
  | specific
  | file
  | verbose
  | help
  | version
deriving DecidableEq, Repr

namespace Flag

/-- The option with a short name. -/
def ofShort? : Char → Option Flag
  | 'e' => some .epsilon
  | 'd' => some .decimal
  | 'm' => some .exact
  | 's' => some .specific
  | 'f' => some .file
  | 'v' => some .verbose
  | 'h' => some .help
  | 'V' => some .version
  | _ => none

/-- The long name of an option. -/
def longName : Flag → String
  | .epsilon => "epsilon"
  | .decimal => "decimal"
  | .exact => "match"
  | .specific => "specific"
  | .file => "file"
  | .verbose => "verbose"
  | .help => "help"
  | .version => "version"

/-- All options. -/
def all : List Flag := [.epsilon, .decimal, .exact, .specific, .file, .verbose, .help, .version]

/-- The option with a long name. -/
def ofLong? (name : List Char) : Option Flag := all.find? fun flag => flag.longName.toList == name

/-- The option has a value. -/
def takesValue : Flag → Bool
  | .epsilon | .decimal | .file => true
  | .exact | .specific | .verbose | .help | .version => false

end Flag

/-! ## Values -/

/-- A decimal integer with an optional sign that fits into 32 bits. -/
def integer? (text : List Char) : Option Int32 :=
  let (negative, digits) := Decimal.Numeral.splitSign text
  if digits.isEmpty || !digits.all Char.isDigit then none
  else
    let size := Decimal.Numeral.digitsValue digits
    if negative then
      if Nat.ble size 2147483648 then some (Int32.ofInt (-Int.ofNat size)) else none
    else if Nat.ble size 2147483647 then some (Int32.ofNat size) else none

/-- Gives an option its value; nothing if it has one already or the value does not fit. -/
def Options.set? (options : Settings) (flag : Flag) (value : List Char) : Option Settings :=
  match flag with
  | .epsilon =>
    if options.epsilon.isSome then none
    else (Double.ofText? value).map fun x => { options with epsilon := some x }
  | .decimal =>
    if options.decimal.isSome then none
    else (integer? value).map fun n => { options with decimal := some n }
  | .file =>
    if options.file.isSome || value.isEmpty then none
    else some { options with file := some value }
  | _ => none

/-- Switches on an option without a value; nothing if it is on already. -/
def Options.switch? (options : Settings) (flag : Flag) : Option Settings :=
  match flag with
  | .exact => if options.exact then none else some { options with exact := true }
  | .specific => if options.specific then none else some { options with specific := true }
  | .verbose => if options.verbose then none else some { options with verbose := true }
  | _ => none

/-- One more expression; there may be two. -/
def Options.addExpression? (options : Settings) (text : List Char) : Option Settings :=
  match options.first, options.second with
  | none, _ => some { options with first := some text }
  | some _, none => some { options with second := some text }
  | some _, some _ => none

/-! ## Arguments -/

/-- What an argument leads to. -/
inductive Progress where
  /-- The next argument is read with these options. -/
  | go (options : Settings)
  /-- The next argument is the value of an option. -/
  | awaiting (options : Settings) (flag : Flag)
  /-- Everything else does not matter. -/
  | done (request : Request)

/-- Goes on with options, if there are any. -/
def goOn? (options : Option Settings) : Option Progress := options.map .go

/-- An option without a value. -/
def applySwitch? (options : Settings) (flag : Flag) : Option Progress :=
  match flag with
  | .help => some (.done .usage)
  | .version => some (.done .version)
  | _ => goOn? (options.switch? flag)

/-- Short names joined in one argument.  The first option with a value takes the rest of the
    argument as its value. -/
def applyShort? (options : Settings) : List Char → Option Progress
  | [] => some (.go options)
  | c :: rest =>
    match Flag.ofShort? c with
    | none => none
    | some flag =>
      if flag.takesValue then
        match rest with
        | [] => some (.awaiting options flag)
        | '=' :: value => goOn? (options.set? flag value)
        | value => goOn? (options.set? flag value)
      else
        match applySwitch? options flag with
        | some (.go options) => applyShort? options rest
        | progress => progress

/-- A long name, with or without a value behind `=`. -/
def applyLong? (options : Settings) (text : List Char) : Option Progress :=
  let name := text.takeWhile (· != '=')
  match Flag.ofLong? name, text.dropWhile (· != '=') with
  | none, _ => none
  | some flag, [] =>
    if flag.takesValue then some (.awaiting options flag) else applySwitch? options flag
  | some flag, _ :: value =>
    if flag.takesValue then goOn? (options.set? flag value) else none

/-- An argument that is not the value of an option.  A single `-` is an expression. -/
def applyArgument? (options : Settings) : List Char → Option Progress
  | '-' :: '-' :: name => applyLong? options name
  | '-' :: c :: rest => applyShort? options (c :: rest)
  | text => goOn? (options.addExpression? text)

/-- An argument that may be the value of an option: it does not look like an option, or it
    is a negative number for an option that admits one. -/
def isValueFor (flag : Flag) : List Char → Bool
  | ['-'] => true
  | '-' :: rest => flag == .decimal && rest.all Char.isDigit
  | _ => true

/-- At most one way to compare is chosen. -/
def Options.consistent (options : Settings) : Bool :=
  let chosen := [options.epsilon.isSome, options.decimal.isSome, options.exact]
  Nat.ble (chosen.filter id).length 1

/-- Expressions behind `--`. -/
def addExpressions? (options : Settings) : List (List Char) → Option Settings
  | [] => some options
  | text :: rest =>
    match options.addExpression? text with
    | none => none
    | some options => addExpressions? options rest

/-- The request for finished options. -/
def finish? (options : Settings) : Option Request :=
  if options.consistent then some (.compare options) else none

/-- Reads the arguments from a state on. -/
def readFrom? (awaited : Option Flag) (options : Settings) : List (List Char) → Option Request
  | [] =>
    match awaited with
    | some _ => none
    | none => finish? options
  | argument :: rest =>
    match awaited with
    | some flag =>
      if isValueFor flag argument then
        match options.set? flag argument with
        | some options => readFrom? none options rest
        | none => none
      else none
    | none =>
      if argument == ['-', '-'] then (addExpressions? options rest).bind finish?
      else
        match applyArgument? options argument with
        | none => none
        | some (.go options) => readFrom? none options rest
        | some (.awaiting options flag) => readFrom? (some flag) options rest
        | some (.done request) => some request

/-- What the arguments ask for; nothing if they make no sense. -/
def Request.ofArguments? (arguments : List (List Char)) : Option Request :=
  readFrom? none {} arguments

/-! ## The program -/

/-- How the program is called. -/
def usage : String :=
  "Usage: " ++ programName ++
    " [-e EPS | -d N | -m] [-s] [-v] [-f FILE] [FIRST] [SECOND]\n"

/-- What the program does with its arguments. -/
def call {m : Type → Type} [Monad m] (source : Source m) (arguments : List (List Char)) :
    m Outcome :=
  match Request.ofArguments? arguments with
  | none => return ⟨2, "", usage⟩
  | some .usage => return ⟨0, usage, ""⟩
  | some .version => return ⟨0, programName ++ " 0.1.0\n", ""⟩
  | some (.compare options) => run source options

end SamePoly.Command
