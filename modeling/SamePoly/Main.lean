/-
  The program: files and standard input of the system around `Command.call`.
-/
import SamePoly.Command.Arguments

namespace SamePoly.Command

/-- A reason with the number that the system has for it. -/
def numbered (code : UInt32) (details : String) : String :=
  details ++ " (os error " ++ toString code ++ ")"

/-- The reason why a file cannot be had, in the words of the system. -/
def reason : IO.Error → String
  | .noFileOrDirectory _ code details => numbered code details
  | .permissionDenied _ code details => numbered code details
  | .inappropriateType _ code details => numbered code details
  | .invalidArgument _ code details => numbered code details
  | .resourceExhausted _ code details => numbered code details
  | .interrupted _ code details => numbered code details
  | .noSuchThing _ code details => numbered code details
  | .resourceBusy code details => numbered code details
  | .hardwareFault code details => numbered code details
  | .illegalOperation code details => numbered code details
  | .otherError code details => numbered code details
  | e => toString e

/-- Opens a file and reads all of it. -/
def systemFile (path : List Char) : IO FileContent := do
  let name := String.ofList path
  match (← (IO.FS.Handle.mk name .read).toBaseIO) with
  | .error e => return .closed (reason e)
  | .ok handle =>
    match (← handle.readBinToEnd.toBaseIO) with
    | .error e => return .unreadable (reason e)
    | .ok content => return .bytes content.toList

/-- Reads all of standard input. -/
def systemInput : IO (List UInt8) := do
  return (← (IO.FS.Stream.readBinToEnd (← IO.getStdin))).toList

end SamePoly.Command

open SamePoly.Command in
def main (arguments : List String) : IO UInt32 := do
  let outcome ← call ⟨systemFile, systemInput⟩ (arguments.map String.toList)
  (← IO.getStdout).putStr outcome.output
  (← IO.getStderr).putStr outcome.errors
  return outcome.exit.toUInt32
