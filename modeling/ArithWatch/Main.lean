import ArithWatch.CommandLine.Tool

namespace ArithWatch

/-!
# The program

The command line tool on the real disk.
-/

/-- The number of an error of the disk.  Some calls give it as a negative code. -/
def errorNumber? : IO.Error → Option Nat
  | .noFileOrDirectory _ code _ | .noSuchThing _ code _ | .permissionDenied _ code _
  | .inappropriateType _ code _ | .resourceExhausted _ code _ | .invalidArgument _ code _ =>
    some (min code (0 - code)).toNat
  | _ => none

/-- The words for an error of the disk. -/
def diskReason (e : IO.Error) : String :=
  match (errorNumber? e).bind FileError.ofNumber? with
  | some e => e.message
  | none => toString e

/-- The text of a file. -/
def readText (path : String) : IO (Except String String) := do
  try
    match String.fromUTF8? (← IO.FS.readBinFile path) with
    | some text => return .ok text
    | none => return .error FileError.notText.message
  catch e => return .error (diskReason e)

/-- The machine that the program runs on.  What is printed is there before anything else happens, as
    a stream can also be written to by a path. -/
def thisMachine : Host IO where
  read := readText
  write path text := do
    try
      IO.FS.withFile path .write fun file => do
        file.putStr text
        file.flush
      return .ok ()
    catch e => return .error (diskReason e)
  print text
    | .stdout => do
      IO.print text
      (← IO.getStdout).flush
    | .stderr => IO.eprint text

end ArithWatch

open ArithWatch in
/-- Runs the tool with the arguments of the process. -/
def main (arguments : List String) : IO UInt32 := do
  let setting := match ← IO.getEnv Threshold.variableName with
    | none => Variable.unset
    | some text => Variable.text text
  return (← Tool.run thisMachine setting arguments).toUInt32
