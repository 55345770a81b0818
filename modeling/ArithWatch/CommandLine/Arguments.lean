import ArithWatch.Check.Qualify
import ArithWatch.CommandLine.Help

namespace ArithWatch

/-!
# Command line arguments

* `Invocation` is what the arguments ask for.
* `Invocation.parse` reads the arguments: options in any order around one input file, values behind
  an equals sign or as the next argument, and `--` before an input file that looks like an option.
  Nothing may be given twice.
-/

/-- The form in which the instrumented module is written. -/
inductive Emit
  | json
  | text
  deriving DecidableEq, Repr

/-- What the command line asks for. -/
structure Invocation where
  input : String
  output : Option String := none
  /-- A 64-bit float. -/
  threshold : Option Nat := none
  emit : Emit := .json
  report : Option String := none
  intChecks : Bool := true
  fpChecks : Bool := true
  verify : Bool := false
  deriving DecidableEq, Repr

/-- The options of instrumentation that an invocation asks for. -/
def Invocation.options (i : Invocation) : InstrumentOptions :=
  { intChecks := i.intChecks, fpChecks := i.fpChecks, verify := i.verify }

/-- Why there is no invocation. -/
inductive UsageError
  /-- The arguments ask for help. -/
  | help (form : HelpForm)
  | unexpected (argument : String)
  | repeated (option : String)
  | missingValue (option : String)
  | invalidValue (option value : String)
  | missingInput
  deriving DecidableEq, Repr

/-- The words for an error. -/
def UsageError.message : UsageError → String
  | .help _ => ""
  | .unexpected argument => "unexpected argument " ++ argument
  | .repeated option => option ++ " cannot be given twice"
  | .missingValue option => option ++ " needs a value"
  | .invalidValue option value => "invalid value " ++ value ++ " for " ++ option
  | .missingInput => "missing input file"

/-! ### Options -/

/-- An option with a value. -/
inductive ValueOption
  | output
  | threshold
  | emit
  | report
  deriving DecidableEq, Repr

/-- An option without a value. -/
inductive FlagOption
  | noIntChecks
  | noFpChecks
  | verify
  deriving DecidableEq, Repr

namespace ValueOption

def all : List ValueOption := [.output, .threshold, .emit, .report]

def name : ValueOption → String
  | .output => "--output"
  | .threshold => "--semantic-threshold"
  | .emit => "--emit"
  | .report => "--report"

end ValueOption

namespace FlagOption

def all : List FlagOption := [.noIntChecks, .noFpChecks, .verify]

def name : FlagOption → String
  | .noIntChecks => "--no-int-checks"
  | .noFpChecks => "--no-fp-checks"
  | .verify => "--verify"

end FlagOption

/-- What has been read of the arguments. -/
structure Arguments where
  input : Option String := none
  output : Option String := none
  threshold : Option Nat := none
  emit : Option Emit := none
  report : Option String := none
  flags : List FlagOption := []
  deriving DecidableEq, Repr

namespace Arguments

/-- The result of reading an argument. -/
abbrev Reading := Except UsageError Arguments

/-- Sets an option to a value; a second value is refused. -/
def setValue (a : Arguments) (option : ValueOption) (value : String) : Reading :=
  match option with
  | .output =>
    if a.output.isSome then .error (.repeated option.name)
    else if value = "" then .error (.missingValue option.name)
    else .ok { a with output := some value }
  | .report =>
    if a.report.isSome then .error (.repeated option.name)
    else if value = "" then .error (.missingValue option.name)
    else .ok { a with report := some value }
  | .threshold =>
    if a.threshold.isSome then .error (.repeated option.name)
    else
      match readDouble? value.toList with
      | some pattern => .ok { a with threshold := some pattern }
      | none => .error (.invalidValue option.name value)
  | .emit =>
    if a.emit.isSome then .error (.repeated option.name)
    else
      match value with
      | "json" => .ok { a with emit := some .json }
      | "text" => .ok { a with emit := some .text }
      | _ => .error (.invalidValue option.name value)

/-- Sets a flag; a second time is refused. -/
def setFlag (a : Arguments) (flag : FlagOption) : Reading :=
  if a.flags.contains flag then .error (.repeated flag.name)
  else .ok { a with flags := flag :: a.flags }

/-- Sets the input file; there is only one. -/
def setInput (a : Arguments) (path : String) : Reading :=
  if a.input.isSome then .error (.unexpected path)
  else if path = "" then .error (.missingValue "the input file")
  else .ok { a with input := some path }

/-- How an argument reads by itself. -/
inductive Shape
  /-- Every further argument is an input file. -/
  | endOfOptions
  | help (form : HelpForm)
  | flag (f : FlagOption)
  /-- An option with its value, if that is part of the argument. -/
  | option (o : ValueOption) (value : Option String)
  | file (path : String)
  | unknown
  deriving DecidableEq, Repr

/-- The name of a long option, and the value behind an equals sign. -/
def splitEquals (cs : List Char) : String × Option String :=
  match cs.dropWhile (· ≠ '=') with
  | [] => (String.ofList cs, none)
  | _ :: value => (String.ofList (cs.takeWhile (· ≠ '=')), some (String.ofList value))

/-- The shape of a long option. -/
def longShape (cs : List Char) : Shape :=
  let (name, value) := splitEquals cs
  if name = "--help" ∧ value = none then .help .full
  else
    match ValueOption.all.find? (·.name == name), FlagOption.all.find? (·.name == name), value with
    | some o, _, value => .option o value
    | none, some f, none => .flag f
    | _, _, _ => .unknown

/-- The shape of an argument. -/
def shape (argument : String) : Shape :=
  match argument.toList with
  | ['-', '-'] => .endOfOptions
  | '-' :: '-' :: cs => longShape ('-' :: '-' :: cs)
  | ['-'] => .file argument
  | ['-', 'o'] => .option .output none
  | '-' :: 'o' :: '=' :: value => .option .output (some (String.ofList value))
  | '-' :: 'o' :: value => .option .output (some (String.ofList value))
  | '-' :: 'h' :: _ => .help .summary
  | '-' :: _ => .unknown
  | _ => .file argument

/-- Reads the arguments in order. -/
def read (a : Arguments) : List String → Reading
  | [] => .ok a
  | argument :: rest =>
    match shape argument, rest with
    | .endOfOptions, rest => rest.foldlM setInput a
    | .help form, _ => .error (.help form)
    | .flag f, rest => (a.setFlag f).bind (·.read rest)
    | .file path, rest => (a.setInput path).bind (·.read rest)
    | .option o (some value), rest => (a.setValue o value).bind (·.read rest)
    | .option o none, [] => .error (.missingValue o.name)
    | .option o none, value :: rest =>
      match shape value with
      | .file value => (a.setValue o value).bind (·.read rest)
      | _ => .error (.missingValue o.name)
    | .unknown, _ => .error (.unexpected argument)

end Arguments

/-- The invocation that the arguments ask for. -/
def Invocation.parse (arguments : List String) : Except UsageError Invocation := do
  let a ← Arguments.read {} arguments
  match a.input with
  | none => .error .missingInput
  | some input =>
    return {
      input
      output := a.output
      threshold := a.threshold
      emit := a.emit.getD .json
      report := a.report
      intChecks := !a.flags.contains .noIntChecks
      fpChecks := !a.flags.contains .noFpChecks
      verify := a.flags.contains .verify }

example : Invocation.parse ["in", "--emit=text", "-oout", "--verify"]
    = .ok { input := "in", emit := .text, output := some "out", verify := true } := by
  cbv

end ArithWatch
