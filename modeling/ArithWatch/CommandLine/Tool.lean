import ArithWatch.CommandLine.Arguments
import ArithWatch.CommandLine.Failure
import ArithWatch.CommandLine.Machine
import ArithWatch.Check.Format
import ArithWatch.IR.Listing
import ArithWatch.Json.Parser
import ArithWatch.Json.Printer

namespace ArithWatch

/-!
# The command line tool

Reads a module, instruments it and writes it, with a report of the inserted branches if asked for.

* `Host` is what the tool needs of the machine that it runs on.
* `Tool.instrumented` is the part between reading and writing.
* `Tool.run` is a whole run, `Tool.runIn` one on a machine in memory.
-/

/-- Reading and writing files, where an error is told in words, and printing. -/
structure Host (m : Type → Type) where
  read : String → m (Except String String)
  write : String → String → m (Except String Unit)
  print : String → Stream → m Unit

/-- Why a run ends early. -/
inductive ToolError
  | failure (f : Failure)
  | fault (f : Fault)
  deriving DecidableEq, Repr

/-- What is to be written. -/
structure Rendered where
  module : String
  branches : String
  /-- The line that sums the run up. -/
  summary : String
  deriving DecidableEq, Repr

namespace Tool

/-- A failure with a single cause. -/
def failed (context cause : String) : ToolError := .failure ⟨context, [cause]⟩

/-- The threshold on the command line, or else the one in the environment. -/
def threshold (i : Invocation) (setting : Variable) : Except ToolError Threshold :=
  match i.threshold with
  | some pattern =>
    (Threshold.ofDouble pattern).mapError fun e =>
      failed "invalid --semantic-threshold" e.message
  | none =>
    (Threshold.ofVariable setting).mapError fun e =>
      failed "no semantic threshold configured" e.message

/-- The module in a text. -/
def readModule (path text : String) : Except ToolError Module :=
  match (Json.parse? text.toList).bind Module.ofJson? with
  | some m => .ok m
  | none => .error (failed ("parse module " ++ path) "the text is not a module")

/-- The text of a module. -/
def moduleText (m : Module) : Emit → Except ToolError String
  | .json => .ok (m.toJson.render .pretty ++ "\n")
  | .text => m.listing.mapError .fault

/-- The last line of a run. -/
def summary (r : ModuleReport) : String :=
  r.module ++ ": " ++ toString r.siteCount ++ " sites, " ++ toString r.checkCount ++ " checks, "
    ++ toString r.skippedCount ++ " skipped\n"

/-- An error of instrumentation as an error of the run. -/
def instrumentFailure (path : String) : InstrumentError → ToolError
  | .fault f => .fault f
  | e => .failure ⟨"instrument " ++ path, e.causes⟩

/-- Instruments the module in a text.  The module is verified whatever the options say. -/
def instrumented (i : Invocation) (t : Threshold) (text : String) : Except ToolError Rendered := do
  let m ← readModule i.input text
  m.verify.mapError fun e => failed ("malformed input module " ++ i.input) e.message
  let (m, report) := m.instrument t i.options
  let report ← report.mapError (instrumentFailure i.input)
  return {
    module := ← moduleText m i.emit
    branches := (Json.list TaggedBranch.toJson report.branches).render .pretty ++ "\n"
    summary := summary report }

variable {m : Type → Type} [Monad m]

/-- Writes a file, if a path is given. -/
def writeOptional (host : Host m) (path : Option String) (text : String) :
    m (Except ToolError Unit) :=
  match path with
  | none => pure (.ok ())
  | some path => do
    return (← host.write path text).mapError (failed ("write " ++ path))

/-- Writes the module to the file that the invocation names, or prints it. -/
def writeModule (host : Host m) (i : Invocation) (text : String) : m (Except ToolError Unit) := do
  if i.output.isNone then host.print text .stdout
  writeOptional host i.output text

/-- What is to be written, from the file that the invocation names. -/
def render (host : Host m) (setting : Variable) (i : Invocation) :
    m (Except ToolError Rendered) :=
  match threshold i setting with
  | .error e => pure (.error e)
  | .ok t => do
    match ← host.read i.input with
    | .error reason => return .error (failed ("read " ++ i.input) reason)
    | .ok text => return instrumented i t text

/-- Ends a run early; gives its exit code. -/
def stop (host : Host m) : ToolError → m Nat
  | .failure f => do
    host.print f.text .stderr
    return 1
  | .fault f => do
    host.print (f.message?.getD "malformed module" ++ "\n") .stderr
    return 101

/-- Runs an invocation; gives the exit code. -/
def execute (host : Host m) (setting : Variable) (i : Invocation) : m Nat := do
  match ← render host setting i with
  | .error e => stop host e
  | .ok rendered =>
    match ← writeModule host i rendered.module with
    | .error e => stop host e
    | .ok () =>
      match ← writeOptional host i.report rendered.branches with
      | .error e => stop host e
      | .ok () =>
        host.print rendered.summary .stderr
        return 0

/-- A run of the tool; gives the exit code. -/
def run (host : Host m) (setting : Variable) (arguments : List String) : m Nat :=
  match Invocation.parse arguments with
  | .ok i => execute host setting i
  | .error (.help form) => do
    host.print form.text .stdout
    return 0
  | .error e => do
    host.print ("error: " ++ e.message ++ "\n") .stderr
    return 2

/-- A machine in memory. -/
def inMemory : Host (StateM Machine) where
  read path := do return ((← get).read path).mapError (·.message)
  write path text := do
    match (← get).write path text with
    | .ok machine => set machine; return .ok ()
    | .error e => return .error e.message
  print text stream := modify (·.print text stream)

/-- A run on a machine in memory; gives the exit code and the machine as it is afterwards. -/
def runIn (machine : Machine) (setting : Variable) (arguments : List String) : Nat × Machine :=
  (run inMemory setting arguments).run machine

end Tool

end ArithWatch
