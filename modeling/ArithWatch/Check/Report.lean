import ArithWatch.Check.Instrument
import ArithWatch.IR.Verify

namespace ArithWatch

/-!
# Instrumenting modules

* `TaggedBranch` is an inserted branch as others see it: function and block by name.
* `ModuleReport` collects the reports of all functions.
* `Module.instrument` instruments function after function.  When it fails, the functions before the
  failing one and that one itself stay instrumented.
-/

/-- One inserted branch. -/
structure TaggedBranch where
  function : String
  /-- The name of the decision block. -/
  block : String
  tag : CheckKind
  site : SiteId
  location : Option Location := none
  deriving DecidableEq, Repr

/-- What was done to a module. -/
structure ModuleReport where
  module : String
  functions : List FunctionReport := []
  branches : List TaggedBranch := []
  deriving DecidableEq, Repr

namespace ModuleReport

/-- The report of the first function of the given name. -/
def function? (r : ModuleReport) (name : String) : Option FunctionReport :=
  r.functions.find? (·.function == name)

/-- The number of sites in all functions. -/
def siteCount (r : ModuleReport) : Nat := (r.functions.flatMap (·.sites)).length

/-- The number of inserted branches in all functions. -/
def checkCount (r : ModuleReport) : Nat := (r.functions.flatMap (·.checks.entries)).length

/-- The number of operations left alone in all functions. -/
def skippedCount (r : ModuleReport) : Nat := (r.functions.flatMap (·.skipped)).length

/-- How many branches there are of each kind that occurs. -/
def countsByKind (r : ModuleReport) : List (CheckKind × Nat) :=
  (CheckKind.all.map fun kind => (kind, r.branches.countP (·.tag == kind))).filter (·.2 != 0)

end ModuleReport

/-- Why a module is not instrumented. -/
inductive InstrumentError
  | invalidInput (e : VerifyError)
  | invalidOutput (e : VerifyError)
  | fault (f : Fault)
  deriving DecidableEq, Repr

namespace InstrumentError

/-- The words for an error, if it has any. -/
def message? : InstrumentError → Option String
  | .invalidInput e => some ("input IR is malformed: " ++ e.message)
  | .invalidOutput e => some ("instrumented IR is malformed: " ++ e.message)
  | .fault f => f.message?

/-- The error and what caused it, from the outside in. -/
def causes : InstrumentError → List String
  | .invalidInput e => ["input IR is malformed: " ++ e.message, e.message]
  | .invalidOutput e => ["instrumented IR is malformed: " ++ e.message, e.message]
  | .fault f => f.message?.toList

end InstrumentError

/-- An inserted branch under the names of the function it is in. -/
def Function.taggedBranch (f : Function) (entry : BlockId × CheckRecord) :
    Except Fault TaggedBranch := do
  return {
    function := f.name
    block := (← f.block entry.1).name
    tag := entry.2.kind
    site := entry.2.site
    location := entry.2.location }

namespace Module

/-- What is reported of one function. -/
abbrev Part := FunctionReport × List TaggedBranch

/-- Checks an instrumented function, if asked to, and names its inserted branches. -/
def finishFunction (options : InstrumentOptions) (f : Function) (report : FunctionReport) :
    Except InstrumentError Part := do
  if options.verify then f.verify.mapError .invalidOutput
  let branches ← (report.checks.entries.mapM f.taggedBranch).mapError .fault
  return (report, branches)

/-- Instruments the functions in order, up to the first failure; gives all functions as they are
    afterwards. -/
def instrumentFunctions (t : Threshold) (options : InstrumentOptions) :
    List Function → List Function × Except InstrumentError (List Part)
  | [] => ([], .ok [])
  | f :: rest =>
    match Edit.instrument t options f with
    | .error fault f => (f :: rest, .error (.fault fault))
    | .ok report f =>
      match finishFunction options f report with
      | .error e => (f :: rest, .error e)
      | .ok part =>
        let (rest, parts) := instrumentFunctions t options rest
        (f :: rest, parts.map (part :: ·))

/-- Instruments a module; gives the module as it is afterwards and the report.  With verification a
    malformed module is left as it is. -/
def instrument (t : Threshold) (options : InstrumentOptions) (m : Module) :
    Module × Except InstrumentError ModuleReport :=
  match if options.verify then m.verify else .ok () with
  | .error e => (m, .error (.invalidInput e))
  | .ok () =>
    let (functions, parts) := instrumentFunctions t options m.functions
    ({ m with functions }, parts.map fun parts =>
      { module := m.name
        functions := parts.map (·.1)
        branches := parts.flatMap (·.2) })

end Module

end ArithWatch
