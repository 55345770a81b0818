import ArithWatch.Check.Threshold

namespace ArithWatch

/-!
# Help

What the tool says about its arguments, in two forms: the summary stands in a block, the full text
has an empty line between two options and explains the values of those that have a fixed choice.

* `HelpItem` is an argument with its lines.
* `HelpForm.text` is the whole help text.
-/

/-- How much help is asked for. -/
inductive HelpForm
  | summary
  | full
  deriving DecidableEq, Repr

/-- An argument and the lines about it. -/
structure HelpItem where
  heading : String
  summary : List String
  full : List String := summary
  deriving DecidableEq, Repr

namespace HelpItem

/-- The input file. -/
def input : HelpItem :=
  { heading := "<INPUT>", summary := ["JSON-encoded module to instrument"] }

/-- The options, in the order in which they are listed. -/
def options : List HelpItem :=
  [{ heading := "-o, --output <OUTPUT>"
     summary := ["Where to write the instrumented module (default: stdout)"] },
   { heading := "    --semantic-threshold <SEMANTIC_THRESHOLD>"
     summary := ["Magnitude above which a result counts as exceptional. Falls back to `"
       ++ Threshold.variableName ++ "` when omitted"] },
   { heading := "    --emit <EMIT>"
     summary := ["[default: json] [possible values: json, text]"]
     full := ["Possible values:",
       "- json: The instrumented module as JSON (readable again by this tool)",
       "- text: Human-readable listing", "", "[default: json]"] },
   { heading := "    --report <REPORT>"
     summary := ["Write every inserted branch as a JSON array to this path"] },
   { heading := "    --no-int-checks", summary := ["Do not insert integer checks"] },
   { heading := "    --no-fp-checks", summary := ["Do not insert floating-point checks"] },
   { heading := "    --verify"
     summary := ["Also verify the instrumented module. Input is always verified"] },
   { heading := "-h, --help"
     summary := ["Print help (see more with '--help')"]
     full := ["Print help (see a summary with '-h')"] }]

/-- A line below a heading, indented even if it is empty. -/
def line (text : String) : String := "          " ++ text ++ "\n"

/-- The heading of an argument with its lines below it. -/
def below (item : HelpItem) (lines : List String) : String :=
  "  " ++ item.heading ++ "\n" ++ String.join (lines.map line)

end HelpItem

namespace HelpForm

/-- The lines about the input file; a summary puts them behind the heading. -/
def inputText : HelpForm → String
  | .summary =>
    "  " ++ HelpItem.input.heading ++ "  " ++ " ".intercalate HelpItem.input.summary ++ "\n"
  | .full => HelpItem.input.below HelpItem.input.full

/-- The lines about the options. -/
def optionsText : HelpForm → String
  | .summary => String.join (HelpItem.options.map fun item => item.below item.summary)
  | .full => "\n".intercalate (HelpItem.options.map fun item => item.below item.full)

/-- The help text. -/
def text (form : HelpForm) : String :=
  "Insert tagged arithmetic-exception checks into an IR module\n\n"
    ++ "Usage: symros-instrument [OPTIONS] <INPUT>\n\n"
    ++ "Arguments:\n" ++ form.inputText ++ "\n"
    ++ "Options:\n" ++ form.optionsText

end HelpForm

end ArithWatch
