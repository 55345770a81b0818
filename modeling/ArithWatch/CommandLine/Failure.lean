namespace ArithWatch

/-!
# Failures

A failure says what was being done and why that went wrong, from the outside in.

* `Failure.text` is the text of a failure: one cause stands indented by itself, several are
  numbered, and the further lines of a cause stand below its first one.
-/

/-- What was being done and the causes of its failure. -/
structure Failure where
  context : String
  causes : List String
  deriving DecidableEq, Repr

namespace Failure

/-- A text whose lines after the first one are indented. -/
def hanging (indent text : String) : String := ("\n" ++ indent).intercalate (text.splitOn "\n")

/-- The number of a cause, in five columns. -/
def number (index : Nat) : String :=
  String.ofList (List.replicate (5 - (toString index).length) ' ') ++ toString index ++ ": "

/-- The lines of the causes. -/
def causesText : List String → String
  | [] => ""
  | [cause] => "\n\nCaused by:\n    " ++ hanging "    " cause
  | causes =>
    "\n\nCaused by:" ++ String.join (causes.mapIdx fun index cause =>
      "\n" ++ number index ++ hanging "       " cause)

/-- The text of a failure. -/
def text (f : Failure) : String := "Error: " ++ f.context ++ causesText f.causes ++ "\n"

end Failure

end ArithWatch
