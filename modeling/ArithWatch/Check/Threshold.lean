import ArithWatch.IR.Type
import ArithWatch.Number.Reading
import ArithWatch.Text.Blank
import ArithWatch.Text.Quoted

namespace ArithWatch

/-!
# The magnitude threshold

A result whose magnitude exceeds the threshold is exceptional.  There is no threshold to fall back
on: a run always states its own.

* `Threshold` is a finite 64-bit float without a sign.
* `Threshold.ofDouble`, `Threshold.parse` and `Threshold.ofVariable` make one from a float, from a
  text and from an environment variable.
* `Threshold.intBound` and `Threshold.floatBound` are the threshold as a constant of a type.
-/

/-- A finite, nonnegative 64-bit float. -/
structure Threshold where
  pattern : Nat
  isFinite : pattern < BinaryFormat.double.infinityPattern
  deriving DecidableEq, Repr

/-- Why there is no threshold. -/
inductive ThresholdError
  | missingVariable (name : String)
  | invalidVariable (name reason : String)
  | outOfRange (pattern : Nat)
  | unparsable (text : String)
  deriving DecidableEq, Repr

/-- The words for an error. -/
def ThresholdError.message : ThresholdError → String
  | .missingVariable name => "missing required env var " ++ name
  | .invalidVariable name reason => "invalid value for env var " ++ name ++ ": " ++ reason
  | .outOfRange pattern =>
    "semantic threshold must be a finite, non-negative number (got "
      ++ DecimalLayout.plain.render .double pattern ++ ")"
  | .unparsable text => "semantic threshold " ++ Text.quote text ++ " is not a number"

/-- What is known of an environment variable. -/
inductive Variable
  | unset
  /-- The variable holds bytes that are no text. -/
  | undecodable
  | text (s : String)
  deriving DecidableEq, Repr

namespace Threshold

/-- The environment variable that holds the threshold. -/
def variableName : String := "SYMROS_SEMANTIC_THRESHOLD"

/-- The threshold of a 64-bit float; negative zero counts as zero. -/
def ofDouble (pattern : Nat) : Except ThresholdError Threshold :=
  let magnitude := BinaryFormat.double.magnitude pattern
  if h : magnitude < BinaryFormat.double.infinityPattern then
    if BinaryFormat.double.isNegative pattern ∧ magnitude ≠ 0 then .error (.outOfRange pattern)
    else .ok ⟨magnitude, h⟩
  else .error (.outOfRange pattern)

/-- The threshold that a text spells, apart from blanks around it. -/
def parse (raw : String) : Except ThresholdError Threshold :=
  match readDouble? (Text.trim raw.toList) with
  | some pattern => ofDouble pattern
  | none => .error (.unparsable raw)

/-- The threshold in the environment variable. -/
def ofVariable : Variable → Except ThresholdError Threshold
  | .unset => .error (.missingVariable variableName)
  | .undecodable => .error (.invalidVariable variableName "not valid unicode")
  | .text raw => (parse raw).mapError fun e => .invalidVariable variableName e.message

/-- The text of a threshold in messages. -/
def text (t : Threshold) : String := DecimalLayout.plain.render .double t.pattern

/-! ### Bounds -/

/-- The threshold without its fraction. -/
def whole (t : Threshold) : Nat := BinaryFormat.double.wholePart t.pattern

/-- The threshold as an integer of a type: without its fraction, and at most the greatest signed
    integer.  The comparison is made among floats, where that greatest integer is rounded up to a
    power of two if it has too many digits. -/
def intBound (t : Threshold) (ty : Ty) : Constant :=
  let greatest := (Constant.signedMax ty).unsigned.toNat
  let limit := BinaryFormat.double.wholePart (BinaryFormat.double.ofNat greatest)
  .int ty (if limit ≤ t.whole then greatest else t.whole)

/-- The threshold as a float of a type. -/
def floatBound (t : Threshold) (ty : Ty) : Constant := .float ty t.pattern

end Threshold

end ArithWatch
