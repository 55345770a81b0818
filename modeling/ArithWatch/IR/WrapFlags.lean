import ArithWatch.Text.Blank
import ArithWatch.Text.Hex

namespace ArithWatch

/-!
# Wrap flags

What is already known about the wrapping of an integer operation.  Two of the eight bits have names;
the others are kept without a meaning.

* `WrapFlags.text` writes the names of the set bits and the nameless rest in hexadecimal.
* `WrapFlags.parse?` reads such a text.
-/

/-- Wrap guarantees of an integer operation. -/
structure WrapFlags where
  bits : UInt8
  deriving DecidableEq, Repr, Inhabited

namespace WrapFlags

/-- No bit at all. -/
def empty : WrapFlags := ⟨0⟩

/-- No signed wrap. -/
def nsw : WrapFlags := ⟨1⟩

/-- No unsigned wrap. -/
def nuw : WrapFlags := ⟨2⟩

/-- The named bits, in the order in which they are written. -/
def named : List (String × WrapFlags) := [("NSW", nsw), ("NUW", nuw)]

def isEmpty (f : WrapFlags) : Bool := f.bits == 0

/-- Every bit of either side. -/
def union (f g : WrapFlags) : WrapFlags := ⟨f.bits ||| g.bits⟩

/-- Is every bit of `g` in `f`? -/
def contains (f g : WrapFlags) : Bool := f.bits &&& g.bits == g.bits

/-- Do the two share a bit? -/
def intersects (f g : WrapFlags) : Bool := f.bits &&& g.bits != 0

/-! ### Text -/

/-- The bits without a name. -/
def nameless (f : WrapFlags) : UInt8 := f.bits &&& 0xfc

/-- The names of the set bits and the rest in hexadecimal, separated by bars. -/
def text (f : WrapFlags) : String :=
  " | ".intercalate <|
    (named.filter fun (_, flag) => f.contains flag).map (·.1)
      ++ (if f.nameless = 0 then [] else ["0x" ++ Text.hexText f.nameless.toNat])

/-- A digit of a hexadecimal number, appended to the number before it; nothing above a byte. -/
def appendHex? (n : Nat) (c : Char) : Option Nat :=
  (Text.hexDigit? c).bind fun d => if 16 * n + d < 256 then some (16 * n + d) else none

/-- A byte in hexadecimal: at least one digit of either case after an optional plus sign. -/
def parseHex? (cs : List Char) : Option UInt8 :=
  match (match cs with | '+' :: rest => rest | cs => cs) with
  | [] => none
  | digits => (digits.foldlM appendHex? 0).map UInt8.ofNat

/-- One part of the text: a name, or bits in hexadecimal. -/
def parsePart? (part : List Char) : Option WrapFlags :=
  match Text.trim part with
  | '0' :: 'x' :: digits => (parseHex? digits).map WrapFlags.mk
  | name => named.lookup (String.ofList name)

/-- The parts of a text between its bars. -/
def splitBars : List Char → List (List Char)
  | [] => [[]]
  | c :: rest =>
    if c = '|' then [] :: splitBars rest
    else
      match splitBars rest with
      | part :: parts => (c :: part) :: parts
      | [] => [[c]]

/-- The flags that a text names; blank text names none. -/
def parse? (text : String) : Option WrapFlags :=
  match Text.trim text.toList with
  | [] => some empty
  | cs => (splitBars cs).foldlM (fun f part => (parsePart? part).map f.union) empty

example : (WrapFlags.mk 0xff).text = "NSW | NUW | 0xfc" := by decide +kernel
example : parse? " NUW|0x+1" = some ⟨3⟩ ∧ parse? "NSW|" = none := by decide +kernel

end WrapFlags

end ArithWatch
