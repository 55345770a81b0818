import ArithWatch.Number.Word
import ArithWatch.Number.Decimal

namespace ArithWatch

/-!
# Types and constants

* `Ty` is the type of a value: an integer of some width, without a sign of its own, or one of the
  two floating-point formats.
* `Constant` is a typed bit pattern.  The pattern of an integer counts in its low bits, that of a
  32-bit float in its low 32 bits.
-/

-- `2 ^ n` is the built-in power of natural numbers and integers, whatever else is in scope.
attribute [local instance (2000)] instPowNat

/-- The type of a value. -/
inductive Ty
  | int (width : Nat)
  | f32
  | f64
  deriving DecidableEq, Repr, Inhabited

namespace Ty

/-- The type of truth values. -/
abbrev i1 : Ty := .int 1

def isInt : Ty → Bool
  | .int _ => true
  | _ => false

def isFloat (ty : Ty) : Bool := !ty.isInt

/-- The width of an integer type. -/
def width? : Ty → Option Nat
  | .int width => some width
  | _ => none

/-- The width at which a pattern of the type is read as an integer: floats fill a word. -/
def patternWidth : Ty → Nat
  | .int width => width
  | _ => 64

/-- The name of the type in listings. -/
def text : Ty → String
  | .int width => "i" ++ toString width
  | .f32 => "float"
  | .f64 => "double"

end Ty

/-- A typed bit pattern. -/
structure Constant where
  ty : Ty
  bits : UInt64
  deriving DecidableEq, Repr, Inhabited

namespace Constant

/-! ### Making constants -/

/-- An integer, cut to the width of its type. -/
def int (ty : Ty) (value : Int) : Constant :=
  { ty, bits := UInt64.ofInt value &&& Word.lowMask ty.patternWidth }

/-- A truth value. -/
def bool (b : Bool) : Constant := int .i1 (if b then 1 else 0)

/-- Zero; positive zero for floats. -/
def zero (ty : Ty) : Constant := { ty, bits := 0 }

/-- The greatest signed integer of the type. -/
def signedMax (ty : Ty) : Constant := { ty, bits := Word.lowMask ty.patternWidth >>> 1 }

/-- The least signed integer of the type. -/
def signedMin (ty : Ty) : Constant := { ty, bits := UInt64.ofNat (2 ^ (ty.patternWidth - 1)) }

/-- The greatest unsigned integer of the type. -/
def unsignedMax (ty : Ty) : Constant := { ty, bits := Word.lowMask ty.patternWidth }

/-- The float of the type nearest to a 64-bit float. -/
def float (ty : Ty) (double : Nat) : Constant :=
  { ty, bits := UInt64.ofNat <| match ty with
      | .f32 => BinaryFormat.double.convert .single double
      | _ => double }

/-- An infinity of the type. -/
def infinity (ty : Ty) (negative : Bool) : Constant :=
  float ty (BinaryFormat.double.withSign negative BinaryFormat.double.infinityPattern)

/-! ### Reading constants -/

/-- The unsigned reading of the pattern. -/
def unsigned (c : Constant) : UInt64 := c.bits &&& Word.lowMask c.ty.patternWidth

/-- The two's complement reading of the pattern. -/
def signed (c : Constant) : Int := Word.signed c.ty.patternWidth c.bits

/-- The constant as a 64-bit float; an integer is rounded. -/
def double (c : Constant) : Nat :=
  match c.ty with
  | .f32 => BinaryFormat.single.convert .double c.bits.toUInt32.toNat
  | .f64 => c.bits.toNat
  | .int _ => BinaryFormat.double.ofInt c.signed

/-- The text of a constant in listings: truth values as words, other integers signed, and infinities
    with their sign. -/
def text (c : Constant) : String :=
  match c.ty with
  | .int 1 => if c.bits &&& 1 = 1 then "true" else "false"
  | .int _ => toString c.signed
  | .f32 | .f64 =>
    let sign := if BinaryFormat.double.isInfinite c.double then
        if BinaryFormat.double.isNegative c.double then "" else "+"
      else ""
    sign ++ DecimalLayout.listing.render .double c.double

example : (int (.int 8) (-1)).bits = 0xff ∧ (signedMin (.int 32)).signed = -2147483648 := by decide

end Constant

end ArithWatch
