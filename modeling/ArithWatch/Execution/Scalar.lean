import ArithWatch.IR.Type

namespace ArithWatch

/-!
# Scalars

The values that functions compute with.  An integer carries a whole word, which fits its width
wherever it was computed; a float is its bit pattern, and two scalars are equal only if their bits
are.
-/

/-- A value at run time. -/
inductive Scalar
  | int (width : Nat) (word : UInt64)
  | f32 (bits : UInt32)
  | f64 (bits : UInt64)
  deriving DecidableEq, Repr, Inhabited

namespace Scalar

/-- The integer `value` at the width of `ty`. -/
def ofInt (ty : Ty) (value : Int) : Scalar :=
  .int ty.patternWidth (UInt64.ofInt value &&& Word.lowMask ty.patternWidth)

/-- A truth value. -/
def ofBool (b : Bool) : Scalar := ofInt .i1 (if b then 1 else 0)

/-- The scalar with the type and the bits of a constant. -/
def ofConstant (c : Constant) : Scalar :=
  match c.ty with
  | .int width => .int width c.unsigned
  | .f32 => .f32 c.bits.toUInt32
  | .f64 => .f64 c.bits

/-- The type of a scalar. -/
def ty : Scalar → Ty
  | .int width _ => .int width
  | .f32 _ => .f32
  | .f64 _ => .f64

/-- The truth value, which is the lowest bit, of an integer of width 1. -/
def bool? : Scalar → Option Bool
  | .int 1 word => some (word &&& 1 == 1)
  | _ => none

/-- The two's complement reading of an integer. -/
def signed? : Scalar → Option Int
  | .int width word => some (Word.signed width word)
  | _ => none

/-- The word of an integer. -/
def unsigned? : Scalar → Option UInt64
  | .int _ word => some word
  | _ => none

/-- The two's complement reading of an integer of width 32. -/
def signed32? : Scalar → Option Int
  | .int 32 word => some (Word.signed 32 word)
  | _ => none

/-- The pattern of a float as a 64-bit float. -/
def double? : Scalar → Option Nat
  | .int _ _ => none
  | .f32 bits => some (BinaryFormat.single.convert .double bits.toNat)
  | .f64 bits => some bits.toNat

end Scalar

end ArithWatch
