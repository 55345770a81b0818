import ArithWatch.IR.Function
import ArithWatch.Execution.Scalar

namespace ArithWatch

/-!
# Arithmetic

Every operation has a defined result.

* Integers wrap at their width.
* A division by zero gives the word of all ones, a remainder by zero the dividend; the least integer
  divided by -1 wraps.
* Shift amounts count modulo the width.
* Floats follow the rules of their format.

The zero test of a division looks at the whole divisor.  A divisor that is not zero but whose low
bits are, which no computation produces, makes a signed division fault.
-/

-- `2 ^ n` is the built-in power of natural numbers and integers, whatever else is in scope.
attribute [local instance (2000)] instPowNat

/-- The result of an operation: none where the operator does not fit the type of its sides. -/
abbrev Result (α : Type) := Except Fault (Option α)

namespace IntOp

/-- The shift amount that a word stands for. -/
def shiftAmount (width : Nat) (y : UInt64) : Nat := y.toNat % max width 1

/-- The word of `x op y` before it is cut to the width. -/
def word (op : BinOp) (width : Nat) (x y : UInt64) : Result UInt64 :=
  let sx := Word.signed width x
  let sy := Word.signed width y
  let shift := shiftAmount width y
  match op with
  | .add => .ok (some (x + y))
  | .sub => .ok (some (x - y))
  | .mul => .ok (some (x * y))
  | .sdiv =>
    if y = 0 then .ok (some (Word.lowMask width))
    else if sy = 0 then .error .zeroDivisor
    else .ok (some (UInt64.ofInt (sx.tdiv sy)))
  | .udiv => .ok (some (if y = 0 then Word.lowMask width else x / y))
  | .srem =>
    if y = 0 then .ok (some x)
    else if sy = 0 then .error .zeroDivisor
    else .ok (some (UInt64.ofInt (sx.tmod sy)))
  | .urem => .ok (some (if y = 0 then x else x % y))
  | .and => .ok (some (x &&& y))
  | .or => .ok (some (x ||| y))
  | .xor => .ok (some (x ^^^ y))
  | .shl => .ok (some (x <<< UInt64.ofNat shift))
  | .lshr => .ok (some (x >>> UInt64.ofNat shift))
  | .ashr => .ok (some (UInt64.ofInt (sx / 2 ^ (shift % 64))))
  | .fadd | .fsub | .fmul | .fdiv | .frem => .ok none

/-- The word of `x op y`, cut to the width. -/
def result (op : BinOp) (width : Nat) (x y : UInt64) : Result UInt64 :=
  (word op width x y).map (·.map (· &&& Word.lowMask width))

/-- Does `x pred y` hold?  Equality and the unsigned comparisons look at the whole words. -/
def compare (pred : IntPredicate) (width : Nat) (x y : UInt64) : Bool :=
  let sx := Word.signed width x
  let sy := Word.signed width y
  match pred with
  | .eq => x = y
  | .ne => x ≠ y
  | .slt => sx < sy
  | .sle => sx ≤ sy
  | .sgt => sy < sx
  | .sge => sy ≤ sx
  | .ult => x < y
  | .ule => x ≤ y
  | .ugt => y < x
  | .uge => y ≤ x

end IntOp

namespace FloatOp

/-- The pattern of `x op y`; none for an integer operator. -/
def result? (format : BinaryFormat) (op : BinOp) (x y : Nat) : Option Nat :=
  match op with
  | .fadd => some (format.add x y)
  | .fsub => some (format.sub x y)
  | .fmul => some (format.mul x y)
  | .fdiv => some (format.div x y)
  | .frem => some (format.rem x y)
  | _ => none

/-- Does `x pred y` hold?  Nothing holds of a pattern that is no number. -/
def compare (format : BinaryFormat) (pred : FloatPredicate) (x y : Nat) : Bool :=
  if format.isNaN x || format.isNaN y then false
  else
    match pred with
    | .oeq => format.key x = format.key y
    | .one => format.key x ≠ format.key y
    | .olt => format.key x < format.key y
    | .ole => format.key x ≤ format.key y
    | .ogt => format.key y < format.key x
    | .oge => format.key y ≤ format.key x

end FloatOp

namespace Scalar

/-- The scalar of `a op b`; none unless both have one type and the operator fits it. -/
def binary (op : BinOp) : Scalar → Scalar → Result Scalar
  | .int width x, .int width' y =>
    if width = width' then (IntOp.result op width x y).map (·.map (.int width)) else .ok none
  | .f32 x, .f32 y =>
    .ok ((FloatOp.result? .single op x.toNat y.toNat).map fun r => .f32 (UInt32.ofNat r))
  | .f64 x, .f64 y =>
    .ok ((FloatOp.result? .double op x.toNat y.toNat).map fun r => .f64 (UInt64.ofNat r))
  | _, _ => .ok none

/-- The truth of `a pred b`; none unless both are integers of one width. -/
def icmp? (pred : IntPredicate) : Scalar → Scalar → Option Scalar
  | .int width x, .int width' y =>
    if width = width' then some (ofBool (IntOp.compare pred width x y)) else none
  | _, _ => none

/-- The truth of `a pred b`; none unless both are floats of one format. -/
def fcmp? (pred : FloatPredicate) : Scalar → Scalar → Option Scalar
  | .f32 x, .f32 y => some (ofBool (FloatOp.compare .single pred x.toNat y.toNat))
  | .f64 x, .f64 y => some (ofBool (FloatOp.compare .double pred x.toNat y.toNat))
  | _, _ => none

end Scalar

example : IntOp.result .sdiv 32 0x80000000 0xffffffff = .ok (some 0x80000000) := rfl
example : IntOp.result .sdiv 32 7 0 = .ok (some 0xffffffff) := rfl
example : IntOp.result .sdiv 8 5 0x100 = .error .zeroDivisor := rfl

end ArithWatch
