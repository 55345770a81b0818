import ArithWatch.Number.Reading
import ArithWatch.Json.Decode

namespace ArithWatch

/-!
# Floating-point numbers in JSON

A JSON number becomes a 64-bit float in two roundings: its leading digits, as many as fit a 64-bit
word, become a float, and that float is multiplied or divided by a power of ten.  A number that
would become infinite is refused.
-/

namespace Numeral

/-- The leading digits of a number and the power of ten they are to be multiplied by. -/
structure Leading where
  word : Nat := 0
  exponent : Int := 0
  full : Bool := false
  deriving DecidableEq, Repr

/-- Appends a digit to the word, or marks the word as full if the digit does not fit. -/
def Leading.append (l : Leading) (d : Digit) : Leading :=
  if l.full ∨ UInt64.size ≤ 10 * l.word + d.val then { l with full := true }
  else { l with word := 10 * l.word + d.val }

/-- A digit before the point counts as a factor ten where it does not fit. -/
def Leading.whole (l : Leading) (d : Digit) : Leading :=
  let next := l.append d
  if next.full then { next with exponent := l.exponent + 1 } else next

/-- A digit after the point is dropped where it does not fit. -/
def Leading.fraction (l : Leading) (d : Digit) : Leading :=
  let next := l.append d
  if next.full then next else { next with exponent := l.exponent - 1 }

/-- The leading digits of a numeral.  The word may take digits again after the point. -/
def leading (n : Numeral) : Leading :=
  let whole := (digitsOf n.whole).foldl Leading.whole {}
  n.fraction.foldl Leading.fraction { whole with full := false }

/-- The 64-bit pattern nearest to a power of ten. -/
def powerOfTen (exponent : Nat) : Nat := BinaryFormat.double.ofDecimal false ⟨1, exponent⟩

/-- `pattern` scaled by a power of ten; `none` if the result is infinite.  An exponent below the
    powers of ten that are numbers is worked off in several divisions. -/
def scale? (pattern : Nat) (exponent : Int) : Option Nat :=
  if 0 ≤ exponent then
    if pattern = 0 then some 0
    else if 308 < exponent then none
    else
      let product := BinaryFormat.double.mul pattern (powerOfTen exponent.toNat)
      if BinaryFormat.double.isInfinite product then none else some product
  else if -308 ≤ exponent then
    some (BinaryFormat.double.div pattern (powerOfTen (-exponent).toNat))
  else if pattern = 0 then some 0
  else scale? (BinaryFormat.double.div pattern (powerOfTen 308)) (exponent + 308)
termination_by (-exponent).toNat
decreasing_by omega

/-- The 64-bit pattern of a JSON number. -/
def toDouble? (n : Numeral) : Option Nat :=
  let l := n.leading
  (scale? (BinaryFormat.double.ofNat l.word) (l.exponent + n.exponent.getD 0)).map
    (BinaryFormat.double.withSign n.negative)

end Numeral

/-- The 64-bit pattern of a JSON number. -/
def Json.double? : Json → Option Nat
  | .num n => n.toDouble?
  | _ => none

end ArithWatch
