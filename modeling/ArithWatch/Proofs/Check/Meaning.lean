import ArithWatch.Proofs.Check.Evaluation
import ArithWatch.Proofs.Execution.Integers

namespace ArithWatch

/-!
# What the conditions of checks say

* `BinOp.overflows` and `CheckKind.holds` say when a check finds something, from the values that the
  watched instruction reads and the one that it gives.
* `CheckPredicate.value?_formula` and the lemmas before it give the values of the formulas.
* `Probe.truth_eq`: a decision block branches on what its check says.
-/

/-! ### When a check finds something -/

/-- Does the operation on `a` and `b` with the result `r` overflow, signed or unsigned?  All sums,
    differences and quotients wrap. -/
def BinOp.overflows {w : Nat} (op : BinOp) (a b r : BitVec w) : Bool :=
  match op with
  | .add =>
    (0#w).slt b && (BitVec.intMax w - b).slt a ||
      b.slt 0#w && a.slt (BitVec.intMin w - b) || r.ult a
  | .sub =>
    b.slt 0#w && (BitVec.intMax w + b).slt a ||
      (0#w).slt b && a.slt (BitVec.intMin w + b) || a.ult b
  | .mul => a != 0#w && r.sdiv a != b || b != 0#w && (BitVec.allOnes w / b).ult a
  | _ => false

/-- The low 32 bits of an integer. -/
def Scalar.bits32 : Scalar → BitVec 32
  | .int _ word => word.toBitVec.setWidth 32
  | .f32 _ | .f64 _ => 0#32

/-- Does a float compare with a constant?  Nothing holds of a float that is no number. -/
def Scalar.compares (pred : FloatPredicate) (a : Scalar) (c : Constant) : Bool :=
  Scalar.fcmp? pred a (.ofConstant c) == some (.ofBool true)

/-- The threshold as an integer of width `w`. -/
def Threshold.intBits (t : Threshold) (w : Nat) : BitVec w :=
  (t.intBound (.int w)).bits.toBitVec.setWidth w

/-- Does a check of this kind find something, if its instruction reads `a` and `b` and gives `r`? -/
def CheckKind.holds (t : Threshold) (op : BinOp) (a b r : Scalar) : CheckKind → Bool
  | .intOverflow => op.overflows a.bits32 b.bits32 r.bits32
  | .intDividedByZero => b.bits32 == 0#32
  | .intExceptionalSignedValue => r.bits32.slt (-t.intBits 32) || (t.intBits 32).slt r.bits32
  | .intExceptionalUnsignedValue => (t.intBits 32).ult r.bits32
  | .fpOverflow =>
    r.compares .oeq (.infinity r.ty false) || r.compares .oeq (.infinity r.ty true)
  | .fpDividedByZero => b.compares .oeq (.zero b.ty)
  | .fpExceptionalValue =>
    r.compares .olt (.float r.ty (BinaryFormat.double.neg (t.floatBound r.ty).double)) ||
      r.compares .ogt (t.floatBound r.ty)

/-! ### Values of the integer formulas -/

namespace CheckPredicate

open Scalar (ofBits ofBool)

/-- The limit in the code is the word of the cutoff. -/
theorem ofConstant_intBound {w : Nat} (hw : w ≤ 64) (t : Threshold) :
    Scalar.ofConstant (t.intBound (.int w)) = ofBits (t.intBits w) :=
  Scalar.ofConstant_int hw _

/-- The constant at the other end of the range. -/
theorem ofConstant_neg_intBound {w : Nat} (hpos : 0 < w) (hw : w ≤ 64) (t : Threshold) :
    Scalar.ofConstant (.int (.int w) (-(t.intBound (.int w)).signed)) = ofBits (-t.intBits w) := by
  have hsigned : (t.intBound (.int w)).signed = (t.intBits w).toInt :=
    Word.signed_eq_toInt hpos hw _
  rw [Scalar.ofConstant_ofInt hw, hsigned, BitVec.ofInt_neg, BitVec.ofInt_toInt]

section Int

variable {w : Nat} (hpos : 0 < w) (hw : w ≤ 64) (t : Threshold) (x y z : BitVec w)

include hpos hw

/-- The overflow check of additions computes whether the sum leaves the signed range. -/
theorem value?_addOverflow :
    (addOverflow.formula t (.int w)).value? (ofBits x) (ofBits y) (ofBits z) =
      some (ofBool (BinOp.overflows .add x y z)) := by
  simp only [formula, Formula.value?, Operation.value?, Scalar.ofConstant_zero hw,
    Scalar.ofConstant_signedMax hw hpos, Scalar.ofConstant_signedMin hw hpos,
    Scalar.binary_sub hw, Scalar.icmp?_ofBits hpos hw, Scalar.binary_and_ofBool,
    Scalar.binary_or_ofBool]
  rfl

/-- That of subtractions, whether the difference does. -/
theorem value?_subOverflow :
    (subOverflow.formula t (.int w)).value? (ofBits x) (ofBits y) (ofBits z) =
      some (ofBool (BinOp.overflows .sub x y z)) := by
  simp only [formula, Formula.value?, Operation.value?, Scalar.ofConstant_zero hw,
    Scalar.ofConstant_signedMax hw hpos, Scalar.ofConstant_signedMin hw hpos,
    Scalar.binary_add hw, Scalar.icmp?_ofBits hpos hw, Scalar.binary_and_ofBool,
    Scalar.binary_or_ofBool]
  rfl

/-- The quotients by zero play no part. -/
theorem value?_mulOverflow :
    (mulOverflow.formula t (.int w)).value? (ofBits x) (ofBits y) (ofBits z) =
      some (ofBool (BinOp.overflows .mul x y z)) := by
  simp only [formula, Formula.value?, Operation.value?, Scalar.ofConstant_zero hw,
    Scalar.ofConstant_unsignedMax hw, Scalar.binary_sdiv hw z x hpos, Scalar.binary_udiv hw,
    Scalar.icmp?_ofBits hpos hw, Scalar.binary_and_ofBool, Scalar.binary_or_ofBool,
    IntPredicate.holds, BinOp.overflows]
  by_cases hx : x = 0#w <;> by_cases hy : y = 0#w <;> simp [hx, hy]

/-- The check for zero divisors compares the divisor with zero. -/
theorem value?_zeroDivisor :
    (zeroDivisor.formula t (.int w)).value? (ofBits x) (ofBits y) (ofBits z) =
      some (ofBool (y == 0#w)) := by
  simp only [formula, Formula.value?, Operation.value?, Scalar.ofConstant_zero hw,
    Scalar.icmp?_ofBits hpos hw]
  rfl

/-- The signed bound asks whether the result is below the negated limit or above the limit. -/
theorem value?_signedBound :
    (signedBound.formula t (.int w)).value? (ofBits x) (ofBits y) (ofBits z) =
      some (ofBool (z.slt (-t.intBits w) || (t.intBits w).slt z)) := by
  simp only [formula, Formula.value?, Operation.value?, ofConstant_neg_intBound hpos hw,
    ofConstant_intBound hw, Scalar.icmp?_ofBits hpos hw, Scalar.binary_or_ofBool]
  rfl

/-- The unsigned bound compares the words themselves. -/
theorem value?_unsignedBound :
    (unsignedBound.formula t (.int w)).value? (ofBits x) (ofBits y) (ofBits z) =
      some (ofBool ((t.intBits w).ult z)) := by
  simp only [formula, Formula.value?, Operation.value?, ofConstant_intBound hw,
    Scalar.icmp?_ofBits hpos hw]
  rfl

end Int

/-! ### Values of the float formulas -/

section Float

variable (t : Threshold) {a b r : Scalar}

/-- Comparing with a constant of the same format always gives an answer. -/
theorem fcmp?_ofConstant (pred : FloatPredicate) {c : Constant} (hfloat : a.ty.isFloat = true)
    (hty : c.ty = a.ty) :
    Scalar.fcmp? pred a (.ofConstant c) = some (ofBool (a.compares pred c)) := by
  obtain ⟨d, hd⟩ := Scalar.exists_fcmp? pred hfloat ((Scalar.ty_ofConstant c).trans hty)
  rw [Scalar.compares, hd]
  cases d <;> rfl

/-- The check for overflow compares with both infinities. -/
theorem value?_infinite (hfloat : r.ty.isFloat = true) :
    (infinite.formula t r.ty).value? a b r = some (ofBool
      (r.compares .oeq (.infinity r.ty false) || r.compares .oeq (.infinity r.ty true))) := by
  simp only [formula, Formula.value?, Operation.value?, Scalar.binary_or_ofBool,
    fcmp?_ofConstant .oeq (c := .infinity r.ty false) hfloat rfl,
    fcmp?_ofConstant .oeq (c := .infinity r.ty true) hfloat rfl]

/-- The check for zero divisors compares the divisor with zero; both zeros are equal to it. -/
theorem value?_floatZeroDivisor (hfloat : b.ty.isFloat = true) :
    (floatZeroDivisor.formula t b.ty).value? a b r =
      some (ofBool (b.compares .oeq (.zero b.ty))) :=
  fcmp?_ofConstant .oeq hfloat rfl

/-- The bound on magnitudes compares with the limit and with its negation. -/
theorem value?_floatBound (hfloat : r.ty.isFloat = true) :
    (floatBound.formula t r.ty).value? a b r = some (ofBool
      (r.compares .olt (.float r.ty (BinaryFormat.double.neg (t.floatBound r.ty).double)) ||
        r.compares .ogt (t.floatBound r.ty))) := by
  simp only [formula, Formula.value?, Operation.value?, Scalar.binary_or_ofBool,
    fcmp?_ofConstant .ogt (c := t.floatBound r.ty) hfloat rfl, fcmp?_ofConstant .olt
      (c := .float r.ty (BinaryFormat.double.neg (t.floatBound r.ty).double)) hfloat rfl]

end Float

end CheckPredicate

/-! ### The truth of conditions -/

/-- A word of 32 bits is read back. -/
theorem Scalar.bits32_ofBits (x : BitVec 32) : (ofBits x).bits32 = x :=
  Word.setWidth_toBitVec_ofBits (by decide) x

namespace CheckPredicate

variable {p : CheckPredicate} {op : BinOp} {a b r : Scalar} (t : Threshold)

/-- The condition of an integer check says what its kind says. -/
theorem value?_formula_int (hp : p ∈ op.checks) (hkind : p.kind.isFloat = false)
    (ha : a.IsOf (.int 32)) (hb : b.IsOf (.int 32)) (hr : r.IsOf (.int 32)) :
    (p.formula t (.int 32)).value? a b r = some (.ofBool (p.kind.holds t op a b r)) := by
  have hpos : 0 < 32 := by decide
  have hw : 32 ≤ 64 := by decide
  obtain ⟨x, rfl⟩ := Scalar.exists_bits hw ha.1 ha.2
  obtain ⟨y, rfl⟩ := Scalar.exists_bits hw hb.1 hb.2
  obtain ⟨z, rfl⟩ := Scalar.exists_bits hw hr.1 hr.2
  -- The three overflow checks watch one operation each; the rest do not read the operator.
  cases p with
  | addOverflow =>
    obtain rfl : op = .add := by cases op <;> simp_all [BinOp.checks]
    simp only [value?_addOverflow hpos hw, kind, CheckKind.holds, Scalar.bits32_ofBits]
  | subOverflow =>
    obtain rfl : op = .sub := by cases op <;> simp_all [BinOp.checks]
    simp only [value?_subOverflow hpos hw, kind, CheckKind.holds, Scalar.bits32_ofBits]
  | mulOverflow =>
    obtain rfl : op = .mul := by cases op <;> simp_all [BinOp.checks]
    simp only [value?_mulOverflow hpos hw, kind, CheckKind.holds, Scalar.bits32_ofBits]
  | zeroDivisor =>
    simp only [value?_zeroDivisor hpos hw, kind, CheckKind.holds, Scalar.bits32_ofBits]
  | signedBound =>
    simp only [value?_signedBound hpos hw, kind, CheckKind.holds, Scalar.bits32_ofBits]
  | unsignedBound =>
    simp only [value?_unsignedBound hpos hw, kind, CheckKind.holds, Scalar.bits32_ofBits]
  | infinite | floatZeroDivisor | floatBound => cases hkind

/-- The condition of a float check says what its kind says. -/
theorem value?_formula_float {ty : Ty} (hkind : p.kind.isFloat = true) (hfloat : ty.isFloat = true)
    (hb : b.ty = ty) (hr : r.ty = ty) :
    (p.formula t ty).value? a b r = some (.ofBool (p.kind.holds t op a b r)) := by
  cases p with
  | infinite =>
    subst hr
    exact value?_infinite t hfloat
  | floatZeroDivisor =>
    subst hb
    exact value?_floatZeroDivisor t hfloat
  | floatBound =>
    subst hr
    exact value?_floatBound t hfloat
  | addOverflow | subOverflow | mulOverflow | zeroDivisor | signedBound | unsignedBound =>
    cases hkind

end CheckPredicate

/-- **The truth of a condition** is what its check says.  Integers are watched at width 32. -/
theorem Probe.truth_eq {k : Probe} {p : CheckPredicate} {a b r : Scalar}
    (hp : p ∈ k.watched.op.checks) (hkind : p.kind.isFloat = k.watched.ty.isFloat)
    (hint : k.watched.ty.isFloat = false → k.watched.ty = .int 32)
    (ha : a.IsOf k.watched.ty) (hb : b.IsOf k.watched.ty) (hr : r.IsOf k.watched.ty) :
    k.truth a b r p = p.kind.holds k.threshold k.watched.op a b r := by
  have hvalue : (k.formula p).value? a b r =
      some (.ofBool (p.kind.holds k.threshold k.watched.op a b r)) := by
    rw [formula]
    cases hfloat : k.watched.ty.isFloat with
    | true =>
      exact CheckPredicate.value?_formula_float k.threshold (hkind.trans hfloat) hfloat hb.1 hr.1
    | false =>
      rw [hint hfloat] at ha hb hr ⊢
      exact CheckPredicate.value?_formula_int k.threshold hp (hkind.trans hfloat) ha hb hr
  rw [truth, hvalue, Option.bind_some, Scalar.bool?_ofBool]
  cases p.kind.holds k.threshold k.watched.op a b r <;> rfl

end ArithWatch
