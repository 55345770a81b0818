import ArithWatch.IR.Builder
import ArithWatch.Check.Kind
import ArithWatch.Check.Threshold

namespace ArithWatch

/-!
# Check predicates

The condition of a check is computed by instructions that are appended to its decision block.  They
wrap like all others and are not checked themselves.

* `Watched` is the instruction that a check looks at.
* `CheckPredicate` lists the conditions, `CheckPredicate.build` appends the instructions of one.
* `BinOp.checks` is the chain of checks behind an operator.

In the formulas below `a`, `b` and `r` are the two sides and the result of the watched instruction,
`T` is the threshold, and `s` and `u` tell signed from unsigned comparisons.
-/

/-- An instruction as its checks see it. -/
structure Watched where
  op : BinOp
  ty : Ty
  lhs : Operand
  rhs : Operand
  result : ValueId
  deriving DecidableEq, Repr

/-- The condition of a check. -/
inductive CheckPredicate
  /-- `((b >s 0) & (a >s MAX - b)) | ((b <s 0) & (a <s MIN - b)) | (r <u a)` -/
  | addOverflow
  /-- `((b <s 0) & (a >s MAX + b)) | ((b >s 0) & (a <s MIN + b)) | (a <u b)` -/
  | subOverflow
  /-- `((a ≠ 0) & (r /s a ≠ b)) | ((b ≠ 0) & (a >u UMAX /u b))` -/
  | mulOverflow
  /-- `b = 0` -/
  | zeroDivisor
  /-- `(r <s -T) | (r >s T)` -/
  | signedBound
  /-- `r >u T` -/
  | unsignedBound
  /-- `(r = +∞) | (r = -∞)` -/
  | infinite
  /-- `b = 0`, for either zero -/
  | floatZeroDivisor
  /-- `(r < -T) | (r > T)` -/
  | floatBound
  deriving DecidableEq, Repr

namespace CheckPredicate

/-- What the condition says. -/
def kind : CheckPredicate → CheckKind
  | .addOverflow | .subOverflow | .mulOverflow => .intOverflow
  | .zeroDivisor => .intDividedByZero
  | .signedBound => .intExceptionalSignedValue
  | .unsignedBound => .intExceptionalUnsignedValue
  | .infinite => .fpOverflow
  | .floatZeroDivisor => .fpDividedByZero
  | .floatBound => .fpExceptionalValue

/-! ### Integer conditions -/

/-- Appends the condition of `addOverflow`. -/
def buildAdd (c : Cursor) (w : Watched) : Edit ValueId := do
  let zero := Constant.zero w.ty
  let rhsPositive ← c.icmp .sgt w.rhs zero
  let headroom ← c.arith .sub (Constant.signedMax w.ty) w.rhs
  let above ← c.icmp .sgt w.lhs headroom
  let overflow ← c.arith .and rhsPositive above
  let rhsNegative ← c.icmp .slt w.rhs zero
  let footroom ← c.arith .sub (Constant.signedMin w.ty) w.rhs
  let below ← c.icmp .slt w.lhs footroom
  let underflow ← c.arith .and rhsNegative below
  let signed ← c.arith .or overflow underflow
  let carry ← c.icmp .ult w.result w.lhs
  c.arith .or signed carry

/-- Appends the condition of `subOverflow`. -/
def buildSub (c : Cursor) (w : Watched) : Edit ValueId := do
  let zero := Constant.zero w.ty
  let rhsNegative ← c.icmp .slt w.rhs zero
  let headroom ← c.arith .add (Constant.signedMax w.ty) w.rhs
  let above ← c.icmp .sgt w.lhs headroom
  let overflow ← c.arith .and rhsNegative above
  let rhsPositive ← c.icmp .sgt w.rhs zero
  let footroom ← c.arith .add (Constant.signedMin w.ty) w.rhs
  let below ← c.icmp .slt w.lhs footroom
  let underflow ← c.arith .and rhsPositive below
  let signed ← c.arith .or overflow underflow
  let borrow ← c.icmp .ult w.lhs w.rhs
  c.arith .or signed borrow

/-- Appends the condition of `mulOverflow`.  Its signed half misses `-1 * MIN`, which the unsigned
    half finds. -/
def buildMul (c : Cursor) (w : Watched) : Edit ValueId := do
  let zero := Constant.zero w.ty
  let lhsNonzero ← c.icmp .ne w.lhs zero
  let quotient ← c.arith .sdiv w.result w.lhs
  let mismatch ← c.icmp .ne quotient w.rhs
  let signed ← c.arith .and lhsNonzero mismatch
  let rhsNonzero ← c.icmp .ne w.rhs zero
  let limit ← c.arith .udiv (Constant.unsignedMax w.ty) w.rhs
  let above ← c.icmp .ugt w.lhs limit
  let unsigned ← c.arith .and rhsNonzero above
  c.arith .or signed unsigned

/-- Appends the condition of `signedBound`. -/
def buildSignedBound (t : Threshold) (c : Cursor) (w : Watched) : Edit ValueId := do
  let bound := t.intBound w.ty
  let below ← c.icmp .slt w.result (Constant.int w.ty (-bound.signed))
  let above ← c.icmp .sgt w.result bound
  c.arith .or below above

/-! ### Float conditions -/

/-- Appends the condition of `infinite`. -/
def buildInfinite (c : Cursor) (w : Watched) : Edit ValueId := do
  let positive ← c.fcmp .oeq w.result (Constant.infinity w.ty false)
  let negative ← c.fcmp .oeq w.result (Constant.infinity w.ty true)
  c.arith .or positive negative

/-- Appends the condition of `floatBound`. -/
def buildFloatBound (t : Threshold) (c : Cursor) (w : Watched) : Edit ValueId := do
  let bound := t.floatBound w.ty
  let below ← c.fcmp .olt w.result (Constant.float w.ty (BinaryFormat.double.neg bound.double))
  let above ← c.fcmp .ogt w.result bound
  c.arith .or below above

/-- Appends the instructions of a condition; gives the truth value they compute. -/
def build (p : CheckPredicate) (t : Threshold) (c : Cursor) (w : Watched) : Edit ValueId :=
  match p with
  | .addOverflow => buildAdd c w
  | .subOverflow => buildSub c w
  | .mulOverflow => buildMul c w
  | .zeroDivisor => c.icmp .eq w.rhs (Constant.zero w.ty)
  | .signedBound => buildSignedBound t c w
  | .unsignedBound => c.icmp .ugt w.result (t.intBound w.ty)
  | .infinite => buildInfinite c w
  | .floatZeroDivisor => c.fcmp .oeq w.rhs (Constant.zero w.ty)
  | .floatBound => buildFloatBound t c w

end CheckPredicate

/-! ### Chains -/

/-- The checks behind an operator, in order; none for an operator that is never watched. -/
def BinOp.checks : BinOp → List CheckPredicate
  | .add => [.addOverflow, .signedBound, .unsignedBound]
  | .sub => [.subOverflow, .signedBound, .unsignedBound]
  | .mul => [.mulOverflow, .signedBound, .unsignedBound]
  | .sdiv | .udiv => [.zeroDivisor, .signedBound, .unsignedBound]
  | .fdiv => [.infinite, .floatZeroDivisor, .floatBound]
  | .fadd | .fsub | .fmul | .frem => [.infinite, .floatBound]
  | .srem | .urem | .and | .or | .xor | .shl | .lshr | .ashr => []

end ArithWatch
