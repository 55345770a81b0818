import ArithWatch.Check.Predicate

namespace ArithWatch

/-!
# Which instructions are watched

Integer operations are watched at one width and only where nothing is known about their wrapping,
float operations wherever their types agree.

* `InstrumentOptions` switches the two families on and off.
* `SkipReason` says why an instruction is not watched.
* `Function.qualify` gives the instruction with its chain of checks, or the reason.
-/

/-- What instrumentation does. -/
structure InstrumentOptions where
  /-- Are integer operations watched? -/
  intChecks : Bool := true
  /-- Are float operations watched? -/
  fpChecks : Bool := true
  /-- Are the tags written onto the inserted branches? -/
  emitMetadata : Bool := true
  /-- Are functions verified before and after? -/
  verify : Bool := false
  deriving DecidableEq, Repr, Inhabited

/-- Why an instruction is not watched. -/
inductive SkipReason
  | familyDisabled
  | unsupportedType
  | noWrapFlags
  | unsupportedOp
  | operandType
  /-- Nothing follows the instruction in its block. -/
  | noSplitPoint
  deriving DecidableEq, Repr

namespace SkipReason

/-- Every reason. -/
def all : List SkipReason :=
  [.familyDisabled, .unsupportedType, .noWrapFlags, .unsupportedOp, .operandType, .noSplitPoint]

/-- The words for a reason. -/
def message : SkipReason → String
  | .familyDisabled => "check family disabled"
  | .unsupportedType => "operands are not i32"
  | .noWrapFlags => "carries nsw/nuw"
  | .unsupportedOp => "operator has no checks"
  | .operandType => "operand types disagree"
  | .noSplitPoint => "no split point"

end SkipReason

/-- The family of an instruction. -/
inductive Family
  | int
  | float
  deriving DecidableEq, Repr

/-- An instruction that is watched, with its chain of checks. -/
structure Qualified where
  family : Family
  watched : Watched
  checks : List CheckPredicate
  deriving DecidableEq, Repr

/-- The type of the integers that are watched. -/
def watchedIntTy : Ty := .int 32

/-- Qualification of an operation with a float operator or a float result. -/
def qualifyFloat (options : InstrumentOptions) (op : BinOp) (lhs rhs : Operand) (result : ValueId)
    (lhsTy rhsTy resultTy : Option Ty) : Except SkipReason Qualified :=
  if !options.fpChecks then .error .familyDisabled
  else
    match resultTy with
    | some ty =>
      if ty.isFloat && op.isFloat && lhsTy == resultTy && rhsTy == lhsTy then
        .ok { family := .float, watched := { op, ty, lhs, rhs, result }, checks := op.checks }
      else .error .operandType
    | none => .error .operandType

/-- Qualification of every other operation. -/
def qualifyInt (options : InstrumentOptions) (op : BinOp) (lhs rhs : Operand) (flags : WrapFlags)
    (result : ValueId) (lhsTy rhsTy resultTy : Option Ty) : Except SkipReason Qualified :=
  if !options.intChecks then .error .familyDisabled
  else if lhsTy ≠ some watchedIntTy ∨ rhsTy ≠ some watchedIntTy then .error .unsupportedType
  else if flags.intersects (.union .nsw .nuw) then .error .noWrapFlags
  else if op.checks = [] then .error .unsupportedOp
  else if resultTy ≠ some watchedIntTy then .error .operandType
  else
    .ok {
      family := .int
      watched := { op, ty := watchedIntTy, lhs, rhs, result }
      checks := op.checks }

/-- Decides whether an instruction is watched. -/
def Function.qualify (f : Function) (options : InstrumentOptions) (i : Inst) :
    Except SkipReason Qualified :=
  match i.kind with
  | .binary op lhs rhs flags =>
    let lhsTy := f.operandType? lhs
    let rhsTy := f.operandType? rhs
    let resultTy := f.valueType? i.result
    if resultTy.any (·.isFloat) || op.isFloat then
      qualifyFloat options op lhs rhs i.result lhsTy rhsTy resultTy
    else qualifyInt options op lhs rhs flags i.result lhsTy rhsTy resultTy
  | _ => .error .unsupportedOp

end ArithWatch
