import ArithWatch.IR.Id
import ArithWatch.IR.Type
import ArithWatch.IR.WrapFlags
import ArithWatch.SortedMap

namespace ArithWatch

/-!
# Instructions and blocks

* `BinOp`, `IntPredicate` and `FloatPredicate` are the operators.
* `Operand` is a value or a constant.
* `Inst` is an instruction: its kind, its own name and the name of its result.
* `Exit` says how control leaves a block; `Terminator` is an exit with its attachments.
* `Block` is a list of instructions with a terminator.
-/

/-! ### Operators -/

/-- A binary operator. -/
inductive BinOp
  | add | sub | mul | sdiv | udiv | srem | urem
  | and | or | xor | shl | lshr | ashr
  | fadd | fsub | fmul | fdiv | frem
  deriving DecidableEq, Repr, Inhabited

namespace BinOp

/-- Every operator. -/
def all : List BinOp :=
  [.add, .sub, .mul, .sdiv, .udiv, .srem, .urem, .and, .or, .xor, .shl, .lshr, .ashr,
    .fadd, .fsub, .fmul, .fdiv, .frem]

/-- Does the operator work on floats? -/
def isFloat : BinOp → Bool
  | .fadd | .fsub | .fmul | .fdiv | .frem => true
  | _ => false

/-- The name of the operator in listings. -/
def mnemonic : BinOp → String
  | .add => "add"
  | .sub => "sub"
  | .mul => "mul"
  | .sdiv => "sdiv"
  | .udiv => "udiv"
  | .srem => "srem"
  | .urem => "urem"
  | .and => "and"
  | .or => "or"
  | .xor => "xor"
  | .shl => "shl"
  | .lshr => "lshr"
  | .ashr => "ashr"
  | .fadd => "fadd"
  | .fsub => "fsub"
  | .fmul => "fmul"
  | .fdiv => "fdiv"
  | .frem => "frem"

end BinOp

/-- A comparison of integers; `s` and `u` tell a signed from an unsigned one. -/
inductive IntPredicate
  | eq | ne | slt | sle | sgt | sge | ult | ule | ugt | uge
  deriving DecidableEq, Repr, Inhabited

namespace IntPredicate

/-- Every comparison. -/
def all : List IntPredicate :=
  [.eq, .ne, .slt, .sle, .sgt, .sge, .ult, .ule, .ugt, .uge]

/-- The name of the comparison. -/
def mnemonic : IntPredicate → String
  | .eq => "eq"
  | .ne => "ne"
  | .slt => "slt"
  | .sle => "sle"
  | .sgt => "sgt"
  | .sge => "sge"
  | .ult => "ult"
  | .ule => "ule"
  | .ugt => "ugt"
  | .uge => "uge"

end IntPredicate

/-- A comparison of floats that is false where a side is no number. -/
inductive FloatPredicate
  | oeq | one | olt | ole | ogt | oge
  deriving DecidableEq, Repr, Inhabited

namespace FloatPredicate

/-- Every comparison. -/
def all : List FloatPredicate := [.oeq, .one, .olt, .ole, .ogt, .oge]

/-- The name of the comparison. -/
def mnemonic : FloatPredicate → String
  | .oeq => "oeq"
  | .one => "one"
  | .olt => "olt"
  | .ole => "ole"
  | .ogt => "ogt"
  | .oge => "oge"

end FloatPredicate

/-! ### Operands and instructions -/

/-- A place in the source text of the program. -/
structure Location where
  file : String
  line : Nat
  column : Nat
  deriving DecidableEq, Repr, Inhabited

/-- The text of a location: file, line and column. -/
def Location.text (l : Location) : String :=
  l.file ++ ":" ++ toString l.line ++ ":" ++ toString l.column

/-- What an instruction works on. -/
inductive Operand
  | value (v : ValueId)
  | const (c : Constant)
  deriving DecidableEq, Repr, Inhabited

instance : Coe ValueId Operand := ⟨.value⟩

instance : Coe Constant Operand := ⟨.const⟩

/-- The text of an operand in listings. -/
def Operand.text : Operand → String
  | .value v => v.text
  | .const c => c.text

/-- What an instruction does. -/
inductive InstKind
  | binary (op : BinOp) (lhs rhs : Operand) (flags : WrapFlags)
  | icmp (pred : IntPredicate) (lhs rhs : Operand)
  | fcmp (pred : FloatPredicate) (lhs rhs : Operand)
  /-- The value that comes with the block from which control came. -/
  | phi (incoming : List (BlockId × Operand))
  deriving DecidableEq, Repr

namespace InstKind

/-- The operands, in order. -/
def operands : InstKind → List Operand
  | .binary _ lhs rhs _ | .icmp _ lhs rhs | .fcmp _ lhs rhs => [lhs, rhs]
  | .phi incoming => incoming.map (·.2)

def isPhi : InstKind → Bool
  | .phi _ => true
  | _ => false

def isBinary : InstKind → Bool
  | .binary .. => true
  | _ => false

/-- The inputs of a phi that came from `old` come from `new`. -/
def repoint (old new : BlockId) : InstKind → InstKind
  | .phi incoming => .phi (incoming.map fun (pred, v) => (if pred = old then new else pred, v))
  | kind => kind

end InstKind

/-- An instruction. -/
structure Inst where
  id : InstId
  result : ValueId
  kind : InstKind
  location : Option Location := none
  deriving DecidableEq, Repr

/-! ### Terminators and blocks -/

/-- How control leaves a block. -/
inductive Exit
  | br (target : BlockId)
  | condBr (cond : Operand) (thenTarget elseTarget : BlockId)
  | ret (value : Option Operand)
  | unreachable
  deriving DecidableEq, Repr

namespace Exit

/-- The blocks that control may go to, the target of the true arm first; a block that both arms go
    to is listed twice. -/
def successors : Exit → List BlockId
  | .br target => [target]
  | .condBr _ thenTarget elseTarget => [thenTarget, elseTarget]
  | .ret _ | .unreachable => []

/-- The operand that the exit reads. -/
def operand? : Exit → Option Operand
  | .condBr cond _ _ => some cond
  | .ret value => value
  | .br _ | .unreachable => none

end Exit

/-- Text attached to a terminator, by key. -/
abbrev Metadata := SortedMap String String

/-- An exit with its attachments. -/
structure Terminator where
  exit : Exit
  location : Option Location := none
  metadata : Metadata := ∅
  deriving DecidableEq, Repr

/-- A block.  Only a block under construction has no terminator. -/
structure Block where
  id : BlockId
  name : String
  insts : List Inst
  term : Option Terminator
  deriving DecidableEq, Repr

namespace Block

/-- The blocks that control may go to from the end of the block. -/
def successors (b : Block) : List BlockId :=
  match b.term with
  | none => []
  | some t => t.exit.successors

end Block

end ArithWatch
