import ArithWatch.IR.Edit

namespace ArithWatch

/-!
# Building instructions

* `Cursor` is the end of a block, where instructions are appended, with the location they get.
* `Cursor.push` appends an instruction with a new result value; `binary`, `icmp`, `fcmp` and `phi`
  are its kinds.  The result of a binary operation has the type of its left side, that of a
  comparison is a truth value.
* `Cursor.terminate` sets the terminator of the block.  To do that to a block that has one is a
  fault.
* `Function.create` is a function to start from.
-/

/-- Where instructions are appended. -/
structure Cursor where
  block : BlockId
  location : Option Location := none
  deriving DecidableEq, Repr

namespace Cursor

/-- Appends an instruction whose result has the given type. -/
def push (c : Cursor) (kind : InstKind) (ty : Ty) : Edit (InstId × ValueId) := do
  let id ← Edit.newInstId
  let result ← Edit.newValue ty
  Edit.updateBlock c.block fun b =>
    { b with insts := b.insts ++ [{ id, result, kind, location := c.location }] }
  return (id, result)

/-- The type of an operand that has to have one. -/
def typeOf (op : Operand) : Edit Ty :=
  Edit.query fun f =>
    match f.operandType? op, op with
    | some ty, _ => .ok ty
    | none, .value v => .error (.untyped v f.name)
    | none, .const c => .ok c.ty

/-- Appends a binary operation. -/
def binary (c : Cursor) (op : BinOp) (lhs rhs : Operand) (flags : WrapFlags := .empty) :
    Edit (InstId × ValueId) := do
  let ty ← typeOf lhs
  c.push (.binary op lhs rhs flags) ty

/-- Appends a binary operation without flags; gives its result. -/
def arith (c : Cursor) (op : BinOp) (lhs rhs : Operand) : Edit ValueId := do
  return (← c.binary op lhs rhs).2

/-- Appends a comparison of integers. -/
def icmp (c : Cursor) (pred : IntPredicate) (lhs rhs : Operand) : Edit ValueId := do
  return (← c.push (.icmp pred lhs rhs) .i1).2

/-- Appends a comparison of floats. -/
def fcmp (c : Cursor) (pred : FloatPredicate) (lhs rhs : Operand) : Edit ValueId := do
  return (← c.push (.fcmp pred lhs rhs) .i1).2

/-- Appends a phi. -/
def phi (c : Cursor) (ty : Ty) (incoming : List (BlockId × Operand)) : Edit ValueId := do
  return (← c.push (.phi incoming) ty).2

/-- Sets the terminator of the block, also in place of another one; gives the block. -/
def setExit (c : Cursor) (exit : Exit) : Edit BlockId := do
  Edit.updateBlock c.block fun b => { b with term := some { exit, location := c.location } }
  return c.block

/-- Sets the terminator of the block, which must not have one yet; gives the block. -/
def terminate (c : Cursor) (exit : Exit) : Edit BlockId := do
  let block ← Edit.query (·.block c.block)
  if block.term.isSome then throw (.terminatedTwice block.name) else c.setExit exit

/-- Closes the block with a branch. -/
def br (c : Cursor) (target : BlockId) : Edit BlockId := c.terminate (.br target)

/-- Closes the block with a conditional branch. -/
def condBr (c : Cursor) (cond : Operand) (thenTarget elseTarget : BlockId) : Edit BlockId :=
  c.terminate (.condBr cond thenTarget elseTarget)

/-- Closes the block with a return. -/
def ret (c : Cursor) (value : Option Operand) : Edit BlockId := c.terminate (.ret value)

/-- Closes a block whose end is never reached. -/
def unreachable (c : Cursor) : Edit BlockId := c.terminate .unreachable

end Cursor

/-- A function with an empty block `entry`, which has no terminator yet. -/
def Function.create (name : String) (params : List Ty) (returnType : Option Ty) : Function :=
  { name
    params := (List.range params.length).map ValueId.mk
    returnType
    valueTypes := params.toArray
    blocks := #[{ id := ⟨0⟩, name := "entry", insts := [], term := none }]
    layout := [⟨0⟩]
    entry := ⟨0⟩
    instCount := 0 }

end ArithWatch
