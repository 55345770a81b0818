import ArithWatch.Execution.Arithmetic

namespace ArithWatch

/-!
# Running functions

A function is run block by block.  The phis of a block are evaluated together when it is entered and
cost nothing; every other instruction and every terminator costs one step of a budget.

* `Execution` is what a finished run returns and where it went.
* `RunError` lists the ways in which a run goes wrong; `Halt` adds faults to them.
* `Function.enter`, `Function.runBody` and `Function.leave` are the three parts of a block.
* `Function.run` runs a function on its arguments.
-/

/-- A conditional branch that was taken: its block and the value of its condition. -/
structure BranchEvent where
  block : BlockId
  cond : Bool
  deriving DecidableEq, Repr

/-- A finished run. -/
structure Execution where
  ret : Option Scalar
  /-- Every block that was entered, in order. -/
  path : Array BlockId
  /-- Every conditional branch that was taken, in order. -/
  branches : Array BranchEvent
  deriving DecidableEq, Repr

/-- The condition of the first conditional branch taken from a block. -/
def Execution.branchCond? (e : Execution) (b : BlockId) : Option Bool :=
  (e.branches.find? (·.block == b)).map (·.cond)

/-- What goes wrong in a run. -/
inductive RunError
  | argCount (expected found : Nat)
  | argType (index : Nat) (expected found : Ty)
  | undefined (v : ValueId)
  | typeMismatch (i : InstId)
  | misplacedPhi (i : InstId)
  | missingPhiIncoming (i : InstId) (pred : BlockId)
  | phiWithoutPredecessor (i : InstId)
  | noTerminator (b : BlockId)
  | badCondition (b : BlockId)
  | unreachable (b : BlockId)
  | stepLimit (limit : Nat)
  deriving DecidableEq, Repr

/-- The words for an error. -/
def RunError.message : RunError → String
  | .argCount expected found =>
    "expected " ++ toString expected ++ " arguments, got " ++ toString found
  | .argType index expected found =>
    "argument " ++ toString index ++ " has type " ++ found.text ++ ", expected " ++ expected.text
  | .undefined v => "value " ++ v.text ++ " used before it was defined"
  | .typeMismatch i => "operand types do not fit instruction " ++ i.text
  | .misplacedPhi i => "phi " ++ i.text ++ " appears after a non-phi instruction"
  | .missingPhiIncoming i pred =>
    "phi " ++ i.text ++ " has no incoming value for predecessor " ++ pred.text
  | .phiWithoutPredecessor i => "phi " ++ i.text ++ " executed without a predecessor block"
  | .noTerminator b => "block " ++ b.text ++ " has no terminator"
  | .badCondition b => "branch condition in block " ++ b.text ++ " is not an i1"
  | .unreachable b => "reached unreachable in block " ++ b.text
  | .stepLimit limit => "step limit of " ++ toString limit ++ " exceeded"

/-- Why a run ends without a result. -/
inductive Halt
  | error (e : RunError)
  | fault (f : Fault)
  deriving DecidableEq, Repr

/-- The value of every value id that has one. -/
abbrev Registers := Array (Option Scalar)

namespace Registers

/-- The value of an operand. -/
def read (regs : Registers) : Operand → Except Halt Scalar
  | .const c => .ok (.ofConstant c)
  | .value v =>
    match regs[v.index]? with
    | some (some a) => .ok a
    | _ => .error (.error (.undefined v))

/-- Gives a value id its value. -/
def write (regs : Registers) (v : ValueId) (a : Scalar) : Except Halt Registers :=
  if v.index < regs.size then .ok (regs.setIfInBounds v.index (some a))
  else .error (.fault .missing)

/-- Writing a register adds none. -/
theorem size_eq_of_write {regs regs' : Registers} {v : ValueId} {a : Scalar}
    (h : regs.write v a = .ok regs') : regs'.size = regs.size := by
  simp only [write] at h
  split at h
  · cases h
    exact Array.size_setIfInBounds
  · cases h

/-- A value id reads as what was written last. -/
theorem read_write {regs regs' : Registers} {v w : ValueId} {a : Scalar}
    (h : regs.write v a = .ok regs') :
    regs'.read (.value w) = if v = w then .ok a else regs.read (.value w) := by
  simp only [write] at h
  split at h
  · next hv =>
    cases h
    have : v.index = w.index ↔ v = w := by
      cases v; cases w; simp
    simp only [read, Array.getElem?_setIfInBounds, this]
    by_cases e : v = w
    · subst e
      simp [hv]
    · simp [e]
  · cases h

/-- Gives several value ids their values. -/
def writeAll (regs : Registers) : List (ValueId × Scalar) → Except Halt Registers
  | [] => .ok regs
  | (v, a) :: rest =>
    match regs.write v a with
    | .ok regs => writeAll regs rest
    | .error halt => .error halt

end Registers

/-! ### Instructions -/

namespace Inst

/-- A result that has to be there. -/
def expect (i : Inst) : Option Scalar → Except Halt Scalar
  | some a => .ok a
  | none => .error (.error (.typeMismatch i.id))

/-- The result of an instruction that is not a phi. -/
def eval (i : Inst) (regs : Registers) : Except Halt Scalar :=
  match i.kind with
  | .binary op lhs rhs _ => do
    let a ← regs.read lhs
    let b ← regs.read rhs
    match Scalar.binary op a b with
    | .ok r => i.expect r
    | .error fault => .error (.fault fault)
  | .icmp pred lhs rhs => do
    let a ← regs.read lhs
    let b ← regs.read rhs
    i.expect (Scalar.icmp? pred a b)
  | .fcmp pred lhs rhs => do
    let a ← regs.read lhs
    let b ← regs.read rhs
    i.expect (Scalar.fcmp? pred a b)
  | .phi _ => .error (.error (.misplacedPhi i.id))

/-- The result of a phi in a block that was entered from `prev`. -/
def evalPhi (i : Inst) (incoming : List (BlockId × Operand)) (prev : Option BlockId)
    (regs : Registers) : Except Halt Scalar :=
  match prev with
  | none => .error (.error (.phiWithoutPredecessor i.id))
  | some pred =>
    match incoming.find? (·.1 == pred) with
    | none => .error (.error (.missingPhiIncoming i.id pred))
    | some (_, op) => regs.read op

/-- The results of the leading phis, all read from the same registers. -/
def evalPhis (prev : Option BlockId) (regs : Registers) :
    List Inst → Except Halt (List (ValueId × Scalar))
  | [] => .ok []
  | i :: rest =>
    match i.kind with
    | .phi incoming => do
      let a ← i.evalPhi incoming prev regs
      return (i.result, a) :: (← evalPhis prev regs rest)
    | _ => .ok []

end Inst

namespace Block

/-- The instructions behind the leading phis. -/
def body (b : Block) : List Inst := b.insts.dropWhile (·.kind.isPhi)

end Block

/-! ### Blocks -/

/-- Evaluates the phis of a block that was entered from `prev`. -/
def Block.enter (b : Block) (prev : Option BlockId) (regs : Registers) : Except Halt Registers := do
  regs.writeAll (← Inst.evalPhis prev regs b.insts)

/-- Evaluates instructions in order as long as the budget lasts. -/
def Registers.runBody (limit : Nat) : (budget : Nat) → Registers → List Inst → Except Halt Registers
  | _, regs, [] => .ok regs
  | 0, _, _ :: _ => .error (.error (.stepLimit limit))
  | budget + 1, regs, i :: rest =>
    match i.eval regs with
    | .error halt => .error halt
    | .ok a =>
      match regs.write i.result a with
      | .error halt => .error halt
      | .ok regs => runBody limit budget regs rest

/-- Where control goes from the end of a block. -/
inductive Step
  | jump (target : BlockId)
  | branch (cond : Bool) (target : BlockId)
  | finish (ret : Option Scalar)
  deriving DecidableEq, Repr

/-- Evaluates the terminator of the block that was entered as `cur`. -/
def Block.leave (b : Block) (cur : BlockId) (regs : Registers) : Except Halt Step :=
  match b.term with
  | none => .error (.error (.noTerminator cur))
  | some t =>
    match t.exit with
    | .br target => .ok (.jump target)
    | .condBr cond thenTarget elseTarget => do
      match (← regs.read cond).bool? with
      | some c => return .branch c (if c then thenTarget else elseTarget)
      | none => .error (.error (.badCondition cur))
    | .ret none => .ok (.finish none)
    | .ret (some v) => return .finish (some (← regs.read v))
    | .unreachable => .error (.error (.unreachable cur))

/-! ### Functions -/

/-- The blocks and branches of a run so far. -/
structure Trace where
  path : Array BlockId := #[]
  branches : Array BranchEvent := #[]
  deriving DecidableEq, Repr

namespace Function

/-- Runs on from the block `cur`, entered from `prev`, with `budget` steps of `limit` left. -/
def runFrom (f : Function) (limit budget : Nat) (prev : Option BlockId) (cur : BlockId)
    (regs : Registers) (trace : Trace) : Except Halt Execution :=
  let trace := { trace with path := trace.path.push cur }
  match f.block? cur with
  | none => .error (.fault .missing)
  | some block =>
    match block.enter prev regs with
    | .error halt => .error halt
    | .ok regs =>
      match regs.runBody limit budget block.body with
      | .error halt => .error halt
      | .ok regs =>
        match _h : budget - block.body.length with
        | 0 => .error (.error (.stepLimit limit))
        | left + 1 =>
          match block.leave cur regs with
          | .error halt => .error halt
          | .ok (.finish ret) => .ok { ret, path := trace.path, branches := trace.branches }
          | .ok (.jump target) => f.runFrom limit left (some cur) target regs trace
          | .ok (.branch cond target) =>
            f.runFrom limit left (some cur) target regs
              { trace with branches := trace.branches.push { block := cur, cond } }
termination_by budget

/-- Gives the parameters from position `index` on their arguments. -/
def bindArgs (f : Function) (index : Nat) (regs : Registers) :
    List (ValueId × Scalar) → Except Halt Registers
  | [] => .ok regs
  | (v, a) :: rest =>
    match f.valueType? v with
    | none => .error (.fault .missing)
    | some expected =>
      if a.ty = expected then
        match regs.write v a with
        | .error halt => .error halt
        | .ok regs => f.bindArgs (index + 1) regs rest
      else .error (.error (.argType index expected a.ty))

/-- The number of steps of a run that is given no other limit. -/
def defaultStepLimit : Nat := 1000000

/-- Runs a function on its arguments for at most `limit` steps. -/
def run (f : Function) (args : List Scalar) (limit : Nat := defaultStepLimit) :
    Except Halt Execution :=
  if args.length ≠ f.params.length then
    .error (.error (.argCount f.params.length args.length))
  else
    match f.bindArgs 0 (Array.replicate f.valueTypes.size none) (f.params.zip args) with
    | .error halt => .error halt
    | .ok regs => f.runFrom limit limit none f.entry regs {}

end Function

end ArithWatch
