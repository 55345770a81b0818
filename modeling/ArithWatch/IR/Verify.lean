import ArithWatch.IR.Function

namespace ArithWatch

/-!
# Well-formed functions

The rules that a function keeps to be run and instrumented: the arena, the layout and the entry fit
together, every block is closed and reached, every value is defined once, operands have the types
their instructions need, and the inputs of a phi are those of the predecessors of its block.

* `Defect` lists what can be wrong, `VerifyError` adds the function.
* `Function.verify` gives the first defect, in the order of the sections below.
-/

/-- What is wrong with a function. -/
inductive Defect
  | intWidth (width : Nat)
  | idMismatch (index : Nat) (block : BlockId)
  | unknownBlock (block : BlockId)
  | duplicateLayout (block : BlockId)
  | unknownEntry (block : BlockId)
  | orphanedBlock (block : BlockId)
  | missingTerminator (block : BlockId)
  | unknownTarget (block target : BlockId)
  | conditionType (block : BlockId)
  | returnType (block : BlockId)
  | entryHasPredecessors (block : BlockId)
  | unreachableBlock (block : BlockId)
  | duplicateValue (v : ValueId)
  | duplicateInst (i : InstId)
  | undefinedValue (block : BlockId) (v : ValueId)
  | operandTypes (i : InstId)
  | misplacedPhi (i : InstId)
  | phiPredecessors (block : BlockId) (i : InstId)
  deriving DecidableEq, Repr

/-- The words for a defect. -/
def Defect.message : Defect → String
  | .intWidth width => "integer width " ++ toString width ++ " is outside 1..=64"
  | .idMismatch index block =>
    "block at arena index " ++ toString index ++ " carries id " ++ block.text
  | .unknownBlock block => "layout lists unknown block " ++ block.text
  | .duplicateLayout block => "block " ++ block.text ++ " appears more than once in the layout"
  | .unknownEntry block => "entry block " ++ block.text ++ " is not a block of the function"
  | .orphanedBlock block => "block " ++ block.text ++ " is missing from the layout"
  | .missingTerminator block => "block " ++ block.text ++ " has no terminator"
  | .unknownTarget block target =>
    "branch in " ++ block.text ++ " targets unknown block " ++ target.text
  | .conditionType block => "branch condition in " ++ block.text ++ " is not an i1"
  | .returnType block =>
    "return in " ++ block.text ++ " does not match the function's return type"
  | .entryHasPredecessors block => "entry block " ++ block.text ++ " has predecessors"
  | .unreachableBlock block => "block " ++ block.text ++ " is unreachable from the entry block"
  | .duplicateValue v => "value " ++ v.text ++ " is defined more than once"
  | .duplicateInst i => "instruction id " ++ i.text ++ " is used more than once"
  | .undefinedValue block v => v.text ++ " is used in " ++ block.text ++ " but never defined"
  | .operandTypes i => "operand types of instruction " ++ i.text ++ " do not agree"
  | .misplacedPhi i => "phi " ++ i.text ++ " follows a non-phi instruction"
  | .phiPredecessors block i =>
    "incoming blocks of phi " ++ i.text ++ " in " ++ block.text ++ " do not match its predecessors"

/-- A defect of a function. -/
structure VerifyError where
  function : String
  defect : Defect
  deriving DecidableEq, Repr

/-- The words for an error: the function and the defect. -/
def VerifyError.message (e : VerifyError) : String := "@" ++ e.function ++ ": " ++ e.defect.message

/-- The outcome of a check: nothing, or the first defect. -/
abbrev Verdict := Except Defect Unit

/-- The defect, unless the condition holds. -/
def Verdict.require (condition : Bool) (defect : Defect) : Verdict :=
  if condition then .ok () else .error defect

/-- The first defect of a list of things to check. -/
def Verdict.all {α : Type} (items : List α) (check : α → Verdict) : Verdict := items.forM check

namespace Function

open Verdict (require all)

/-- The blocks of the layout that exist, in layout order. -/
def laidOut (f : Function) : List Block := f.layout.filterMap f.block?

/-! ### Types -/

/-- Every integer width is from 1 to 64. -/
def verifyTypes (f : Function) : Verdict :=
  all f.valueTypes.toList fun
    | .int width => require (1 ≤ width && width ≤ 64) (.intWidth width)
    | _ => .ok ()

/-! ### Arena and layout -/

/-- The ids of the blocks are their places in the arena. -/
def verifyArena (index : Nat) : List Block → Verdict
  | [] => .ok ()
  | b :: rest =>
    if b.id.index = index then verifyArena (index + 1) rest
    else .error (.idMismatch index b.id)

/-- The entries of a layout behind those of `seen` exist and are all different. -/
def verifyEntries (f : Function) (seen : List BlockId) : List BlockId → Verdict
  | [] => .ok ()
  | b :: rest =>
    if f.blocks.size ≤ b.index then .error (.unknownBlock b)
    else if seen.contains b then .error (.duplicateLayout b)
    else f.verifyEntries (b :: seen) rest

/-- Arena and layout hold the same blocks, the entry among them. -/
def verifyLayout (f : Function) : Verdict := do
  verifyArena 0 f.blocks.toList
  f.verifyEntries [] f.layout
  require (f.layout.contains f.entry) (.unknownEntry f.entry)
  all f.blocks.toList fun b => require (f.layout.contains b.id) (.orphanedBlock b.id)

/-! ### Terminators -/

/-- The operand of an exit has the type it needs. -/
def verifyExit (f : Function) (b : BlockId) : Exit → Verdict
  | .condBr cond _ _ => require (f.operandType? cond == some .i1) (.conditionType b)
  | .ret value => require (value.bind f.operandType? == f.returnType) (.returnType b)
  | .br _ | .unreachable => .ok ()

/-- The block is closed, its branches lead to blocks, and the operand of its exit fits. -/
def verifyTerminator (f : Function) (b : Block) : Verdict :=
  match b.term with
  | none => .error (.missingTerminator b.id)
  | some t => do
    all t.exit.successors fun target =>
      require (target.index < f.blocks.size) (.unknownTarget b.id target)
    f.verifyExit b.id t.exit

/-- Every block is closed and its terminator fits. -/
def verifyTerminators (f : Function) : Verdict := all f.laidOut f.verifyTerminator

/-! ### Reachability -/

/-- Setting a mark that was not set leaves fewer unset marks. -/
theorem count_false_setIfInBounds_lt {marks : Array Bool} {i : Nat}
    (h : marks[i]? = some false) :
    (marks.setIfInBounds i true).count false < marks.count false := by
  obtain ⟨hi, hf⟩ := Array.getElem?_eq_some_iff.1 h
  have hpos : 0 < marks.count false :=
    Array.count_pos_iff.2 (Array.mem_of_getElem hf)
  have hset : (marks.set i true hi).count false = marks.count false - 1 := by
    rw [Array.count_set hi, hf]
    rfl
  rw [Array.setIfInBounds, dif_pos hi, hset]
  exact Nat.sub_lt hpos Nat.one_pos

/-- Marks every block that branches lead to from the blocks in `queue`, apart from those that are
    already marked.  Each step marks a block or shortens the queue. -/
def flood (f : Function) (marks : Array Bool) : List BlockId → Array Bool
  | [] => marks
  | b :: queue =>
    if marks[b.index]? = some false then
      f.flood (marks.setIfInBounds b.index true)
        (((f.block? b).map (·.successors)).getD [] ++ queue)
    else f.flood marks queue
termination_by queue => (marks.count false, queue.length)
decreasing_by
  · exact Prod.Lex.left _ _ (count_false_setIfInBounds_lt ‹_›)
  · exact Prod.Lex.right _ (Nat.lt_succ_self _)

/-- Which blocks can be reached from the entry, by their place in the arena. -/
def reached (f : Function) : Array Bool :=
  f.flood (Array.replicate f.blocks.size false) [f.entry]

/-- No branch leads to the entry, and every block is reached from it. -/
def verifyReachability (f : Function) : Verdict := do
  require (predecessorsIn f.laidOut f.entry).isEmpty (.entryHasPredecessors f.entry)
  let reached := f.reached
  all f.layout fun b => require (reached[b.index]? == some true) (.unreachableBlock b)

/-! ### Definitions -/

/-- Notes that a value is defined; it has to be a value of the function and not defined before. -/
def define (defined : Array Bool) (v : ValueId) : Except Defect (Array Bool) :=
  if defined[v.index]? = some false then .ok (defined.setIfInBounds v.index true)
  else .error (.duplicateValue v)

/-- Notes the names of an instruction and of its result. -/
def defineInst (state : List InstId × Array Bool) (i : Inst) :
    Except Defect (List InstId × Array Bool) := do
  if state.1.contains i.id then .error (.duplicateInst i.id)
  else return (i.id :: state.1, ← define state.2 i.result)

/-- Which values are defined; a defect if a value or an instruction id is defined twice. -/
def definitions (f : Function) : Except Defect (Array Bool) := do
  let params ← f.params.foldlM define (Array.replicate f.valueTypes.size false)
  return (← (f.laidOut.flatMap (·.insts)).foldlM defineInst ([], params)).2

/-- An operand is a constant or a defined value. -/
def verifyUse (defined : Array Bool) (b : BlockId) : Operand → Verdict
  | .value v => require (defined[v.index]? == some true) (.undefinedValue b v)
  | .const _ => .ok ()

/-- Every value is defined at most once, and every value that is used is defined. -/
def verifyDefinitions (f : Function) : Verdict := do
  let defined ← f.definitions
  all f.laidOut fun b => do
    all (b.insts.flatMap (·.kind.operands)) (verifyUse defined b.id)
    all ((b.term.bind (·.exit.operand?)).toList) (verifyUse defined b.id)

/-! ### Instructions -/

/-- Do the types of the operands and of the result fit the instruction? -/
def typesAgree (f : Function) (i : Inst) : Bool :=
  let result := f.valueType? i.result
  match i.kind with
  | .binary op lhs rhs _ =>
    match f.operandType? lhs, f.operandType? rhs with
    | some l, some r => l == r && result == some l && op.isFloat == l.isFloat
    | _, _ => false
  | .icmp _ lhs rhs =>
    (f.operandType? lhs).any (·.isInt) && f.operandType? lhs == f.operandType? rhs
      && result == some .i1
  | .fcmp _ lhs rhs =>
    (f.operandType? lhs).any (·.isFloat) && f.operandType? lhs == f.operandType? rhs
      && result == some .i1
  | .phi incoming => incoming.all fun (_, v) => f.operandType? v == result

/-- Are `inputs` the blocks of `preds`, each once?  `preds` has no repetition. -/
def inputsMatch (preds inputs : List BlockId) : Bool :=
  inputs.all preds.contains && preds.all inputs.contains && inputs.length == preds.length

/-- The instructions of a block; `started` says whether one that is no phi came before. -/
def verifyInsts (f : Function) (preds : List BlockId) (b : BlockId) (started : Bool) :
    List Inst → Verdict
  | [] => .ok ()
  | i :: rest => do
    require (f.typesAgree i) (.operandTypes i.id)
    match i.kind with
    | .phi incoming => do
      require (!started) (.misplacedPhi i.id)
      require (inputsMatch preds (incoming.map (·.1))) (.phiPredecessors b i.id)
      f.verifyInsts preds b started rest
    | _ => f.verifyInsts preds b true rest

/-- The instructions of every block fit their operands and the predecessors of the block. -/
def verifyInstructions (f : Function) : Verdict :=
  let walk := f.laidOut
  all walk fun b => f.verifyInsts (predecessorsIn walk b.id) b.id false b.insts

/-! ### The whole function -/

/-- The first defect of a function. -/
def verify (f : Function) : Except VerifyError Unit :=
  Except.mapError (VerifyError.mk f.name) do
    f.verifyTypes
    f.verifyLayout
    f.verifyTerminators
    f.verifyReachability
    f.verifyDefinitions
    f.verifyInstructions

end Function

/-- The first defect of the functions of a module. -/
def Module.verify (m : Module) : Except VerifyError Unit := m.functions.forM (·.verify)

end ArithWatch
