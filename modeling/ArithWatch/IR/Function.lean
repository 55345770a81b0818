import ArithWatch.IR.Instruction

namespace ArithWatch

/-!
# Functions

* `Function` keeps its blocks in an arena, in which they never move, and lists their order apart.
* `Fault` says what is wrong with a use of a function that no function can answer.
* The queries below look blocks up by name, walk them in layout order and find instructions.  Those
  that follow a block id fault where it names no block.

A query that walks the layout faults only when it comes to a bad entry: `locate` stops at the first
block with the instruction and does not look at the entries behind it.
-/

/-- A use of a function or its checks that breaks their rules. -/
inductive Fault
  /-- A block, value, parameter or position that does not exist. -/
  | missing
  /-- A signed division whose divisor is not zero as a word but zero at its width. -/
  | zeroDivisor
  /-- An operand of unknown type where the type is needed. -/
  | untyped (v : ValueId) (function : String)
  /-- A second check recorded for one branch. -/
  | taggedTwice (branch : BlockId)
  /-- A second terminator for the block of the given name. -/
  | terminatedTwice (block : String)
  deriving DecidableEq, Repr

/-- The words for the faults that have any. -/
def Fault.message? : Fault → Option String
  | .missing | .zeroDivisor => none
  | .untyped v function =>
    some ("operand " ++ v.text ++ " has no type in function @" ++ function)
  | .taggedTwice branch => some ("branch " ++ branch.text ++ " tagged twice")
  | .terminatedTwice block => some ("block " ++ block ++ " is already terminated")

/-- A function. -/
structure Function where
  name : String
  params : List ValueId
  /-- What the function returns; `none` for nothing. -/
  returnType : Option Ty
  /-- The type of every value, by its id. -/
  valueTypes : Array Ty
  /-- The blocks, by their ids. -/
  blocks : Array Block
  /-- The order in which blocks are listed and walked. -/
  layout : List BlockId
  entry : BlockId
  /-- The next free instruction id. -/
  instCount : Nat
  deriving DecidableEq, Repr

/-- A module is a list of functions. -/
structure Module where
  name : String
  functions : List Function
  deriving DecidableEq, Repr

/-- The first function of the given name. -/
def Module.function? (m : Module) (name : String) : Option Function :=
  m.functions.find? (·.name == name)

namespace Function

/-! ### Looking things up -/

/-- The block that an id names. -/
def block? (f : Function) (b : BlockId) : Option Block := f.blocks[b.index]?

/-- The block that an id names; a fault if there is none. -/
def block (f : Function) (b : BlockId) : Except Fault Block :=
  match f.block? b with
  | some block => .ok block
  | none => .error .missing

/-- The type of a value. -/
def valueType? (f : Function) (v : ValueId) : Option Ty := f.valueTypes[v.index]?

/-- The type of an operand; a constant carries its own. -/
def operandType? (f : Function) : Operand → Option Ty
  | .value v => f.valueType? v
  | .const c => some c.ty

/-- The parameter at a position; a fault if there is none. -/
def param (f : Function) (index : Nat) : Except Fault ValueId :=
  match f.params[index]? with
  | some v => .ok v
  | none => .error .missing

/-- The id of the first block with the given name. -/
def findBlock? (f : Function) (name : String) : Option BlockId :=
  (f.blocks.find? (·.name == name)).map (·.id)

/-! ### Walking the layout -/

/-- The blocks in layout order. -/
def blocksInLayout (f : Function) : Except Fault (List Block) := f.layout.mapM f.block

/-- The number of blocks in the layout. -/
def blockCount (f : Function) : Nat := f.layout.length

/-- The number of edges between blocks; a conditional branch has two, whatever its arms. -/
def edgeCount (f : Function) : Except Fault Nat := do
  return ((← f.blocksInLayout).flatMap (·.successors)).length

/-- The instruction ids in layout order. -/
def instIds (f : Function) : Except Fault (List InstId) := do
  return (← f.blocksInLayout).flatMap fun b => b.insts.map (·.id)

/-- The first block among `order` with the instruction, and its place in there. -/
def locateIn (f : Function) (i : InstId) : List BlockId → Except Fault (Option (BlockId × Nat))
  | [] => .ok none
  | b :: rest =>
    match f.block b with
    | .error fault => .error fault
    | .ok block =>
      match block.insts.findIdx? (·.id == i) with
      | some position => .ok (some (block.id, position))
      | none => f.locateIn i rest

/-- Where an instruction stands. -/
def locate (f : Function) (i : InstId) : Except Fault (Option (BlockId × Nat)) :=
  f.locateIn i f.layout

/-- The instruction with the given id. -/
def inst (f : Function) (i : InstId) : Except Fault (Option Inst) := do
  match ← f.locate i with
  | none => return none
  | some (b, position) =>
    match (← f.block b).insts[position]? with
    | some inst => return some inst
    | none => .error .missing

/-- The location of an instruction. -/
def location (f : Function) (i : InstId) : Except Fault (Option Location) := do
  return (← f.inst i).bind (·.location)

/-- The text attached to the terminator of a block under a key. -/
def metadata (f : Function) (b : BlockId) (key : String) : Except Fault (Option String) := do
  return (← f.block b).term.bind fun t => t.metadata.find? key

/-! ### Predecessors -/

/-- The blocks among `walk` from which control may go to `b`, each once and in their order. -/
def predecessorsIn (walk : List Block) (b : BlockId) : List BlockId :=
  ((walk.filter fun block => block.successors.contains b).map (·.id)).eraseDups

/-- The predecessors of every block of the layout and of every target of a branch. -/
def predecessors (f : Function) : Except Fault (SortedMap BlockId (List BlockId)) := do
  let walk ← f.blocksInLayout
  return .ofList ((f.layout ++ walk.flatMap (·.successors)).map fun b => (b, predecessorsIn walk b))

end Function

end ArithWatch
