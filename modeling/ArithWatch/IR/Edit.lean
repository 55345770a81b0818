import ArithWatch.IR.Function

namespace ArithWatch

/-!
# Changing functions

* `Edit` is a change of a function that may fault; a fault keeps what was changed before it.
* `Function.freshName` finds a block name that is not taken.
* `Edit.createBlock`, `Edit.newValue`, `Edit.eraseTerminator`, `Edit.attachMetadata` and
  `Edit.setBranchLocation` are the single changes.
* `Function.splitBlockAfter` cuts a block in two.
-/

/-- A change of a function with a result. -/
abbrev Edit := EStateM Fault Function

/-- Asks the function something. -/
def Edit.query {α : Type} (ask : Function → Except Fault α) : Edit α := fun f =>
  match ask f with
  | .ok a => .ok a f
  | .error fault => .error fault f

/-! ### Names -/

namespace Function

/-- Does no block have the name? -/
def isFree (f : Function) (name : String) : Bool := (f.findBlock? name).isNone

/-- A name is free if no block has it. -/
theorem isFree_iff (f : Function) (name : String) :
    f.isFree name = true ↔ ∀ b ∈ f.blocks, b.name ≠ name := by
  simp [isFree, findBlock?, Array.find?_eq_none]

/-- The first free name among `base1`, `base2`, ….  One of the first numbers up to the number of
    blocks gives a free name, as `base` itself is taken. -/
def numberedName (f : Function) (base : String) : String :=
  match (List.range' 1 f.blocks.size).find? fun n => f.isFree (base ++ toString n) with
  | some n => base ++ toString n
  | none => base

/-- The name itself if it is free, otherwise the first free one with a number behind it. -/
def freshName (f : Function) (base : String) : String :=
  if f.isFree base then base else f.numberedName base

/-- Changes the block that an id names, if there is one. -/
def updateBlock (f : Function) (b : BlockId) (change : Block → Block) : Function :=
  { f with blocks := f.blocks.modify b.index change }

@[simp] theorem size_updateBlock (f : Function) (b : BlockId) (change : Block → Block) :
    (f.updateBlock b change).blocks.size = f.blocks.size := by
  simp [updateBlock]

/-- A change of one block leaves all others as they are. -/
theorem block?_updateBlock (f : Function) (b b' : BlockId) (change : Block → Block) :
    (f.updateBlock b change).block? b' =
      if b = b' then (f.block? b').map change else f.block? b' := by
  have : b.index = b'.index ↔ b = b' := by
    cases b; cases b'; simp
  simp only [updateBlock, block?, Array.getElem?_modify, this]

end Function

/-! ### Single changes -/

namespace Edit

/-- A new value of the given type. -/
def newValue (ty : Ty) : Edit ValueId :=
  modifyGet fun f => (⟨f.valueTypes.size⟩, { f with valueTypes := f.valueTypes.push ty })

/-- The next instruction id. -/
def newInstId : Edit InstId :=
  modifyGet fun f => (⟨f.instCount⟩, { f with instCount := InstId.next f.instCount })

/-- Changes the block that an id names; a fault if there is none. -/
def updateBlock (b : BlockId) (change : Block → Block) : Edit Unit := do
  let _ ← query (·.block b)
  modify (·.updateBlock b change)

/-- A new block at the end of the layout, without a terminator, under a free name. -/
def createBlock (name : String) : Edit BlockId :=
  modifyGet fun f =>
    let id : BlockId := ⟨f.blocks.size⟩
    (id, { f with
      blocks := f.blocks.push { id, name := f.freshName name, insts := [], term := none }
      layout := f.layout ++ [id] })

/-- Takes the terminator off a block. -/
def eraseTerminator (b : BlockId) : Edit (Option Terminator) := do
  let block ← query (·.block b)
  updateBlock b fun block => { block with term := none }
  return block.term

/-- Changes the terminator of a block; says whether there is one. -/
def updateTerminator (b : BlockId) (change : Terminator → Terminator) : Edit Bool := do
  let block ← query (·.block b)
  updateBlock b fun block => { block with term := block.term.map change }
  return block.term.isSome

/-- Attaches a text to the terminator of a block in place of an earlier one of the same key; says
    whether there is a terminator. -/
def attachMetadata (b : BlockId) (key value : String) : Edit Bool :=
  updateTerminator b fun t => { t with metadata := t.metadata.insert key value }

/-- Sets the location of the terminator of a block, if there is one. -/
def setBranchLocation (b : BlockId) (location : Option Location) : Edit Unit :=
  discard <| updateTerminator b fun t => { t with location }

end Edit

/-! ### Splitting -/

/-- `b` placed right behind the first `origin`, or at the end if there is none. -/
def insertBehind (origin b : BlockId) : List BlockId → List BlockId
  | [] => [b]
  | x :: rest => if x = origin then x :: b :: rest else x :: insertBehind origin b rest

/-- Inserting adds one element, wherever it lands. -/
@[simp] theorem mem_insertBehind {origin b x : BlockId} {l : List BlockId} :
    x ∈ insertBehind origin b l ↔ x = b ∨ x ∈ l := by
  induction l with
  | nil => simp [insertBehind]
  | cons y rest ih =>
    simp only [insertBehind]
    split
    · simp only [List.mem_cons, or_left_comm]
    · simp only [List.mem_cons, ih, or_left_comm]

namespace Function

/-- The phis of the block that came from `old` come from `new`. -/
def repointPhis (f : Function) (old new b : BlockId) : Function :=
  f.updateBlock b fun block =>
    { block with insts := block.insts.map fun i => { i with kind := i.kind.repoint old new } }

/-- Cuts a block behind its first `count` instructions.  The rest and the terminator move to a new
    block `origin_cont`, placed right behind the first one, to which the first one branches; the
    phis of the blocks behind the terminator follow. -/
def cutBlock (f : Function) (origin : BlockId) (block : Block) (count : Nat) : Function :=
  let cont : BlockId := ⟨f.blocks.size⟩
  let rest : Block :=
    { id := cont
      name := f.freshName "origin_cont"
      insts := block.insts.drop count
      term := block.term }
  let cut := f.updateBlock origin fun block =>
    { block with insts := block.insts.take count, term := some { exit := .br cont } }
  let joined : Function :=
    { cut with blocks := cut.blocks.push rest, layout := insertBehind origin cont f.layout }
  block.successors.foldl (fun f b => f.repointPhis origin cont b) joined

/-- Splits the block of an instruction right behind it; gives the changed function, the block and
    its new second half.  There is nothing to split where the function has no such instruction, or
    where neither an instruction nor a terminator follows it. -/
def splitBlockAfter (f : Function) (i : InstId) :
    Except Fault (Option (Function × BlockId × BlockId)) := do
  match ← f.locate i with
  | none => return none
  | some (origin, position) =>
    let block ← f.block origin
    if position + 1 = block.insts.length ∧ block.term = none then return none
    else if block.insts.length < position + 1 then .error .missing
    else return some (f.cutBlock origin block (position + 1), origin, ⟨f.blocks.size⟩)

end Function

/-- Splits the block of an instruction right behind it. -/
def Edit.splitBlockAfter (i : InstId) : Edit (Option (BlockId × BlockId)) := do
  match ← query (·.splitBlockAfter i) with
  | none => return none
  | some (f, halves) =>
    set f
    return some halves

end ArithWatch
