import ArithWatch.IR.Builder
import ArithWatch.Proofs.Outcome
import ArithWatch.Proofs.IR.Supply
import ArithWatch.Proofs.IR.WellFormed

namespace ArithWatch

/-!
# Single edits as functions

What each edit makes of a function on which it does not fault.

* `Function.append` puts instructions at the end of a block; `Cursor.push_eq` and `Cursor.binary_eq`
  do that.
* `Edit.terminate_eq`, `Edit.eraseTerminator_eq` and `Edit.updateTerminator_eq` are the other edits
  of one block.  `Edit.exists_open_of_terminate`: a block is closed once.
-/

/-! ### Appending code -/

/-- The block with more instructions at its end. -/
def Block.extend (code : List Inst) (b : Block) : Block := { b with insts := b.insts ++ code }

@[simp] theorem Block.extend_nil (b : Block) : b.extend [] = b := by
  simp [extend]

@[simp] theorem Block.extend_extend (code code' : List Inst) (b : Block) :
    (b.extend code).extend code' = b.extend (code ++ code') := by
  simp [extend]

namespace Function

/-- Puts instructions at the end of a block; `types` are the types of their results. -/
def append (f : Function) (b : BlockId) (code : List Inst) (types : List Ty) : Function :=
  { f.updateBlock b (·.extend code) with
    valueTypes := f.valueTypes ++ types.toArray
    instCount := InstId.advance f.instCount code.length }

/-- Only one block is extended. -/
theorem blocks_append (f : Function) (b : BlockId) (code : List Inst) (types : List Ty) :
    (f.append b code types).blocks = f.blocks.modify b.index (·.extend code) := rfl

@[simp] theorem size_append (f : Function) (b : BlockId) (code : List Inst) (types : List Ty) :
    (f.append b code types).blocks.size = f.blocks.size := by
  simp [blocks_append]

@[simp] theorem valueTypes_append (f : Function) (b : BlockId) (code : List Inst)
    (types : List Ty) : (f.append b code types).valueTypes = f.valueTypes ++ types.toArray := rfl

@[simp] theorem instCount_append (f : Function) (b : BlockId) (code : List Inst)
    (types : List Ty) :
    (f.append b code types).instCount = InstId.advance f.instCount code.length := rfl

/-- Other blocks are as they were. -/
theorem block?_append (f : Function) (b b' : BlockId) (code : List Inst) (types : List Ty) :
    (f.append b code types).block? b' =
      if b = b' then (f.block? b').map (·.extend code) else f.block? b' :=
  f.block?_updateBlock b b' (·.extend code)

/-- No code changes nothing, whatever the block. -/
theorem append_nil (f : Function) (b : BlockId) : f.append b [] [] = f := by
  have hblocks : f.blocks.modify b.index (·.extend []) = f.blocks := by
    apply Array.ext_getElem?
    intro i
    rw [Array.getElem?_modify]
    split <;> simp
  rw [append, updateBlock, hblocks]
  simp

/-- Two pieces of code behind one another are one piece. -/
theorem append_append (f : Function) (b : BlockId) (code code' : List Inst)
    (types types' : List Ty) :
    (f.append b code types).append b code' types' =
      f.append b (code ++ code') (types ++ types') := by
  have hblocks : (f.blocks.modify b.index (·.extend code)).modify b.index (·.extend code') =
      f.blocks.modify b.index (·.extend (code ++ code')) := by
    apply Array.ext_getElem?
    intro i
    simp only [Array.getElem?_modify]
    split <;> simp [Function.comp_def]
  simp only [append, updateBlock, hblocks, List.length_append, InstId.advance_advance,
    ← List.append_toArray, Array.append_assoc]

/-- New values leave the types of the old ones as they are. -/
theorem operandType?_append {f : Function} {op : Operand} {ty : Ty}
    (h : f.operandType? op = some ty) (b : BlockId) (code : List Inst) (types : List Ty) :
    (f.append b code types).operandType? op = some ty := by
  cases op with
  | const c => exact h
  | value v =>
    have hv : v.index < f.valueTypes.size := (Array.getElem?_eq_some_iff.1 h).1
    show (f.valueTypes ++ types.toArray)[v.index]? = _
    rw [Array.getElem?_append_left hv]
    exact h

end Function

/-- A push appends one instruction, with the next id and the next value. -/
theorem Cursor.push_eq {c : Cursor} {f : Function} (hc : c.block.index < f.blocks.size)
    (kind : InstKind) (ty : Ty) :
    c.push kind ty f = .ok (⟨f.instCount⟩, ⟨f.valueTypes.size⟩)
      (f.append c.block [⟨⟨f.instCount⟩, ⟨f.valueTypes.size⟩, kind, c.location⟩] [ty]) := by
  obtain ⟨block, hblock⟩ := Function.exists_block? hc
  -- The block is looked up after the two counters moved, which leave the blocks alone.
  have hquery : ({ f with
      instCount := InstId.next f.instCount
      valueTypes := f.valueTypes.push ty } : Function).block c.block = .ok block :=
    Function.block_eq_ok hblock
  have hpush : f.valueTypes.push ty = f.valueTypes ++ [ty].toArray := by simp
  unfold Cursor.push
  rw [Edit.bind_eq (show Edit.newInstId f = .ok _ _ from rfl),
    Edit.bind_eq (show Edit.newValue ty _ = .ok _ _ from rfl)]
  rw [Edit.bind_eq (a := ()) (g := f.append c.block [_] [ty])]
  · rfl
  · rw [Edit.updateBlock, Edit.bind_eq (Edit.query_eq hquery)]
    show EStateM.Result.ok () _ = _
    simp only [Function.append, Function.updateBlock, hpush]
    rfl

/-- Where a block is asked for, it is there. -/
theorem Edit.exists_block_of_ok {α : Type} {f g : Function} {a : α} {b : BlockId}
    {k : Block → Edit α} (h : (query (·.block b) >>= k) f = .ok a g) :
    ∃ block, f.block? b = some block := by
  obtain ⟨block, f', hquery, -⟩ := bind_eq_ok h
  exact ⟨block, Function.block?_eq_some (query_eq_ok hquery).1⟩

/-- A push that does not fault is one to a block that exists. -/
theorem Cursor.lt_of_push {c : Cursor} {f g : Function} {kind : InstKind} {ty : Ty}
    {a : InstId × ValueId} (h : c.push kind ty f = .ok a g) : c.block.index < f.blocks.size := by
  obtain ⟨id, f₁, hid, h⟩ := Edit.bind_eq_ok h
  cases hid
  obtain ⟨v, f₂, hv, h⟩ := Edit.bind_eq_ok h
  cases hv
  obtain ⟨_, f₃, hupdate, -⟩ := Edit.bind_eq_ok h
  obtain ⟨block, hblock⟩ := Edit.exists_block_of_ok hupdate
  exact Function.lt_of_block? hblock

/-- An operand with a type gives it away. -/
theorem Cursor.typeOf_eq {f : Function} {op : Operand} {ty : Ty} (h : f.operandType? op = some ty) :
    Cursor.typeOf op f = .ok ty f := by
  rw [Cursor.typeOf, Edit.query_eq]
  rw [h]

/-- A binary instruction takes the type of its left operand. -/
theorem Cursor.binary_eq {c : Cursor} {f : Function} (hc : c.block.index < f.blocks.size)
    {lhs : Operand} {ty : Ty} (hlhs : f.operandType? lhs = some ty) (op : BinOp) (rhs : Operand)
    (flags : WrapFlags) :
    c.binary op lhs rhs flags f = .ok (⟨f.instCount⟩, ⟨f.valueTypes.size⟩)
      (f.append c.block
        [⟨⟨f.instCount⟩, ⟨f.valueTypes.size⟩, .binary op lhs rhs flags, c.location⟩] [ty]) :=
  (Edit.bind_eq (typeOf_eq hlhs)).trans (push_eq hc _ _)

/-! ### Terminators -/

namespace Edit

variable {f : Function} {b : BlockId} {block : Block}

/-- A block that exists can be changed. -/
theorem updateBlock_eq (h : f.block? b = some block) (change : Block → Block) :
    Edit.updateBlock b change f = .ok () (f.updateBlock b change) :=
  bind_eq (query_eq (Function.block_eq_ok h))

/-- The block of a cursor can be closed, at the location of the cursor. -/
theorem setExit_eq {c : Cursor} (hc : c.block.index < f.blocks.size) (exit : Exit) :
    c.setExit exit f = .ok c.block (f.updateBlock c.block fun b =>
      { b with term := some { exit, location := c.location } }) := by
  obtain ⟨block, hblock⟩ := Function.exists_block? hc
  exact bind_eq (updateBlock_eq hblock _)

/-- A block that is open gets its terminator. -/
theorem terminate_eq {c : Cursor} (hblock : f.block? c.block = some block)
    (hopen : block.term = none) (exit : Exit) :
    c.terminate exit f = .ok c.block (f.updateBlock c.block fun b =>
      { b with term := some { exit, location := c.location } }) := by
  rw [Cursor.terminate, bind_eq (query_eq (Function.block_eq_ok hblock)), hopen]
  exact setExit_eq (Function.lt_of_block? hblock) exit

/-- A block that has a terminator is not closed again, and nothing changes. -/
theorem terminate_eq_error {c : Cursor} (hblock : f.block? c.block = some block)
    (hclosed : block.term.isSome = true) (exit : Exit) :
    c.terminate exit f = .error (.terminatedTwice block.name) f := by
  rw [Cursor.terminate, bind_eq (query_eq (Function.block_eq_ok hblock)), if_pos hclosed]
  rfl

/-- Only a block that exists and is open can be closed. -/
theorem exists_open_of_terminate {c : Cursor} {exit : Exit} {closed : BlockId} {g : Function}
    (h : c.terminate exit f = .ok closed g) :
    ∃ block, f.block? c.block = some block ∧ block.term = none := by
  obtain ⟨block, hblock⟩ := exists_block_of_ok h
  refine ⟨block, hblock, Option.not_isSome_iff_eq_none.1 fun hclosed => ?_⟩
  rw [terminate_eq_error hblock hclosed] at h
  cases h

/-- The block that is closed is the one at which instructions are appended. -/
theorem eq_of_terminate {c : Cursor} {exit : Exit} {closed : BlockId} {g : Function}
    (h : c.terminate exit f = .ok closed g) : closed = c.block := by
  obtain ⟨_, hblock, hopen⟩ := exists_open_of_terminate h
  rw [terminate_eq hblock hopen] at h
  cases h
  rfl

/-- The terminator that was there is handed back. -/
theorem eraseTerminator_eq (h : f.block? b = some block) :
    eraseTerminator b f =
      .ok block.term (f.updateBlock b fun block => { block with term := none }) := by
  rw [eraseTerminator, bind_eq (query_eq (Function.block_eq_ok h)), bind_eq (updateBlock_eq h _)]
  rfl

/-- It is said whether there was a terminator to change. -/
theorem updateTerminator_eq (h : f.block? b = some block) (change : Terminator → Terminator) :
    updateTerminator b change f = .ok block.term.isSome
      (f.updateBlock b fun block => { block with term := block.term.map change }) := by
  rw [updateTerminator, bind_eq (query_eq (Function.block_eq_ok h)), bind_eq (updateBlock_eq h _)]
  rfl

end Edit

end ArithWatch
