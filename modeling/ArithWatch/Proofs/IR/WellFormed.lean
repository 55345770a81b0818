import ArithWatch.IR.Verify
import Mathlib.Logic.Relation

namespace ArithWatch

/-!
# Well-formedness as a property

What a well-formed function is, said without the verifier.

* `Function.Edge` and `Function.Reachable` are the control-flow graph, read off the arena.
* `Function.InstFits` and `Function.ExitFits` are the typing rules.
* `Function.Regular` collects every rule except the one on instruction ids: it is what runs and
  insertions rely on, and an insertion keeps it whatever the ids are.
  `Function.FrameRegular.regular` puts it together out of the rules of single blocks.
* `Function.WellFormed` adds that no instruction id is used twice.
-/

namespace Function

/-! ### Blocks -/

/-- A block that is found is within the array. -/
theorem lt_of_block? {f : Function} {b : BlockId} {block : Block} (h : f.block? b = some block) :
    b.index < f.blocks.size :=
  (Array.getElem?_eq_some_iff.1 h).1

/-- An id within the array finds a block. -/
theorem exists_block? {f : Function} {b : BlockId} (h : b.index < f.blocks.size) :
    ∃ block, f.block? b = some block :=
  ⟨f.blocks[b.index], Array.getElem?_eq_getElem h⟩

/-- An id beyond the array finds none. -/
theorem block?_eq_none_iff {f : Function} {b : BlockId} :
    f.block? b = none ↔ f.blocks.size ≤ b.index :=
  Array.getElem?_eq_none_iff

/-- A block that is found is indexed without a fault. -/
theorem block_eq_ok {f : Function} {b : BlockId} {block : Block} (h : f.block? b = some block) :
    f.block b = .ok block := by
  rw [Function.block, h]

/-- A block that is indexed without a fault is found. -/
theorem block?_eq_some {f : Function} {b : BlockId} {block : Block} (h : f.block b = .ok block) :
    f.block? b = some block := by
  rw [Function.block] at h
  split at h
  · next heq =>
    cases h
    exact heq
  · cases h

/-! ### The control-flow graph -/

/-- Control may go from the end of `b` to `c`. -/
def Edge (f : Function) (b c : BlockId) : Prop :=
  ∃ block, f.block? b = some block ∧ c ∈ block.successors

/-- Some path of edges leads from the entry to `b`. -/
def Reachable (f : Function) (b : BlockId) : Prop := Relation.ReflTransGen f.Edge f.entry b

/-! ### Instructions and values -/

/-- Every instruction, in layout order. -/
def allInsts (f : Function) : List Inst := f.laidOut.flatMap (·.insts)

/-- The values that have a definition: the parameters and the results. -/
def defined (f : Function) : List ValueId := f.params ++ f.allInsts.map (·.result)

/-- Every instruction id is below the next free one. -/
def FreshIds (f : Function) : Prop := ∀ i ∈ f.allInsts, i.id.index < f.instCount

/-! ### Typing -/

/-- The types of the operands and of the result fit the instruction. -/
def InstFits (f : Function) (i : Inst) : Prop :=
  match i.kind with
  | .binary op lhs rhs _ =>
    ∃ ty, f.operandType? lhs = some ty ∧ f.operandType? rhs = some ty ∧
      f.valueType? i.result = some ty ∧ op.isFloat = ty.isFloat
  | .icmp _ lhs rhs =>
    ∃ ty, f.operandType? lhs = some ty ∧ f.operandType? rhs = some ty ∧
      f.valueType? i.result = some .i1 ∧ ty.isInt = true
  | .fcmp _ lhs rhs =>
    ∃ ty, f.operandType? lhs = some ty ∧ f.operandType? rhs = some ty ∧
      f.valueType? i.result = some .i1 ∧ ty.isFloat = true
  | .phi incoming => ∀ input ∈ incoming, f.operandType? input.2 = f.valueType? i.result

/-- The operand of the exit has the type it needs. -/
def ExitFits (f : Function) : Exit → Prop
  | .condBr cond _ _ => f.operandType? cond = some .i1
  | .ret value => value.bind f.operandType? = f.returnType
  | .br _ | .unreachable => True

/-! ### The rules -/

/-- The rules that runs and insertions rely on. -/
structure Regular (f : Function) : Prop where
  widths : ∀ width, Ty.int width ∈ f.valueTypes → 1 ≤ width ∧ width ≤ 64
  ids : ∀ b block, f.block? b = some block → block.id = b
  layout_nodup : f.layout.Nodup
  mem_layout : ∀ b : BlockId, b ∈ f.layout ↔ b.index < f.blocks.size
  entry_mem : f.entry ∈ f.layout
  closed : ∀ b block, f.block? b = some block → ∃ t, block.term = some t ∧ f.ExitFits t.exit
  targets : ∀ b c, f.Edge b c → c.index < f.blocks.size
  entry_source : ∀ b, ¬ f.Edge b f.entry
  reachable : ∀ b : BlockId, b.index < f.blocks.size → f.Reachable b
  defined_nodup : f.defined.Nodup
  defined_lt : ∀ v ∈ f.defined, v.index < f.valueTypes.size
  operands : ∀ b block, f.block? b = some block → ∀ i ∈ block.insts, ∀ v,
    .value v ∈ i.kind.operands → v ∈ f.defined
  exits : ∀ b block, f.block? b = some block → ∀ t, block.term = some t → ∀ v,
    t.exit.operand? = some (.value v) → v ∈ f.defined
  types : ∀ b block, f.block? b = some block → ∀ i ∈ block.insts, f.InstFits i
  /-- Phis stand before all other instructions of their block. -/
  phis_lead : ∀ b block, f.block? b = some block →
    ∀ i ∈ block.insts.dropWhile (·.kind.isPhi), i.kind.isPhi = false
  /-- The inputs of a phi are the predecessors of its block, each once. -/
  inputs : ∀ b block, f.block? b = some block → ∀ i ∈ block.insts, ∀ incoming,
    i.kind = .phi incoming →
      (incoming.map (·.1)).Nodup ∧ ∀ p, p ∈ incoming.map (·.1) ↔ f.Edge p b

/-- What is defined has a type. -/
theorem Regular.exists_valueType? {f : Function} (h : f.Regular) {v : ValueId}
    (hv : v ∈ f.defined) : ∃ ty, f.valueType? v = some ty :=
  ⟨_, Array.getElem?_eq_getElem (h.defined_lt v hv)⟩

/-! ### The rules, part by part -/

/-- What the rules ask of an instruction in block `b`. -/
structure InstRegular (f : Function) (b : BlockId) (i : Inst) : Prop where
  operands : ∀ v, .value v ∈ i.kind.operands → v ∈ f.defined
  fits : f.InstFits i
  inputs : ∀ incoming, i.kind = .phi incoming →
    (incoming.map (·.1)).Nodup ∧ ∀ p, p ∈ incoming.map (·.1) ↔ f.Edge p b

/-- What the rules ask of an exit. -/
structure ExitRegular (f : Function) (e : Exit) : Prop where
  fits : f.ExitFits e
  operand : ∀ v, e.operand? = some (.value v) → v ∈ f.defined

/-- What the rules ask of block `b`. -/
structure BlockRegular (f : Function) (b : BlockId) (block : Block) : Prop where
  id_eq : block.id = b
  closed : ∃ t, block.term = some t ∧ f.ExitRegular t.exit
  insts : ∀ i ∈ block.insts, f.InstRegular b i
  phis_lead : ∀ i ∈ block.insts.dropWhile (·.kind.isPhi), i.kind.isPhi = false

/-- What the rules ask of the function around its blocks. -/
structure FrameRegular (f : Function) : Prop where
  widths : ∀ width, Ty.int width ∈ f.valueTypes → 1 ≤ width ∧ width ≤ 64
  layout_nodup : f.layout.Nodup
  mem_layout : ∀ b : BlockId, b ∈ f.layout ↔ b.index < f.blocks.size
  entry_mem : f.entry ∈ f.layout
  targets : ∀ b c, f.Edge b c → c.index < f.blocks.size
  entry_source : ∀ b, ¬ f.Edge b f.entry
  reachable : ∀ b : BlockId, b.index < f.blocks.size → f.Reachable b
  defined_nodup : f.defined.Nodup
  defined_lt : ∀ v ∈ f.defined, v.index < f.valueTypes.size

/-- **A function is regular** if its frame and each of its blocks are. -/
theorem FrameRegular.regular {f : Function} (h : f.FrameRegular)
    (hblocks : ∀ b block, f.block? b = some block → f.BlockRegular b block) : f.Regular where
  widths := h.widths
  ids b block hb := (hblocks b block hb).id_eq
  layout_nodup := h.layout_nodup
  mem_layout := h.mem_layout
  entry_mem := h.entry_mem
  closed b block hb := by
    obtain ⟨t, ht, hexit⟩ := (hblocks b block hb).closed
    exact ⟨t, ht, hexit.fits⟩
  targets := h.targets
  entry_source := h.entry_source
  reachable := h.reachable
  defined_nodup := h.defined_nodup
  defined_lt := h.defined_lt
  operands b block hb i hi := ((hblocks b block hb).insts i hi).operands
  exits b block hb t ht := by
    obtain ⟨t', ht', hexit⟩ := (hblocks b block hb).closed
    cases ht.symm.trans ht'
    exact hexit.operand
  types b block hb i hi := ((hblocks b block hb).insts i hi).fits
  phis_lead b block hb := (hblocks b block hb).phis_lead
  inputs b block hb i hi := ((hblocks b block hb).insts i hi).inputs

/-- The block of an instruction matters to phis only. -/
theorem InstRegular.of_not_phi {f : Function} {b c : BlockId} {i : Inst} (h : f.InstRegular b i)
    (hphi : i.kind.isPhi = false) : f.InstRegular c i where
  operands := h.operands
  fits := h.fits
  inputs incoming hk := by simp [hk, InstKind.isPhi] at hphi

/-! ### Instruction ids -/

/-- A regular function in which no instruction id is used twice. -/
structure WellFormed (f : Function) : Prop extends Regular f where
  instIds_nodup : (f.allInsts.map (·.id)).Nodup

end Function

end ArithWatch
