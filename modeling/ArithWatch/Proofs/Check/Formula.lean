import ArithWatch.Check.Qualify
import ArithWatch.Proofs.IR.Edits
import Mathlib.Tactic.Tauto

namespace ArithWatch

/-!
# The conditions of checks as formulas

A condition is appended to a block instruction by instruction.  Here it is a tree, and the
instructions are what the tree compiles to, operands first.

* `Formula` is a tree of `Operation`s over the sides and the result of a watched instruction.
* `Formula.code`, `Formula.types` and `Formula.operand` are the instructions that it compiles to,
  the types of their results and the operand that holds the outcome.
* `CheckPredicate.formula` is the tree of each condition.
* `CheckPredicate.build_eq`: to append a condition is to append the code of its tree.
-/

/-! ### Formulas -/

/-- What an inner node of a formula computes from its two sides. -/
inductive Operation
  | arith (op : BinOp)
  | icmp (pred : IntPredicate)
  | fcmp (pred : FloatPredicate)
  deriving DecidableEq, Repr

namespace Operation

/-- What the instruction of the operation does. -/
def kind (o : Operation) (lhs rhs : Operand) : InstKind :=
  match o with
  | .arith op => .binary op lhs rhs .empty
  | .icmp pred => .icmp pred lhs rhs
  | .fcmp pred => .fcmp pred lhs rhs

/-- The instruction of the operation with the numbers of its id and its result. -/
def inst (o : Operation) (lhs rhs : Operand) (location : Option Location) (inst value : Nat) :
    Inst :=
  { id := ⟨inst⟩, result := ⟨value⟩, kind := o.kind lhs rhs, location }

/-- The type of the result, if both sides have type `ty`. -/
def resultTy (o : Operation) (ty : Ty) : Ty :=
  match o with
  | .arith _ => ty
  | .icmp _ | .fcmp _ => .i1

/-- Does the operation fit sides of type `ty`? -/
def fits (o : Operation) (ty : Ty) : Bool :=
  match o with
  | .arith op => op.isFloat == ty.isFloat
  | .icmp _ => ty.isInt
  | .fcmp _ => ty.isFloat

/-- Appends the instruction. -/
def push (c : Cursor) (o : Operation) (lhs rhs : Operand) : Edit ValueId :=
  match o with
  | .arith op => c.arith op lhs rhs
  | .icmp pred => c.icmp pred lhs rhs
  | .fcmp pred => c.fcmp pred lhs rhs

@[simp] theorem isPhi_kind (o : Operation) (lhs rhs : Operand) :
    (o.kind lhs rhs).isPhi = false := by
  cases o <;> rfl

@[simp] theorem operands_kind (o : Operation) (lhs rhs : Operand) :
    (o.kind lhs rhs).operands = [lhs, rhs] := by
  cases o <;> rfl

end Operation

/-- A formula over the sides and the result of a watched instruction. -/
inductive Formula
  | lhs
  | rhs
  | result
  | const (c : Constant)
  | node (o : Operation) (x y : Formula)
  deriving DecidableEq, Repr

namespace Formula

/-- An arithmetic node. -/
abbrev arith (op : BinOp) (x y : Formula) : Formula := .node (.arith op) x y

/-- A comparison of integers. -/
abbrev icmp (pred : IntPredicate) (x y : Formula) : Formula := .node (.icmp pred) x y

/-- A comparison of floats. -/
abbrev fcmp (pred : FloatPredicate) (x y : Formula) : Formula := .node (.fcmp pred) x y

/-- The number of instructions. -/
def size : Formula → Nat
  | .lhs | .rhs | .result | .const _ => 0
  | .node _ x y => x.size + y.size + 1

/-- The type of the outcome for a watched instruction of type `ty`. -/
def ty (ty : Ty) : Formula → Ty
  | .lhs | .rhs | .result => ty
  | .const c => c.ty
  | .node o x _ => o.resultTy (x.ty ty)

/-- The two sides of every node have one type, which the operation fits. -/
def Fits (ty : Ty) : Formula → Prop
  | .lhs | .rhs | .result | .const _ => True
  | .node o x y => x.Fits ty ∧ y.Fits ty ∧ x.ty ty = y.ty ty ∧ o.fits (x.ty ty) = true

/-- The types of the results, in the order of the instructions. -/
def types (ty : Ty) : Formula → List Ty
  | .lhs | .rhs | .result | .const _ => []
  | .node o x y => x.types ty ++ y.types ty ++ [o.resultTy (x.ty ty)]

/-- The operand that holds the outcome, if the first result is value number `value`. -/
def operand (w : Watched) (value : Nat) : Formula → Operand
  | .lhs => w.lhs
  | .rhs => w.rhs
  | .result => w.result
  | .const c => c
  | .node _ x y => .value ⟨value + x.size + y.size⟩

/-- The instructions, with ids drawn from the count `inst` and results from `value` on. -/
def code (w : Watched) (location : Option Location) : Formula → (inst value : Nat) → List Inst
  | .lhs, _, _ | .rhs, _, _ | .result, _, _ | .const _, _, _ => []
  | .node o x y, inst, value =>
    x.code w location inst value ++
      y.code w location (InstId.advance inst x.size) (value + x.size) ++
      [o.inst (x.operand w value) (y.operand w (value + x.size)) location
        (InstId.advance inst (x.size + y.size)) (value + x.size + y.size)]

section Node

variable (o : Operation) (x y : Formula)

/-- A node is one instruction more than its two sides. -/
theorem size_node : (node o x y).size = x.size + y.size + 1 := rfl

/-- The types drawn for a node are those of its sides and that of its result. -/
theorem types_node (ty : Ty) :
    (node o x y).types ty = x.types ty ++ y.types ty ++ [o.resultTy (x.ty ty)] := rfl

/-- The code of a node is that of its sides, left first, and one instruction that reads both. -/
theorem code_node (w : Watched) (location : Option Location) (inst value : Nat) :
    (node o x y).code w location inst value =
      x.code w location inst value ++
        y.code w location (InstId.advance inst x.size) (value + x.size) ++
        [o.inst (x.operand w value) (y.operand w (value + x.size)) location
          (InstId.advance inst (x.size + y.size)) (value + x.size + y.size)] := rfl

end Node

/-- One type is drawn for each instruction. -/
@[simp] theorem length_types (ty : Ty) (φ : Formula) : (φ.types ty).length = φ.size := by
  induction φ with
  | node o x y ihx ihy => simp [types_node, size_node, ihx, ihy, Nat.add_assoc]
  | _ => rfl

/-- The size of a formula is the length of its code. -/
@[simp] theorem length_code (w : Watched) (location : Option Location) (φ : Formula)
    (inst value : Nat) : (φ.code w location inst value).length = φ.size := by
  induction φ generalizing inst value with
  | node o x y ihx ihy => simp [code_node, size_node, ihx, ihy, Nat.add_assoc]
  | _ => rfl

end Formula

namespace Formula

variable {w : Watched} {location : Option Location}

/-- The results are numbered from the first one on. -/
theorem map_result_code (φ : Formula) (inst value : Nat) :
    (φ.code w location inst value).map (·.result) = (List.range' value φ.size).map .mk := by
  induction φ generalizing inst value with
  | node o x y ihx ihy =>
    simp [code_node, size_node, ihx, ihy, Operation.inst, List.range'_concat,
      ← List.range'_append_1, Nat.add_assoc]
  | _ => rfl

/-- The ids are drawn one after the other. -/
theorem map_id_code (φ : Formula) (inst value : Nat) :
    (φ.code w location inst value).map (·.id) = InstId.drawn inst φ.size := by
  induction φ generalizing inst value with
  | node o x y ihx ihy =>
    rw [code_node, size_node, InstId.drawn_succ, InstId.drawn_add, List.map_append, List.map_append,
      ihx, ihy]
    rfl
  | _ => rfl

/-- There are no phis among the instructions of a formula. -/
theorem not_phi_of_mem_code {φ : Formula} {inst value : Nat} {i : Inst}
    (h : i ∈ φ.code w location inst value) : i.kind.isPhi = false := by
  induction φ generalizing inst value with
  | node o x y ihx ihy =>
    simp only [code_node, List.mem_append, List.mem_singleton] at h
    rcases h with (h | h) | rfl
    · exact ihx h
    · exact ihy h
    · simp [Operation.inst]
  | _ => exact absurd h List.not_mem_nil

end Formula

/-- The instruction reads the value or gives it. -/
def Watched.Mentions (w : Watched) (v : ValueId) : Prop :=
  w.lhs = .value v ∨ w.rhs = .value v ∨ w.result = v

namespace Formula

variable {w : Watched} {location : Option Location}

/-- The outcome is a value of the watched instruction or a result of the code. -/
theorem operand_cases {φ : Formula} {value : Nat} {v : ValueId}
    (h : φ.operand w value = .value v) :
    w.Mentions v ∨ value ≤ v.index ∧ v.index < value + φ.size := by
  cases φ with
  | lhs => exact .inl (.inl h)
  | rhs => exact .inl (.inr (.inl h))
  | result =>
    cases h
    exact .inl (.inr (.inr rfl))
  | const c => cases h
  | node o x y =>
    cases h
    simp only [size_node]
    omega

/-- The code reads values of the watched instruction and its own results only. -/
theorem operands_code {φ : Formula} {inst value : Nat} {i : Inst} {v : ValueId}
    (h : i ∈ φ.code w location inst value) (hv : .value v ∈ i.kind.operands) :
    w.Mentions v ∨ value ≤ v.index ∧ v.index < value + φ.size := by
  induction φ generalizing inst value with
  | node o x y ihx ihy =>
    have hx : ∀ u : ValueId, w.Mentions u ∨ value ≤ u.index ∧ u.index < value + x.size →
        w.Mentions u ∨ value ≤ u.index ∧ u.index < value + (node o x y).size := by
      refine fun u => Or.imp_right fun hu => ?_
      simp only [size_node]
      omega
    have hy : ∀ u : ValueId,
        w.Mentions u ∨ value + x.size ≤ u.index ∧ u.index < value + x.size + y.size →
        w.Mentions u ∨ value ≤ u.index ∧ u.index < value + (node o x y).size := by
      refine fun u => Or.imp_right fun hu => ?_
      simp only [size_node]
      omega
    simp only [code_node, List.mem_append, List.mem_singleton] at h
    -- An instruction is from the left side, from the right side, or the node itself.
    rcases h with (h | h) | rfl
    · exact hx v (ihx h)
    · exact hy v (ihy h)
    · simp only [Operation.inst, Operation.operands_kind, List.mem_cons, List.not_mem_nil,
        or_false] at hv
      rcases hv with hv | hv
      · exact hx v (operand_cases hv.symm)
      · exact hy v (operand_cases hv.symm)
  | _ => exact absurd h List.not_mem_nil

end Formula

/-! ### Compiling formulas -/

/-- The sides and the result of the watched instruction have its type. -/
structure Watched.Typed (w : Watched) (f : Function) : Prop where
  lhs : f.operandType? w.lhs = some w.ty
  rhs : f.operandType? w.rhs = some w.ty
  result : f.valueType? w.result = some w.ty

/-- Appended code leaves the watched values their types. -/
theorem Watched.Typed.append {w : Watched} {f : Function} (h : w.Typed f) (b : BlockId)
    (code : List Inst) (types : List Ty) : w.Typed (f.append b code types) where
  lhs := Function.operandType?_append h.lhs b code types
  rhs := Function.operandType?_append h.rhs b code types
  result := Function.operandType?_append
    (show f.operandType? (.value w.result) = some w.ty from h.result) b code types

/-- A push of an operation is one of its instruction. -/
theorem Operation.push_eq {c : Cursor} {f : Function} {lhs : Operand} {ty : Ty} (o : Operation)
    (hc : c.block.index < f.blocks.size) (hlhs : f.operandType? lhs = some ty) (rhs : Operand) :
    o.push c lhs rhs f = .ok ⟨f.valueTypes.size⟩
      (f.append c.block [o.inst lhs rhs c.location f.instCount f.valueTypes.size]
        [o.resultTy ty]) := by
  cases o with
  | arith op => exact Edit.bind_eq (Cursor.binary_eq hc hlhs op rhs .empty)
  | icmp pred => exact Edit.bind_eq (Cursor.push_eq hc _ _)
  | fcmp pred => exact Edit.bind_eq (Cursor.push_eq hc _ _)

namespace Formula

variable {f : Function} {w : Watched} {c : Cursor}

/-- Appends the instructions of a formula; gives the operand that holds the outcome. -/
def compile (c : Cursor) (w : Watched) : Formula → Edit Operand
  | .lhs => pure w.lhs
  | .rhs => pure w.rhs
  | .result => pure w.result
  | .const k => pure k
  | .node o x y => do
    let lhs ← x.compile c w
    let rhs ← y.compile c w
    return .value (← o.push c lhs rhs)

/-- Behind its code the outcome has the type of the formula. -/
theorem operandType?_operand (hw : w.Typed f) (φ : Formula) (b : BlockId) (code : List Inst) :
    (f.append b code (φ.types w.ty)).operandType? (φ.operand w f.valueTypes.size) =
      some (φ.ty w.ty) := by
  have hw' := hw.append b code (φ.types w.ty)
  cases φ with
  | lhs => exact hw'.lhs
  | rhs => exact hw'.rhs
  | result => exact hw'.result
  | const k => rfl
  | node o x y =>
    show (f.valueTypes ++ (x.types w.ty ++ y.types w.ty ++ [_]).toArray)[
      f.valueTypes.size + x.size + y.size]? = _
    -- The type of the node itself is the last one drawn.
    rw [Array.getElem?_append_right (by omega), List.getElem?_toArray,
      List.getElem?_append_right (by simp; omega)]
    simp only [List.length_append, length_types]
    rw [show f.valueTypes.size + x.size + y.size - f.valueTypes.size - (x.size + y.size) = 0 by
      omega]
    rfl

/-- **Compilation.** Compiling a formula appends its code. -/
theorem compile_eq (hc : c.block.index < f.blocks.size) (hw : w.Typed f) (φ : Formula) :
    φ.compile c w f = .ok (φ.operand w f.valueTypes.size)
      (f.append c.block (φ.code w c.location f.instCount f.valueTypes.size) (φ.types w.ty)) := by
  induction φ generalizing f with
  | lhs | rhs | result | const k => rw [code, types, Function.append_nil]; rfl
  | node o x y ihx ihy =>
    have hx := ihx hc hw
    -- the right side is compiled behind the code of the left one
    have hy := ihy (by rwa [Function.size_append]) (hw.append c.block
      (x.code w c.location f.instCount f.valueTypes.size) (x.types w.ty))
    simp only [Function.append_append, Function.valueTypes_append, Function.instCount_append,
      List.size_toArray, Array.size_append, length_types, length_code] at hy
    have hlhs := Function.operandType?_append (operandType?_operand hw x c.block
      (x.code w c.location f.instCount f.valueTypes.size)) c.block
      (y.code w c.location (InstId.advance f.instCount x.size) (f.valueTypes.size + x.size))
      (y.types w.ty)
    rw [Function.append_append] at hlhs
    have hpush := o.push_eq (c := c) (by rwa [Function.size_append]) hlhs
      (y.operand w (f.valueTypes.size + x.size))
    simp only [Function.append_append, Function.valueTypes_append, Function.instCount_append,
      List.size_toArray, Array.size_append, List.length_append, length_types, length_code,
      ← Nat.add_assoc] at hpush
    rw [compile, Edit.bind_eq hx, Edit.bind_eq hy, Edit.bind_eq hpush]
    rfl

end Formula

/-! ### Typing -/

/-- The values from `value` on have the given types. -/
def Function.Places (f : Function) (value : Nat) (types : List Ty) : Prop :=
  ∀ n ty, types[n]? = some ty → f.valueType? ⟨value + n⟩ = some ty

/-- Types are placed piece by piece. -/
theorem Function.Places.append {f : Function} {value : Nat} {types types' : List Ty} :
    f.Places value (types ++ types') ↔
      f.Places value types ∧ f.Places (value + types.length) types' := by
  constructor
  · refine fun h => ⟨fun n ty hn => h n ty ?_, fun n ty hn => ?_⟩
    · rw [List.getElem?_append_left (List.getElem?_eq_some_iff.1 hn).1, hn]
    · rw [Nat.add_assoc]
      refine h _ ty ?_
      rw [List.getElem?_append_right (Nat.le_add_right _ _), Nat.add_sub_cancel_left, hn]
  · rintro ⟨hl, hr⟩ n ty hn
    rcases Nat.lt_or_ge n types.length with hlt | hle
    · rw [List.getElem?_append_left hlt] at hn
      exact hl n ty hn
    · rw [List.getElem?_append_right hle] at hn
      have := hr _ ty hn
      rwa [Nat.add_assoc, Nat.add_sub_cancel' hle] at this

namespace Formula

variable {f : Function} {w : Watched} {location : Option Location}

/-- The outcome has the type of the formula. -/
theorem operandType?_of_places (hw : w.Typed f) {φ : Formula} {value : Nat}
    (h : f.Places value (φ.types w.ty)) :
    f.operandType? (φ.operand w value) = some (φ.ty w.ty) := by
  cases φ with
  | lhs => exact hw.lhs
  | rhs => exact hw.rhs
  | result => exact hw.result
  | const c => rfl
  | node o x y =>
    have hlast := (Function.Places.append.1 h).2 0 _ rfl
    simpa [Function.operandType?, operand, Nat.add_assoc, ty] using hlast

/-- Code of a fitting formula is well-typed. -/
theorem instFits_of_mem_code (hw : w.Typed f) {φ : Formula} (hφ : φ.Fits w.ty) {inst value : Nat}
    (h : f.Places value (φ.types w.ty)) {i : Inst} (hi : i ∈ φ.code w location inst value) :
    f.InstFits i := by
  induction φ generalizing inst value with
  | node o x y ihx ihy =>
    obtain ⟨hfx, hfy, hsame, hop⟩ := hφ
    obtain ⟨hxy, hlast⟩ := Function.Places.append.1 h
    obtain ⟨hx, hy⟩ := Function.Places.append.1 hxy
    rw [length_types] at hy
    simp only [code, List.mem_append, List.mem_singleton] at hi
    -- The node reads the values of its sides, whose types were placed before its own.
    rcases hi with (hi | hi) | rfl
    · exact ihx hfx hx hi
    · exact ihy hfy hy hi
    · have hlhs := operandType?_of_places hw hx
      have hrhs := operandType?_of_places hw hy
      have hresult := hlast 0 _ rfl
      rw [← hsame] at hrhs
      simp only [List.length_append, length_types, Nat.add_zero, ← Nat.add_assoc] at hresult
      cases o with
      | arith op => exact ⟨_, hlhs, hrhs, hresult, by simpa [Operation.fits] using hop⟩
      | icmp pred => exact ⟨_, hlhs, hrhs, hresult, hop⟩
      | fcmp pred => exact ⟨_, hlhs, hrhs, hresult, hop⟩
  | _ => simp [code] at hi

end Formula

/-! ### The conditions -/

namespace CheckPredicate

open Formula (arith icmp fcmp)

/-- The formula of a condition on values of type `ty`. -/
def formula (t : Threshold) (ty : Ty) : CheckPredicate → Formula
  | .addOverflow =>
    arith .or
      (arith .or
        (arith .and (icmp .sgt .rhs (.const (.zero ty)))
          (icmp .sgt .lhs (arith .sub (.const (.signedMax ty)) .rhs)))
        (arith .and (icmp .slt .rhs (.const (.zero ty)))
          (icmp .slt .lhs (arith .sub (.const (.signedMin ty)) .rhs))))
      (icmp .ult .result .lhs)
  | .subOverflow =>
    arith .or
      (arith .or
        (arith .and (icmp .slt .rhs (.const (.zero ty)))
          (icmp .sgt .lhs (arith .add (.const (.signedMax ty)) .rhs)))
        (arith .and (icmp .sgt .rhs (.const (.zero ty)))
          (icmp .slt .lhs (arith .add (.const (.signedMin ty)) .rhs))))
      (icmp .ult .lhs .rhs)
  | .mulOverflow =>
    arith .or
      (arith .and (icmp .ne .lhs (.const (.zero ty)))
        (icmp .ne (arith .sdiv .result .lhs) .rhs))
      (arith .and (icmp .ne .rhs (.const (.zero ty)))
        (icmp .ugt .lhs (arith .udiv (.const (.unsignedMax ty)) .rhs)))
  | .zeroDivisor => icmp .eq .rhs (.const (.zero ty))
  | .signedBound =>
    arith .or (icmp .slt .result (.const (.int ty (-(t.intBound ty).signed))))
      (icmp .sgt .result (.const (t.intBound ty)))
  | .unsignedBound => icmp .ugt .result (.const (t.intBound ty))
  | .infinite =>
    arith .or (fcmp .oeq .result (.const (.infinity ty false)))
      (fcmp .oeq .result (.const (.infinity ty true)))
  | .floatZeroDivisor => fcmp .oeq .rhs (.const (.zero ty))
  | .floatBound =>
    arith .or
      (fcmp .olt .result (.const (.float ty (BinaryFormat.double.neg (t.floatBound ty).double))))
      (fcmp .ogt .result (.const (t.floatBound ty)))

variable (t : Threshold)

/-- The builder of a condition compiles its formula. -/
theorem build_eq_compile (p : CheckPredicate) (c : Cursor) (w : Watched) :
    Operand.value <$> p.build t c w = (p.formula t w.ty).compile c w := by
  cases p <;>
    simp [build, buildAdd, buildSub, buildMul, buildSignedBound, buildInfinite, buildFloatBound,
      formula, Formula.compile, Operation.push]

/-- The value that holds the outcome of a condition, if the first result is number `value`. -/
def outcome (p : CheckPredicate) (ty : Ty) (value : Nat) : ValueId :=
  ⟨value + (p.formula t ty).size - 1⟩

/-- The check branches on the value its formula leaves. -/
theorem operand_formula (p : CheckPredicate) (w : Watched) (value : Nat) :
    (p.formula t w.ty).operand w value = .value (p.outcome t w.ty value) := by
  cases p <;> rfl

/-- The outcome of a condition is the result of its last instruction. -/
theorem size_formula_pos (p : CheckPredicate) (ty : Ty) : 0 < (p.formula t ty).size := by
  cases p <;> exact Nat.succ_pos _

/-- That value is one of those the formula draws. -/
theorem outcome_range (p : CheckPredicate) (ty : Ty) (value : Nat) :
    value ≤ (p.outcome t ty value).index ∧
      (p.outcome t ty value).index < value + (p.formula t ty).size := by
  have hpos := p.size_formula_pos t ty
  simp only [outcome]
  omega

/-- The results of a condition have the type of the watched instruction or are truth values. -/
theorem mem_types_formula {p : CheckPredicate} {ty ty' : Ty}
    (h : ty' ∈ (p.formula t ty).types ty) : ty' = ty ∨ ty' = .i1 := by
  revert h
  cases p <;>
    simp only [formula, Formula.types, Formula.ty, Operation.resultTy, Constant.zero,
      Constant.signedMax, Constant.signedMin, Constant.unsignedMax, List.mem_append,
      List.mem_singleton, List.not_mem_nil, List.nil_append] <;>
    tauto

/-- **Building a condition.** To append a condition is to append the code of its formula. -/
theorem build_eq {f : Function} {w : Watched} {c : Cursor} (hc : c.block.index < f.blocks.size)
    (hw : w.Typed f) (p : CheckPredicate) :
    p.build t c w f = .ok (p.outcome t w.ty f.valueTypes.size)
      (f.append c.block
        ((p.formula t w.ty).code w c.location f.instCount f.valueTypes.size)
        ((p.formula t w.ty).types w.ty)) := by
  have hcompile := Formula.compile_eq hc hw (p.formula t w.ty)
  rw [← build_eq_compile, operand_formula] at hcompile
  obtain ⟨v, hbuild, hv⟩ := Edit.map_eq_ok hcompile
  cases hv
  exact hbuild

/-- The formula of a condition fits the types of its family, and its outcome is a truth value. -/
theorem formula_fits {p : CheckPredicate} {ty : Ty} (h : p.kind.isFloat = ty.isFloat) :
    (p.formula t ty).Fits ty ∧ (p.formula t ty).ty ty = .i1 := by
  refine ⟨?_, by cases p <;> rfl⟩
  have hsides : (p.kind.isFloat = true → ty.isFloat = true) ∧
      (p.kind.isFloat = false → ty.isInt = true ∧ ty.isFloat = false) := by
    rw [h]
    exact ⟨id, fun hint => ⟨by simpa [Ty.isFloat] using hint, hint⟩⟩
  cases p <;>
    simp_all [formula, Formula.Fits, Formula.ty, Operation.fits, Operation.resultTy, kind,
      CheckKind.isFloat, BinOp.isFloat, Ty.i1, Ty.isFloat, Ty.isInt, Constant.zero,
      Constant.signedMax, Constant.signedMin, Constant.unsignedMax, Constant.int, Constant.float,
      Constant.infinity, Threshold.intBound, Threshold.floatBound]

end CheckPredicate

/-- The threshold 100. -/
def Threshold.hundred : Threshold := ⟨0x4059000000000000, by decide⟩

end ArithWatch
