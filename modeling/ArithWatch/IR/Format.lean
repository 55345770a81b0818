import ArithWatch.IR.Function
import ArithWatch.Json.Decode

namespace ArithWatch

/-!
# The JSON form of functions

How the types of the intermediate representation are written as JSON and read back.  Fields stand in
the order of their declaration; an absent location, empty metadata and empty flags are left out,
while an absent return type, terminator or returned value is `null`.

For each type `T` there are `T.toJson` and `T.ofJson?`.
-/

open Json (Record)

/-! ### Identifiers and types -/

namespace ValueId

def toJson (v : ValueId) : Json := .nat v.index

def ofJson? (j : Json) : Option ValueId := (Json.nat32? j).map .mk

end ValueId

namespace BlockId

def toJson (b : BlockId) : Json := .nat b.index

def ofJson? (j : Json) : Option BlockId := (Json.nat32? j).map .mk

end BlockId

namespace InstId

def toJson (i : InstId) : Json := .nat i.index

def ofJson? (j : Json) : Option InstId := (Json.nat32? j).map .mk

end InstId

namespace Ty

def toJson : Ty → Json
  | .int width => .object [("int", .nat width)]
  | .f32 => .text "f32"
  | .f64 => .text "f64"

def ofJson? (j : Json) : Option Ty :=
  match Json.variant? j with
  | some ("int", some width) => (Json.nat32? width).map .int
  | some ("f32", _) => (Json.unitVariant? j).map fun _ => .f32
  | some ("f64", _) => (Json.unitVariant? j).map fun _ => .f64
  | _ => none

end Ty

namespace Constant

def toJson (c : Constant) : Json :=
  .object [("ty", c.ty.toJson), ("bits", .nat c.bits.toNat)]

def fields : List Json.Field := [{ name := "ty" }, { name := "bits" }]

def ofJson? (j : Json) : Option Constant := do
  let r ← Json.record? fields j
  return { ty := ← r.get? "ty" Ty.ofJson?, bits := ← r.get? "bits" Json.word? }

end Constant

namespace Operand

def toJson : Operand → Json
  | .value v => .object [("value", v.toJson)]
  | .const c => .object [("const", c.toJson)]

def ofJson? (j : Json) : Option Operand :=
  match Json.variant? j with
  | some ("value", some v) => (ValueId.ofJson? v).map .value
  | some ("const", some c) => (Constant.ofJson? c).map .const
  | _ => none

end Operand

/-! ### Operators -/

namespace BinOp

/-- The name of the operator in JSON. -/
def name : BinOp → String
  | .add => "add"
  | .sub => "sub"
  | .mul => "mul"
  | .sdiv => "s_div"
  | .udiv => "u_div"
  | .srem => "s_rem"
  | .urem => "u_rem"
  | .and => "and"
  | .or => "or"
  | .xor => "xor"
  | .shl => "shl"
  | .lshr => "l_shr"
  | .ashr => "a_shr"
  | .fadd => "f_add"
  | .fsub => "f_sub"
  | .fmul => "f_mul"
  | .fdiv => "f_div"
  | .frem => "f_rem"

def toJson (op : BinOp) : Json := .text op.name

def ofJson? (j : Json) : Option BinOp := Json.oneOf? name all j

end BinOp

namespace IntPredicate

def toJson (pred : IntPredicate) : Json := .text pred.mnemonic

def ofJson? (j : Json) : Option IntPredicate := Json.oneOf? mnemonic all j

end IntPredicate

namespace FloatPredicate

def toJson (pred : FloatPredicate) : Json := .text pred.mnemonic

def ofJson? (j : Json) : Option FloatPredicate := Json.oneOf? mnemonic all j

end FloatPredicate

namespace WrapFlags

def toJson (f : WrapFlags) : Json := .text f.text

def ofJson? (j : Json) : Option WrapFlags := (Json.text? j).bind parse?

end WrapFlags

/-! ### Instructions -/

namespace Location

def toJson (l : Location) : Json :=
  .object [("file", .text l.file), ("line", .nat l.line), ("column", .nat l.column)]

def fields : List Json.Field := [{ name := "file" }, { name := "line" }, { name := "column" }]

def ofJson? (j : Json) : Option Location := do
  let r ← Json.record? fields j
  return {
    file := ← r.get? "file" Json.text?
    line := ← r.get? "line" Json.nat32?
    column := ← r.get? "column" Json.nat32? }

/-- The field of an optional location, which is left out where there is none. -/
def field : Json.Field := { name := "debug_loc", presence := .anywhere }

/-- The member of an optional location. -/
def member : Option Location → List (String × Json)
  | none => []
  | some l => [("debug_loc", l.toJson)]

/-- The optional location of a record. -/
def ofRecord? (r : Record) : Option (Option Location) :=
  r.getD? "debug_loc" (Json.nullable? ofJson?) none

end Location

namespace InstKind

/-- The two operands of an operation or comparison, as the end of its members. -/
def sides (lhs rhs : Operand) : List (String × Json) :=
  [("lhs", lhs.toJson), ("rhs", rhs.toJson)]

/-- An input of a phi. -/
def incomingJson (input : BlockId × Operand) : Json :=
  .arr [input.1.toJson, input.2.toJson]

def toJson : InstKind → Json
  | .binary op lhs rhs flags =>
    .object [("binary", .object (("op", op.toJson) :: sides lhs rhs
      ++ if flags.isEmpty then [] else [("flags", flags.toJson)]))]
  | .icmp pred lhs rhs => .object [("i_cmp", .object (("pred", pred.toJson) :: sides lhs rhs))]
  | .fcmp pred lhs rhs => .object [("f_cmp", .object (("pred", pred.toJson) :: sides lhs rhs))]
  | .phi incoming =>
    .object [("phi", .object [("incoming", .list incomingJson incoming)])]

def binaryFields : List Json.Field :=
  [{ name := "op" }, { name := "lhs" }, { name := "rhs" },
    { name := "flags", presence := .anywhere }]

def compareFields : List Json.Field := [{ name := "pred" }, { name := "lhs" }, { name := "rhs" }]

def phiFields : List Json.Field := [{ name := "incoming" }]

/-- The inputs of a phi. -/
def incomingOfJson? (j : Json) : Option (List (BlockId × Operand)) :=
  Json.list? (Json.pair? BlockId.ofJson? Operand.ofJson?) j

def ofJson? (j : Json) : Option InstKind :=
  match Json.variant? j with
  | some ("binary", some content) => do
    let r ← Json.record? binaryFields content
    return .binary (← r.get? "op" BinOp.ofJson?) (← r.get? "lhs" Operand.ofJson?)
      (← r.get? "rhs" Operand.ofJson?) (← r.getD? "flags" WrapFlags.ofJson? .empty)
  | some ("i_cmp", some content) => do
    let r ← Json.record? compareFields content
    return .icmp (← r.get? "pred" IntPredicate.ofJson?) (← r.get? "lhs" Operand.ofJson?)
      (← r.get? "rhs" Operand.ofJson?)
  | some ("f_cmp", some content) => do
    let r ← Json.record? compareFields content
    return .fcmp (← r.get? "pred" FloatPredicate.ofJson?) (← r.get? "lhs" Operand.ofJson?)
      (← r.get? "rhs" Operand.ofJson?)
  | some ("phi", some content) => do
    let r ← Json.record? phiFields content
    return .phi (← r.get? "incoming" incomingOfJson?)
  | _ => none

end InstKind

namespace Inst

def toJson (i : Inst) : Json :=
  .object ([("id", i.id.toJson), ("result", i.result.toJson), ("kind", i.kind.toJson)]
    ++ Location.member i.location)

def fields : List Json.Field :=
  [{ name := "id" }, { name := "result" }, { name := "kind" }, Location.field]

def ofJson? (j : Json) : Option Inst := do
  let r ← Json.record? fields j
  return {
    id := ← r.get? "id" InstId.ofJson?
    result := ← r.get? "result" ValueId.ofJson?
    kind := ← r.get? "kind" InstKind.ofJson?
    location := ← Location.ofRecord? r }

end Inst

/-! ### Terminators and blocks -/

namespace Exit

def toJson : Exit → Json
  | .br target => .object [("br", .object [("target", target.toJson)])]
  | .condBr cond thenTarget elseTarget =>
    .object [("cond_br", .object [("cond", cond.toJson), ("then_target", thenTarget.toJson),
      ("else_target", elseTarget.toJson)])]
  | .ret value => .object [("ret", .object [("value", .ofOption Operand.toJson value)])]
  | .unreachable => .text "unreachable"

def brFields : List Json.Field := [{ name := "target" }]

def condBrFields : List Json.Field :=
  [{ name := "cond" }, { name := "then_target" }, { name := "else_target" }]

def retFields : List Json.Field := [{ name := "value", presence := .named }]

def ofJson? (j : Json) : Option Exit :=
  match Json.variant? j with
  | some ("br", some content) => do
    let r ← Json.record? brFields content
    return .br (← r.get? "target" BlockId.ofJson?)
  | some ("cond_br", some content) => do
    let r ← Json.record? condBrFields content
    return .condBr (← r.get? "cond" Operand.ofJson?) (← r.get? "then_target" BlockId.ofJson?)
      (← r.get? "else_target" BlockId.ofJson?)
  | some ("ret", some content) => do
    let r ← Json.record? retFields content
    return .ret (← r.getD? "value" (Json.nullable? Operand.ofJson?) none)
  | some ("unreachable", _) => (Json.unitVariant? j).map fun _ => .unreachable
  | _ => none

end Exit

namespace Terminator

/-- Metadata as an object in the order of its keys. -/
def metadataJson (m : Metadata) : Json :=
  .object (m.entries.map fun (key, value) => (key, .text value))

def metadataOfJson? (j : Json) : Option Metadata :=
  (Json.entries? JsonLiteral.text? Json.text? j).map .ofList

def toJson (t : Terminator) : Json :=
  .object ([("op", t.exit.toJson)] ++ Location.member t.location
    ++ if t.metadata.isEmpty then [] else [("metadata", metadataJson t.metadata)])

def fields : List Json.Field :=
  [{ name := "op" }, Location.field, { name := "metadata", presence := .anywhere }]

def ofJson? (j : Json) : Option Terminator := do
  let r ← Json.record? fields j
  return {
    exit := ← r.get? "op" Exit.ofJson?
    location := ← Location.ofRecord? r
    metadata := ← r.getD? "metadata" metadataOfJson? ∅ }

end Terminator

namespace Block

def toJson (b : Block) : Json :=
  .object [("id", b.id.toJson), ("name", .text b.name), ("insts", .list Inst.toJson b.insts),
    ("term", .ofOption Terminator.toJson b.term)]

def fields : List Json.Field :=
  [{ name := "id" }, { name := "name" }, { name := "insts" },
    { name := "term", presence := .named }]

def ofJson? (j : Json) : Option Block := do
  let r ← Json.record? fields j
  return {
    id := ← r.get? "id" BlockId.ofJson?
    name := ← r.get? "name" Json.text?
    insts := ← r.get? "insts" (Json.list? Inst.ofJson?)
    term := ← r.getD? "term" (Json.nullable? Terminator.ofJson?) none }

end Block

/-! ### Functions and modules -/

namespace Function

def toJson (f : Function) : Json :=
  .object [("name", .text f.name), ("params", .list ValueId.toJson f.params),
    ("ret_ty", .ofOption Ty.toJson f.returnType),
    ("value_types", .list Ty.toJson f.valueTypes.toList),
    ("blocks", .list Block.toJson f.blocks.toList),
    ("layout", .list BlockId.toJson f.layout), ("entry", f.entry.toJson),
    ("inst_count", .nat f.instCount)]

def fields : List Json.Field :=
  [{ name := "name" }, { name := "params" }, { name := "ret_ty", presence := .anywhere },
    { name := "value_types" }, { name := "blocks" }, { name := "layout" }, { name := "entry" },
    { name := "inst_count" }]

def ofJson? (j : Json) : Option Function := do
  let r ← Json.record? fields j
  return {
    name := ← r.get? "name" Json.text?
    params := ← r.get? "params" (Json.list? ValueId.ofJson?)
    returnType := ← r.getD? "ret_ty" (Json.nullable? Ty.ofJson?) none
    valueTypes := (← r.get? "value_types" (Json.list? Ty.ofJson?)).toArray
    blocks := (← r.get? "blocks" (Json.list? Block.ofJson?)).toArray
    layout := ← r.get? "layout" (Json.list? BlockId.ofJson?)
    entry := ← r.get? "entry" BlockId.ofJson?
    instCount := ← r.get? "inst_count" Json.nat32? }

end Function

namespace Module

def toJson (m : Module) : Json :=
  .object [("name", .text m.name), ("functions", .list Function.toJson m.functions)]

def fields : List Json.Field := [{ name := "name" }, { name := "functions" }]

def ofJson? (j : Json) : Option Module := do
  let r ← Json.record? fields j
  return {
    name := ← r.get? "name" Json.text?
    functions := ← r.get? "functions" (Json.list? Function.ofJson?) }

end Module

end ArithWatch
