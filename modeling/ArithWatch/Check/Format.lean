import ArithWatch.Check.Report
import ArithWatch.IR.Format
import ArithWatch.Json.Double

namespace ArithWatch

/-!
# The JSON form of reports and options

How thresholds, options and reports are written as JSON and read back.  Fields stand in the order of
their declaration and an absent location is left out; the records of a function are an object whose
names are the numbers of the blocks.

For each type `T` there are `T.toJson` and `T.ofJson?`.
-/

namespace Threshold

def toJson (t : Threshold) : Json :=
  match DecimalLayout.json.numeral? .double t.pattern with
  | some n => .num n
  | none => .null

def ofJson? (j : Json) : Option Threshold := do (ofDouble (← Json.double? j)).toOption

end Threshold

namespace InstrumentOptions

def toJson (o : InstrumentOptions) : Json :=
  .object [("int_checks", .bool o.intChecks), ("fp_checks", .bool o.fpChecks),
    ("emit_metadata", .bool o.emitMetadata), ("verify", .bool o.verify)]

def fields : List Json.Field :=
  [{ name := "int_checks" }, { name := "fp_checks" }, { name := "emit_metadata" },
    { name := "verify" }]

def ofJson? (j : Json) : Option InstrumentOptions := do
  let r ← Json.record? fields j
  return {
    intChecks := ← r.get? "int_checks" Json.bool?
    fpChecks := ← r.get? "fp_checks" Json.bool?
    emitMetadata := ← r.get? "emit_metadata" Json.bool?
    verify := ← r.get? "verify" Json.bool? }

end InstrumentOptions

/-! ### Names -/

namespace CheckKind

def toJson (k : CheckKind) : Json := .text k.tag

def ofJson? (j : Json) : Option CheckKind := Json.oneOf? tag all j

end CheckKind

namespace SkipReason

/-- The name of the reason in JSON. -/
def name : SkipReason → String
  | .familyDisabled => "family_disabled"
  | .unsupportedType => "unsupported_type"
  | .noWrapFlags => "no_wrap_flags"
  | .unsupportedOp => "unsupported_op"
  | .operandType => "operand_type"
  | .noSplitPoint => "no_split_point"

def toJson (r : SkipReason) : Json := .text r.name

def ofJson? (j : Json) : Option SkipReason := Json.oneOf? name all j

end SkipReason

namespace Family

/-- The name of the family in JSON. -/
def name : Family → String
  | .int => "int"
  | .float => "float"

def toJson (f : Family) : Json := .text f.name

end Family

namespace SiteId

def toJson (s : SiteId) : Json := .nat s.index

def ofJson? (j : Json) : Option SiteId := (Json.nat32? j).map .mk

end SiteId

/-! ### Records and sites -/

namespace CheckRecord

def toJson (r : CheckRecord) : Json :=
  .object ([("kind", r.kind.toJson), ("site", r.site.toJson), ("origin", r.origin.toJson)]
    ++ Location.member r.location)

def fields : List Json.Field :=
  [{ name := "kind" }, { name := "site" }, { name := "origin" }, Location.field]

def ofJson? (j : Json) : Option CheckRecord := do
  let r ← Json.record? fields j
  return {
    kind := ← r.get? "kind" CheckKind.ofJson?
    site := ← r.get? "site" SiteId.ofJson?
    origin := ← r.get? "origin" InstId.ofJson?
    location := ← Location.ofRecord? r }

end CheckRecord

namespace CheckMap

def toJson (m : CheckMap) : Json :=
  .object (m.entries.map fun (b, r) => (toString b.index, r.toJson))

/-- The block that a name of the object stands for. -/
def blockOfName? (name : JsonLiteral) : Option BlockId := (Json.key32? name).map .mk

def ofJson? (j : Json) : Option CheckMap :=
  (Json.entries? blockOfName? CheckRecord.ofJson? j).map .ofList

end CheckMap

namespace Check

def toJson (c : Check) : Json :=
  .object [("kind", c.kind.toJson), ("predicate", c.predicate.toJson), ("block", c.block.toJson)]

def fields : List Json.Field := [{ name := "kind" }, { name := "predicate" }, { name := "block" }]

def ofJson? (j : Json) : Option Check := do
  let r ← Json.record? fields j
  return {
    kind := ← r.get? "kind" CheckKind.ofJson?
    predicate := ← r.get? "predicate" ValueId.ofJson?
    block := ← r.get? "block" BlockId.ofJson? }

end Check

namespace CheckSite

def toJson (s : CheckSite) : Json :=
  .object ([("id", s.id.toJson), ("inst", s.inst.toJson), ("op", s.op.toJson),
      ("origin_block", s.originBlock.toJson), ("cont_block", s.contBlock.toJson)]
    ++ Location.member s.location ++ [("checks", .list Check.toJson s.checks)])

def fields : List Json.Field :=
  [{ name := "id" }, { name := "inst" }, { name := "op" }, { name := "origin_block" },
    { name := "cont_block" }, Location.field, { name := "checks" }]

def ofJson? (j : Json) : Option CheckSite := do
  let r ← Json.record? fields j
  return {
    id := ← r.get? "id" SiteId.ofJson?
    inst := ← r.get? "inst" InstId.ofJson?
    op := ← r.get? "op" BinOp.ofJson?
    originBlock := ← r.get? "origin_block" BlockId.ofJson?
    contBlock := ← r.get? "cont_block" BlockId.ofJson?
    location := ← Location.ofRecord? r
    checks := ← r.get? "checks" (Json.list? Check.ofJson?) }

end CheckSite

/-! ### Reports -/

namespace SkippedInst

def toJson (s : SkippedInst) : Json :=
  .object ([("inst", s.inst.toJson), ("op", s.op.toJson), ("reason", s.reason.toJson)]
    ++ Location.member s.location)

def fields : List Json.Field :=
  [{ name := "inst" }, { name := "op" }, { name := "reason" }, Location.field]

def ofJson? (j : Json) : Option SkippedInst := do
  let r ← Json.record? fields j
  return {
    inst := ← r.get? "inst" InstId.ofJson?
    op := ← r.get? "op" BinOp.ofJson?
    reason := ← r.get? "reason" SkipReason.ofJson?
    location := ← Location.ofRecord? r }

end SkippedInst

namespace FunctionReport

def toJson (r : FunctionReport) : Json :=
  .object [("function", .text r.function), ("sites", .list CheckSite.toJson r.sites),
    ("checks", r.checks.toJson), ("skipped", .list SkippedInst.toJson r.skipped)]

def fields : List Json.Field :=
  [{ name := "function" }, { name := "sites" }, { name := "checks" }, { name := "skipped" }]

def ofJson? (j : Json) : Option FunctionReport := do
  let r ← Json.record? fields j
  return {
    function := ← r.get? "function" Json.text?
    sites := ← r.get? "sites" (Json.list? CheckSite.ofJson?)
    checks := ← r.get? "checks" CheckMap.ofJson?
    skipped := ← r.get? "skipped" (Json.list? SkippedInst.ofJson?) }

end FunctionReport

namespace TaggedBranch

def toJson (b : TaggedBranch) : Json :=
  .object ([("function", .text b.function), ("block", .text b.block), ("tag", b.tag.toJson),
      ("site", b.site.toJson)]
    ++ Location.member b.location)

def fields : List Json.Field :=
  [{ name := "function" }, { name := "block" }, { name := "tag" }, { name := "site" },
    Location.field]

def ofJson? (j : Json) : Option TaggedBranch := do
  let r ← Json.record? fields j
  return {
    function := ← r.get? "function" Json.text?
    block := ← r.get? "block" Json.text?
    tag := ← r.get? "tag" CheckKind.ofJson?
    site := ← r.get? "site" SiteId.ofJson?
    location := ← Location.ofRecord? r }

end TaggedBranch

namespace ModuleReport

def toJson (r : ModuleReport) : Json :=
  .object [("module", .text r.module), ("functions", .list FunctionReport.toJson r.functions),
    ("branches", .list TaggedBranch.toJson r.branches)]

def fields : List Json.Field :=
  [{ name := "module" }, { name := "functions" }, { name := "branches" }]

def ofJson? (j : Json) : Option ModuleReport := do
  let r ← Json.record? fields j
  return {
    module := ← r.get? "module" Json.text?
    functions := ← r.get? "functions" (Json.list? FunctionReport.ofJson?)
    branches := ← r.get? "branches" (Json.list? TaggedBranch.ofJson?) }

end ModuleReport

end ArithWatch
