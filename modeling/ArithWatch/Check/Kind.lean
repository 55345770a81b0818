import ArithWatch.IR.Edit
import ArithWatch.Text.Quoted

namespace ArithWatch

/-!
# Kinds of checks and tags

A check watches the result of one arithmetic instruction.  It ends in a conditional branch, and that
branch is known by its block.

* `CheckKind` is what a check looks for; its `tag` is the text that marks a branch.
* `CheckRecord` describes one inserted branch, `CheckMap` all of a function.
* `CheckMap.emitMetadata` writes the tags onto the branches and `Function.readTags` reads them.
-/

/-- What a check looks for. -/
inductive CheckKind
  | fpOverflow
  | fpExceptionalValue
  | fpDividedByZero
  | intOverflow
  | intDividedByZero
  | intExceptionalSignedValue
  | intExceptionalUnsignedValue
  deriving DecidableEq, Repr, Inhabited

namespace CheckKind

/-- Every kind, in the order in which kinds are listed. -/
def all : List CheckKind :=
  [.fpOverflow, .fpExceptionalValue, .fpDividedByZero, .intOverflow, .intDividedByZero,
    .intExceptionalSignedValue, .intExceptionalUnsignedValue]

/-- The tag of a branch of this kind. -/
def tag : CheckKind → String
  | .fpOverflow => "fp_overflow"
  | .fpExceptionalValue => "fp_exceptional_value"
  | .fpDividedByZero => "fp_divided_by_zero"
  | .intOverflow => "int_overflow"
  | .intDividedByZero => "int_divided_by_zero"
  | .intExceptionalSignedValue => "int_exceptional_signed_value"
  | .intExceptionalUnsignedValue => "int_exceptional_unsigned_value"

/-- The kind with the given tag. -/
def ofTag? (tag : String) : Option CheckKind := all.find? (·.tag == tag)

/-- The name that the decision block of a check gets if it is free. -/
def blockName : CheckKind → String
  | .fpOverflow | .intOverflow => "overflow_check"
  | .fpDividedByZero | .intDividedByZero => "divided_by_zero_check"
  | .fpExceptionalValue => "bound_check"
  | .intExceptionalSignedValue => "signed_bound_check"
  | .intExceptionalUnsignedValue => "unsigned_bound_check"

/-- Does the check belong to a float operation? -/
def isFloat : CheckKind → Bool
  | .fpOverflow | .fpExceptionalValue | .fpDividedByZero => true
  | _ => false

@[simp] theorem ofTag?_tag (k : CheckKind) : ofTag? k.tag = some k := by
  cases k <;> decide +kernel

end CheckKind

/-- A tag that belongs to no kind. -/
structure UnknownTag where
  tag : String
  deriving DecidableEq, Repr

/-- The words for an unknown tag. -/
def UnknownTag.message (e : UnknownTag) : String := "unknown check tag " ++ Text.quote e.tag

/-- The kind of a tag; an error for an unknown one. -/
def CheckKind.ofTag (tag : String) : Except UnknownTag CheckKind :=
  match ofTag? tag with
  | some k => .ok k
  | none => .error ⟨tag⟩

/-! ### Records of branches -/

/-- The number of a site among those of its function. -/
structure SiteId where
  index : Nat
  deriving DecidableEq, Repr, Inhabited

/-- The name of a site in listings. -/
def SiteId.text (s : SiteId) : String := "site" ++ toString s.index

/-- What an inserted branch checks. -/
structure CheckRecord where
  kind : CheckKind
  site : SiteId
  /-- The instruction that is watched. -/
  origin : InstId
  location : Option Location := none
  deriving DecidableEq, Repr

/-- The inserted branches of a function, by their blocks. -/
abbrev CheckMap := SortedMap BlockId CheckRecord

namespace CheckMap

/-- Records what a branch checks.  A branch that has a record already gets the new one, and faults,
    as every branch carries one tag. -/
def record (branch : BlockId) (r : CheckRecord) : EStateM Fault CheckMap Unit := fun m =>
  if m.contains branch then .error (.taggedTwice branch) (m.insert branch r)
  else .ok () (m.insert branch r)

/-- The kind of check of a branch. -/
def kind? (m : CheckMap) (branch : BlockId) : Option CheckKind := (m.find? branch).map (·.kind)

/-- The number of branches that check for a kind. -/
def count (m : CheckMap) (kind : CheckKind) : Nat := m.values.countP (·.kind == kind)

end CheckMap

/-! ### Tags as metadata -/

/-- The metadata key of a tag. -/
def checkKey : String := "symros.check"

/-- Writes the tag of every recorded branch onto it; gives the number of branches that are there. -/
def CheckMap.emitMetadata (m : CheckMap) : Edit Nat := do
  let written ← m.entries.mapM fun (branch, r) => Edit.attachMetadata branch checkKey r.kind.tag
  return written.count true

/-- The tags on the branches of a function, by block. -/
abbrev Tags := SortedMap BlockId CheckKind

/-- Why tags cannot be read. -/
inductive TagError
  | unknown (e : UnknownTag)
  | fault (f : Fault)
  deriving DecidableEq, Repr

namespace Function

/-- The tag on the branch of a block, under the id that the block carries. -/
def tagOf (f : Function) (b : BlockId) : Except Fault (BlockId × Option String) := do
  let block ← f.block b
  return (block.id, ← f.metadata block.id checkKey)

/-- The tags of a list of blocks, added to `tags`; the first unknown tag ends the reading. -/
def readTagsIn (f : Function) (tags : Tags) : List BlockId → Except TagError Tags
  | [] => .ok tags
  | b :: rest =>
    match f.tagOf b with
    | .error fault => .error (.fault fault)
    | .ok (_, none) => f.readTagsIn tags rest
    | .ok (id, some tag) =>
      match CheckKind.ofTag tag with
      | .error e => .error (.unknown e)
      | .ok kind => f.readTagsIn (tags.insert id kind) rest

/-- The tags on the branches of a function. -/
def readTags (f : Function) : Except TagError Tags := f.readTagsIn ∅ f.layout

end Function

end ArithWatch
