import ArithWatch.Json.Value

namespace ArithWatch.Json

/-!
# Decoding JSON values

How the values of a program are read from JSON.

* `natBelow?`, `intWithin?`, `bool?`, `text?`, `list?`, `pair?` and `nullable?` read single values.
* `record?` reads a record, which is an object with the record's field names or an array of its
  fields in their order.
* `variant?` reads a choice: a bare name, or an object whose only member carries the content.
* `entries?` reads a map with string keys.
-/

-- `2 ^ n` is the built-in power of natural numbers and integers, whatever else is in scope.
attribute [local instance (2000)] instPowNat

/-! ### Single values -/

/-- An integer is spelled without a point and an exponent, and zero without a sign. -/
def integer? : Json → Option Int
  | .num ⟨false, whole, [], none⟩ => some whole
  | .num ⟨true, whole + 1, [], none⟩ => some (.negSucc whole)
  | _ => none

/-- A natural number below `bound`. -/
def natBelow? (bound : Nat) (v : Json) : Option Nat :=
  match integer? v with
  | some (.ofNat n) => if n < bound then some n else none
  | _ => none

/-- An integer that fits a two's complement word of `width` bits. -/
def intWithin? (width : Nat) (v : Json) : Option Int :=
  match integer? v with
  | some z => if -(2 ^ (width - 1) : Int) ≤ z ∧ z < 2 ^ (width - 1) then some z else none
  | none => none

/-- A natural number that fits 32 bits. -/
def nat32? (v : Json) : Option Nat := natBelow? UInt32.size v

/-- A 64-bit word. -/
def word? (v : Json) : Option UInt64 := (natBelow? UInt64.size v).map UInt64.ofNat

def bool? : Json → Option Bool
  | .bool b => some b
  | _ => none

/-- A string that has a text. -/
def text? : Json → Option String
  | .str literal => literal.text?
  | _ => none

/-- An array whose items are read one after the other. -/
def list? {α : Type} (decode : Json → Option α) : Json → Option (List α)
  | .arr items => items.mapM decode
  | _ => none

/-- An array of exactly two items. -/
def pair? {α β : Type} (first : Json → Option α) (second : Json → Option β) :
    Json → Option (α × β)
  | .arr [a, b] => do return (← first a, ← second b)
  | _ => none

/-- A value, or `null` in its place. -/
def nullable? {α : Type} (decode : Json → Option α) : Json → Option (Option α)
  | .null => some none
  | v => (decode v).map some

/-! ### Choices -/

/-- The name of a choice and its content. -/
def variant? : Json → Option (String × Option Json)
  | .str literal => literal.text?.map (·, none)
  | .obj [(name, content)] => name.text?.map (·, some content)
  | _ => none

/-- The name of a choice without content, which may also be written with the content `null`. -/
def unitVariant? (v : Json) : Option String :=
  match variant? v with
  | some (name, none) | some (name, some .null) => some name
  | _ => none

/-- The member of `values` with the given name. -/
def oneOf? {α : Type} (name : α → String) (values : List α) (v : Json) : Option α :=
  (unitVariant? v).bind fun s => values.find? fun a => name a == s

/-! ### Records -/

/-- When may a field of a record be left out? -/
inductive Presence
  /-- Never. -/
  | always
  /-- When the fields are named. -/
  | named
  /-- When the fields are named, and at the end of an array. -/
  | anywhere
  deriving DecidableEq, Repr

/-- A field of a record. -/
structure Field where
  name : String
  presence : Presence := .always
  deriving DecidableEq, Repr

/-- The fields of a record that were given, by name. -/
abbrev Record := List (String × Json)

/-- Adds one named member; members of other names are ignored, a second one is refused. -/
def addMember? (fields : List Field) (record : Record) (member : JsonLiteral × Json) :
    Option Record :=
  match member.1.text? with
  | none => none
  | some name =>
    if fields.any (·.name == name) then
      if record.any (·.1 == name) then none else some (record ++ [(name, member.2)])
    else some record

/-- The fields of an object. -/
def namedFields? (fields : List Field) (members : List (JsonLiteral × Json)) : Option Record :=
  (members.foldlM (addMember? fields) []).filter fun record =>
    fields.all fun f => f.presence != .always || record.any (·.1 == f.name)

/-- The fields of an array, in their order. -/
def orderedFields? : List Field → List Json → Option Record
  | [], [] => some []
  | [], _ :: _ => none
  | f :: fields, [] => if f.presence = .anywhere then orderedFields? fields [] else none
  | f :: fields, v :: items => (orderedFields? fields items).map ((f.name, v) :: ·)

/-- The given fields of a record. -/
def record? (fields : List Field) : Json → Option Record
  | .obj members => namedFields? fields members
  | .arr items => orderedFields? fields items
  | _ => none

/-- The value of a field that is there. -/
def Record.get? {α : Type} (r : Record) (name : String) (decode : Json → Option α) : Option α :=
  (r.lookup name).bind decode

/-- The value of a field, or `default` in place of a missing one. -/
def Record.getD? {α : Type} (r : Record) (name : String) (decode : Json → Option α)
    (default : α) : Option α :=
  match r.lookup name with
  | none => some default
  | some v => decode v

/-! ### Maps -/

/-- The entries of a map, in the order in which they are written. -/
def entries? {κ α : Type} (key : JsonLiteral → Option κ) (decode : Json → Option α) :
    Json → Option (List (κ × α))
  | .obj members => members.mapM fun (name, v) => do return (← key name, ← decode v)
  | _ => none

/-- A natural number that fits 32 bits, in plain decimal digits without a leading zero. -/
def key32? (name : JsonLiteral) : Option Nat :=
  match name.text?.bind String.toNat? with
  | some n => if n < UInt32.size ∧ .ofText (toString n) = name then some n else none
  | none => none

end ArithWatch.Json
