import ArithWatch.Json.Literal
import ArithWatch.Number.Decimal

namespace ArithWatch

/-!
# JSON values

A JSON document as it is written: members keep their order and may share a name, numbers and string
literals keep their spelling.
-/

/-- A JSON value. -/
inductive Json
  | null
  | bool (b : Bool)
  | num (n : Numeral)
  | str (literal : JsonLiteral)
  | arr (items : List Json)
  | obj (members : List (JsonLiteral × Json))
  deriving Repr

namespace Json

/-- A string. -/
def text (s : String) : Json := .str (.ofText s)

/-- A natural number. -/
def nat (n : Nat) : Json := .num (Numeral.ofNat n)

/-- An integer. -/
def int (z : Int) : Json := .num (Numeral.ofInt z)

/-- An object with the given members. -/
def object (members : List (String × Json)) : Json :=
  .obj (members.map fun (name, value) => (.ofText name, value))

/-- The value, or `null` in place of a missing one. -/
def ofOption {α : Type} (encode : α → Json) : Option α → Json
  | none => .null
  | some a => encode a

/-- A list of encoded values. -/
def list {α : Type} (encode : α → Json) (items : List α) : Json := .arr (items.map encode)

end Json

end ArithWatch
