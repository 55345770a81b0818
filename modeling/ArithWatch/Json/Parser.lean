import ArithWatch.Json.Token

namespace ArithWatch

/-!
# Reading JSON

The grammar of JSON over its tokens, as a machine with a stack of open arrays and objects.

* `JsonFrame` is an array or object that waits for one of its values.
* `JsonReader` is the state between two tokens, `JsonReader.step` reads one token.
* `Json.parse?` reads a text that holds one value.
-/

/-- An open array or object whose next value is being read.  Lists hold the last element first. -/
inductive JsonFrame
  | item (items : List Json)
  | member (members : List (JsonLiteral × Json)) (name : JsonLiteral)
  deriving Repr

/-- What the reader expects next. -/
inductive JsonReader
  /-- A value. -/
  | value (stack : List JsonFrame)
  /-- The first item of an array, or its end. -/
  | firstItem (stack : List JsonFrame)
  /-- A comma or the end of an array. -/
  | afterItem (items : List Json) (stack : List JsonFrame)
  /-- The first name of an object, or its end. -/
  | firstName (stack : List JsonFrame)
  /-- A name. -/
  | nextName (members : List (JsonLiteral × Json)) (stack : List JsonFrame)
  /-- The colon after a name. -/
  | colon (members : List (JsonLiteral × Json)) (name : JsonLiteral) (stack : List JsonFrame)
  /-- A comma or the end of an object. -/
  | afterMember (members : List (JsonLiteral × Json)) (stack : List JsonFrame)
  /-- Nothing: the value is complete. -/
  | complete (v : Json)
  deriving Repr

namespace JsonReader

/-- The state after a value has been read inside the given open arrays and objects. -/
def close (v : Json) : List JsonFrame → JsonReader
  | [] => .complete v
  | .item items :: stack => .afterItem (v :: items) stack
  | .member members name :: stack => .afterMember ((name, v) :: members) stack

/-- A token where a value may start. -/
def start? (stack : List JsonFrame) : JsonToken → Option JsonReader
  | .null => some (close .null stack)
  | .bool b => some (close (.bool b) stack)
  | .num n => some (close (.num n) stack)
  | .str literal => some (close (.str literal) stack)
  | .openArray => some (.firstItem stack)
  | .openObject => some (.firstName stack)
  | _ => none

/-- Reads one token. -/
def step : JsonReader → JsonToken → Option JsonReader
  | .value stack, token => start? stack token
  | .firstItem stack, .closeArray => some (close (.arr []) stack)
  | .firstItem stack, token => start? (.item [] :: stack) token
  | .afterItem items stack, .comma => some (.value (.item items :: stack))
  | .afterItem items stack, .closeArray => some (close (.arr items.reverse) stack)
  | .firstName stack, .closeObject => some (close (.obj []) stack)
  | .firstName stack, .str name => some (.colon [] name stack)
  | .nextName members stack, .str name => some (.colon members name stack)
  | .colon members name stack, .colon => some (.value (.member members name :: stack))
  | .afterMember members stack, .comma => some (.nextName members stack)
  | .afterMember members stack, .closeObject => some (close (.obj members.reverse) stack)
  | _, _ => none

/-- The value, if it is complete. -/
def result? : JsonReader → Option Json
  | .complete v => some v
  | _ => none

end JsonReader

/-- The value that a sequence of tokens spells. -/
def Json.ofTokens? (tokens : List JsonToken) : Option Json :=
  (tokens.foldlM JsonReader.step (.value [])).bind JsonReader.result?

/-- The value that a text spells. -/
def Json.parse? (text : List Char) : Option Json :=
  (JsonToken.scan? text).bind Json.ofTokens?

end ArithWatch
