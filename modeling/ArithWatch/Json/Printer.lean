import ArithWatch.Json.Value
import ArithWatch.Text.Hex

namespace ArithWatch

/-!
# Writing JSON

A value is written without any blanks, or with one item or member a line and two spaces for each
level of nesting.

* `JsonEscape.piece` is the spelling of an element of a string literal.
* `Json.render` writes a value in one of the two styles.
-/

namespace JsonEscape

/-- A 16-bit unit by its four digits. -/
def unit (u : Nat) : List Char :=
  ['\\', 'u', Text.hexChar (u / 0x1000 % 16), Text.hexChar (u / 0x100 % 16),
    Text.hexChar (u / 16 % 16), Text.hexChar (u % 16)]

/-- A piece: characters with a short escape and the controls below the space are escaped, no other
    character is. -/
def piece : JsonPiece → List Char
  | .unit u => unit u
  | .char c =>
    match JsonPiece.escapeLetter? c with
    | some letter => ['\\', letter]
    | none => if c < ' ' then unit c.toNat else [c]

/-- A string literal. -/
def literal (l : JsonLiteral) : List Char := '"' :: (l.pieces.flatMap piece ++ ['"'])

end JsonEscape

/-- The two ways of placing blanks. -/
inductive JsonStyle
  | compact
  | pretty
  deriving DecidableEq, Repr

namespace JsonStyle

/-- What separates two lines at a level of nesting. -/
def newline : JsonStyle → Nat → List Char
  | .compact, _ => []
  | .pretty, level => '\n' :: List.replicate (2 * level) ' '

/-- What stands between a name and its value. -/
def colon : JsonStyle → List Char
  | .compact => [':']
  | .pretty => [':', ' ']

end JsonStyle

namespace Json

mutual

/-- The text of a value at a level of nesting. -/
def renderAt (style : JsonStyle) (level : Nat) : Json → List Char
  | .null => "null".toList
  | .bool b => (if b then "true" else "false").toList
  | .num n => (n.render true).toList
  | .str l => JsonEscape.literal l
  | .arr [] => ['[', ']']
  | .arr (item :: items) =>
    '[' :: (style.newline (level + 1) ++ (renderAt style (level + 1) item
      ++ (renderItems style (level + 1) items ++ (style.newline level ++ [']']))))
  | .obj [] => ['\x7b', '\x7d']
  | .obj ((name, value) :: members) =>
    '\x7b' :: (style.newline (level + 1) ++ (JsonEscape.literal name ++ (style.colon
      ++ (renderAt style (level + 1) value ++ (renderMembers style (level + 1) members
        ++ (style.newline level ++ ['\x7d']))))))

/-- The items after the first one. -/
def renderItems (style : JsonStyle) (level : Nat) : List Json → List Char
  | [] => []
  | item :: items =>
    ',' :: (style.newline level ++ (renderAt style level item ++ renderItems style level items))

/-- The members after the first one. -/
def renderMembers (style : JsonStyle) (level : Nat) :
    List (JsonLiteral × Json) → List Char
  | [] => []
  | (name, value) :: members =>
    ',' :: (style.newline level ++ (JsonEscape.literal name ++ (style.colon
      ++ (renderAt style level value ++ renderMembers style level members))))

end

/-- The text of a value. -/
def render (style : JsonStyle) (v : Json) : String := String.ofList (renderAt style 0 v)

end Json

end ArithWatch
