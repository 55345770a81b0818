import ArithWatch.Json.Value
import ArithWatch.Number.Reading
import ArithWatch.Text.Hex

namespace ArithWatch

/-!
# JSON tokens

The tokens of a JSON text, read one character at a time.

* `JsonToken` lists the kinds of tokens.
* `JsonLexer` is the state between two characters, `JsonLexer.step` reads one character.
* `JsonToken.scan?` reads a whole text.

Numbers and the three words are read as bare runs of letters, digits, signs and points; a run is
looked at as a whole when it has ended.
-/

/-- A token of a JSON text. -/
inductive JsonToken
  | openArray
  | closeArray
  | openObject
  | closeObject
  | comma
  | colon
  | null
  | bool (b : Bool)
  | num (n : Numeral)
  | str (literal : JsonLiteral)
  deriving DecidableEq, Repr

/-! ### Escapes -/

namespace JsonPiece

/-- The character that a one-letter escape stands for. -/
def ofEscape? : Char → Option Char
  | '"' => some '"'
  | '\\' => some '\\'
  | '/' => some '/'
  | 'b' => some '\x08'
  | 'f' => some '\x0c'
  | 'n' => some '\n'
  | 'r' => some '\r'
  | 't' => some '\t'
  | _ => none

end JsonPiece

/-! ### Bare runs -/

namespace JsonToken

/-- Can the character stand in a number or a word? -/
def isBare (c : Char) : Bool := c.isAlphanum || c == '-' || c == '+' || c == '.'

/-- The exponent of a number, to the end of the run. -/
def exponent? : List Char → Option (Option Int)
  | [] => some none
  | cs => (DecimalText.exponent? cs).map some

/-- A number without its sign.  A whole part of several digits does not start with zero. -/
def numeral? (negative : Bool) (cs : List Char) : Option Numeral :=
  match DecimalText.splitDigits cs with
  | ([], _) | (0 :: _ :: _, _) => none
  | (whole, '.' :: rest) =>
    match DecimalText.splitDigits rest with
    | ([], _) => none
    | (fraction, tail) =>
      (exponent? tail).map fun exponent => { negative, whole := numberOf whole, fraction, exponent }
  | (whole, tail) =>
    (exponent? tail).map fun exponent => { negative, whole := numberOf whole, exponent }

/-- The token that a bare run spells. -/
def ofBare? : List Char → Option JsonToken
  | ['n', 'u', 'l', 'l'] => some .null
  | ['t', 'r', 'u', 'e'] => some (.bool true)
  | ['f', 'a', 'l', 's', 'e'] => some (.bool false)
  | '-' :: cs => (numeral? true cs).map .num
  | cs => (numeral? false cs).map .num

/-- The token of a single punctuation character. -/
def ofPunctuation? : Char → Option JsonToken
  | '[' => some .openArray
  | ']' => some .closeArray
  | '\x7b' => some .openObject
  | '\x7d' => some .closeObject
  | ',' => some .comma
  | ':' => some .colon
  | _ => none

/-- The four characters that may stand between tokens. -/
def isSpace (c : Char) : Bool := c == ' ' || c == '\n' || c == '\t' || c == '\r'

end JsonToken

/-! ### The lexer -/

/-- What the lexer is in the middle of.  Lists hold the last element first. -/
inductive JsonLexer
  /-- Between tokens. -/
  | between
  /-- In a number or word. -/
  | bare (run : List Char)
  /-- In a string literal. -/
  | literal (pieces : List JsonPiece)
  /-- After a backslash in a string literal. -/
  | escape (pieces : List JsonPiece)
  /-- In a `\u` escape with `missing + 1` digits to come. -/
  | hex (pieces : List JsonPiece) (missing : Nat) (value : Nat)
  deriving DecidableEq, Repr

namespace JsonLexer

/-- A character between two tokens. -/
def start? (c : Char) (tokens : List JsonToken) : Option (JsonLexer × List JsonToken) :=
  if JsonToken.isSpace c then some (.between, tokens)
  else if c = '"' then some (.literal [], tokens)
  else if JsonToken.isBare c then some (.bare [c], tokens)
  else (JsonToken.ofPunctuation? c).map fun token => (.between, token :: tokens)

/-- Reads one character; `tokens` holds the last token first. -/
def step : JsonLexer × List JsonToken → Char → Option (JsonLexer × List JsonToken)
  | (.between, tokens), c => start? c tokens
  | (.bare run, tokens), c =>
    if JsonToken.isBare c then some (.bare (c :: run), tokens)
    else (JsonToken.ofBare? run.reverse).bind fun token => start? c (token :: tokens)
  | (.literal pieces, tokens), c =>
    if c = '"' then
      some (.between, .str ⟨pieces.reverse⟩ :: tokens)
    else if c = '\\' then some (.escape pieces, tokens)
    else if c < ' ' then none
    else some (.literal (.char c :: pieces), tokens)
  | (.escape pieces, tokens), c =>
    if c = 'u' then some (.hex pieces 3 0, tokens)
    else (JsonPiece.ofEscape? c).map fun e => (.literal (.char e :: pieces), tokens)
  | (.hex pieces missing value, tokens), c =>
    (Text.hexDigit? c).map fun d =>
      match missing with
      | 0 => (.literal (.unit (16 * value + d) :: pieces), tokens)
      | left + 1 => (.hex pieces left (16 * value + d), tokens)

/-- The tokens of a text that ends here. -/
def finish? : JsonLexer × List JsonToken → Option (List JsonToken)
  | (.between, tokens) => some tokens.reverse
  | (.bare run, tokens) =>
    (JsonToken.ofBare? run.reverse).map fun token => (token :: tokens).reverse
  | _ => none

end JsonLexer

/-- The tokens of a text; `none` if it is not made of tokens. -/
def JsonToken.scan? (cs : List Char) : Option (List JsonToken) :=
  (cs.foldlM JsonLexer.step (.between, [])).bind JsonLexer.finish?

end ArithWatch
