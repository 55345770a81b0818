namespace ArithWatch

/-!
# String literals of JSON

A string literal is kept as it is spelled.  Its escapes may spell half a surrogate pair and
therefore no text, and a name that has to be spelled in plain digits can be told from one that
spells the same digits by escapes.

* `JsonPiece` is one element of a literal.
* `JsonLiteral.text?` is the text of a literal, `JsonLiteral.ofText` the literal of a text.
* `text?_ofText` says that every text is the text of its literal.
-/

/-- One element of a string literal: a character, or the 16-bit unit of a `\u` escape. -/
inductive JsonPiece
  | char (c : Char)
  | unit (u : Nat)
  deriving DecidableEq, Repr

namespace JsonPiece

def isHighSurrogate (u : Nat) : Bool := 0xd800 ≤ u && u < 0xdc00

def isLowSurrogate (u : Nat) : Bool := 0xdc00 ≤ u && u < 0xe000

/-- The text of a list of pieces; `none` if a surrogate has no partner. -/
def text? : List JsonPiece → Option (List Char)
  | [] => some []
  | .char c :: rest => (text? rest).map (c :: ·)
  | .unit u :: .unit v :: rest =>
    if isHighSurrogate u then
      if isLowSurrogate v then
        (text? rest).map (Char.ofNat (0x10000 + (u - 0xd800) * 0x400 + (v - 0xdc00)) :: ·)
      else none
    else if isLowSurrogate u then none
    else (text? (.unit v :: rest)).map (Char.ofNat u :: ·)
  | .unit u :: rest =>
    if isHighSurrogate u || isLowSurrogate u then none
    else (text? rest).map (Char.ofNat u :: ·)

/-- The letter of the short escape of a character, if it has one. -/
def escapeLetter? : Char → Option Char
  | '"' => some '"'
  | '\\' => some '\\'
  | '\x08' => some 'b'
  | '\x0c' => some 'f'
  | '\n' => some 'n'
  | '\r' => some 'r'
  | '\t' => some 't'
  | _ => none

/-- The piece that a character is written as: a control below the space that has no short escape is
    written as a unit. -/
def ofChar (c : Char) : JsonPiece :=
  if c < ' ' ∧ escapeLetter? c = none then .unit c.toNat else .char c

/-- A control character is a unit that stands for itself. -/
theorem text?_unit_cons {u : Nat} (h : u < 0x20) (rest : List JsonPiece) :
    text? (.unit u :: rest) = (text? rest).map (Char.ofNat u :: ·) := by
  have hi : isHighSurrogate u = false := by simp [isHighSurrogate]; omega
  have lo : isLowSurrogate u = false := by simp [isLowSurrogate]; omega
  match rest with
  | [] => simp [text?, hi, lo]
  | .char _ :: _ => simp [text?, hi, lo]
  | .unit _ :: _ => simp [text?, hi, lo]

/-- Characters read back from the pieces they are written as. -/
theorem text?_map_ofChar (cs : List Char) : text? (cs.map ofChar) = some cs := by
  induction cs with
  | nil => rfl
  | cons c rest ih =>
    rw [List.map_cons, ofChar]
    split
    · next h =>
      have : c.toNat < 0x20 := h.1
      rw [text?_unit_cons this, ih, Char.ofNat_toNat, Option.map_some]
    · rw [text?, ih, Option.map_some]

end JsonPiece

/-- A string literal. -/
structure JsonLiteral where
  pieces : List JsonPiece
  deriving DecidableEq, Repr

namespace JsonLiteral

/-- The text of a literal, if it has one. -/
def text? (l : JsonLiteral) : Option String := (JsonPiece.text? l.pieces).map String.ofList

/-- The literal of a text. -/
def ofText (s : String) : JsonLiteral := ⟨s.toList.map JsonPiece.ofChar⟩

@[simp] theorem text?_ofText (s : String) : (ofText s).text? = some s := by
  simp [text?, ofText, JsonPiece.text?_map_ofChar]

end JsonLiteral

end ArithWatch
