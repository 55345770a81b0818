import ArithWatch.Text.Hex
import ArithWatch.Text.Printable

namespace ArithWatch.Text

/-!
# Quoted text

Text in messages stands between double quotes.  The quote and the backslash are escaped by a
backslash, tab, newline, carriage return and NUL have one-letter escapes, and every other character
that is not printable is written by its code point.
-/

/-- The code point of a character in hexadecimal, in lower case. -/
def codePointEscape (c : Char) : String :=
  "\\u\x7b" ++ hexText c.toNat ++ "\x7d"

/-- The spelling of a character in quoted text. -/
def quoteChar (c : Char) : String :=
  match c with
  | '"' => "\\\""
  | '\\' => "\\\\"
  | '\t' => "\\t"
  | '\n' => "\\n"
  | '\r' => "\\r"
  | '\x00' => "\\0"
  | c => if isPrintable c then c.toString else codePointEscape c

/-- A text between quotes. -/
def quote (s : String) : String := "\"" ++ String.join (s.toList.map quoteChar) ++ "\""

example : quote "a\"\n" = "\"a\\\"\\n\"" := by decide +kernel

end ArithWatch.Text
