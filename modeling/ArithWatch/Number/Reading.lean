import ArithWatch.Number.Decimal

namespace ArithWatch

/-!
# Reading floating-point numbers from text

The accepted spellings are an optional sign followed by digits with at most one point (on either
side of which the digits may be missing, but not on both) and an optional exponent, or by one of the
words `inf`, `infinity` and `nan` in any case.  The number is rounded once.
-/

-- Powers are the built-in ones of natural numbers and integers, whatever else is in scope.
attribute [local instance (2000)] instPowNat

namespace BinaryFormat

/-- The pattern nearest to `± significand * 10 ^ exponent`.  Numbers beyond the format's range by
    their digit count alone are not computed. -/
def ofDecimal (f : BinaryFormat) (negative : Bool) (d : Decimal) : Nat :=
  let point : Int := (Nat.toDigits 10 d.significand).length + d.exponent
  if d.significand = 0 ∨ 3 * point < f.leastExponent - 1 then f.withSign negative 0
  else if 2 ^ (f.exponentBits - 1) < 3 * (point - 1) then f.withSign negative f.infinityPattern
  else f.round negative (d.significand * 10 ^ d.exponent.toNat) (10 ^ (-d.exponent).toNat)

end BinaryFormat

namespace DecimalText

/-- The digit that a character spells. -/
def digit? (c : Char) : Option Digit :=
  if c.isDigit then some (Digit.ofChar c) else none

/-- The longest run of digits at the front, and what follows it. -/
def splitDigits : List Char → List Digit × List Char
  | [] => ([], [])
  | c :: rest =>
    match digit? c with
    | some d => let (digits, tail) := splitDigits rest; (d :: digits, tail)
    | none => ([], c :: rest)

/-- An optional sign; `true` stands for minus. -/
def splitSign : List Char → Bool × List Char
  | '-' :: rest => (true, rest)
  | '+' :: rest => (false, rest)
  | cs => (false, cs)

/-- What follows the digits of a number: nothing, or an exponent to the end. -/
def exponent? : List Char → Option Int
  | [] => some 0
  | c :: rest =>
    if c = 'e' ∨ c = 'E' then
      let (negative, tail) := splitSign rest
      match splitDigits tail with
      | ([], _) | (_, _ :: _) => none
      | (digits, []) => some (if negative then -(numberOf digits : Int) else numberOf digits)
    else none

/-- A number without sign. -/
def decimal? (cs : List Char) : Option Decimal := do
  let (whole, rest) := splitDigits cs
  let (fraction, tail) := match rest with
    | '.' :: rest => splitDigits rest
    | rest => ([], rest)
  if whole = [] ∧ fraction = [] then none
  else
    let exponent ← exponent? tail
    some ⟨numberOf (whole ++ fraction), exponent - fraction.length⟩

end DecimalText

/-- The 64-bit pattern that a text spells. -/
def readDouble? (text : List Char) : Option Nat :=
  let (negative, rest) := DecimalText.splitSign text
  let word := String.ofList (rest.map Char.toLower)
  if word = "inf" ∨ word = "infinity" then
    some (BinaryFormat.double.withSign negative BinaryFormat.double.infinityPattern)
  else if word = "nan" then
    some (BinaryFormat.double.withSign negative BinaryFormat.double.nanPattern)
  else (DecimalText.decimal? rest).map (BinaryFormat.double.ofDecimal negative)

end ArithWatch
