import ArithWatch.Number.Binary

namespace ArithWatch

/-!
# Decimal text of floating-point numbers

A finite pattern is written with the fewest decimal digits that read back as the same pattern; of
several such numbers the one nearest to the exact value is taken.  How those digits are laid out
(with or without an exponent, with or without `.0`) is a `DecimalLayout`.

* `Numeral` is a decimal number as it is spelled: whole part, fraction digits, exponent.
* `BinaryFormat.shortest` finds the digits by exact integer arithmetic.
* `DecimalLayout.render` writes a pattern.
-/

-- Powers are the built-in ones of natural numbers and integers, whatever else is in scope.
attribute [local instance (2000)] instPowNat

/-- A decimal digit. -/
abbrev Digit := Fin 10

/-- The digit that a digit character spells. -/
def Digit.ofChar (c : Char) : Digit := Fin.ofNat 10 (c.toNat - 48)

/-- A decimal number as it is spelled. -/
structure Numeral where
  negative : Bool := false
  whole : Nat
  fraction : List Digit := []
  exponent : Option Int := none
  deriving DecidableEq, Repr

namespace Numeral

/-- A whole number, without fraction and exponent. -/
def ofNat (n : Nat) : Numeral := { whole := n }

/-- An integer, without fraction and exponent. -/
def ofInt (z : Int) : Numeral := { negative := z < 0, whole := z.natAbs }

/-- The character of a digit. -/
def digitChar (d : Digit) : Char := Char.ofNat (48 + d.val)

/-- An exponent follows `e`; a positive one has a plus sign only if asked for. -/
def exponentText (plus : Bool) (exponent : Int) : String :=
  (if plus && 0 ≤ exponent then "e+" else "e") ++ toString exponent

/-- The text of a numeral. -/
def render (plus : Bool) (n : Numeral) : String :=
  (if n.negative then "-" else "") ++ toString n.whole
    ++ (if n.fraction = [] then "" else "." ++ String.ofList (n.fraction.map digitChar))
    ++ (match n.exponent with
        | none => ""
        | some e => exponentText plus e)

end Numeral

/-- The number `significand * 10 ^ exponent`. -/
structure Decimal where
  significand : Nat
  exponent : Int
  deriving DecidableEq, Repr

/-- Which of two equally near decimals is taken. -/
inductive DecimalTie
  | up
  | toEven
  deriving DecidableEq, Repr

/-! ### The fewest digits that read back -/

namespace BinaryFormat

/-- The numbers that round to a positive pattern, as an interval around its exact value.  All three
    numbers are counted in parts of `1 / parts`; the ends belong to the interval if `closed`. -/
structure RoundingInterval where
  low : Nat
  value : Nat
  high : Nat
  parts : Nat
  closed : Bool
  deriving Repr

/-- The interval of `mantissa * 2 ^ exponent`.  Its lower half is narrower where the numbers below
    lie twice as close. -/
def roundingInterval (f : BinaryFormat) (mantissa : Nat) (exponent : Int) : RoundingInterval :=
  let scale := 2 ^ (exponent - 2).toNat
  let narrow := mantissa = 2 ^ f.fractionBits ∧ f.leastExponent < exponent
  { low := (4 * mantissa - if narrow then 1 else 2) * scale
    value := 4 * mantissa * scale
    high := (4 * mantissa + 2) * scale
    parts := 2 ^ (2 - exponent).toNat
    closed := mantissa % 2 = 0 }

/-- Does `digits * 10 ^ place` lie in the interval? -/
def RoundingInterval.contains (i : RoundingInterval) (digits : Nat) (place : Int) : Bool :=
  let point := digits * 10 ^ place.toNat * i.parts
  let low := i.low * 10 ^ (-place).toNat
  let high := i.high * 10 ^ (-place).toNat
  if i.closed then low ≤ point ∧ point ≤ high else low < point ∧ point < high

/-- The multiple of `10 ^ place` in the interval that is nearest to its value, if any is in it.
    Only the two neighbours of the value have to be tried. -/
def RoundingInterval.nearestAt? (i : RoundingInterval) (tie : DecimalTie) (place : Int) :
    Option Nat :=
  let unit := i.parts * 10 ^ place.toNat
  let value := i.value * 10 ^ (-place).toNat
  let below := value / unit
  match i.contains below place, i.contains (below + 1) place with
  | false, false => none
  | true, false => some below
  | false, true => some (below + 1)
  | true, true =>
    let twice := 2 * (value % unit)
    if twice < unit then some below
    else if unit < twice then some (below + 1)
    else match tie with
      | .up => some (below + 1)
      | .toEven => some (if below % 2 = 0 then below else below + 1)

/-- The coarsest decimal place at or below `place` with a point in the interval, with that point;
    `steps` bounds how many places are tried. -/
def RoundingInterval.coarsest (i : RoundingInterval) (tie : DecimalTie) :
    (steps : Nat) → (place : Int) → Decimal
  | 0, place => ⟨i.value * 10 ^ (-place).toNat / (i.parts * 10 ^ place.toNat), place⟩
  | steps + 1, place =>
    match i.nearestAt? tie place with
    | some digits => ⟨digits, place⟩
    | none => i.coarsest tie steps (place - 1)

/-- The decimal with the fewest digits that rounds to `mantissa * 2 ^ exponent`.  The search starts
    at a place above every digit of the value; at the last place it comes to, neighbouring points
    are closer together than the interval is wide. -/
def shortest (f : BinaryFormat) (tie : DecimalTie) (mantissa : Nat) (exponent : Int) : Decimal :=
  let bits : Int := Nat.log2 mantissa + 1 + exponent
  let first : Int := if 0 ≤ bits then bits / 3 + 1 else bits / 4 + 1
  let last : Int := if 0 < exponent then 0 else (exponent - 1) / 3 - 1
  (f.roundingInterval mantissa exponent).coarsest tie (first - last).toNat first

end BinaryFormat

/-! ### Layouts -/

/-- How the digits of a number are laid out. -/
structure DecimalLayout where
  /-- Which of two equally near digit strings is written. -/
  tie : DecimalTie
  /-- Numbers from `10 ^ low` to below `10 ^ high` are written without an exponent; with `none`
      every number is. -/
  positional : Option (Int × Int)
  /-- Is `.0` written after a whole number without exponent? -/
  wholeMark : Bool
  /-- Is a sign written before a positive exponent? -/
  exponentPlus : Bool
  deriving Repr

/-- The decimal digits of a natural number, first digit first. -/
def digitsOf (n : Nat) : List Digit :=
  (Nat.toDigits 10 n).map Digit.ofChar

/-- The number that a digit string spells. -/
def numberOf (digits : List Digit) : Nat :=
  digits.foldl (fun n d => 10 * n + d.val) 0

namespace DecimalLayout

/-- A number laid out as a numeral. -/
def numeral (layout : DecimalLayout) (negative : Bool) (d : Decimal) : Numeral :=
  let digits := digitsOf d.significand
  let point : Int := digits.length + d.exponent
  let isPositional := match layout.positional with
    | none => true
    | some (low, high) => d.significand = 0 ∨ (low < point ∧ point ≤ high)
  if isPositional then
    let padded := List.replicate (1 - point).toNat 0 ++ digits
    let whole := numberOf (padded.take (max point 1).toNat) * 10 ^ d.exponent.toNat
    let fraction := padded.drop (max point 1).toNat
    { negative, whole
      fraction := if fraction = [] ∧ layout.wholeMark then [0] else fraction }
  else
    { negative
      whole := numberOf (digits.take 1)
      fraction := digits.drop 1
      exponent := some (point - 1) }

/-- The numeral of a finite pattern; `none` for infinities and patterns that are no number. -/
def numeral? (layout : DecimalLayout) (f : BinaryFormat) (pattern : Nat) : Option Numeral :=
  match f.read pattern with
  | .finite s m e => some (layout.numeral s (if m = 0 then ⟨0, 0⟩ else f.shortest layout.tie m e))
  | _ => none

/-- The text of a pattern. -/
def render (layout : DecimalLayout) (f : BinaryFormat) (pattern : Nat) : String :=
  match layout.numeral? f pattern with
  | some n => n.render layout.exponentPlus
  | none =>
    if f.isNaN pattern then "NaN" else if f.isNegative pattern then "-inf" else "inf"

/-- Messages write every number without an exponent and whole numbers without a fraction. -/
def plain : DecimalLayout :=
  { tie := .up, positional := none, wholeMark := false, exponentPlus := false }

/-- Listings keep `.0` and take an exponent below `10 ^ (-4)` and from `10 ^ 16` on. -/
def listing : DecimalLayout :=
  { tie := .up, positional := some (-4, 16), wholeMark := true, exponentPlus := false }

/-- JSON documents keep `.0` and take a signed exponent below `10 ^ (-5)` and from `10 ^ 16` on. -/
def json : DecimalLayout :=
  { tie := .toEven, positional := some (-5, 16), wholeMark := true, exponentPlus := true }

end DecimalLayout

end ArithWatch
