namespace ArithWatch

/-!
# Binary floating point

Floating-point numbers are handled as bit patterns (natural numbers) of a binary interchange
format.  A pattern is read as an exact dyadic number, an infinity or no number; every operation is
computed exactly and rounded once, to the nearest pattern with ties to the even one.

* `BinaryFormat` gives the widths of the two fields of a pattern.
* `BinaryFormat.read` says what a pattern stands for.
* `BinaryFormat.round` is the nearest pattern to an exact nonnegative ratio.
* `add`, `sub`, `mul`, `div`, `rem` and `convert` round the exact result.
* `key` orders the patterns that are numbers.
-/

-- `2 ^ n` is the built-in power of natural numbers and integers, whatever else is in scope.
attribute [local instance (2000)] instPowNat

/-- The field widths of a binary interchange format, below its sign bit. -/
structure BinaryFormat where
  fractionBits : Nat
  exponentBits : Nat
  deriving DecidableEq, Repr

/-- What a bit pattern stands for.  A finite pattern stands for `± mantissa * 2 ^ exponent`. -/
inductive BinaryReading
  | nan
  | infinite (negative : Bool)
  | finite (negative : Bool) (mantissa : Nat) (exponent : Int)
  deriving DecidableEq, Repr

namespace BinaryFormat

/-- The 32-bit format. -/
def single : BinaryFormat := ⟨23, 8⟩

/-- The 64-bit format. -/
def double : BinaryFormat := ⟨52, 11⟩

/-! ### Fields of a pattern -/

/-- The weight of the sign bit: one more than the greatest pattern without sign. -/
def signWeight (f : BinaryFormat) : Nat := 2 ^ (f.fractionBits + f.exponentBits)

/-- The pattern of positive infinity. -/
def infinityPattern (f : BinaryFormat) : Nat := (2 ^ f.exponentBits - 1) * 2 ^ f.fractionBits

/-- The pattern that arithmetic gives where no number is the answer. -/
def nanPattern (f : BinaryFormat) : Nat := f.infinityPattern + 2 ^ (f.fractionBits - 1)

/-- The exponent of the last place of the numbers closest to zero. -/
def leastExponent (f : BinaryFormat) : Int :=
  2 - 2 ^ (f.exponentBits - 1) - f.fractionBits

/-- Is the sign bit set? -/
def isNegative (f : BinaryFormat) (pattern : Nat) : Bool :=
  pattern / f.signWeight % 2 == 1

/-- The pattern without its sign bit. -/
def magnitude (f : BinaryFormat) (pattern : Nat) : Nat := pattern % f.signWeight

/-- The pattern of the given magnitude and sign. -/
def withSign (f : BinaryFormat) (negative : Bool) (magnitude : Nat) : Nat :=
  if negative then f.signWeight + magnitude else magnitude

/-- The same number with the other sign. -/
def neg (f : BinaryFormat) (pattern : Nat) : Nat :=
  f.withSign (!f.isNegative pattern) (f.magnitude pattern)

/-- Does the pattern stand for no number? -/
def isNaN (f : BinaryFormat) (pattern : Nat) : Bool :=
  f.infinityPattern < f.magnitude pattern

/-- Does the pattern stand for an infinity? -/
def isInfinite (f : BinaryFormat) (pattern : Nat) : Bool :=
  f.magnitude pattern == f.infinityPattern

/-- Does the pattern stand for a finite number? -/
def isFinite (f : BinaryFormat) (pattern : Nat) : Bool :=
  f.magnitude pattern < f.infinityPattern

/-- What a pattern stands for. -/
def read (f : BinaryFormat) (pattern : Nat) : BinaryReading :=
  let fraction := f.magnitude pattern % 2 ^ f.fractionBits
  let biased := f.magnitude pattern / 2 ^ f.fractionBits
  if f.isNaN pattern then .nan
  else if f.isInfinite pattern then .infinite (f.isNegative pattern)
  else if biased = 0 then .finite (f.isNegative pattern) fraction f.leastExponent
  else .finite (f.isNegative pattern) (2 ^ f.fractionBits + fraction)
    (f.leastExponent + (biased - 1 : Nat))

/-! ### Rounding -/

/-- `num / den` to the nearest natural number, a half going to the even neighbour. -/
def divRoundEven (num den : Nat) : Nat :=
  let quotient := num / den
  let twice := 2 * (num % den)
  if twice < den then quotient
  else if den < twice then quotient + 1
  else if quotient % 2 = 0 then quotient else quotient + 1

/-- The greatest `k` with `2 ^ k ≤ num / den`, for positive `num` and `den`. -/
def floorLog2 (num den : Nat) : Int :=
  let guess : Int := (Nat.log2 num : Int) - (Nat.log2 den : Int)
  if num * 2 ^ (-guess).toNat < den * 2 ^ guess.toNat then guess - 1 else guess

/-- The magnitude nearest to the ratio `num / den`; infinity where that is beyond every number. -/
def roundMagnitude (f : BinaryFormat) (num den : Nat) : Nat :=
  if num = 0 then 0
  else
    let last := max f.leastExponent (floorLog2 num den - f.fractionBits)
    let mantissa := divRoundEven (num * 2 ^ (-last).toNat) (den * 2 ^ last.toNat)
    min f.infinityPattern ((last - f.leastExponent).toNat * 2 ^ f.fractionBits + mantissa)

/-- The pattern nearest to `± num / den`, a tie going to the even pattern. -/
def round (f : BinaryFormat) (negative : Bool) (num den : Nat) : Nat :=
  f.withSign negative (f.roundMagnitude num den)

/-- The pattern nearest to `± mantissa * 2 ^ exponent`. -/
def roundScaled (f : BinaryFormat) (negative : Bool) (mantissa : Nat) (exponent : Int) : Nat :=
  f.round negative (mantissa * 2 ^ exponent.toNat) (2 ^ (-exponent).toNat)

/-- The pattern nearest to a natural number. -/
def ofNat (f : BinaryFormat) (n : Nat) : Nat := f.round false n 1

/-- The pattern nearest to an integer. -/
def ofInt (f : BinaryFormat) (z : Int) : Nat := f.round (z < 0) z.natAbs 1

/-! ### Arithmetic -/

/-- An exact sum that is zero is negative only when both terms are negative. -/
def add (f : BinaryFormat) (x y : Nat) : Nat :=
  match f.read x, f.read y with
  | .nan, _ | _, .nan => f.nanPattern
  | .infinite s, .infinite t => if s = t then x else f.nanPattern
  | .infinite _, .finite .. => x
  | .finite .., .infinite _ => y
  | .finite s m e, .finite t n k =>
    let last := min e k
    let signedTerm (negative : Bool) (mantissa : Nat) (exponent : Int) : Int :=
      let scaled : Int := mantissa * 2 ^ (exponent - last).toNat
      if negative then -scaled else scaled
    let sum := signedTerm s m e + signedTerm t n k
    if sum = 0 then f.withSign (s && t) 0 else f.roundScaled (sum < 0) sum.natAbs last

/-- A difference is the sum with the negated subtrahend. -/
def sub (f : BinaryFormat) (x y : Nat) : Nat := f.add x (f.neg y)

/-- A product with zero and an infinity as its factors is no number. -/
def mul (f : BinaryFormat) (x y : Nat) : Nat :=
  match f.read x, f.read y with
  | .nan, _ | _, .nan => f.nanPattern
  | .infinite s, .infinite t => f.withSign (s != t) f.infinityPattern
  | .infinite s, .finite t n _ | .finite s n _, .infinite t =>
    if n = 0 then f.nanPattern else f.withSign (s != t) f.infinityPattern
  | .finite s m e, .finite t n k => f.roundScaled (s != t) (m * n) (e + k)

/-- A number divided by zero is infinite; zero by zero and infinity by infinity are no number. -/
def div (f : BinaryFormat) (x y : Nat) : Nat :=
  match f.read x, f.read y with
  | .nan, _ | _, .nan | .infinite _, .infinite _ => f.nanPattern
  | .infinite s, .finite t _ _ => f.withSign (s != t) f.infinityPattern
  | .finite s _ _, .infinite t => f.withSign (s != t) 0
  | .finite s m e, .finite t n k =>
    if n = 0 then if m = 0 then f.nanPattern else f.withSign (s != t) f.infinityPattern
    else f.round (s != t) (m * 2 ^ (e - k).toNat) (n * 2 ^ (k - e).toNat)

/-- The remainder of the division truncated toward zero; it takes the sign of the dividend and is
    always exact. -/
def rem (f : BinaryFormat) (x y : Nat) : Nat :=
  match f.read x, f.read y with
  | .nan, _ | _, .nan | .infinite _, _ => f.nanPattern
  | .finite .., .infinite _ => x
  | .finite s m e, .finite _ n k =>
    if n = 0 then f.nanPattern
    else
      let last := min e k
      f.roundScaled s (m * 2 ^ (e - last).toNat % (n * 2 ^ (k - last).toNat)) last

/-- The pattern of `target` nearest to what `pattern` stands for.  A pattern that is no number keeps
    its sign and the leading bits of its fraction, of which the first is set. -/
def convert (source target : BinaryFormat) (pattern : Nat) : Nat :=
  match source.read pattern with
  | .nan =>
    let fraction := source.magnitude pattern % 2 ^ source.fractionBits
    let aligned := fraction * 2 ^ target.fractionBits / 2 ^ source.fractionBits
    target.withSign (source.isNegative pattern)
      (target.infinityPattern + (aligned ||| 2 ^ (target.fractionBits - 1)))
  | .infinite s => target.withSign s target.infinityPattern
  | .finite s m e => target.roundScaled s m e

/-! ### Order and whole part -/

/-- The place of a pattern in the order of the numbers: two patterns that are numbers compare as
    their keys do, and the two zeros share a key. -/
def key (f : BinaryFormat) (pattern : Nat) : Int :=
  if f.isNegative pattern then -(f.magnitude pattern : Int) else f.magnitude pattern

/-- The magnitude of a finite pattern without its fraction. -/
def wholePart (f : BinaryFormat) (pattern : Nat) : Nat :=
  match f.read pattern with
  | .finite _ m e => m * 2 ^ e.toNat / 2 ^ (-e).toNat
  | _ => 0

example : double.ofNat 100 = 0x4059000000000000 := by decide
example : single.div (single.ofNat 1) (single.ofNat 3) = 0x3eaaaaab := by decide
example : double.sub (double.ofNat 1) (double.ofNat 1) = 0 := by decide
example : double.convert single 0x3fb999999999999a = 0x3dcccccd := by decide

end BinaryFormat

end ArithWatch
