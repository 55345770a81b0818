import ArithWatch.Execution.Arithmetic
import ArithWatch.Proofs.Number.Exact
import Mathlib.Order.Monotone.Basic
import Mathlib.Tactic.Ring

namespace ArithWatch

/-!
# The order of floating-point patterns

Patterns are compared by their keys, which are their magnitudes with their signs.  Read as numbers,
patterns are ordered in the same way.

* `Extended` is what a pattern stands for: a rational number, an infinity, or no number.
* `BinaryFormat.units` counts a magnitude in units of the least positive number.  Magnitudes number
  these multiples in their order (`units_strictMono`).
* `BinaryFormat.key_lt_iff` and `key_eq_iff`: keys compare as the numbers do.
* `FloatOp.compare_iff` is the meaning of all six comparisons.
-/

-- `2 ^ n` is the built-in power of natural numbers and integers, whatever else is in scope.
attribute [local instance (2000)] instPowNat

/-! ### Extended numbers -/

/-- A rational number, an infinity, or no number. -/
inductive Extended
  | nan
  | infinity (negative : Bool)
  | number (q : ℚ)
  deriving DecidableEq

namespace Extended

/-- The magnitude. -/
def abs : Extended → Extended
  | .nan => .nan
  | .infinity _ => .infinity false
  | .number q => .number |q|

/-- The number with the other sign. -/
def neg : Extended → Extended
  | .nan => .nan
  | .infinity negative => .infinity !negative
  | .number q => .number (-q)

/-- The order: every number lies between the two infinities. -/
def Below : Extended → Extended → Prop
  | .number x, .number y => x < y
  | .number _, .infinity negative => negative = false
  | .infinity negative, .number _ => negative = true
  | .infinity negative, .infinity negative' => negative = true ∧ negative' = false
  | .nan, _ | _, .nan => False

instance : DecidableRel Below := fun x y =>
  match x, y with
  | .number x, .number y => inferInstanceAs (Decidable (x < y))
  | .number _, .infinity negative => inferInstanceAs (Decidable (negative = false))
  | .infinity negative, .number _ => inferInstanceAs (Decidable (negative = true))
  | .infinity negative, .infinity negative' =>
    inferInstanceAs (Decidable (negative = true ∧ negative' = false))
  | .nan, .nan | .nan, .number _ | .nan, .infinity _ | .number _, .nan | .infinity _, .nan =>
    isFalse id

/-- Of two that are numbers or infinities, one is below the other unless they are equal. -/
theorem eq_iff_not_below {x y : Extended} (hx : x ≠ .nan) (hy : y ≠ .nan) :
    x = y ↔ ¬ x.Below y ∧ ¬ y.Below x := by
  cases x with
  | nan => exact absurd rfl hx
  | infinity s =>
    cases y with
    | nan => exact absurd rfl hy
    | infinity s' => cases s <;> cases s' <;> simp [Below]
    | number y => cases s <;> simp [Below]
  | number x =>
    cases y with
    | nan => exact absurd rfl hy
    | infinity s' => cases s' <;> simp [Below]
    | number y =>
      simp only [Below, number.injEq, not_lt]
      exact ⟨fun h => ⟨h.ge, h.le⟩, fun h => le_antisymm h.2 h.1⟩

/-- A magnitude is beyond a limit above or below. -/
theorem below_abs_iff {limit x : Extended} (h : limit ≠ .infinity true) :
    limit.Below x.abs ↔ x.Below limit.neg ∨ limit.Below x := by
  cases limit with
  | nan => cases x <;> simp [Below, neg]
  | infinity s =>
    obtain rfl : s = false := by simpa using h
    cases x <;> simp [Below, abs, neg]
  | number limit =>
    cases x with
    | nan => simp [Below, abs]
    | infinity s => cases s <;> simp [Below, abs, neg]
    | number x =>
      simp only [Below, abs, neg]
      rw [lt_abs, or_comm, lt_neg]

end Extended

namespace BinaryFormat

variable {f : BinaryFormat} {x y pattern magnitude : Nat}

/-- What a pattern stands for, as a number. -/
def extended (f : BinaryFormat) (pattern : Nat) : Extended :=
  match f.read pattern with
  | .nan => .nan
  | .infinite negative => .infinity negative
  | .finite _ _ _ => .number (f.value pattern)

/-! ### Magnitudes as multiples of the least positive number -/

/-- The magnitude of a finite pattern in units of the least positive number. -/
def units (f : BinaryFormat) (magnitude : Nat) : Nat :=
  let fraction := magnitude % 2 ^ f.fractionBits
  let biased := magnitude / 2 ^ f.fractionBits
  if biased = 0 then fraction else (2 ^ f.fractionBits + fraction) * 2 ^ (biased - 1)

/-- A mantissa of the format and how far it is shifted: only one with all digits is shifted
    at all. -/
structure Significand (f : BinaryFormat) (mantissa shift : Nat) : Prop where
  lt : mantissa < 2 * 2 ^ f.fractionBits
  full : shift = 0 ∨ 2 ^ f.fractionBits ≤ mantissa

/-- The units of a magnitude that is given by mantissa and shift. -/
theorem units_eq {mantissa shift : Nat} (h : f.Significand mantissa shift) :
    f.units (shift * 2 ^ f.fractionBits + mantissa) = mantissa * 2 ^ shift := by
  have hpos : 0 < 2 ^ f.fractionBits := Nat.two_pow_pos _
  obtain ⟨hlt, hfull⟩ := h
  unfold units
  rcases Nat.lt_or_ge mantissa (2 ^ f.fractionBits) with hsmall | hlarge
  · obtain rfl : shift = 0 := hfull.resolve_right (by omega)
    simp [Nat.div_eq_of_lt hsmall, Nat.mod_eq_of_lt hsmall]
  · obtain ⟨fraction, rfl⟩ := Nat.exists_eq_add_of_le hlarge
    have hfraction : fraction < 2 ^ f.fractionBits := by omega
    have hsum : shift * 2 ^ f.fractionBits + (2 ^ f.fractionBits + fraction) =
        fraction + 2 ^ f.fractionBits * (shift + 1) := by ring
    have hdiv : (fraction + 2 ^ f.fractionBits * (shift + 1)) / 2 ^ f.fractionBits = shift + 1 := by
      rw [Nat.add_mul_div_left _ _ hpos, Nat.div_eq_of_lt hfraction, Nat.zero_add]
    rw [hsum]
    simp only [hdiv, Nat.add_mul_mod_self_left, Nat.mod_eq_of_lt hfraction]
    simp

/-- Every magnitude is given by a mantissa and a shift. -/
theorem exists_significand (f : BinaryFormat) (magnitude : Nat) :
    ∃ mantissa shift, f.Significand mantissa shift ∧
      magnitude = shift * 2 ^ f.fractionBits + mantissa := by
  have hpos : 0 < 2 ^ f.fractionBits := Nat.two_pow_pos _
  have hmod := Nat.mod_lt magnitude hpos
  have hdiv := Nat.div_add_mod magnitude (2 ^ f.fractionBits)
  cases hbiased : magnitude / 2 ^ f.fractionBits with
  | zero =>
    rw [hbiased] at hdiv
    exact ⟨magnitude % 2 ^ f.fractionBits, 0, ⟨by omega, .inl rfl⟩, by omega⟩
  | succ shift =>
    refine ⟨2 ^ f.fractionBits + magnitude % 2 ^ f.fractionBits, shift,
      ⟨by omega, .inr (Nat.le_add_right _ _)⟩, ?_⟩
    rw [hbiased] at hdiv
    rw [← hdiv, Nat.mul_add_mod, Nat.mod_mod]
    ring

/-- **Magnitudes are ordered** as the numbers that they stand for. -/
theorem units_strictMono (f : BinaryFormat) : StrictMono f.units := by
  refine strictMono_nat_of_lt_succ fun magnitude => ?_
  obtain ⟨mantissa, shift, h, rfl⟩ := f.exists_significand magnitude
  rw [units_eq h]
  by_cases hcarry : mantissa + 1 = 2 * 2 ^ f.fractionBits
  · -- The last mantissa of a shift is followed by the first one of the next shift.
    have hnext : f.Significand (2 ^ f.fractionBits) (shift + 1) :=
      ⟨by have := Nat.two_pow_pos f.fractionBits; omega, .inr (Nat.le_refl _)⟩
    have hsum : shift * 2 ^ f.fractionBits + mantissa + 1 =
        (shift + 1) * 2 ^ f.fractionBits + 2 ^ f.fractionBits := by
      rw [Nat.add_assoc, hcarry]
      ring
    have hunits : 2 ^ f.fractionBits * 2 ^ (shift + 1) = (mantissa + 1) * 2 ^ shift := by
      rw [hcarry]
      ring
    rw [hsum, units_eq hnext, hunits]
    exact Nat.mul_lt_mul_of_pos_right (Nat.lt_succ_self _) (Nat.two_pow_pos _)
  · have hnext : f.Significand (mantissa + 1) shift :=
      ⟨by have := h.lt; omega, h.full.imp_right fun hle => by omega⟩
    rw [Nat.add_assoc, units_eq hnext]
    exact Nat.mul_lt_mul_of_pos_right (Nat.lt_succ_self _) (Nat.two_pow_pos _)

/-- Only the magnitude zero is worth nothing. -/
theorem units_eq_zero_iff (f : BinaryFormat) (magnitude : Nat) :
    f.units magnitude = 0 ↔ magnitude = 0 := by
  have hzero : f.units 0 = 0 := by simp [units]
  exact ⟨fun h => f.units_strictMono.injective (h.trans hzero.symm), fun h => h ▸ hzero⟩

/-! ### Signed patterns -/

/-- A finite pattern in units of the least positive number. -/
def signedUnits (f : BinaryFormat) (pattern : Nat) : Int :=
  if f.isNegative pattern then -f.units (f.magnitude pattern) else f.units (f.magnitude pattern)

/-- Keys are ordered as the numbers that they stand for; the two zeros have one key. -/
theorem key_lt_iff_signedUnits : f.key x < f.key y ↔ f.signedUnits x < f.signedUnits y := by
  have hup := f.units_strictMono.lt_iff_lt (a := f.magnitude x) (b := f.magnitude y)
  have hdown := f.units_strictMono.lt_iff_lt (a := f.magnitude y) (b := f.magnitude x)
  have hx := f.units_eq_zero_iff (f.magnitude x)
  have hy := f.units_eq_zero_iff (f.magnitude y)
  unfold key signedUnits
  split <;> split <;> omega

/-- What a finite pattern stands for, in units of the least positive number. -/
theorem read_of_isFinite (h : f.isFinite pattern = true) :
    ∃ mantissa exponent, f.read pattern = .finite (f.isNegative pattern) mantissa exponent ∧
      (mantissa : ℚ) * 2 ^ exponent = f.units (f.magnitude pattern) * 2 ^ f.leastExponent := by
  have hfinite : f.magnitude pattern < f.infinityPattern := of_decide_eq_true h
  have hnan : f.isNaN pattern = false := decide_eq_false (Nat.lt_asymm hfinite)
  have hinfinite : f.isInfinite pattern = false := beq_false_of_ne (Nat.ne_of_lt hfinite)
  unfold read units
  simp only [hnan, hinfinite, Bool.false_eq_true, if_false]
  split
  · exact ⟨_, _, rfl, rfl⟩
  · refine ⟨_, _, rfl, ?_⟩
    rw [zpow_add₀ two_ne_zero, zpow_natCast, Nat.cast_mul, Nat.cast_pow, Nat.cast_two, mul_assoc,
      mul_comm (2 ^ f.leastExponent)]

/-- A finite number is its units, scaled. -/
theorem value_eq_signedUnits (h : f.isFinite pattern = true) :
    f.value pattern = f.signedUnits pattern * 2 ^ f.leastExponent := by
  obtain ⟨mantissa, exponent, hread, hunits⟩ := read_of_isFinite h
  simp only [value, hread, hunits, signedUnits]
  split <;> simp

/-- A pattern that is not a number reads as none. -/
theorem extended_of_isNaN (h : f.isNaN pattern = true) : f.extended pattern = .nan := by
  simp [extended, read, h]

/-- An infinite pattern reads as infinity with its sign. -/
theorem extended_of_isInfinite (h : f.isInfinite pattern = true) :
    f.extended pattern = .infinity (f.isNegative pattern) := by
  have hnan : f.isNaN pattern = false := by
    simp only [isInfinite, beq_iff_eq] at h
    simp [isNaN, h]
  simp [extended, read, h, hnan]

/-- A finite pattern reads as its number. -/
theorem extended_of_isFinite (h : f.isFinite pattern = true) :
    f.extended pattern = .number (f.signedUnits pattern * 2 ^ f.leastExponent) := by
  obtain ⟨mantissa, exponent, hread, -⟩ := read_of_isFinite h
  rw [extended, hread, value_eq_signedUnits h]

/-- A pattern is a finite number, an infinity, or no number. -/
theorem kind_cases (f : BinaryFormat) (pattern : Nat) :
    f.isFinite pattern = true ∨ f.isInfinite pattern = true ∨ f.isNaN pattern = true := by
  simp only [isFinite, isInfinite, isNaN, decide_eq_true_eq, beq_iff_eq]
  omega

/-- Only such patterns read as not a number. -/
theorem extended_eq_nan_iff : f.extended pattern = .nan ↔ f.isNaN pattern = true := by
  refine ⟨fun h => ?_, extended_of_isNaN⟩
  rcases f.kind_cases pattern with hfinite | hinfinite | hnan
  · simp [extended_of_isFinite hfinite] at h
  · simp [extended_of_isInfinite hinfinite] at h
  · exact hnan

/-- With exponent bits, infinity is above zero. -/
theorem infinityPattern_pos (hf : 0 < f.exponentBits) : 0 < f.infinityPattern := by
  have hexponents : 2 ^ 1 ≤ 2 ^ f.exponentBits := Nat.pow_le_pow_right (by decide) hf
  exact Nat.mul_pos (by omega) (Nat.two_pow_pos _)

/-- The two zeros are what stands for zero. -/
theorem extended_eq_zero_iff (hf : 0 < f.exponentBits) :
    f.extended pattern = .number 0 ↔ f.magnitude pattern = 0 := by
  have hinfinity := infinityPattern_pos hf
  rcases f.kind_cases pattern with h | h | h
  · have hunit : (2 : ℚ) ^ f.leastExponent ≠ 0 := zpow_ne_zero _ two_ne_zero
    rw [extended_of_isFinite h, ← f.units_eq_zero_iff, signedUnits]
    cases f.isNegative pattern <;> simp [hunit]
  · simp only [isInfinite, beq_iff_eq] at h
    rw [extended_of_isInfinite (beq_iff_eq.2 h), h]
    exact ⟨by simp, fun hzero => absurd hzero (Nat.ne_of_gt hinfinity)⟩
  · rw [extended_of_isNaN h]
    simp only [isNaN, decide_eq_true_eq] at h
    exact ⟨by simp, fun hzero => by omega⟩

/-- **Keys compare as numbers.** -/
theorem key_lt_iff (hf : 0 < f.exponentBits) (hx : f.isNaN x = false) (hy : f.isNaN y = false) :
    f.key x < f.key y ↔ (f.extended x).Below (f.extended y) := by
  have hunit : (0 : ℚ) < 2 ^ f.leastExponent := zpow_pos two_pos _
  have hinfinity := infinityPattern_pos hf
  have hx' := (f.kind_cases x).imp_right (Or.resolve_right · (by simp [hx]))
  have hy' := (f.kind_cases y).imp_right (Or.resolve_right · (by simp [hy]))
  -- Infinities have the greatest magnitude, so that their keys stand at either end.
  rcases hx' with hx' | hx' <;> rcases hy' with hy' | hy'
  · rw [extended_of_isFinite hx', extended_of_isFinite hy', key_lt_iff_signedUnits]
    simp only [Extended.Below]
    rw [mul_lt_mul_iff_of_pos_right hunit, Int.cast_lt]
  · rw [extended_of_isFinite hx', extended_of_isInfinite hy']
    simp only [isFinite, isInfinite, decide_eq_true_eq, beq_iff_eq] at hx' hy'
    cases hsign : f.isNegative x <;> cases hsign' : f.isNegative y <;>
      simp [Extended.Below, key, hsign, hsign'] <;> omega
  · rw [extended_of_isInfinite hx', extended_of_isFinite hy']
    simp only [isFinite, isInfinite, decide_eq_true_eq, beq_iff_eq] at hx' hy'
    cases hsign : f.isNegative x <;> cases hsign' : f.isNegative y <;>
      simp [Extended.Below, key, hsign, hsign'] <;> omega
  · rw [extended_of_isInfinite hx', extended_of_isInfinite hy']
    simp only [isInfinite, beq_iff_eq] at hx' hy'
    cases hsign : f.isNegative x <;> cases hsign' : f.isNegative y <;>
      simp [Extended.Below, key, hsign, hsign'] <;> omega

/-- Two numbers have one key if they read the same; so both zeros have one key. -/
theorem key_eq_iff (hf : 0 < f.exponentBits) (hx : f.isNaN x = false) (hy : f.isNaN y = false) :
    f.key x = f.key y ↔ f.extended x = f.extended y := by
  have hx' : f.extended x ≠ .nan := mt extended_eq_nan_iff.1 (by simp [hx])
  have hy' : f.extended y ≠ .nan := mt extended_eq_nan_iff.1 (by simp [hy])
  rw [Extended.eq_iff_not_below hx' hy', ← key_lt_iff hf hx hy, ← key_lt_iff hf hy hx]
  omega

end BinaryFormat

/-! ### Comparisons -/

/-- What a comparison says of two numbers; nothing holds where one of them is none. -/
def FloatPredicate.Holds (pred : FloatPredicate) (x y : Extended) : Prop :=
  x ≠ .nan ∧ y ≠ .nan ∧ match pred with
    | .oeq => x = y
    | .one => x ≠ y
    | .olt => x.Below y
    | .ole => ¬ y.Below x
    | .ogt => y.Below x
    | .oge => ¬ x.Below y

/-- **Comparisons of patterns** are those of the numbers that they stand for. -/
theorem FloatOp.compare_iff {f : BinaryFormat} (hf : 0 < f.exponentBits) {pred : FloatPredicate}
    {x y : Nat} : FloatOp.compare f pred x y = true ↔ pred.Holds (f.extended x) (f.extended y) := by
  unfold FloatOp.compare FloatPredicate.Holds
  simp only [ne_eq, BinaryFormat.extended_eq_nan_iff]
  cases hx : f.isNaN x with
  | true => simp
  | false =>
    cases hy : f.isNaN y with
    | true => simp
    | false =>
      have hbelow := BinaryFormat.key_lt_iff hf hx hy
      have habove := BinaryFormat.key_lt_iff hf hy hx
      cases pred <;> simp [← hbelow, ← habove, ← BinaryFormat.key_eq_iff hf hx hy]

end ArithWatch
