import ArithWatch.Number.Binary
import Mathlib.Data.Rat.Floor

namespace ArithWatch.BinaryFormat

/-!
# Patterns as rational numbers

* `BinaryFormat.value` is the rational number that a finite pattern stands for.
* `BinaryFormat.floor_value`: the whole part of a pattern without a sign is the floor of its value.
* `BinaryFormat.value_magnitude`: nothing but a sign is lost with the sign bit, and zero has none.
-/

-- `2 ^ n` is the built-in power of natural numbers and integers, whatever else is in scope.
attribute [local instance (2000)] instPowNat

/-- The number that a pattern stands for; zero where it stands for none. -/
def value (f : BinaryFormat) (pattern : Nat) : ℚ :=
  match f.read pattern with
  | .finite negative mantissa exponent => (if negative then -1 else 1) * (mantissa * 2 ^ exponent)
  | .nan | .infinite _ => 0

/-- A mantissa scaled by a power of two is a ratio of natural numbers. -/
theorem mul_two_zpow_eq_div (m : Nat) (e : Int) :
    (m : ℚ) * 2 ^ e = ((m * 2 ^ e.toNat : Nat) : ℚ) / ((2 ^ (-e).toNat : Nat) : ℚ) := by
  rcases Int.le_total 0 e with he | he
  · obtain ⟨n, rfl⟩ := Int.eq_ofNat_of_zero_le he
    rw [Int.toNat_natCast, Int.toNat_of_nonpos (by omega), zpow_natCast]
    simp
  · obtain ⟨n, rfl⟩ : ∃ n : Nat, e = -n := ⟨(-e).toNat, by omega⟩
    rw [Int.toNat_of_nonpos he, Int.neg_neg, Int.toNat_natCast, zpow_neg, zpow_natCast]
    simp [div_eq_mul_inv]

/-- A mantissa scaled by a power of two, without its fraction. -/
theorem floor_mul_two_zpow (m : Nat) (e : Int) :
    ⌊(m : ℚ) * 2 ^ e⌋ = (m * 2 ^ e.toNat / 2 ^ (-e).toNat : Nat) := by
  rw [mul_two_zpow_eq_div, Rat.floor_natCast_div_natCast]
  rfl

variable {f : BinaryFormat} {pattern : Nat}

/-- **The whole part** of a pattern without a sign is the floor of what it stands for. -/
theorem floor_value (h : f.isNegative pattern = false) :
    ⌊f.value pattern⌋ = f.wholePart pattern := by
  have hpositive : ∀ (m : Nat) (e : Int),
      ⌊(if f.isNegative pattern then (-1 : ℚ) else 1) * (m * 2 ^ e)⌋ =
        (m * 2 ^ e.toNat / 2 ^ (-e).toNat : Nat) := by
    intro m e
    rw [h, if_neg (by decide), one_mul, floor_mul_two_zpow]
  unfold value wholePart read
  dsimp only
  split_ifs
  · rfl
  · rfl
  · exact hpositive _ _
  · exact hpositive _ _

/-- A magnitude is its own magnitude. -/
theorem magnitude_magnitude (f : BinaryFormat) (pattern : Nat) :
    f.magnitude (f.magnitude pattern) = f.magnitude pattern := Nat.mod_mod _ _

/-- It has no sign. -/
theorem isNegative_magnitude (f : BinaryFormat) (pattern : Nat) :
    f.isNegative (f.magnitude pattern) = false := by
  have hpos : 0 < f.signWeight := Nat.two_pow_pos _
  rw [isNegative, magnitude, Nat.div_eq_of_lt (Nat.mod_lt _ hpos)]
  rfl

/-- A pattern whose sign says nothing stands for the same as without it. -/
theorem value_magnitude (h : f.isNegative pattern = false ∨ f.magnitude pattern = 0) :
    f.value (f.magnitude pattern) = f.value pattern := by
  rcases h with h | h
  · simp only [value, read, isNaN, isInfinite, magnitude_magnitude, isNegative_magnitude, h]
  · have hzero : ∀ p, f.magnitude p = 0 → f.value p = 0 := by
      intro p hp
      unfold value read
      simp only [isNaN, isInfinite, hp, Nat.zero_div, Nat.zero_mod, if_true]
      split_ifs <;> simp
    rw [hzero pattern h, hzero _ ((magnitude_magnitude f pattern).trans h)]

end ArithWatch.BinaryFormat
