namespace ArithWatch.Word

/-!
# Machine words

Integers of every width live in 64-bit words.  Arithmetic wraps in the word; a width only decides
which low bits count and how they are read.

* `lowMask width` is the word whose low `width` bits are ones.
* `signed width v` reads the low `width` bits of `v` in two's complement.  Width 0 and every width
  above 64 read the whole word.
-/

-- `2 ^ n` is the built-in power of natural numbers and integers, whatever else is in scope.
attribute [local instance (2000)] instPowNat

/-- The word whose low `width` bits are ones; the full word from width 64 on. -/
def lowMask (width : Nat) : UInt64 :=
  if 64 ≤ width then UInt64.ofNat (UInt64.size - 1) else UInt64.ofNat (2 ^ width - 1)

/-- How many low bits a two's complement reading at `width` looks at. -/
def signedSpan (width : Nat) : Nat :=
  if width = 0 ∨ 64 < width then 64 else width

/-- The two's complement reading of the low `width` bits of `v`. -/
def signed (width : Nat) (v : UInt64) : Int :=
  Int.bmod v.toNat (2 ^ signedSpan width)

/-- The mask is all ones, also at the full width. -/
theorem toNat_lowMask_of_le {width : Nat} (h : width ≤ 64) :
    (lowMask width).toNat = 2 ^ width - 1 := by
  rcases Nat.lt_or_eq_of_le h with h | rfl
  · have : 2 ^ width < 2 ^ 64 := Nat.pow_lt_pow_right (by decide) h
    simp only [lowMask, Nat.not_le.2 h, if_false, UInt64.toNat_ofNat']
    omega
  · rfl

/-- Masking keeps the residue modulo the power of two of the width. -/
theorem toNat_and_lowMask {width : Nat} (h : width ≤ 64) (v : UInt64) :
    (v &&& lowMask width).toNat = v.toNat % 2 ^ width := by
  rw [UInt64.toNat_and, toNat_lowMask_of_le h, Nat.and_two_pow_sub_one_eq_mod]

/-- Legal widths span themselves. -/
theorem signedSpan_of_pos_of_le {width : Nat} (h₀ : 0 < width) (h : width ≤ 64) :
    signedSpan width = width := by
  simp [signedSpan, Nat.ne_of_gt h₀, Nat.not_lt.2 h]

example : signed 8 0x1ff = -1 ∧ signed 8 0x7f = 127 ∧ signed 0 5 = 5 ∧ signed 70 (-2) = -2 := by
  decide

end ArithWatch.Word
