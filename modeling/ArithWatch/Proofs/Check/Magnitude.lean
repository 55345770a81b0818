import ArithWatch.Proofs.Check.Overflow
import ArithWatch.Proofs.Number.Exact

namespace ArithWatch

/-!
# The bound conditions against the threshold as a number

* `Threshold.value` is the threshold as a rational number, `Threshold.cutoff` the integer that
  results of a width are held against.
* `Threshold.toInt_intBits` and `Threshold.toNat_intBits`: the constant of the conditions is the
  cutoff, at every width, whether or not the greatest integer of the width is a float.
* `Threshold.slt_intBits_iff` and `Threshold.ult_intBits_iff`: the conditions find the magnitudes
  beyond the cutoff.
* `Threshold.cutoff_lt_of_value_lt` and `Threshold.cutoff_lt_iff` compare that with the threshold.
* `Threshold.intBound_exact`: the constant is right for every threshold and at every width.
* `signedBound_unsignedBound_exact`: so are the conditions, wherever they are appended.
-/

-- `2 ^ n` is the built-in power of natural numbers and integers, whatever else is in scope.
attribute [local instance (2000)] instPowNat

/-- The greatest signed integer of a width. -/
theorem Constant.toNat_signedMax {w : Nat} (hpos : 0 < w) (hw : w ≤ 64) :
    (Constant.signedMax (.int w)).unsigned.toNat = 2 ^ (w - 1) - 1 := by
  have hmax : Scalar.int w (Constant.signedMax (.int w)).unsigned = .ofBits (BitVec.intMax w) :=
    Scalar.ofConstant_signedMax hw hpos
  rw [Scalar.ofBits, Scalar.int.injEq] at hmax
  rw [hmax.2, Word.toNat_ofBits hw, BitVec.toNat_intMax]

/-- An integer constant reads as the integer, which wraps at the width. -/
theorem Constant.signed_int {w : Nat} (hpos : 0 < w) (hw : w ≤ 64) (z : Int) :
    (Constant.int (.int w) z).signed = z.bmod (2 ^ w) := by
  rw [Constant.signed, Constant.int, Ty.patternWidth, Word.and_lowMask hw,
    Word.signed_ofBits hpos hw, Word.setWidth_toBitVec_ofInt hw, BitVec.toInt_ofInt]

namespace Threshold

/-! ### The threshold as a number -/

/-- The threshold as a number. -/
def value (t : Threshold) : ℚ := BinaryFormat.double.value t.pattern

/-- The threshold without its fraction, and at most the greatest signed integer of the width. -/
def cutoff (t : Threshold) (w : Nat) : Int := min ⌊t.value⌋ (2 ^ (w - 1) - 1)

/-- A threshold has no sign. -/
theorem magnitude_pattern (t : Threshold) : BinaryFormat.double.magnitude t.pattern = t.pattern :=
  Nat.mod_eq_of_lt (Nat.lt_trans t.isFinite (by decide))

/-- A threshold is not negative. -/
theorem isNegative_pattern (t : Threshold) : BinaryFormat.double.isNegative t.pattern = false := by
  rw [← t.magnitude_pattern]
  exact BinaryFormat.isNegative_magnitude _ _

/-- The whole part of a threshold is its floor. -/
theorem floor_value (t : Threshold) : ⌊t.value⌋ = t.whole :=
  BinaryFormat.floor_value t.isNegative_pattern

/-- An accepted float is kept as the number that it is. -/
theorem value_of_ofDouble {pattern : Nat} {t : Threshold} (h : ofDouble pattern = .ok t) :
    t.value = BinaryFormat.double.value pattern := by
  rw [ofDouble] at h
  split at h
  · split at h
    · cases h
    · next hsign =>
      cases h
      refine BinaryFormat.value_magnitude ?_
      rw [Bool.eq_false_iff]
      exact (not_and_or.1 hsign).imp_right not_ne_iff.1
  · cases h

/-! ### The constant of a width -/

/-- Among the floats, the greatest signed integer of a width stays or is rounded up by one. -/
theorem wholePart_ofNat_greatest : ∀ k < 64,
    BinaryFormat.double.wholePart (BinaryFormat.double.ofNat (2 ^ k - 1)) = 2 ^ k - 1 ∨
      BinaryFormat.double.wholePart (BinaryFormat.double.ofNat (2 ^ k - 1)) = 2 ^ k := by
  decide +kernel

section Width

variable {w : Nat} (t : Threshold) (hpos : 0 < w) (hw : w ≤ 64)

include hpos hw

/-- The rounding does not show: there is no whole number between the two limits. -/
theorem intBits_eq : t.intBits w = BitVec.ofNat w (min t.whole (2 ^ (w - 1) - 1)) := by
  have hround := wholePart_ofNat_greatest (w - 1) (by omega)
  have hsmaller : (if BinaryFormat.double.wholePart (BinaryFormat.double.ofNat (2 ^ (w - 1) - 1)) ≤
      t.whole then ((2 ^ (w - 1) - 1 : Nat) : Int) else t.whole) =
        (min t.whole (2 ^ (w - 1) - 1) : Nat) := by
    split <;> omega
  rw [intBits, intBound, Constant.toNat_signedMax hpos hw, hsmaller, Constant.int, Ty.patternWidth,
    Word.and_lowMask hw, Word.setWidth_toBitVec_ofBits hw, Word.setWidth_toBitVec_ofInt hw,
    BitVec.ofInt_natCast]

/-- The limit in the code is the cutoff. -/
theorem toNat_intBits : ((t.intBits w).toNat : Int) = t.cutoff w := by
  have hlt : 2 ^ (w - 1) < 2 ^ w := Nat.pow_lt_pow_right (by decide) (by omega)
  have hpow : 0 < 2 ^ (w - 1) := Nat.two_pow_pos _
  have hcast : ((2 ^ (w - 1) : Nat) : Int) = 2 ^ (w - 1) := Int.natCast_pow 2 _
  rw [intBits_eq t hpos hw, BitVec.toNat_ofNat, Nat.mod_eq_of_lt (by omega), cutoff, floor_value]
  omega

/-- The cutoff fits the signed range. -/
theorem fitsSigned_cutoff : 0 ≤ t.cutoff w ∧ t.cutoff w < 2 ^ (w - 1) := by
  have hnat := toNat_intBits t hpos hw
  have hle : t.cutoff w ≤ 2 ^ (w - 1) - 1 := min_le_right _ _
  omega

/-- So it is the same number when read as signed. -/
theorem toInt_intBits : (t.intBits w).toInt = t.cutoff w := by
  obtain ⟨hlow, hhigh⟩ := fitsSigned_cutoff t hpos hw
  rw [BitVec.toInt_eq_toNat_bmod, toNat_intBits t hpos hw,
    bmod_of_fitsSigned hpos ⟨by omega, hhigh⟩]

/-- The lower end is its negation. -/
theorem toInt_neg_intBits : (-t.intBits w).toInt = -t.cutoff w := by
  obtain ⟨hlow, hhigh⟩ := fitsSigned_cutoff t hpos hw
  rw [BitVec.toInt_neg, toInt_intBits t hpos hw, bmod_of_fitsSigned hpos ⟨by omega, by omega⟩]

/-- The constant reads as the cutoff. -/
theorem signed_intBound : (t.intBound (.int w)).signed = t.cutoff w :=
  (Word.signed_eq_toInt hpos hw _).trans (toInt_intBits t hpos hw)

/-! ### Magnitudes beyond the cutoff -/

/-- A word is outside the two ends if its magnitude is beyond the cutoff. -/
theorem slt_intBits_iff (z : BitVec w) :
    (z.slt (-t.intBits w) || (t.intBits w).slt z) = true ↔ t.cutoff w < |z.toInt| := by
  rw [Bool.or_eq_true, BitVec.slt_iff_toInt_lt, BitVec.slt_iff_toInt_lt,
    toInt_neg_intBits t hpos hw, toInt_intBits t hpos hw, lt_abs]
  omega

/-- The unsigned comparison is beyond the cutoff as numbers are. -/
theorem ult_intBits_iff (z : BitVec w) :
    (t.intBits w).ult z = true ↔ t.cutoff w < (z.toNat : Int) := by
  rw [BitVec.ult_iff_lt, BitVec.lt_def, ← toNat_intBits t hpos hw, Int.ofNat_lt]

end Width

/-- What is beyond the threshold is beyond the cutoff. -/
theorem cutoff_lt_of_value_lt (t : Threshold) (w : Nat) {n : Int} (h : t.value < n) :
    t.cutoff w < n :=
  Int.lt_of_le_of_lt (min_le_left _ _) (Int.floor_lt.2 h)

/-- Below the signed range the cutoff tells the same integers apart as the threshold. -/
theorem cutoff_lt_iff {t : Threshold} {w : Nat} (ht : t.value < (2 ^ (w - 1) : Int)) (n : Int) :
    t.cutoff w < n ↔ t.value < n := by
  have hfloor : ⌊t.value⌋ < 2 ^ (w - 1) := Int.floor_lt.2 ht
  rw [cutoff, min_eq_left (by omega), Int.floor_lt]

/-! ### The whole range of thresholds and widths -/

/-- A greater threshold has no smaller cutoff. -/
theorem cutoff_mono {t t' : Threshold} (h : t.value ≤ t'.value) (w : Nat) :
    t.cutoff w ≤ t'.cutoff w :=
  min_le_min_right _ (Int.floor_le_floor h)

/-- A threshold is accepted as the float that it is. -/
theorem ofDouble_pattern (t : Threshold) : ofDouble t.pattern = .ok t := by
  simp [ofDouble, t.magnitude_pattern, t.isNegative_pattern, t.isFinite]

/-- From width 55 on the limit of the comparison is one more than the greatest integer. -/
theorem wholePart_ofNat_greatest_of_wide : ∀ k < 64, 54 ≤ k →
    BinaryFormat.double.wholePart (BinaryFormat.double.ofNat (2 ^ k - 1)) = 2 ^ k := by
  decide

/-- **The threshold as an integer** neither overshoots nor undershoots, at any width: read with its
    sign, the constant is the threshold without its fraction, or the greatest integer of the width
    if that is less.  So it is not negative, its negation does not wrap, and it grows with the
    threshold.  That holds also where the limit of the comparison is rounded up. -/
theorem intBound_exact (t : Threshold) {w : Nat} (hpos : 1 ≤ w) (hw : w ≤ 64) :
    ofDouble t.pattern = .ok t ∧
    (∀ pattern, ofDouble pattern = .ok t → BinaryFormat.double.value pattern = t.value) ∧
    (t.intBound (.int w)).signed = min ⌊t.value⌋ (2 ^ (w - 1) - 1) ∧
    0 ≤ (t.intBound (.int w)).signed ∧
    (Constant.int (.int w) (-(t.intBound (.int w)).signed)).signed =
      -(t.intBound (.int w)).signed ∧
    (∀ t' : Threshold, t.value ≤ t'.value →
      (t.intBound (.int w)).signed ≤ (t'.intBound (.int w)).signed) ∧
    (54 < w → BinaryFormat.double.wholePart (BinaryFormat.double.ofNat
      (Constant.signedMax (.int w)).unsigned.toNat) = 2 ^ (w - 1)) := by
  have hsigned := signed_intBound t hpos hw
  refine ⟨t.ofDouble_pattern, fun pattern h => (value_of_ofDouble h).symm, hsigned, ?_, ?_,
    fun t' hle => ?_, fun hwide => ?_⟩
  · rw [hsigned]
    exact (fitsSigned_cutoff t hpos hw).1
  · obtain ⟨hlow, hhigh⟩ := fitsSigned_cutoff t hpos hw
    rw [Constant.signed_int hpos hw, hsigned, bmod_of_fitsSigned hpos ⟨by omega, by omega⟩]
  · rw [hsigned, signed_intBound t' hpos hw]
    exact cutoff_mono hle w
  · -- Above 54 bits the greatest signed number is no double, and rounds up to the power of two.
    rw [Constant.toNat_signedMax hpos hw]
    exact wholePart_ofNat_greatest_of_wide (w - 1) (by omega) (by omega)

/-- The threshold 2^63: at width 64 it is the rounded limit, and the bound is one less. -/
theorem intBound_exact_greatest :
    (1 ≤ 64 ∧ 64 ≤ 64) ∧ ∃ t : Threshold, ofDouble 0x43e0000000000000 = .ok t ∧
      t.value = 2 ^ 63 ∧ (t.intBound (.int 64)).signed = 2 ^ 63 - 1 := by
  obtain ⟨t, ht⟩ : ∃ t : Threshold, t = ⟨0x43e0000000000000, by decide⟩ := ⟨_, rfl⟩
  have hvalue : t.value = 2 ^ 63 := by
    rw [ht]
    decide +kernel
  obtain ⟨haccepted, -, hsigned, -⟩ := intBound_exact t (w := 64) (by decide) (by decide)
  refine ⟨by decide, t, ht ▸ haccepted, hvalue, ?_⟩
  rw [hsigned, hvalue]
  decide

end Threshold

/-! ### The appended conditions -/

section Appended

variable {f : Function} {c : Cursor} {w : Watched} {pattern : Nat} {t : Threshold}

/-- **The bound conditions are exact.** Appended anywhere and run on a result `r`, they find out
    whether its magnitude, signed or unsigned, is beyond the cutoff of the threshold.  Every result
    beyond the threshold is found, and nothing else as long as the threshold is in the range of the
    magnitudes. -/
theorem signedBound_unsignedBound_exact (ht : Threshold.ofDouble pattern = .ok t)
    (hc : c.block.index < f.blocks.size) (hw : w.Typed f) (hty : w.ty = .int 32)
    (a b r : BitVec 32) :
    t.value = BinaryFormat.double.value pattern ∧ t.cutoff 32 = min ⌊t.value⌋ (2 ^ 31 - 1) ∧
    CheckPredicate.signedBound.Yields t f c w (.ofBits a) (.ofBits b) (.ofBits r)
      (decide (t.cutoff 32 < |r.toInt|)) ∧
    CheckPredicate.unsignedBound.Yields t f c w (.ofBits a) (.ofBits b) (.ofBits r)
      (decide (t.cutoff 32 < (r.toNat : Int))) ∧
    (t.value < (|r.toInt| : Int) → t.cutoff 32 < |r.toInt|) ∧
    (t.value < (r.toNat : Int) → t.cutoff 32 < (r.toNat : Int)) ∧
    (t.value < 2 ^ 31 → (t.cutoff 32 < |r.toInt| ↔ t.value < (|r.toInt| : Int)) ∧
      (t.cutoff 32 < (r.toNat : Int) ↔ t.value < (r.toNat : Int))) := by
  have hpos : 0 < 32 := by decide
  have hwidth : 32 ≤ 64 := by decide
  -- The cutoff is what both checks compare with; below 2^31 it is the floor of the threshold.
  refine ⟨Threshold.value_of_ofDouble ht, rfl, ?_, ?_, t.cutoff_lt_of_value_lt 32,
    t.cutoff_lt_of_value_lt 32, fun hlt => ?_⟩
  · exact CheckPredicate.yields_int hc hw hty rfl
      (CheckPredicate.value?_signedBound hpos hwidth t _ _ r) (t.slt_intBits_iff hpos hwidth r)
  · exact CheckPredicate.yields_int hc hw hty rfl
      (CheckPredicate.value?_unsignedBound hpos hwidth t _ _ r) (t.ult_intBits_iff hpos hwidth r)
  · have hrange : t.value < ((2 ^ (32 - 1) : Int) : ℚ) := by
      push_cast
      exact hlt
    exact ⟨Threshold.cutoff_lt_iff hrange _, Threshold.cutoff_lt_iff hrange _⟩

end Appended

/-- The threshold 2147483647.5, between the greatest signed integer of 32 bits and the least
    magnitude beyond it. -/
def Threshold.edge : Threshold := ⟨0x41dfffffffe00000, by decide⟩

/-- The least integer is beyond that threshold, and so is its unsigned reading. -/
theorem signedBound_unsignedBound_exact_edge :
    Threshold.ofDouble 0x41dfffffffe00000 = .ok .edge ∧
      CheckPredicate.signedBound.Leaves .edge doubling { block := ⟨2⟩ } .add 0#32
        (BitVec.intMin 32) (BitVec.intMin 32) true ∧
      CheckPredicate.unsignedBound.Leaves .edge doubling { block := ⟨2⟩ } .add 0#32
        (BitVec.intMin 32) (BitVec.intMin 32) true := by
  have haccepted : Threshold.ofDouble 0x41dfffffffe00000 = .ok .edge := rfl
  have hcutoff : Threshold.edge.cutoff 32 = 2147483647 := by
    rw [← Threshold.toInt_intBits _ (by decide) (by decide)]
    rfl
  obtain ⟨-, -, hsigned, hunsigned, -⟩ := signedBound_unsignedBound_exact (c := { block := ⟨2⟩ })
    haccepted (f := doubling) (w := .leading .add) (by decide) ⟨rfl, rfl, rfl⟩ rfl 0#32
    (BitVec.intMin 32) (BitVec.intMin 32)
  rw [hcutoff] at hsigned hunsigned
  exact ⟨haccepted, hsigned.leaves, hunsigned.leaves⟩

end ArithWatch
