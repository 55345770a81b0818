import ArithWatch.Proofs.Number.Order
import Mathlib.Tactic.Positivity

namespace ArithWatch

/-!
# Rounding what needs no rounding

A number that a format can hold is rounded to itself.  So a conversion between formats is exact
where the target holds the number, and a conversion to the wider format and back changes nothing.

* `BinaryFormat.floorLog2_spec`: the binary logarithm of a ratio, without its fraction.
* `BinaryFormat.roundMagnitude_eq` and `BinaryFormat.convert_eq`: rounding and converting are exact
  on the numbers of the format.
* `BinaryFormat.extended_widen`: a pattern stands for the same in the wider format.
* `BinaryFormat.narrow_neg_widen`: widened, negated and narrowed again, a number is negated.
* `FloatOp.compare_widen`: comparisons may be made in the wider format.
-/

-- `2 ^ n` is the built-in power of natural numbers and integers, whatever else is in scope.
attribute [local instance (2000)] instPowNat

namespace BinaryFormat

variable {f source target : BinaryFormat} {num den magnitude pattern : Nat} {negative : Bool}

/-! ### The logarithm of a ratio -/

/-- Powers of two are quotients of naturals, one of which is one. -/
theorem two_zpow_eq_div (e : Int) :
    (2 : ℚ) ^ e = ((2 ^ e.toNat : Nat) : ℚ) / ((2 ^ (-e).toNat : Nat) : ℚ) := by
  have h := mul_two_zpow_eq_div 1 e
  rwa [Nat.cast_one, one_mul, Nat.one_mul] at h

/-- The difference of the logarithms of two numbers is close to the logarithm of their ratio. -/
theorem log2_sub_log2_spec (hnum : 0 < num) (hden : 0 < den) :
    (2 : ℚ) ^ ((Nat.log2 num : Int) - Nat.log2 den - 1) ≤ num / den ∧
      (num / den : ℚ) < 2 ^ ((Nat.log2 num : Int) - Nat.log2 den + 1) := by
  have hnumlow : (2 : ℚ) ^ Nat.log2 num ≤ num := by
    exact_mod_cast Nat.log2_self_le (Nat.ne_of_gt hnum)
  have hnumhigh : (num : ℚ) < 2 ^ (Nat.log2 num + 1) := by
    exact_mod_cast (Nat.log2_lt (Nat.ne_of_gt hnum)).1 (Nat.lt_succ_self _)
  have hdenlow : (2 : ℚ) ^ Nat.log2 den ≤ den := by
    exact_mod_cast Nat.log2_self_le (Nat.ne_of_gt hden)
  have hdenhigh : (den : ℚ) ≤ 2 ^ (Nat.log2 den + 1) := by
    exact_mod_cast Nat.le_of_lt ((Nat.log2_lt (Nat.ne_of_gt hden)).1 (Nat.lt_succ_self _))
  have hden' : (0 : ℚ) < den := by exact_mod_cast hden
  -- Either logarithm is less than one too small, and the errors go in opposite directions.
  constructor
  · have hexponent : ((Nat.log2 num : Int) - Nat.log2 den - 1) =
        (Nat.log2 num : Int) - ((Nat.log2 den + 1 : Nat) : Int) := by
      push_cast
      ring
    rw [hexponent, zpow_sub₀ two_ne_zero, zpow_natCast, zpow_natCast]
    exact div_le_div₀ (Nat.cast_nonneg _) hnumlow hden' hdenhigh
  · have hexponent : ((Nat.log2 num : Int) - Nat.log2 den + 1) =
        ((Nat.log2 num + 1 : Nat) : Int) - (Nat.log2 den : Int) := by
      push_cast
      ring
    rw [hexponent, zpow_sub₀ two_ne_zero, zpow_natCast, zpow_natCast]
    exact div_lt_div₀ hnumhigh hdenlow (by positivity) (by positivity)

/-- **The logarithm** of a ratio, without its fraction. -/
theorem floorLog2_spec (hnum : 0 < num) (hden : 0 < den) :
    (2 : ℚ) ^ floorLog2 num den ≤ num / den ∧
      (num / den : ℚ) < 2 ^ (floorLog2 num den + 1) := by
  have hden' : (0 : ℚ) < den := by exact_mod_cast hden
  obtain ⟨guess, hguess⟩ : ∃ guess : Int, guess = (Nat.log2 num : Int) - (Nat.log2 den : Int) :=
    ⟨_, rfl⟩
  obtain ⟨hlow, hhigh⟩ := log2_sub_log2_spec hnum hden
  rw [← hguess] at hlow hhigh
  -- The test on natural numbers holds the ratio against the power of the guess.
  have htest : num * 2 ^ (-guess).toNat < den * 2 ^ guess.toNat ↔ (num / den : ℚ) < 2 ^ guess := by
    have hpos : (0 : ℚ) < ((2 ^ (-guess).toNat : Nat) : ℚ) := by
      exact_mod_cast Nat.two_pow_pos _
    rw [two_zpow_eq_div, div_lt_div_iff₀ hden' hpos, mul_comm ((2 ^ guess.toNat : Nat) : ℚ)]
    exact_mod_cast Iff.rfl
  rw [floorLog2, ← hguess]
  split
  · next h => exact ⟨hlow, by rw [sub_add_cancel]; exact htest.1 h⟩
  · next h => exact ⟨not_lt.1 (mt htest.2 h), hhigh⟩

/-- The binary exponent is below any power the quotient does not reach. -/
theorem floorLog2_lt {k : Int} (hnum : 0 < num) (hden : 0 < den) (h : (num / den : ℚ) < 2 ^ k) :
    floorLog2 num den < k :=
  (zpow_lt_zpow_iff_right₀ one_lt_two).1 ((floorLog2_spec hnum hden).1.trans_lt h)

/-- It is at least any power the quotient reaches. -/
theorem le_floorLog2 {k : Int} (hnum : 0 < num) (hden : 0 < den) (h : 2 ^ k ≤ (num / den : ℚ)) :
    k ≤ floorLog2 num den :=
  Int.lt_add_one_iff.1
    ((zpow_lt_zpow_iff_right₀ one_lt_two).1 (h.trans_lt (floorLog2_spec hnum hden).2))

/-! ### Rounding the numbers of a format -/

/-- A quotient without remainder is not rounded. -/
theorem divRoundEven_mul (n : Nat) (hden : 0 < den) : divRoundEven (n * den) den = n := by
  simp [divRoundEven, Nat.mul_mod_left, Nat.mul_div_cancel n hden, hden]

/-- The last place of a number of the format is the one of its mantissa. -/
theorem last_eq {mantissa shift : Nat} (hsig : f.Significand mantissa shift) (hnum : 0 < num)
    (hden : 0 < den) (heq : (num / den : ℚ) = mantissa * 2 ^ (f.leastExponent + shift)) :
    max f.leastExponent (floorLog2 num den - f.fractionBits) = f.leastExponent + shift := by
  have hunit : (0 : ℚ) < 2 ^ (f.leastExponent + shift) := zpow_pos two_pos _
  have hhigh : floorLog2 num den < f.fractionBits + 1 + (f.leastExponent + shift) := by
    refine floorLog2_lt hnum hden ?_
    have hnat : mantissa < 2 ^ (f.fractionBits + 1) := by
      rw [Nat.pow_succ, Nat.mul_comm]
      exact hsig.lt
    have hlt : (mantissa : ℚ) < 2 ^ ((f.fractionBits : Int) + 1) := by exact_mod_cast hnat
    rw [heq, zpow_add₀ two_ne_zero ((f.fractionBits : Int) + 1)]
    exact mul_lt_mul_of_pos_right hlt hunit
  -- A mantissa that is not full stands at the least exponent, where the maximum cuts in.
  rcases hsig.full with rfl | hfull
  · simp only [Nat.cast_zero, add_zero] at hhigh ⊢
    omega
  · have hlow : f.fractionBits + (f.leastExponent + shift) ≤ floorLog2 num den := by
      refine le_floorLog2 hnum hden ?_
      have hle : (2 : ℚ) ^ (f.fractionBits : Int) ≤ mantissa := by exact_mod_cast hfull
      rw [heq, zpow_add₀ two_ne_zero (f.fractionBits : Int)]
      exact mul_le_mul_of_nonneg_right hle hunit.le
    omega

/-- **Rounding is exact** on the numbers of the format. -/
theorem roundMagnitude_eq (hden : 0 < den) (hlt : magnitude < f.infinityPattern)
    (heq : (num / den : ℚ) = f.units magnitude * 2 ^ f.leastExponent) :
    f.roundMagnitude num den = magnitude := by
  have hden' : (den : ℚ) ≠ 0 := by exact_mod_cast Nat.ne_of_gt hden
  have hleast : (2 : ℚ) ^ f.leastExponent ≠ 0 := zpow_ne_zero _ two_ne_zero
  have hzero : num = 0 ↔ magnitude = 0 := by
    rw [← f.units_eq_zero_iff magnitude]
    have hratio : (num / den : ℚ) = 0 ↔ num = 0 := by simp [hden']
    have hunits : (f.units magnitude * 2 ^ f.leastExponent : ℚ) = 0 ↔ f.units magnitude = 0 := by
      simp [hleast]
    rw [← hratio, heq, hunits]
  by_cases hnum : num = 0
  · rw [roundMagnitude, if_pos hnum, hzero.1 hnum]
  obtain ⟨mantissa, shift, hsig, rfl⟩ := f.exists_significand magnitude
  have heq' : (num / den : ℚ) = mantissa * 2 ^ (f.leastExponent + shift) := by
    rw [heq, units_eq hsig, zpow_add₀ two_ne_zero, zpow_natCast]
    push_cast
    ring
  have hlast := last_eq hsig (Nat.pos_of_ne_zero hnum) hden heq'
  obtain ⟨last, hlast'⟩ : ∃ last, last = f.leastExponent + (shift : Int) := ⟨_, rfl⟩
  rw [← hlast'] at hlast heq'
  -- In units of its last place the ratio is the mantissa, so that nothing is left to round.
  have hscaled : num * 2 ^ (-last).toNat = mantissa * (den * 2 ^ last.toNat) := by
    have hpos : ((2 ^ (-last).toNat : Nat) : ℚ) ≠ 0 := by
      exact_mod_cast Nat.ne_of_gt (Nat.two_pow_pos _)
    rw [mul_two_zpow_eq_div, div_eq_div_iff hden' hpos] at heq'
    have hnat : num * 2 ^ (-last).toNat = mantissa * 2 ^ last.toNat * den := by exact_mod_cast heq'
    rw [hnat]
    ring
  have hexponent : (last - f.leastExponent).toNat = shift := by omega
  rw [roundMagnitude, if_neg hnum]
  simp only [hlast, hscaled, hexponent, divRoundEven_mul mantissa
    (Nat.mul_pos hden (Nat.two_pow_pos _))]
  exact Nat.min_eq_right (Nat.le_of_lt hlt)

/-! ### Signs -/

/-- Infinity has a pattern without sign. -/
theorem infinityPattern_lt_signWeight (f : BinaryFormat) : f.infinityPattern < f.signWeight := by
  have hfraction : 0 < 2 ^ f.fractionBits := Nat.two_pow_pos _
  have hexponent : 2 ^ f.exponentBits - 1 < 2 ^ f.exponentBits := by
    have := Nat.two_pow_pos f.exponentBits
    omega
  rw [signWeight, Nat.pow_add, Nat.mul_comm]
  exact Nat.mul_lt_mul_of_pos_right hexponent hfraction

/-- The magnitude leaves the sign out. -/
theorem magnitude_lt (f : BinaryFormat) (pattern : Nat) : f.magnitude pattern < f.signWeight :=
  Nat.mod_lt _ (Nat.two_pow_pos _)

/-- A signed magnitude has that magnitude. -/
theorem magnitude_withSign (negative : Bool) (h : magnitude < f.signWeight) :
    f.magnitude (f.withSign negative magnitude) = magnitude := by
  cases negative <;> simp [BinaryFormat.magnitude, withSign, Nat.mod_eq_of_lt h]

/-- And that sign. -/
theorem isNegative_withSign (negative : Bool) (h : magnitude < f.signWeight) :
    f.isNegative (f.withSign negative magnitude) = negative := by
  have hpos : 0 < f.signWeight := Nat.two_pow_pos _
  cases negative <;> simp [isNegative, withSign, Nat.div_eq_of_lt h, Nat.add_div_left _ hpos]

/-- A pattern without a sign that is a number stands for no negative one. -/
theorem extended_of_le (h : pattern ≤ f.infinityPattern) :
    f.extended pattern = .infinity false ∨ ∃ q, 0 ≤ q ∧ f.extended pattern = .number q := by
  have hlt : pattern < f.signWeight := Nat.lt_of_le_of_lt h f.infinityPattern_lt_signWeight
  have hmagnitude : f.magnitude pattern = pattern := magnitude_withSign false hlt
  have hsign : f.isNegative pattern = false := isNegative_withSign false hlt
  rcases Nat.lt_or_eq_of_le h with hfinite | hinfinite
  · have hpositive : (0 : ℚ) ≤ f.units pattern * 2 ^ f.leastExponent :=
      mul_nonneg (Nat.cast_nonneg _) (zpow_nonneg zero_le_two _)
    refine .inr ⟨_, hpositive, ?_⟩
    rw [extended_of_isFinite (decide_eq_true (hmagnitude.symm ▸ hfinite)), signedUnits, hsign,
      hmagnitude]
    simp
  · rw [extended_of_isInfinite (beq_iff_eq.2 (hmagnitude.trans hinfinite)), hsign]
    exact .inl rfl

/-- The other sign stands for the number with the other sign. -/
theorem extended_neg (f : BinaryFormat) (pattern : Nat) :
    f.extended (f.neg pattern) = (f.extended pattern).neg := by
  have hmagnitude : f.magnitude (f.neg pattern) = f.magnitude pattern :=
    magnitude_withSign _ (f.magnitude_lt pattern)
  have hsign : f.isNegative (f.neg pattern) = !f.isNegative pattern :=
    isNegative_withSign _ (f.magnitude_lt pattern)
  rcases f.kind_cases pattern with h | h | h
  · have h' : f.isFinite (f.neg pattern) = true := by rwa [isFinite, hmagnitude]
    rw [extended_of_isFinite h, extended_of_isFinite h', signedUnits, signedUnits, hmagnitude,
      hsign]
    cases f.isNegative pattern <;> simp [Extended.neg]
  · have h' : f.isInfinite (f.neg pattern) = true := by rwa [isInfinite, hmagnitude]
    rw [extended_of_isInfinite h, extended_of_isInfinite h', hsign, Extended.neg]
  · have h' : f.isNaN (f.neg pattern) = true := by rwa [isNaN, hmagnitude]
    rw [extended_of_isNaN h, extended_of_isNaN h', Extended.neg]

/-! ### Conversions -/

/-- **A conversion is exact** where the target holds the number. -/
theorem convert_eq (hfinite : source.isFinite pattern = true)
    (hlt : magnitude < target.infinityPattern)
    (heq : (source.units (source.magnitude pattern) : ℚ) * 2 ^ source.leastExponent =
      target.units magnitude * 2 ^ target.leastExponent) :
    source.convert target pattern = target.withSign (source.isNegative pattern) magnitude := by
  obtain ⟨mantissa, exponent, hread, hunits⟩ := read_of_isFinite hfinite
  simp only [convert, hread, roundScaled, round]
  rw [roundMagnitude_eq (Nat.two_pow_pos _) hlt (by rw [← mul_two_zpow_eq_div, hunits, heq])]

/-- The nearest pattern to a number is a number or an infinity. -/
theorem exists_convert_of_isFinite (h : source.isFinite pattern = true) (target : BinaryFormat) :
    ∃ magnitude ≤ target.infinityPattern,
      source.convert target pattern = target.withSign (source.isNegative pattern) magnitude := by
  obtain ⟨mantissa, exponent, hread, -⟩ := read_of_isFinite h
  refine ⟨target.roundMagnitude (mantissa * 2 ^ exponent.toNat) (2 ^ (-exponent).toNat), ?_, ?_⟩
  · unfold roundMagnitude
    split
    · exact Nat.zero_le _
    · exact Nat.min_le_left _ _
  · simp only [convert, hread, roundScaled, round]

/-- Infinities are converted to infinities. -/
theorem convert_of_isInfinite (h : source.isInfinite pattern = true) :
    source.convert target pattern =
      target.withSign (source.isNegative pattern) target.infinityPattern := by
  have hnan : source.isNaN pattern = false := by
    simp only [isInfinite, beq_iff_eq] at h
    simp [isNaN, h]
  simp [convert, read, h, hnan]

/-! ### Widening -/

/-- Every number of the narrower format is one of the wider format. -/
theorem exists_wide_units (h : magnitude < single.infinityPattern) :
    ∃ wide, wide < double.infinityPattern ∧
      double.units wide = single.units magnitude * 2 ^ 925 := by
  by_cases hzero : magnitude = 0
  · refine ⟨0, by decide, ?_⟩
    rw [(double.units_eq_zero_iff 0).2 rfl, hzero, (single.units_eq_zero_iff 0).2 rfl, Nat.zero_mul]
  obtain ⟨mantissa, shift, hsig, rfl⟩ := single.exists_significand magnitude
  have hmantissa : mantissa ≠ 0 := by
    rintro rfl
    rcases hsig.full with rfl | hfull
    · exact hzero rfl
    · exact absurd hfull (by decide)
  have hshift : shift ≤ 253 := by
    have hbound : shift * 2 ^ 23 + mantissa < 255 * 2 ^ 23 := h
    rcases hsig.full with hfull | hfull
    · omega
    · have hfull' : 2 ^ 23 ≤ mantissa := hfull
      omega
  -- The mantissa is moved up until it has all digits of the wider format.
  obtain ⟨digits, hdigits⟩ : ∃ digits, digits = Nat.log2 mantissa := ⟨_, rfl⟩
  have hlow : 2 ^ digits ≤ mantissa := hdigits ▸ Nat.log2_self_le hmantissa
  have hhigh : mantissa < 2 ^ (digits + 1) :=
    hdigits ▸ (Nat.log2_lt hmantissa).1 (Nat.lt_succ_self _)
  have hle : digits ≤ 23 := by
    have hlt : 2 ^ digits < 2 ^ 24 := Nat.lt_of_le_of_lt hlow hsig.lt
    exact Nat.le_of_lt_succ ((Nat.pow_lt_pow_iff_right (by decide)).1 hlt)
  have hfull : 2 ^ 52 ≤ mantissa * 2 ^ (52 - digits) := calc
    2 ^ 52 = 2 ^ digits * 2 ^ (52 - digits) := by rw [← Nat.pow_add]; congr 1; omega
    _ ≤ mantissa * 2 ^ (52 - digits) := Nat.mul_le_mul_right _ hlow
  have hlt : mantissa * 2 ^ (52 - digits) < 2 * 2 ^ 52 := calc
    mantissa * 2 ^ (52 - digits) < 2 ^ (digits + 1) * 2 ^ (52 - digits) :=
      Nat.mul_lt_mul_of_pos_right hhigh (Nat.two_pow_pos _)
    _ = 2 * 2 ^ 52 := by rw [← Nat.pow_add, ← Nat.pow_succ']; congr 1; omega
  have hwide : double.Significand (mantissa * 2 ^ (52 - digits)) (shift + 925 - (52 - digits)) :=
    ⟨hlt, .inr hfull⟩
  refine ⟨_, ?_, (units_eq hwide).trans ?_⟩
  · show _ * 2 ^ 52 + _ < 2047 * 2 ^ 52
    omega
  · rw [units_eq hsig, Nat.mul_assoc, Nat.mul_assoc, ← Nat.pow_add, ← Nat.pow_add]
    congr 2
    omega

/-- Each single number is a double number. -/
theorem exists_wide (h : magnitude < single.infinityPattern) :
    ∃ wide, wide < double.infinityPattern ∧
      (single.units magnitude : ℚ) * 2 ^ single.leastExponent =
        double.units wide * 2 ^ double.leastExponent := by
  obtain ⟨wide, hlt, hunits⟩ := exists_wide_units h
  refine ⟨wide, hlt, ?_⟩
  have hsingle : single.leastExponent = (925 : Nat) + double.leastExponent := by decide
  rw [hunits, hsingle, zpow_add₀ two_ne_zero, zpow_natCast, Nat.cast_mul, Nat.cast_pow,
    Nat.cast_two, mul_assoc]

/-- Widened, what is no number stays so. -/
theorem isNaN_widen (h : single.isNaN pattern = true) :
    double.isNaN (single.convert double pattern) = true := by
  -- The bit that marks a quiet one is set, so that the fraction is not zero.
  have hor : ∀ n < 2 ^ 52, 0 < (n ||| 2 ^ 51) ∧ (n ||| 2 ^ 51) < 2 ^ 52 := fun n hn =>
    ⟨Nat.lt_of_lt_of_le (by decide) Nat.right_le_or, Nat.or_lt_two_pow hn (by decide)⟩
  have haligned : single.magnitude pattern % 2 ^ 23 * 2 ^ 52 / 2 ^ 23 < 2 ^ 52 := by
    have := Nat.mod_lt (single.magnitude pattern) (Nat.two_pow_pos 23)
    omega
  obtain ⟨hpos, hlt⟩ := hor _ haligned
  have hread : single.read pattern = .nan := by simp [read, h]
  rw [convert, hread, isNaN]
  simp only
  rw [magnitude_withSign]
  · exact decide_eq_true (Nat.lt_add_of_pos_right hpos)
  · show 2047 * 2 ^ 52 + _ < 2 ^ 63
    exact Nat.lt_of_lt_of_le (Nat.add_lt_add_left hlt _) (by decide)

/-- **Widening** changes nothing. -/
theorem extended_widen (pattern : Nat) :
    double.extended (single.convert double pattern) = single.extended pattern := by
  rcases single.kind_cases pattern with h | h | h
  · have hmagnitude : single.magnitude pattern < single.infinityPattern := of_decide_eq_true h
    obtain ⟨wide, hlt, heq⟩ := exists_wide hmagnitude
    have hlt' := Nat.lt_trans hlt double.infinityPattern_lt_signWeight
    have hfinite : double.isFinite (double.withSign (single.isNegative pattern) wide) = true := by
      rw [isFinite, magnitude_withSign _ hlt']
      exact decide_eq_true hlt
    rw [convert_eq h hlt heq, extended_of_isFinite hfinite, extended_of_isFinite h, signedUnits,
      signedUnits, magnitude_withSign _ hlt', isNegative_withSign _ hlt']
    cases single.isNegative pattern <;> simp [heq]
  · have hinfinite := double.infinityPattern_lt_signWeight
    rw [convert_of_isInfinite h, extended_of_isInfinite h, extended_of_isInfinite,
      isNegative_withSign _ hinfinite]
    rw [isInfinite, magnitude_withSign _ hinfinite, beq_self_eq_true]
  · rw [extended_of_isNaN h, extended_of_isNaN (isNaN_widen h)]

/-- **Widened, negated and narrowed again**, a number is negated. -/
theorem narrow_neg_widen (h : single.isNaN pattern = false) :
    double.convert single (double.neg (single.convert double pattern)) = single.neg pattern := by
  have hneg : ∀ wide, wide < double.signWeight →
      double.isNegative (double.neg (double.withSign (single.isNegative pattern) wide)) =
        (!single.isNegative pattern) ∧
      double.magnitude (double.neg (double.withSign (single.isNegative pattern) wide)) = wide := by
    intro wide hwide
    rw [neg, isNegative_withSign _ hwide, magnitude_withSign _ hwide, isNegative_withSign _ hwide,
      magnitude_withSign _ hwide]
    exact ⟨rfl, rfl⟩
  -- A finite number is widened exactly, so it is narrowed without rounding; an infinite one stays
  -- infinite.
  rcases (single.kind_cases pattern).imp_right (Or.resolve_right · (by simp [h])) with hk | hk
  · have hmagnitude : single.magnitude pattern < single.infinityPattern := of_decide_eq_true hk
    obtain ⟨wide, hlt, heq⟩ := exists_wide hmagnitude
    obtain ⟨hsign, hwide⟩ := hneg wide (Nat.lt_trans hlt double.infinityPattern_lt_signWeight)
    rw [convert_eq hk hlt heq, convert_eq _ hmagnitude (by rw [hwide, heq]), hsign, neg]
    rw [isFinite, hwide]
    exact decide_eq_true hlt
  · obtain ⟨hsign, hwide⟩ := hneg _ double.infinityPattern_lt_signWeight
    have hmagnitude : single.magnitude pattern = single.infinityPattern := beq_iff_eq.1 hk
    rw [convert_of_isInfinite hk, convert_of_isInfinite, hsign, neg, hmagnitude]
    rw [isInfinite, hwide, beq_self_eq_true]

end BinaryFormat

/-- Comparisons may be made among the widened patterns. -/
theorem FloatOp.compare_widen (pred : FloatPredicate) (x y : Nat) :
    compare .double pred (BinaryFormat.single.convert .double x)
        (BinaryFormat.single.convert .double y) = compare .single pred x y := by
  rw [Bool.eq_iff_iff, compare_iff (by decide), compare_iff (by decide),
    BinaryFormat.extended_widen, BinaryFormat.extended_widen]

end ArithWatch
