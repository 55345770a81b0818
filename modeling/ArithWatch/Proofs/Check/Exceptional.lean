import ArithWatch.Proofs.Check.Magnitude
import ArithWatch.Proofs.Number.Rounding

namespace ArithWatch

/-!
# The float conditions against numbers

* `Scalar.extended` is what a float stands for: a rational number, an infinity, or no number.
* `Scalar.compares_iff`: a float compares with a constant as the numbers do.
* `Threshold.floatLimit` is the number that results of a float type are held against.  It may be
  infinite.  `Threshold.extended_neg_floatBound`: the constant at the other end is its negative,
  although it is rounded a second time.
* `infinite_floatZeroDivisor_floatBound_exact` says what the conditions find, wherever they are
  appended.
-/

-- `2 ^ n` is the built-in power of natural numbers and integers, whatever else is in scope.
attribute [local instance (2000)] instPowNat

namespace Scalar

/-- What a float stands for; an integer stands for no number here. -/
def extended : Scalar → Extended
  | .int _ _ => .nan
  | .f32 bits => BinaryFormat.single.extended bits.toNat
  | .f64 bits => BinaryFormat.double.extended bits.toNat

/-- The zero of a float type with a sign. -/
def floatZero (ty : Ty) (negative : Bool) : Scalar :=
  .ofConstant (.float ty (BinaryFormat.double.withSign negative 0))

/-- **A float compares with a constant** as what they stand for. -/
theorem compares_iff {pred : FloatPredicate} {a : Scalar} {c : Constant}
    (hfloat : a.ty.isFloat = true) (hty : c.ty = a.ty) :
    a.compares pred c = true ↔ pred.Holds a.extended (Scalar.ofConstant c).extended := by
  have htruth : ∀ d : Bool, ((some (ofBool d) : Option Scalar) == some (ofBool true)) = d := by
    decide
  obtain ⟨ty, bits⟩ := c
  cases a with
  | int width x => cases hfloat
  | f32 x =>
    obtain rfl : ty = .f32 := hty
    exact (iff_of_eq (congrArg (· = true) (htruth _))).trans
      (FloatOp.compare_iff (f := .single) (by decide))
  | f64 x =>
    obtain rfl : ty = .f64 := hty
    exact (iff_of_eq (congrArg (· = true) (htruth _))).trans
      (FloatOp.compare_iff (f := .double) (by decide))

/-- Only the two zeros stand for zero. -/
theorem extended_eq_zero_iff {a : Scalar} (hfloat : a.ty.isFloat = true) :
    a.extended = .number 0 ↔ a = floatZero a.ty false ∨ a = floatZero a.ty true := by
  -- In both formats, the two zeros are the patterns that differ from zero at most in the sign.
  cases a with
  | int width x => cases hfloat
  | f32 x =>
    have hlt := x.toNat_lt
    have hzeros : floatZero .f32 false = .f32 0 ∧ floatZero .f32 true = .f32 0x80000000 :=
      ⟨rfl, rfl⟩
    show BinaryFormat.single.extended x.toNat = _ ↔ .f32 x = floatZero .f32 false ∨
      .f32 x = floatZero .f32 true
    rw [BinaryFormat.extended_eq_zero_iff (by decide), hzeros.1, hzeros.2, Scalar.f32.injEq,
      Scalar.f32.injEq, ← UInt32.toNat_inj, ← UInt32.toNat_inj]
    show x.toNat % 2 ^ 31 = 0 ↔ x.toNat = 0 ∨ x.toNat = 0x80000000
    omega
  | f64 x =>
    have hlt := x.toNat_lt
    have hzeros : floatZero .f64 false = .f64 0 ∧
        floatZero .f64 true = .f64 0x8000000000000000 := ⟨rfl, rfl⟩
    show BinaryFormat.double.extended x.toNat = _ ↔ .f64 x = floatZero .f64 false ∨
      .f64 x = floatZero .f64 true
    rw [BinaryFormat.extended_eq_zero_iff (by decide), hzeros.1, hzeros.2, Scalar.f64.injEq,
      Scalar.f64.injEq, ← UInt64.toNat_inj, ← UInt64.toNat_inj]
    show x.toNat % 2 ^ 63 = 0 ↔ x.toNat = 0 ∨ x.toNat = 0x8000000000000000
    omega

/-! ### Constants -/

/-- The constant zero is zero in each format. -/
theorem extended_ofConstant_zero {ty : Ty} (hfloat : ty.isFloat = true) :
    (Scalar.ofConstant (.zero ty)).extended = .number 0 := by
  have hzero : Scalar.ofConstant (.zero ty) = floatZero ty false := by
    cases ty with
    | int width => cases hfloat
    | f32 => rfl
    | f64 => rfl
  have hty : (Scalar.ofConstant (.zero ty)).ty = ty := Scalar.ty_ofConstant _
  rw [extended_eq_zero_iff (by rw [hty]; exact hfloat), hty]
  exact .inl hzero

/-- The constants of infinity are infinite. -/
theorem extended_ofConstant_infinity {ty : Ty} (hfloat : ty.isFloat = true) (negative : Bool) :
    (Scalar.ofConstant (.infinity ty negative)).extended = .infinity negative := by
  cases ty with
  | int width => cases hfloat
  | f32 => cases negative <;> rfl
  | f64 => cases negative <;> rfl

end Scalar

namespace Threshold

/-- The number that results of a float type are held against. -/
def floatLimit (t : Threshold) (ty : Ty) : Extended :=
  (Scalar.ofConstant (t.floatBound ty)).extended

/-- The pattern of a threshold is a word. -/
theorem toNat_pattern (t : Threshold) : (UInt64.ofNat t.pattern).toNat = t.pattern :=
  UInt64.toNat_ofNat_of_lt' (Nat.lt_trans t.isFinite (by decide))

/-- A threshold is finite. -/
theorem isFinite_pattern (t : Threshold) : BinaryFormat.double.isFinite t.pattern = true :=
  decide_eq_true (t.magnitude_pattern.symm ▸ t.isFinite)

/-- The threshold as a 32-bit float has no sign. -/
theorem exists_single (t : Threshold) :
    ∃ bits : UInt32, bits.toNat ≤ BinaryFormat.single.infinityPattern ∧
      Scalar.ofConstant (t.floatBound .f32) = .f32 bits ∧
      (t.floatBound .f32).double = BinaryFormat.single.convert .double bits.toNat := by
  obtain ⟨pattern, hle, hconvert⟩ :=
    BinaryFormat.exists_convert_of_isFinite t.isFinite_pattern .single
  have hlt : pattern < 2 ^ 32 := Nat.lt_of_le_of_lt hle (by decide)
  have hbits : (t.floatBound .f32).bits.toUInt32.toNat = pattern := by
    show (UInt64.ofNat (BinaryFormat.double.convert .single t.pattern)).toUInt32.toNat = _
    rw [hconvert, t.isNegative_pattern]
    show (UInt64.ofNat pattern).toUInt32.toNat = _
    rw [UInt64.toNat_toUInt32, UInt64.toNat_ofNat_of_lt' (Nat.lt_trans hlt (by decide)),
      Nat.mod_eq_of_lt hlt]
  exact ⟨_, hbits.symm ▸ hle, rfl, rfl⟩

/-- At 64 bits the limit is the threshold. -/
theorem floatLimit_f64 (t : Threshold) : t.floatLimit .f64 = .number t.value := by
  show BinaryFormat.double.extended (UInt64.ofNat t.pattern).toNat = _
  rw [t.toNat_pattern, BinaryFormat.extended_of_isFinite t.isFinite_pattern, value,
    BinaryFormat.value_eq_signedUnits t.isFinite_pattern]

/-- The limit is no negative number; it may be infinite. -/
theorem floatLimit_cases (t : Threshold) {ty : Ty} (hfloat : ty.isFloat = true) :
    t.floatLimit ty = .infinity false ∨ ∃ q, 0 ≤ q ∧ t.floatLimit ty = .number q := by
  cases ty with
  | int width => cases hfloat
  | f32 =>
    obtain ⟨bits, hle, hbound, -⟩ := t.exists_single
    rw [floatLimit, hbound]
    exact BinaryFormat.extended_of_le hle
  | f64 =>
    show BinaryFormat.double.extended (UInt64.ofNat t.pattern).toNat = _ ∨
      ∃ q, 0 ≤ q ∧ BinaryFormat.double.extended (UInt64.ofNat t.pattern).toNat = _
    rw [t.toNat_pattern]
    exact BinaryFormat.extended_of_le (Nat.le_of_lt t.isFinite)

/-- **The constant at the other end** stands for the negative limit. -/
theorem extended_neg_floatBound (t : Threshold) {ty : Ty} (hfloat : ty.isFloat = true) :
    (Scalar.ofConstant (.float ty (BinaryFormat.double.neg (t.floatBound ty).double))).extended =
      (t.floatLimit ty).neg := by
  have hneg : ∀ (f : BinaryFormat) (pattern : Nat),
      f.neg pattern < f.signWeight + f.signWeight := by
    intro f pattern
    have hlt := f.magnitude_lt pattern
    unfold BinaryFormat.neg BinaryFormat.withSign
    split <;> omega
  cases ty with
  | int width => cases hfloat
  | f32 =>
    obtain ⟨bits, hle, hbound, hdouble⟩ := t.exists_single
    have hmagnitude : BinaryFormat.single.magnitude bits.toNat = bits.toNat :=
      Nat.mod_eq_of_lt (Nat.lt_of_le_of_lt hle (by decide))
    have hnan : BinaryFormat.single.isNaN bits.toNat = false := by
      rw [BinaryFormat.isNaN, hmagnitude]
      exact decide_eq_false (Nat.not_lt.2 hle)
    have hlt : BinaryFormat.single.neg bits.toNat < 2 ^ 32 := hneg .single bits.toNat
    have hbits : (UInt64.ofNat (BinaryFormat.single.neg bits.toNat)).toUInt32.toNat =
        BinaryFormat.single.neg bits.toNat := by
      rw [UInt64.toNat_toUInt32, UInt64.toNat_ofNat_of_lt' (Nat.lt_trans hlt (by decide)),
        Nat.mod_eq_of_lt hlt]
    rw [floatLimit, hbound, hdouble]
    -- The limit is read as a double, negated there and rounded once more.
    show BinaryFormat.single.extended (UInt64.ofNat (BinaryFormat.double.convert .single
      (BinaryFormat.double.neg (BinaryFormat.single.convert .double bits.toNat)))).toUInt32.toNat =
        (BinaryFormat.single.extended bits.toNat).neg
    rw [BinaryFormat.narrow_neg_widen hnan, hbits, BinaryFormat.extended_neg]
  | f64 =>
    show BinaryFormat.double.extended (UInt64.ofNat (BinaryFormat.double.neg
      (UInt64.ofNat t.pattern).toNat)).toNat =
        (BinaryFormat.double.extended (UInt64.ofNat t.pattern).toNat).neg
    have hlt : BinaryFormat.double.neg t.pattern < 2 ^ 64 := hneg .double t.pattern
    rw [t.toNat_pattern, UInt64.toNat_ofNat_of_lt' hlt, BinaryFormat.extended_neg]

end Threshold

/-! ### The appended conditions -/

section Appended

variable {f : Function} {c : Cursor} {w : Watched} {a b r : Scalar}

/-- The condition of a float check, appended behind an instruction on floats. -/
theorem CheckPredicate.yields_float {p : CheckPredicate} {t : Threshold} {flag : Bool}
    {found : Prop} [Decidable found] (hc : c.block.index < f.blocks.size) (hw : w.Typed f)
    (hfloat : w.ty.isFloat = true) (hkind : p.kind.isFloat = true)
    (hvalue : (p.formula t w.ty).value? a b r = some (.ofBool flag)) (hflag : flag = true ↔ found) :
    p.Yields t f c w a b r (decide found) := by
  have hfound : decide found = flag := by
    rw [Bool.eq_iff_iff, decide_eq_true_iff, hflag]
  exact yields_of_value? hc hw (hkind.trans hfloat.symm) (hfound ▸ hvalue)

/-- **The float conditions are exact.** Appended anywhere and run on any bit patterns of a divisor
    `b` and a result `r`, they find out whether `r` is an infinity, whether `b` is one of the two
    zeros, and whether the magnitude of `r` is beyond the limit.  What is no number is never found.
    The limit is the threshold rounded to the type; where that makes it infinite nothing is beyond
    it. -/
theorem infinite_floatZeroDivisor_floatBound_exact (t : Threshold)
    (hc : c.block.index < f.blocks.size) (hw : w.Typed f) (hfloat : w.ty.isFloat = true)
    (hb : b.ty = w.ty) (hr : r.ty = w.ty) :
    CheckPredicate.infinite.Yields t f c w a b r
      (decide (r.extended = .infinity false ∨ r.extended = .infinity true)) ∧
    CheckPredicate.floatZeroDivisor.Yields t f c w a b r
      (decide (b = .floatZero w.ty false ∨ b = .floatZero w.ty true)) ∧
    (b.extended = .number 0 ↔ b = .floatZero w.ty false ∨ b = .floatZero w.ty true) ∧
    CheckPredicate.floatBound.Yields t f c w a b r
      (decide (r.extended ≠ .nan ∧ (t.floatLimit w.ty).Below r.extended.abs)) ∧
    (t.floatLimit w.ty = .infinity false ∨ ∃ q, 0 ≤ q ∧ t.floatLimit w.ty = .number q) ∧
    (w.ty = .f64 → t.floatLimit w.ty = .number t.value) ∧
    (t.floatLimit w.ty = .infinity false →
      CheckPredicate.floatBound.Yields t f c w a b r false) ∧
    (∀ pred x y, FloatOp.compare .double pred (BinaryFormat.single.convert .double x)
      (BinaryFormat.single.convert .double y) = FloatOp.compare .single pred x y) := by
  have hrfloat : r.ty.isFloat = true := hr ▸ hfloat
  have hbfloat : b.ty.isFloat = true := hb ▸ hfloat
  have hzero : b.extended = .number 0 ↔ b = .floatZero w.ty false ∨ b = .floatZero w.ty true :=
    hb ▸ Scalar.extended_eq_zero_iff hbfloat
  have hbound : CheckPredicate.floatBound.Yields t f c w a b r
      (decide (r.extended ≠ .nan ∧ (t.floatLimit w.ty).Below r.extended.abs)) := by
    have hlimit := t.floatLimit_cases hfloat
    have hnotnan : t.floatLimit w.ty ≠ .nan ∧ (t.floatLimit w.ty).neg ≠ .nan := by
      rcases hlimit with h | ⟨q, -, h⟩ <;> simp [h, Extended.neg]
    have hpositive : t.floatLimit w.ty ≠ .infinity true := by
      rcases hlimit with h | ⟨q, -, h⟩ <;> simp [h]
    refine CheckPredicate.yields_float hc hw hfloat rfl
      (by rw [← hr]; exact CheckPredicate.value?_floatBound t hrfloat) ?_
    rw [Bool.or_eq_true, Scalar.compares_iff hrfloat rfl, Scalar.compares_iff hrfloat rfl,
      t.extended_neg_floatBound hrfloat, hr, Extended.below_abs_iff hpositive, and_or_left]
    -- Ordered comparisons ask for numbers on both sides, and the limit is always one.
    exact or_congr (and_congr_right fun _ => and_iff_right hnotnan.2)
      (and_congr_right fun _ => and_iff_right hnotnan.1)
  refine ⟨?_, ?_, hzero, hbound, t.floatLimit_cases hfloat, fun hty => ?_, fun hlimit => ?_,
    FloatOp.compare_widen⟩
  · refine CheckPredicate.yields_float hc hw hfloat rfl
      (by rw [← hr]; exact CheckPredicate.value?_infinite t hrfloat) ?_
    rw [Bool.or_eq_true, Scalar.compares_iff hrfloat rfl, Scalar.compares_iff hrfloat rfl,
      Scalar.extended_ofConstant_infinity hrfloat, Scalar.extended_ofConstant_infinity hrfloat]
    simp only [FloatPredicate.Holds]
    constructor
    · exact Or.imp (·.2.2) (·.2.2)
    · rintro (h | h) <;> simp [h]
  · refine CheckPredicate.yields_float hc hw hfloat rfl
      (by rw [← hb]; exact CheckPredicate.value?_floatZeroDivisor t hbfloat) ?_
    rw [Scalar.compares_iff hbfloat rfl, Scalar.extended_ofConstant_zero hbfloat, ← hzero]
    simp only [FloatPredicate.Holds]
    exact ⟨(·.2.2), fun h => by simp [h]⟩
  · rw [hty, t.floatLimit_f64]
  · have hbeyond : ¬ (r.extended ≠ .nan ∧ (t.floatLimit w.ty).Below r.extended.abs) := by
      rintro ⟨-, h⟩
      rw [hlimit] at h
      cases hx : r.extended <;> simp [hx, Extended.abs, Extended.Below] at h
    rwa [decide_eq_false hbeyond] at hbound

end Appended

/-- The threshold 1e300, which is beyond the 32-bit floats. -/
def Threshold.beyondSingles : Threshold := ⟨0x7e37e43c8800759c, by decide⟩

/-- The quotient of `mixture`. -/
def Watched.quotient : Watched := ⟨.fdiv, .f32, .value ⟨1⟩, .value ⟨1⟩, ⟨3⟩⟩

/-- A result of negative infinity and a divisor of negative zero, under that threshold: the first
    two conditions find them, and no result is beyond the threshold any more. -/
theorem infinite_floatZeroDivisor_floatBound_exact_mixture :
    (0 < mixture.blocks.size ∧ Watched.quotient.Typed mixture) ∧
      Threshold.beyondSingles.floatLimit .f32 = .infinity false ∧
      (∀ room, Watched.quotient.Holds (.holding [.int 32 0, .f32 0x80000000, .int 32 0,
        .f32 0xff800000] room) (.f32 0x80000000) (.f32 0x80000000) (.f32 0xff800000)) ∧
      CheckPredicate.infinite.Yields .beyondSingles mixture { block := ⟨0⟩ } .quotient
        (.f32 0x80000000) (.f32 0x80000000) (.f32 0xff800000) true ∧
      CheckPredicate.floatZeroDivisor.Yields .beyondSingles mixture { block := ⟨0⟩ } .quotient
        (.f32 0x80000000) (.f32 0x80000000) (.f32 0xff800000) true ∧
      CheckPredicate.floatBound.Yields .beyondSingles mixture { block := ⟨0⟩ } .quotient
        (.f32 0x80000000) (.f32 0x80000000) (.f32 0xff800000) false := by
  have hlimit : Threshold.beyondSingles.floatLimit .f32 = .infinity false := by decide +kernel
  have htyped : Watched.quotient.Typed mixture := ⟨rfl, rfl, rfl⟩
  obtain ⟨hinfinite, hzero, -, -, -, -, hbound, -⟩ :=
    infinite_floatZeroDivisor_floatBound_exact (f := mixture) (c := { block := ⟨0⟩ })
      (w := .quotient) (a := .f32 0x80000000) (b := .f32 0x80000000) (r := .f32 0xff800000)
      .beyondSingles (by decide) htyped rfl rfl rfl
  have hheld : ∀ room, Watched.quotient.Holds (.holding [.int 32 0, .f32 0x80000000, .int 32 0,
      .f32 0xff800000] room) (.f32 0x80000000) (.f32 0x80000000) (.f32 0xff800000) := fun _ =>
    ⟨rfl, rfl, rfl, ⟨rfl, trivial⟩, ⟨rfl, trivial⟩, ⟨rfl, trivial⟩⟩
  have hfound : (Scalar.f32 0xff800000).extended = .infinity true := rfl
  have hdivisor : Scalar.f32 0x80000000 = .floatZero .f32 true := rfl
  rw [decide_eq_true (.inr hfound)] at hinfinite
  rw [decide_eq_true (.inr hdivisor)] at hzero
  exact ⟨⟨by decide, htyped⟩, hlimit, hheld, hinfinite, hzero, hbound hlimit⟩

end ArithWatch
