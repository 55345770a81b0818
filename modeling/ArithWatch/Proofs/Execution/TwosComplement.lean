import ArithWatch.Proofs.Execution.Integers

namespace ArithWatch

/-!
# Arithmetic in two's complement

What the operators and comparisons of integers compute, said with numbers: an integer of width `n`
is a number below `2 ^ n`, and its signed reading is that number or, from `2 ^ (n - 1)` on, the
number less `2 ^ n`.

* `BinOp.Computes` and `IntPredicate.Compares` say what an operator gives and when a comparison
  holds.
* `BinOp.onBits?` is an operator on bit vectors, where one lemma for each operator leads
  (`Scalar.binary_ofBits`), and `BinOp.computes_onBits` reads the bit vectors as numbers.
* `arithmetic_exact` puts the two together for the scalars of every width up to 64.
-/

-- `2 ^ n` is the built-in power of natural numbers and integers, whatever else is in scope.
attribute [local instance (2000)] instPowNat

/-! ### The arithmetic of a width -/

/-- The signed reading of a number below `2 ^ n`. -/
def signedReading (n x : Nat) : Int := if x < 2 ^ (n - 1) then x else (x : Int) - 2 ^ n

/-- The number `r` is what `x op y` stands for at width `n`.  Nothing is for a float operator. -/
def BinOp.Computes (op : BinOp) (n x y r : Nat) : Prop :=
  match op with
  | .add => r = (x + y) % 2 ^ n
  | .sub => (r : Int) = ((x : Int) - y) % 2 ^ n
  | .mul => r = x * y % 2 ^ n
  | .udiv => r = if y = 0 then 2 ^ n - 1 else x / y
  | .urem => r = if y = 0 then x else x % y
  -- The least number divided by -1 is the only quotient out of range.
  | .sdiv =>
    if y = 0 then r = 2 ^ n - 1
    else if signedReading n x = -2 ^ (n - 1) ∧ signedReading n y = -1 then r = x
    else signedReading n r = (signedReading n x).tdiv (signedReading n y)
  | .srem =>
    if y = 0 then r = x else signedReading n r = (signedReading n x).tmod (signedReading n y)
  | .and => ∀ i, r.testBit i = (x.testBit i && y.testBit i)
  | .or => ∀ i, r.testBit i = (x.testBit i || y.testBit i)
  | .xor => ∀ i, r.testBit i = (x.testBit i ^^ y.testBit i)
  | .shl => r = x * 2 ^ (y % n) % 2 ^ n
  | .lshr => r = x / 2 ^ (y % n)
  | .ashr =>
    signedReading n r = signedReading n x / 2 ^ (y % n) ∧
      ∀ i < n, r.testBit i = if y % n + i < n then x.testBit (y % n + i) else x.testBit (n - 1)
  | .fadd | .fsub | .fmul | .fdiv | .frem => False

/-- Does `x pred y` hold at width `n`? -/
def IntPredicate.Compares (pred : IntPredicate) (n x y : Nat) : Prop :=
  match pred with
  | .eq => x = y
  | .ne => x ≠ y
  | .slt => signedReading n x < signedReading n y
  | .sle => signedReading n x ≤ signedReading n y
  | .sgt => signedReading n x > signedReading n y
  | .sge => signedReading n x ≥ signedReading n y
  | .ult => x < y
  | .ule => x ≤ y
  | .ugt => x > y
  | .uge => x ≥ y

/-! ### Bit vectors -/

variable {w : Nat}

/-- A bit vector has the signed reading of its number. -/
theorem signedReading_toNat (hpos : 0 < w) (x : BitVec w) :
    signedReading w x.toNat = x.toInt := by
  have hdouble : 2 ^ w = 2 * 2 ^ (w - 1) := by
    rw [Nat.mul_comm, Nat.two_pow_pred_mul_two hpos]
  rw [signedReading, BitVec.toInt_eq_toNat_cond]
  by_cases h : x.toNat < 2 ^ (w - 1)
  · rw [if_pos h, if_pos (by omega)]
  · rw [if_neg h, if_neg (by omega)]
    norm_cast

/-- Only the zero vector has the number 0. -/
theorem toNat_eq_zero {x : BitVec w} : x.toNat = 0 ↔ x = 0#w := by
  rw [← BitVec.toNat_inj, BitVec.toNat_zero]

/-- The result of `x op y`; none for a float operator. -/
def BinOp.onBits? (op : BinOp) (x y : BitVec w) : Option (BitVec w) :=
  match op with
  | .add => some (x + y)
  | .sub => some (x - y)
  | .mul => some (x * y)
  | .udiv => some (if y = 0#w then BitVec.allOnes w else x / y)
  | .urem => some (x % y)
  | .sdiv => some (if y = 0#w then BitVec.allOnes w else x.sdiv y)
  | .srem => some (x.srem y)
  | .and => some (x &&& y)
  | .or => some (x ||| y)
  | .xor => some (x ^^^ y)
  | .shl => some (x <<< (y.toNat % w))
  | .lshr => some (x >>> (y.toNat % w))
  | .ashr => some (x.sshiftRight (y.toNat % w))
  | .fadd | .fsub | .fmul | .fdiv | .frem => none

/-- **Operators compute on bit vectors.** -/
theorem Scalar.binary_ofBits (hpos : 0 < w) (hw : w ≤ 64) (op : BinOp) (x y : BitVec w) :
    binary op (ofBits x) (ofBits y) = .ok ((op.onBits? x y).map ofBits) := by
  cases op with
  | add => exact binary_add hw x y
  | sub => exact binary_sub hw x y
  | mul => exact binary_mul hw x y
  | udiv => exact binary_udiv hw x y
  | urem => exact binary_urem hw x y
  | sdiv => exact binary_sdiv hw x y hpos
  | srem => exact binary_srem hw x y hpos
  | and => exact binary_and hw x y
  | or => exact binary_or hw x y
  | xor => exact binary_xor hw x y
  | shl => exact binary_shl hpos hw x y
  | lshr => exact binary_lshr hpos hw x y
  | ashr => exact binary_ashr hpos hw x y
  | fadd | fsub | fmul | fdiv | frem => exact if_pos rfl

namespace BinOp

variable (x y : BitVec w)

/-- Exactly the floating-point operators have no meaning on bits. -/
theorem onBits?_eq_none (op : BinOp) : op.onBits? x y = none ↔ op.isFloat = true := by
  cases op <;> simp [onBits?, isFloat]

/-- Subtraction wraps. -/
theorem computes_sub : sub.Computes w x.toNat y.toNat (x - y).toNat := by
  have hy : y.toNat < 2 ^ w := y.isLt
  show ((x - y).toNat : Int) = ((x.toNat : Int) - y.toNat) % 2 ^ w
  rw [BitVec.toNat_sub, Int.natCast_emod, Int.natCast_add, Int.natCast_sub (Nat.le_of_lt hy)]
  have hshift : ((2 ^ w : Nat) : Int) - y.toNat + x.toNat =
      (x.toNat : Int) - y.toNat + ((2 ^ w : Nat) : Int) := by
    omega
  rw [hshift, Int.add_emod_right]
  norm_cast

/-- Division by zero gives all ones. -/
theorem computes_udiv :
    udiv.Computes w x.toNat y.toNat (if y = 0#w then BitVec.allOnes w else x / y).toNat := by
  show _ = if y.toNat = 0 then 2 ^ w - 1 else x.toNat / y.toNat
  by_cases hy : y = 0#w
  · rw [if_pos hy, if_pos (toNat_eq_zero.2 hy), BitVec.toNat_allOnes]
  · rw [if_neg hy, if_neg (mt toNat_eq_zero.1 hy), ← BitVec.toNat_udiv]

/-- The unsigned remainder is that of the naturals. -/
theorem computes_urem : urem.Computes w x.toNat y.toNat (x % y).toNat := by
  show (x % y).toNat = if y.toNat = 0 then x.toNat else x.toNat % y.toNat
  rw [BitVec.toNat_umod]
  by_cases hy : y.toNat = 0
  · rw [if_pos hy, hy, Nat.mod_zero]
  · rw [if_neg hy]

/-- The quotient wraps in one case only. -/
theorem computes_sdiv (hpos : 0 < w) :
    sdiv.Computes w x.toNat y.toNat (if y = 0#w then BitVec.allOnes w else x.sdiv y).toNat := by
  unfold Computes
  simp only [signedReading_toNat hpos]
  by_cases hy : y = 0#w
  · rw [if_pos (toNat_eq_zero.2 hy), if_pos hy, BitVec.toNat_allOnes]
  · rw [if_neg (mt toNat_eq_zero.1 hy), if_neg hy]
    have hmin : x.toInt = -2 ^ (w - 1) ↔ x = BitVec.intMin w := by
      rw [← BitVec.toInt_inj, BitVec.toInt_intMin_of_pos hpos]
    have hone : y.toInt = -1 ↔ y = -1#w := by
      rw [← BitVec.toInt_inj, BitVec.neg_one_eq_allOnes, BitVec.toInt_allOnes, if_pos hpos]
    by_cases hwraps : x.toInt = -2 ^ (w - 1) ∧ y.toInt = -1
    · obtain ⟨hx, hy⟩ := hwraps
      rw [if_pos ⟨hx, hy⟩, hmin.1 hx, hone.1 hy, BitVec.intMin_sdiv_neg_one]
    · rw [if_neg hwraps]
      apply BitVec.toInt_sdiv_of_ne_or_ne
      rw [hmin, hone] at hwraps
      exact Decidable.not_and_iff_or_not.1 hwraps

/-- The signed remainder takes the sign of the dividend. -/
theorem computes_srem (hpos : 0 < w) : srem.Computes w x.toNat y.toNat (x.srem y).toNat := by
  unfold Computes
  simp only [signedReading_toNat hpos]
  by_cases hy : y = 0#w
  · rw [if_pos (toNat_eq_zero.2 hy), hy, BitVec.srem_zero]
  · rw [if_neg (mt toNat_eq_zero.1 hy), BitVec.toInt_srem]

/-- Arithmetic shifts divide, rounding down; the amount is taken modulo the width. -/
theorem computes_ashr (hpos : 0 < w) :
    ashr.Computes w x.toNat y.toNat (x.sshiftRight (y.toNat % w)).toNat := by
  refine ⟨?_, fun i hi => ?_⟩
  · rw [signedReading_toNat hpos, signedReading_toNat hpos, BitVec.toInt_sshiftRight,
      Int.shiftRight_eq_div_pow]
    norm_cast
  · rw [BitVec.testBit_toNat, BitVec.getLsbD_sshiftRight, BitVec.testBit_toNat,
      BitVec.testBit_toNat, BitVec.msb_eq_getLsbD_last]
    simp [hi]

/-- **Operators on bit vectors compute in two's complement.** -/
theorem computes_onBits (hpos : 0 < w) {op : BinOp} {r : BitVec w} (h : op.onBits? x y = some r) :
    op.Computes w x.toNat y.toNat r.toNat := by
  cases op <;> cases h
  case add => exact BitVec.toNat_add x y
  case sub => exact computes_sub x y
  case mul => exact BitVec.toNat_mul x y
  case udiv => exact computes_udiv x y
  case urem => exact computes_urem x y
  case sdiv => exact computes_sdiv x y hpos
  case srem => exact computes_srem x y hpos
  case and => exact fun i => by rw [BitVec.toNat_and, Nat.testBit_and]
  case or => exact fun i => by rw [BitVec.toNat_or, Nat.testBit_or]
  case xor => exact fun i => by rw [BitVec.toNat_xor, Nat.testBit_xor]
  case shl =>
    show (x <<< (y.toNat % w)).toNat = x.toNat * 2 ^ (y.toNat % w) % 2 ^ w
    rw [BitVec.toNat_shiftLeft, Nat.shiftLeft_eq]
  case lshr =>
    show (x >>> (y.toNat % w)).toNat = x.toNat / 2 ^ (y.toNat % w)
    rw [BitVec.toNat_ushiftRight, Nat.shiftRight_eq_div_pow]
  case ashr => exact computes_ashr x y hpos

end BinOp

/-- Comparisons of bit vectors are comparisons of their readings. -/
theorem IntPredicate.holds_iff (hpos : 0 < w) (pred : IntPredicate) (x y : BitVec w) :
    pred.holds x y = true ↔ pred.Compares w x.toNat y.toNat := by
  cases pred <;>
    simp [holds, Compares, signedReading_toNat hpos, BitVec.slt_iff_toInt_lt,
      BitVec.sle_iff_toInt_le, BitVec.toNat_inj, BitVec.ult, BitVec.ule]

/-! ### Scalars -/

/-- **Integer arithmetic is exact at every width.**  Of two integers that fit a width up to 64,
    every integer operator computes an integer of that width which fits it and is the result of
    two's complement arithmetic; a float operator is refused; and a comparison gives the truth of
    the comparison of the readings. -/
theorem arithmetic_exact {n : Nat} (hpos : 1 ≤ n) (hle : n ≤ 64) {x y : UInt64}
    (hx : x.toNat < 2 ^ n) (hy : y.toNat < 2 ^ n) :
    (∀ op : BinOp, op.isFloat = false → ∃ r : UInt64,
      Scalar.binary op (.int n x) (.int n y) = .ok (some (.int n r)) ∧
        r.toNat < 2 ^ n ∧ op.Computes n x.toNat y.toNat r.toNat) ∧
    (∀ op : BinOp, op.isFloat = true → Scalar.binary op (.int n x) (.int n y) = .ok none) ∧
    ∀ pred : IntPredicate, ∃ b : Bool,
      Scalar.icmp? pred (.int n x) (.int n y) = some (.ofBool b) ∧
        (b = true ↔ pred.Compares n x.toNat y.toNat) := by
  obtain ⟨a, rfl⟩ := Word.exists_bits hle hx
  obtain ⟨b, rfl⟩ := Word.exists_bits hle hy
  -- Words that fit are bit vectors of the width.
  have hbinary : ∀ op : BinOp, Scalar.binary op (.int n (Word.ofBits a)) (.int n (Word.ofBits b)) =
      .ok ((op.onBits? a b).map Scalar.ofBits) :=
    fun op => Scalar.binary_ofBits hpos hle op a b
  rw [Word.toNat_ofBits hle, Word.toNat_ofBits hle]
  refine ⟨fun op hop => ?_, fun op hop => ?_, fun pred => ?_⟩
  · cases hr : op.onBits? a b with
    | none => rw [(BinOp.onBits?_eq_none a b op).1 hr] at hop; cases hop
    | some r =>
      refine ⟨Word.ofBits r, ?_, ?_, ?_⟩
      · rw [hbinary, hr]
        rfl
      · rw [Word.toNat_ofBits hle]
        exact r.isLt
      · rw [Word.toNat_ofBits hle]
        exact BinOp.computes_onBits a b hpos hr
  · rw [hbinary, (BinOp.onBits?_eq_none a b op).2 hop]
    rfl
  · exact ⟨pred.holds a b, Scalar.icmp?_ofBits hpos hle pred a b, pred.holds_iff hpos a b⟩

/-- The least integer of 8 bits divided by -1 wraps, and it is below -1. -/
theorem arithmetic_exact_least :
    1 ≤ 8 ∧ 8 ≤ 64 ∧ UInt64.toNat 128 < 256 ∧ UInt64.toNat 255 < 256 ∧
      (∃ r : UInt64,
        Scalar.binary .sdiv (.int 8 128) (.int 8 255) = .ok (some (.int 8 r)) ∧
          r.toNat < 256 ∧ r.toNat = 128) ∧
      Scalar.binary .fadd (.int 8 128) (.int 8 255) = .ok none ∧
      ∃ b : Bool, Scalar.icmp? .slt (.int 8 128) (.int 8 255) = some (.ofBool b) ∧
        (b = true ↔ (-128 : Int) < -1) := by
  have hx : UInt64.toNat 128 < 256 := by decide
  have hy : UInt64.toNat 255 < 256 := by decide
  obtain ⟨hinteger, hfloat, hcompare⟩ := arithmetic_exact (n := 8) (by decide) (by decide) hx hy
  obtain ⟨r, hr, hlt, hcomputes⟩ := hinteger .sdiv rfl
  have hvalue : r.toNat = 128 := by simpa [BinOp.Computes, signedReading] using hcomputes
  exact ⟨by decide, by decide, hx, hy, ⟨r, hr, hlt, hvalue⟩, hfloat .fadd rfl, hcompare .slt⟩

end ArithWatch
