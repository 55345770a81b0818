import ArithWatch.Proofs.Execution.Typing

namespace ArithWatch

/-!
# Integers as bit vectors

An integer that fits its width is a bit vector of that width.  What the words compute is what bit
vectors compute.

* `Word.ofBits` and `Scalar.ofBits` are a bit vector as a word and as a scalar; at widths up to 64
  every fitting integer is one.
* `Scalar.binary_add` and the lemmas behind it give the results of operations.
* `IntPredicate.holds` compares bit vectors, and `Scalar.icmp?_ofBits` says that integers are
  compared in the same way.
* `Scalar.ofConstant_zero` and the lemmas behind it read constants as bit vectors.
-/

-- `2 ^ n` is the built-in power of natural numbers and integers, whatever else is in scope.
attribute [local instance (2000)] instPowNat

/-! ### Words -/

namespace Word

variable {w : Nat}

/-- The word whose low bits are given. -/
def ofBits (b : BitVec w) : UInt64 := UInt64.ofNat b.toNat

/-- A bit vector of at most 64 bits keeps its value in a word. -/
theorem toNat_ofBits (hw : w ≤ 64) (b : BitVec w) : (ofBits b).toNat = b.toNat := by
  have hlt : b.toNat < 2 ^ 64 :=
    Nat.lt_of_lt_of_le b.isLt (Nat.pow_le_pow_right (by decide) hw)
  rw [ofBits, UInt64.toNat_ofNat', Nat.mod_eq_of_lt hlt]

theorem ofBits_inj (hw : w ≤ 64) {b c : BitVec w} : ofBits b = ofBits c ↔ b = c := by
  refine ⟨fun h => BitVec.eq_of_toNat_eq ?_, fun h => h ▸ rfl⟩
  rw [← toNat_ofBits hw, h, toNat_ofBits hw]

theorem ofBits_zero : ofBits 0#w = 0 := by
  simp [ofBits]

theorem ofBits_eq_zero (hw : w ≤ 64) {b : BitVec w} : ofBits b = 0 ↔ b = 0#w := by
  rw [← ofBits_zero (w := w), ofBits_inj hw]

/-- A word that fits its width is given by its bits. -/
theorem exists_bits (hw : w ≤ 64) {v : UInt64} (hv : v.toNat < 2 ^ w) :
    ∃ b : BitVec w, v = ofBits b := by
  refine ⟨BitVec.ofNat w v.toNat, UInt64.toNat.inj ?_⟩
  rw [toNat_ofBits hw, BitVec.toNat_ofNat, Nat.mod_eq_of_lt hv]

/-- Read as a vector of 64 bits, the word is the vector with zeros in front. -/
theorem toBitVec_ofBits (b : BitVec w) : (ofBits b).toBitVec = b.setWidth 64 := by
  rw [ofBits, UInt64.toBitVec_ofNat', BitVec.ofNat_toNat]

@[simp] theorem setWidth_toBitVec_ofBits (hw : w ≤ 64) (b : BitVec w) :
    (ofBits b).toBitVec.setWidth w = b := by
  rw [toBitVec_ofBits, BitVec.setWidth_setWidth_of_le b hw, BitVec.setWidth_eq]

/-- The two's complement reading of a word is that of its low bits. -/
theorem signed_eq_toInt (hpos : 0 < w) (hw : w ≤ 64) (v : UInt64) :
    signed w v = (v.toBitVec.setWidth w).toInt := by
  rw [signed, signedSpan_of_pos_of_le hpos hw, BitVec.toInt_eq_toNat_bmod, BitVec.toNat_setWidth,
    UInt64.toNat_toBitVec, Int.natCast_emod, Int.emod_bmod]

/-- The reading in two's complement is that of the vector. -/
theorem signed_ofBits (hpos : 0 < w) (hw : w ≤ 64) (b : BitVec w) :
    signed w (ofBits b) = b.toInt := by
  rw [signed_eq_toInt hpos hw, setWidth_toBitVec_ofBits hw]

/-- Cutting a word leaves its low bits. -/
theorem and_lowMask (hw : w ≤ 64) (v : UInt64) :
    v &&& lowMask w = ofBits (v.toBitVec.setWidth w) := by
  apply UInt64.toNat.inj
  rw [toNat_and_lowMask hw, toNat_ofBits hw, BitVec.toNat_setWidth, UInt64.toNat_toBitVec]

/-- The mask of a width is all ones there. -/
theorem setWidth_toBitVec_lowMask (hw : w ≤ 64) :
    (lowMask w).toBitVec.setWidth w = BitVec.allOnes w := by
  have hlt : 2 ^ w - 1 < 2 ^ w := Nat.sub_lt (Nat.two_pow_pos w) Nat.one_pos
  apply BitVec.eq_of_toNat_eq
  rw [BitVec.toNat_setWidth, UInt64.toNat_toBitVec, toNat_lowMask_of_le hw, BitVec.toNat_allOnes,
    Nat.mod_eq_of_lt hlt]

/-- An integer is wrapped to the width in one step or in two. -/
theorem setWidth_toBitVec_ofInt (hw : w ≤ 64) (z : Int) :
    (UInt64.ofInt z).toBitVec.setWidth w = BitVec.ofInt w z := by
  have hdvd : ((2 ^ w : Nat) : Int) ∣ ((2 ^ 64 : Nat) : Int) :=
    Int.natCast_dvd_natCast.2 (Nat.pow_dvd_pow 2 hw)
  have hnonneg : 0 ≤ z % ((2 ^ 64 : Nat) : Int) := Int.emod_nonneg _ (by decide)
  have hcut : (z % ((2 ^ 64 : Nat) : Int)).toNat % 2 ^ w = (z % ((2 ^ w : Nat) : Int)).toNat := by
    rw [← Int.emod_emod_of_dvd z hdvd, Int.toNat_emod hnonneg (Int.natCast_nonneg _),
      Int.toNat_natCast]
  apply BitVec.eq_of_toNat_eq
  rw [BitVec.toNat_setWidth, BitVec.toNat_ofInt, UInt64.toNat_toBitVec, UInt64.ofInt,
    UInt64.toNat_ofNat', Nat.mod_mod_of_dvd _ (Nat.pow_dvd_pow 2 hw)]
  exact hcut

end Word

/-! ### Operations -/

namespace Scalar

variable {w : Nat}

/-- The integer with the given bits. -/
def ofBits (b : BitVec w) : Scalar := .int w (Word.ofBits b)

/-- A fitting integer is given by its bits. -/
theorem exists_bits (hw : w ≤ 64) {a : Scalar} (hty : a.ty = .int w) (ha : a.Fits) :
    ∃ b : BitVec w, a = ofBits b := by
  cases a with
  | int width word =>
    cases hty
    obtain ⟨b, rfl⟩ := Word.exists_bits hw ha
    exact ⟨b, rfl⟩
  | f32 bits => cases hty
  | f64 bits => cases hty

section Binary

open Word (ofBits_eq_zero setWidth_toBitVec_ofBits)

/-- The result of an operation is cut from a word. -/
theorem binary_of_word (hw : w ≤ 64) {op : BinOp} {x y : BitVec w} {v : UInt64}
    (hword : IntOp.word op w (Word.ofBits x) (Word.ofBits y) = .ok (some v)) :
    binary op (ofBits x) (ofBits y) = .ok (some (ofBits (v.toBitVec.setWidth w))) := by
  simp only [binary, ofBits, if_true, IntOp.result, hword]
  show Except.ok (some (Scalar.int w (v &&& Word.lowMask w))) = _
  rw [Word.and_lowMask hw]

variable (hw : w ≤ 64) (x y : BitVec w)

include hw

/-- The operators compute what those of bit vectors do. -/
theorem binary_add : binary .add (ofBits x) (ofBits y) = .ok (some (ofBits (x + y))) := by
  rw [binary_of_word hw rfl, UInt64.toBitVec_add, BitVec.setWidth_add _ _ hw,
    setWidth_toBitVec_ofBits hw, setWidth_toBitVec_ofBits hw]

theorem binary_sub : binary .sub (ofBits x) (ofBits y) = .ok (some (ofBits (x - y))) := by
  rw [binary_of_word hw rfl, UInt64.toBitVec_sub, BitVec.sub_eq_add_neg, BitVec.setWidth_add _ _ hw,
    BitVec.setWidth_neg_of_le hw, setWidth_toBitVec_ofBits hw, setWidth_toBitVec_ofBits hw,
    ← BitVec.sub_eq_add_neg]

/-- A division by zero gives all ones. -/
theorem binary_udiv : binary .udiv (ofBits x) (ofBits y) =
    .ok (some (ofBits (if y = 0#w then BitVec.allOnes w else x / y))) := by
  rw [binary_of_word hw rfl]
  by_cases hy : y = 0#w
  · rw [if_pos hy, if_pos ((ofBits_eq_zero hw).2 hy), Word.setWidth_toBitVec_lowMask hw]
  · have hquotient :
        (Word.ofBits x / Word.ofBits y).toBitVec.setWidth w = x / y := by
      apply BitVec.eq_of_toNat_eq
      rw [BitVec.toNat_setWidth, UInt64.toNat_toBitVec, UInt64.toNat_div, Word.toNat_ofBits hw,
        Word.toNat_ofBits hw, ← BitVec.toNat_udiv, Nat.mod_eq_of_lt (x / y).isLt]
    rw [if_neg hy, if_neg (mt (ofBits_eq_zero hw).1 hy), hquotient]

/-- A division by zero gives all ones, and the least integer divided by -1 wraps. -/
theorem binary_sdiv (hpos : 0 < w) : binary .sdiv (ofBits x) (ofBits y) =
    .ok (some (ofBits (if y = 0#w then BitVec.allOnes w else x.sdiv y))) := by
  by_cases hy : y = 0#w
  · have hword : IntOp.word .sdiv w (Word.ofBits x) (Word.ofBits y) =
        .ok (some (Word.lowMask w)) := if_pos ((ofBits_eq_zero hw).2 hy)
    rw [if_pos hy, binary_of_word hw hword, Word.setWidth_toBitVec_lowMask hw]
  · have hsigned : Word.signed w (Word.ofBits y) ≠ 0 := by
      rw [Word.signed_ofBits hpos hw]
      exact fun h => hy (BitVec.toInt_inj.1 (h.trans BitVec.toInt_zero.symm))
    have hword : IntOp.word .sdiv w (Word.ofBits x) (Word.ofBits y) =
        .ok (some (UInt64.ofInt (x.toInt.tdiv y.toInt))) := by
      rw [← Word.signed_ofBits hpos hw x, ← Word.signed_ofBits hpos hw y]
      exact (if_neg (mt (ofBits_eq_zero hw).1 hy)).trans (if_neg hsigned)
    have hquotient : BitVec.ofInt w (x.toInt.tdiv y.toInt) = x.sdiv y := by
      apply BitVec.toInt_inj.1
      rw [BitVec.toInt_ofInt, BitVec.toInt_sdiv]
    rw [if_neg hy, binary_of_word hw hword, Word.setWidth_toBitVec_ofInt hw, hquotient]

theorem binary_mul : binary .mul (ofBits x) (ofBits y) = .ok (some (ofBits (x * y))) := by
  rw [binary_of_word hw rfl, UInt64.toBitVec_mul, BitVec.setWidth_mul _ _ hw,
    setWidth_toBitVec_ofBits hw, setWidth_toBitVec_ofBits hw]

/-- A remainder by zero gives the dividend. -/
theorem binary_urem : binary .urem (ofBits x) (ofBits y) = .ok (some (ofBits (x % y))) := by
  rw [binary_of_word hw rfl]
  by_cases hy : y = 0#w
  · rw [if_pos ((ofBits_eq_zero hw).2 hy), setWidth_toBitVec_ofBits hw, hy, BitVec.umod_zero]
  · have hremainder : (Word.ofBits x % Word.ofBits y).toBitVec.setWidth w = x % y := by
      apply BitVec.eq_of_toNat_eq
      rw [BitVec.toNat_setWidth, UInt64.toNat_toBitVec, UInt64.toNat_mod, Word.toNat_ofBits hw,
        Word.toNat_ofBits hw, ← BitVec.toNat_umod, Nat.mod_eq_of_lt (x % y).isLt]
    rw [if_neg (mt (ofBits_eq_zero hw).1 hy), hremainder]

/-- A remainder by zero gives the dividend. -/
theorem binary_srem (hpos : 0 < w) :
    binary .srem (ofBits x) (ofBits y) = .ok (some (ofBits (x.srem y))) := by
  have hremainder : BitVec.ofInt w (x.toInt.tmod y.toInt) = x.srem y := by
    rw [← BitVec.toInt_srem, BitVec.ofInt_toInt]
  by_cases hy : y = 0#w
  · have hword : IntOp.word .srem w (Word.ofBits x) (Word.ofBits y) =
        .ok (some (Word.ofBits x)) := if_pos ((ofBits_eq_zero hw).2 hy)
    rw [binary_of_word hw hword, setWidth_toBitVec_ofBits hw, ← hremainder, hy, BitVec.toInt_zero,
      Int.tmod_zero, BitVec.ofInt_toInt]
  · have hsigned : Word.signed w (Word.ofBits y) ≠ 0 := by
      rw [Word.signed_ofBits hpos hw]
      exact fun h => hy (BitVec.toInt_inj.1 (h.trans BitVec.toInt_zero.symm))
    have hword : IntOp.word .srem w (Word.ofBits x) (Word.ofBits y) =
        .ok (some (UInt64.ofInt (x.toInt.tmod y.toInt))) := by
      rw [← Word.signed_ofBits hpos hw x, ← Word.signed_ofBits hpos hw y]
      exact (if_neg (mt (ofBits_eq_zero hw).1 hy)).trans (if_neg hsigned)
    rw [binary_of_word hw hword, Word.setWidth_toBitVec_ofInt hw, hremainder]

theorem binary_and : binary .and (ofBits x) (ofBits y) = .ok (some (ofBits (x &&& y))) := by
  rw [binary_of_word hw rfl, UInt64.toBitVec_and, BitVec.setWidth_and,
    setWidth_toBitVec_ofBits hw, setWidth_toBitVec_ofBits hw]

theorem binary_or : binary .or (ofBits x) (ofBits y) = .ok (some (ofBits (x ||| y))) := by
  rw [binary_of_word hw rfl, UInt64.toBitVec_or, BitVec.setWidth_or,
    setWidth_toBitVec_ofBits hw, setWidth_toBitVec_ofBits hw]

theorem binary_xor : binary .xor (ofBits x) (ofBits y) = .ok (some (ofBits (x ^^^ y))) := by
  rw [binary_of_word hw rfl, UInt64.toBitVec_xor, BitVec.setWidth_xor,
    setWidth_toBitVec_ofBits hw, setWidth_toBitVec_ofBits hw]

end Binary

section Shifts

variable (hpos : 0 < w) (hw : w ≤ 64) (x y : BitVec w)

include hpos hw

/-- A shift amount is below the width, and so below the 64 bits of a word. -/
theorem shiftAmount_ofBits :
    IntOp.shiftAmount w (Word.ofBits y) = y.toNat % w ∧ y.toNat % w < 64 := by
  have hlt : y.toNat % w < w := Nat.mod_lt _ hpos
  refine ⟨?_, Nat.lt_of_lt_of_le hlt hw⟩
  rw [IntOp.shiftAmount, Word.toNat_ofBits hw, Nat.max_eq_left hpos]

/-- A shift counts modulo the width. -/
theorem binary_shl :
    binary .shl (ofBits x) (ofBits y) = .ok (some (ofBits (x <<< (y.toNat % w)))) := by
  obtain ⟨hamount, hlt⟩ := shiftAmount_ofBits hpos hw y
  have hshifted :
      (Word.ofBits x <<< UInt64.ofNat (IntOp.shiftAmount w (Word.ofBits y))).toBitVec.setWidth w =
        x <<< (y.toNat % w) := by
    apply BitVec.eq_of_toNat_eq
    rw [hamount, BitVec.toNat_setWidth, UInt64.toNat_toBitVec, UInt64.toNat_shiftLeft,
      UInt64.toNat_ofNat', Word.toNat_ofBits hw, BitVec.toNat_shiftLeft,
      Nat.mod_mod_of_dvd _ (Nat.pow_dvd_pow 2 hw), Nat.mod_mod_of_dvd _ (by decide),
      Nat.mod_eq_of_lt hlt]
  rw [binary_of_word hw rfl, hshifted]

/-- A shift counts modulo the width. -/
theorem binary_lshr :
    binary .lshr (ofBits x) (ofBits y) = .ok (some (ofBits (x >>> (y.toNat % w)))) := by
  obtain ⟨hamount, hlt⟩ := shiftAmount_ofBits hpos hw y
  have hshifted :
      (Word.ofBits x >>> UInt64.ofNat (IntOp.shiftAmount w (Word.ofBits y))).toBitVec.setWidth w =
        x >>> (y.toNat % w) := by
    apply BitVec.eq_of_toNat_eq
    rw [hamount, BitVec.toNat_setWidth, UInt64.toNat_toBitVec, UInt64.toNat_shiftRight,
      UInt64.toNat_ofNat', Word.toNat_ofBits hw, Nat.mod_mod_of_dvd _ (by decide),
      Nat.mod_eq_of_lt hlt, ← BitVec.toNat_ushiftRight,
      Nat.mod_eq_of_lt (x >>> (y.toNat % w)).isLt]
  rw [binary_of_word hw rfl, hshifted]

/-- An arithmetic shift fills with the sign. -/
theorem binary_ashr :
    binary .ashr (ofBits x) (ofBits y) = .ok (some (ofBits (x.sshiftRight (y.toNat % w)))) := by
  obtain ⟨hamount, hlt⟩ := shiftAmount_ofBits hpos hw y
  have hword : IntOp.word .ashr w (Word.ofBits x) (Word.ofBits y) =
      .ok (some (UInt64.ofInt (x.toInt >>> (y.toNat % w)))) := by
    simp only [IntOp.word, Word.signed_ofBits hpos hw, hamount, Nat.mod_eq_of_lt hlt,
      Int.shiftRight_eq_div_pow]
    rfl
  rw [binary_of_word hw hword, Word.setWidth_toBitVec_ofInt hw, ← BitVec.toInt_sshiftRight,
    BitVec.ofInt_toInt]

end Shifts

/-- The conjunction of truth values. -/
theorem binary_and_ofBool (b c : Bool) :
    binary .and (ofBool b) (ofBool c) = .ok (some (ofBool (b && c))) := by
  cases b <;> cases c <;> rfl

/-- The disjunction of truth values. -/
theorem binary_or_ofBool (b c : Bool) :
    binary .or (ofBool b) (ofBool c) = .ok (some (ofBool (b || c))) := by
  cases b <;> cases c <;> rfl

end Scalar

/-! ### Comparisons -/

/-- Does `x pred y` hold of bit vectors? -/
def IntPredicate.holds {w : Nat} (pred : IntPredicate) (x y : BitVec w) : Bool :=
  match pred with
  | .eq => x == y
  | .ne => x != y
  | .slt => x.slt y
  | .sle => x.sle y
  | .sgt => y.slt x
  | .sge => y.sle x
  | .ult => x.ult y
  | .ule => x.ule y
  | .ugt => y.ult x
  | .uge => y.ule x

/-- **Integers are compared as bit vectors.** -/
theorem Scalar.icmp?_ofBits {w : Nat} (hpos : 0 < w) (hw : w ≤ 64) (pred : IntPredicate)
    (x y : BitVec w) : icmp? pred (ofBits x) (ofBits y) = some (ofBool (pred.holds x y)) := by
  have hlt : ∀ x y : BitVec w, Word.ofBits x < Word.ofBits y ↔ x.toNat < y.toNat := fun x y => by
    rw [UInt64.lt_iff_toNat_lt, Word.toNat_ofBits hw, Word.toNat_ofBits hw]
  have hle : ∀ x y : BitVec w, Word.ofBits x ≤ Word.ofBits y ↔ x.toNat ≤ y.toNat := fun x y => by
    rw [UInt64.le_iff_toNat_le, Word.toNat_ofBits hw, Word.toNat_ofBits hw]
  rw [ofBits, ofBits, icmp?, if_pos rfl]
  cases pred <;>
    simp [IntOp.compare, IntPredicate.holds, Word.ofBits_inj hw, Word.signed_ofBits hpos hw, hlt,
      hle, BitVec.slt, BitVec.sle, BitVec.ult, BitVec.ule, bne, BEq.beq]

/-! ### Constants -/

namespace Scalar

variable {w : Nat} (hw : w ≤ 64)

include hw

/-- A constant of an integer type is read through its low bits. -/
theorem ofConstant_int (bits : UInt64) :
    ofConstant ⟨.int w, bits⟩ = ofBits (bits.toBitVec.setWidth w) := by
  show Scalar.int w (bits &&& Word.lowMask w) = _
  rw [Word.and_lowMask hw, ofBits]

/-- The constants that the checks use, as bit vectors. -/
theorem ofConstant_zero : ofConstant (.zero (.int w)) = ofBits 0#w := by
  rw [Constant.zero, ofConstant_int hw]
  simp

theorem ofConstant_ofInt (z : Int) :
    ofConstant (.int (.int w) z) = ofBits (BitVec.ofInt w z) := by
  rw [Constant.int, ofConstant_int hw, Ty.patternWidth, Word.and_lowMask hw,
    Word.setWidth_toBitVec_ofBits hw, Word.setWidth_toBitVec_ofInt hw]

theorem ofConstant_unsignedMax :
    ofConstant (.unsignedMax (.int w)) = ofBits (BitVec.allOnes w) := by
  rw [Constant.unsignedMax, ofConstant_int hw, Ty.patternWidth, Word.setWidth_toBitVec_lowMask hw]

theorem ofConstant_signedMax (hpos : 0 < w) :
    ofConstant (.signedMax (.int w)) = ofBits (BitVec.intMax w) := by
  have hdouble : 2 ^ w = 2 * 2 ^ (w - 1) := by
    rw [Nat.mul_comm, Nat.two_pow_pred_mul_two hpos]
  have hhalf : (2 ^ w - 1) / 2 = 2 ^ (w - 1) - 1 := by omega
  have hlt : 2 ^ (w - 1) - 1 < 2 ^ w :=
    Nat.lt_of_le_of_lt (Nat.sub_le _ _) (Nat.pow_lt_pow_right (by decide) (by omega))
  have hbits : (Word.lowMask w >>> 1).toBitVec.setWidth w = BitVec.intMax w := by
    apply BitVec.eq_of_toNat_eq
    rw [BitVec.toNat_setWidth, UInt64.toNat_toBitVec, UInt64.toNat_shiftRight,
      Word.toNat_lowMask_of_le hw, BitVec.toNat_intMax]
    show (2 ^ w - 1) >>> 1 % 2 ^ w = _
    rw [Nat.shiftRight_eq_div_pow, Nat.pow_one, hhalf, Nat.mod_eq_of_lt hlt]
  rw [Constant.signedMax, ofConstant_int hw, Ty.patternWidth, hbits]

theorem ofConstant_signedMin (hpos : 0 < w) :
    ofConstant (.signedMin (.int w)) = ofBits (BitVec.intMin w) := by
  have hlt : 2 ^ (w - 1) < 2 ^ 64 := Nat.pow_lt_pow_right (by decide) (by omega)
  have hbits : (UInt64.ofNat (2 ^ (w - 1))).toBitVec.setWidth w = BitVec.intMin w := by
    apply BitVec.eq_of_toNat_eq
    rw [BitVec.toNat_setWidth, UInt64.toNat_toBitVec, UInt64.toNat_ofNat', Nat.mod_eq_of_lt hlt,
      BitVec.toNat_intMin]
  rw [Constant.signedMin, ofConstant_int hw, Ty.patternWidth, hbits]

end Scalar

end ArithWatch
