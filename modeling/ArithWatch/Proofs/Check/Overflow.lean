import ArithWatch.Proofs.Check.Appended

namespace ArithWatch

/-!
# The overflow conditions are exact

* `Overflows` says that the exact result of an operation is no reading at the width, signed or
  unsigned.
* `BinOp.outgrows` is the condition of a sum or a difference with all room reckoned in the integers.
  `BinOp.overflows_iff_outgrows`: reckoned in words, the room only wraps where it is not looked at.
* `overflows_add_iff`, `overflows_sub_iff` and `overflows_mul_iff`: the conditions find the
  overflows.
-/

-- `2 ^ n` is the built-in power of natural numbers and integers, whatever else is in scope.
attribute [local instance (2000)] instPowNat

/-! ### Overflow -/

/-- The integers that `w` bits stand for in two's complement. -/
def FitsSigned (w : Nat) (z : Int) : Prop := -2 ^ (w - 1) ≤ z ∧ z < 2 ^ (w - 1)

/-- The integers that `w` bits stand for without a sign. -/
def FitsUnsigned (w : Nat) (z : Int) : Prop := 0 ≤ z ∧ z < 2 ^ w

instance (w : Nat) (z : Int) : Decidable (FitsSigned w z) := inferInstanceAs (Decidable (_ ∧ _))

instance (w : Nat) (z : Int) : Decidable (FitsUnsigned w z) := inferInstanceAs (Decidable (_ ∧ _))

/-- The exact result on the signed readings is no signed reading, or the one on the unsigned
    readings no unsigned one. -/
def Overflows {w : Nat} (exact : Int → Int → Int) (a b : BitVec w) : Prop :=
  ¬ FitsSigned w (exact a.toInt b.toInt) ∨ ¬ FitsUnsigned w (exact a.toNat b.toNat)

instance {w : Nat} (exact : Int → Int → Int) (a b : BitVec w) : Decidable (Overflows exact a b) :=
  inferInstanceAs (Decidable (_ ∨ _))

/-- `BinOp.overflows` for a sum or a difference, with the room above and below the first side
    reckoned without wrapping. -/
def BinOp.outgrows {w : Nat} (op : BinOp) (a b r : BitVec w) : Prop :=
  match op with
  | .add =>
    0 < b.toInt ∧ 2 ^ (w - 1) - 1 - b.toInt < a.toInt ∨
      b.toInt < 0 ∧ a.toInt < -2 ^ (w - 1) - b.toInt ∨ r.toNat < a.toNat
  | .sub =>
    b.toInt < 0 ∧ 2 ^ (w - 1) - 1 + b.toInt < a.toInt ∨
      0 < b.toInt ∧ a.toInt < -2 ^ (w - 1) + b.toInt ∨ a.toNat < b.toNat
  | _ => False

section Width

variable {w : Nat}

/-! ### Readings -/

/-- The signed reading of a word fits. -/
theorem fitsSigned_toInt (a : BitVec w) : FitsSigned w a.toInt := ⟨a.le_toInt, BitVec.toInt_lt⟩

/-- The half of the range is the weight of the sign. -/
theorem two_pow_eq_double (hpos : 0 < w) : ((2 ^ w : Nat) : Int) = 2 * 2 ^ (w - 1) := by
  rw [← Nat.two_pow_pred_mul_two hpos]
  push_cast
  exact Int.mul_comm _ _

/-- What fits does not wrap. -/
theorem bmod_of_fitsSigned (hpos : 0 < w) {z : Int} (h : FitsSigned w z) : z.bmod (2 ^ w) = z := by
  obtain ⟨hlow, hhigh⟩ := h
  have hdouble := two_pow_eq_double hpos
  exact Int.bmod_eq_of_le (by omega) (by omega)

/-- Only the zero word reads as zero. -/
theorem toInt_ne_zero {a : BitVec w} (ha : a ≠ 0#w) : a.toInt ≠ 0 :=
  BitVec.toInt_zero ▸ BitVec.toInt_ne.2 ha

/-- Any other word reads as a positive natural. -/
theorem toNat_pos {a : BitVec w} (ha : a ≠ 0#w) : 0 < a.toNat := by
  refine Nat.pos_of_ne_zero ?_
  simpa using BitVec.toNat_ne.1 ha

/-! ### Sums and differences -/

/-- Two rooms may differ where they are not looked at. -/
theorem rooms_congr {looksUp looksDown unsigned : Prop} {head foot a : BitVec w} {above below : Int}
    (hhead : looksUp → head.toInt = above) (hfoot : looksDown → foot.toInt = below) :
    (looksUp ∧ head.toInt < a.toInt ∨ looksDown ∧ a.toInt < foot.toInt ∨ unsigned) ↔
      (looksUp ∧ above < a.toInt ∨ looksDown ∧ a.toInt < below ∨ unsigned) := by
  refine or_congr (and_congr_right fun h => ?_) (or_congr_left (and_congr_right fun h => ?_))
  · rw [hhead h]
  · rw [hfoot h]

/-- The room above and below is exact wherever the condition looks at it. -/
theorem BinOp.overflows_iff_outgrows {op : BinOp} (hop : op = .add ∨ op = .sub) (hpos : 0 < w)
    (a b r : BitVec w) : op.overflows a b r = true ↔ op.outgrows a b r := by
  obtain ⟨hlow, hhigh⟩ := fitsSigned_toInt b
  have hmax : (BitVec.intMax w).toInt = 2 ^ (w - 1) - 1 := BitVec.toInt_intMax
  have hmin := BitVec.toInt_intMin_of_pos hpos
  -- The rooms are computed in wrapping arithmetic, but only read on the side where they do not
  -- wrap.
  rcases hop with rfl | rfl
  · have hhead : 0 < b.toInt → (BitVec.intMax w - b).toInt = 2 ^ (w - 1) - 1 - b.toInt := by
      intro hb
      rw [BitVec.toInt_sub, hmax, bmod_of_fitsSigned hpos ⟨by omega, by omega⟩]
    have hfoot : b.toInt < 0 → (BitVec.intMin w - b).toInt = -2 ^ (w - 1) - b.toInt := by
      intro hb
      rw [BitVec.toInt_sub, hmin, bmod_of_fitsSigned hpos ⟨by omega, by omega⟩]
    simp only [overflows, outgrows, Bool.or_eq_true, Bool.and_eq_true, BitVec.slt_iff_toInt_lt,
      BitVec.ult_iff_lt, BitVec.lt_def, BitVec.toInt_zero, or_assoc]
    exact rooms_congr hhead hfoot
  · have hhead : b.toInt < 0 → (BitVec.intMax w + b).toInt = 2 ^ (w - 1) - 1 + b.toInt := by
      intro hb
      rw [BitVec.toInt_add, hmax, bmod_of_fitsSigned hpos ⟨by omega, by omega⟩]
    have hfoot : 0 < b.toInt → (BitVec.intMin w + b).toInt = -2 ^ (w - 1) + b.toInt := by
      intro hb
      rw [BitVec.toInt_add, hmin, bmod_of_fitsSigned hpos ⟨by omega, by omega⟩]
    simp only [overflows, outgrows, Bool.or_eq_true, Bool.and_eq_true, BitVec.slt_iff_toInt_lt,
      BitVec.ult_iff_lt, BitVec.lt_def, BitVec.toInt_zero, or_assoc]
    exact rooms_congr hhead hfoot

/-- A wrapped sum is below its first term if the terms carry out of the width. -/
theorem toNat_add_lt_iff (a b : BitVec w) :
    (a + b).toNat < a.toNat ↔ 2 ^ w ≤ a.toNat + b.toNat := by
  have ha := a.isLt
  have hb := b.isLt
  rw [BitVec.toNat_add]
  rcases Nat.lt_or_ge (a.toNat + b.toNat) (2 ^ w) with hlt | hle
  · rw [Nat.mod_eq_of_lt hlt]
    omega
  · rw [Nat.mod_eq_sub_mod hle, Nat.mod_eq_of_lt (by omega)]
    omega

/-- A sum outgrows its rooms if it overflows. -/
theorem outgrows_add_iff (a b : BitVec w) :
    BinOp.outgrows .add a b (a + b) ↔ Overflows (· + ·) a b := by
  obtain ⟨halow, hahigh⟩ := fitsSigned_toInt a
  obtain ⟨hblow, hbhigh⟩ := fitsSigned_toInt b
  have hcast : ((2 ^ w : Nat) : Int) = 2 ^ w := Int.natCast_pow 2 w
  simp only [BinOp.outgrows, Overflows, FitsSigned, FitsUnsigned, toNat_add_lt_iff]
  omega

/-- So does a difference. -/
theorem outgrows_sub_iff (a b : BitVec w) :
    BinOp.outgrows .sub a b (a - b) ↔ Overflows (· - ·) a b := by
  obtain ⟨halow, hahigh⟩ := fitsSigned_toInt a
  obtain ⟨hblow, hbhigh⟩ := fitsSigned_toInt b
  have ha := a.isLt
  have hcast : ((2 ^ w : Nat) : Int) = 2 ^ w := Int.natCast_pow 2 w
  simp only [BinOp.outgrows, Overflows, FitsSigned, FitsUnsigned]
  omega

/-! ### Products -/

/-- The unsigned half of the condition of a product finds the unsigned overflows. -/
theorem umul_condition_iff (a b : BitVec w) :
    (b ≠ 0#w ∧ (BitVec.allOnes w / b).toNat < a.toNat) ↔
      ¬ FitsUnsigned w ((a.toNat : Int) * b.toNat) := by
  have hpos : 0 < 2 ^ w := Nat.two_pow_pos w
  have hcast : ((2 ^ w : Nat) : Int) = 2 ^ w := Int.natCast_pow 2 w
  have hfits : ¬ FitsUnsigned w ((a.toNat : Int) * b.toNat) ↔ 2 ^ w ≤ a.toNat * b.toNat := by
    rw [FitsUnsigned, ← Int.natCast_mul]
    omega
  rw [hfits]
  by_cases hb : b = 0#w
  · subst hb
    simp
  · rw [BitVec.toNat_udiv, BitVec.toNat_allOnes, Nat.div_lt_iff_lt_mul (toNat_pos hb)]
    exact ⟨fun h => by omega, fun h => ⟨hb, by omega⟩⟩

/-- A product that is off by less than its first factor is not off: it wraps by multiples of the
    whole range. -/
theorem mul_eq_of_tdiv_eq (hpos : 0 < w) {a b : BitVec w} (ha : a ≠ 0#w)
    (h : (a * b).toInt.tdiv a.toInt = b.toInt) : (a * b).toInt = a.toInt * b.toInt := by
  obtain ⟨hlow, hhigh⟩ := fitsSigned_toInt a
  have hdouble := two_pow_eq_double hpos
  have ha' := toInt_ne_zero ha
  have hdivision := Int.mul_tdiv_add_tmod (a * b).toInt a.toInt
  rw [h] at hdivision
  -- The error is the rest of the division, up to its sign.
  have hrest : ((a * b).toInt.tmod a.toInt).natAbs < a.toInt.natAbs := by
    rw [Int.natAbs_tmod]
    exact Nat.mod_lt _ (by omega)
  have hdvd : ((2 ^ w : Nat) : Int) ∣ (a * b).toInt - a.toInt * b.toInt := by
    rw [BitVec.toInt_mul]
    exact Int.dvd_bmod_sub_self
  have hzero := Int.eq_zero_of_dvd_of_natAbs_lt_natAbs hdvd (by omega)
  omega

/-- Where the quotient of the wrapped product wraps itself, the second factor is the least integer
    and the first one is -1.  Their product is an unsigned overflow. -/
theorem not_fitsUnsigned_of_quotient (hw : 2 ≤ w) {a b : BitVec w} (ha : a ≠ 0#w)
    (h : (a * b).sdiv a = b) (hwraps : ¬ FitsSigned w ((a * b).toInt.tdiv a.toInt)) :
    ¬ FitsUnsigned w ((a.toNat : Int) * b.toNat) := by
  obtain ⟨hlow, hhigh⟩ := fitsSigned_toInt (a * b)
  have hpos : 0 < w := by omega
  have hdouble := two_pow_eq_double hpos
  have hfour : 2 ^ 2 ≤ 2 ^ w := Nat.pow_le_pow_right (by decide) hw
  -- A quotient is no greater than what is divided, so this one is out of range by one.
  have hquotient : (a * b).toInt.tdiv a.toInt = 2 ^ (w - 1) := by
    have hle := Int.natAbs_tdiv_le_natAbs (a * b).toInt a.toInt
    simp only [FitsSigned] at hwraps
    omega
  have hleast : b.toInt = -2 ^ (w - 1) := by
    have hturn : (2 : Int) ^ (w - 1) = -2 ^ (w - 1) + ((2 ^ w : Nat) : Int) := by omega
    calc b.toInt = ((2 : Int) ^ (w - 1)).bmod (2 ^ w) := by
          rw [← hquotient, ← BitVec.toInt_sdiv, h]
      _ = (-2 ^ (w - 1) + ((2 ^ w : Nat) : Int)).bmod (2 ^ w) := by rw [← hturn]
      _ = (-2 ^ (w - 1) : Int).bmod (2 ^ w) := Int.add_bmod_right _ _
      _ = -2 ^ (w - 1) := bmod_of_fitsSigned hpos ⟨by omega, by omega⟩
  have hb : (b.toNat : Int) = 2 ^ (w - 1) := by
    rw [BitVec.toInt_eq_toNat_cond] at hleast
    split at hleast <;> omega
  -- By 1 the quotient would be the product, which is in range.
  have ha' : 2 ≤ a.toNat := by
    by_contra hlt
    have hone : a.toNat = 1 := by
      have := toNat_pos ha
      omega
    have hone' : a.toInt = 1 := by
      rw [BitVec.toInt_eq_toNat_cond, hone, if_pos (by omega)]
      rfl
    rw [hone', Int.tdiv_one] at hquotient
    omega
  have hproduct : (2 : Int) * b.toNat ≤ a.toNat * b.toNat :=
    Int.mul_le_mul_of_nonneg_right (by omega) (by omega)
  have hcast : ((2 ^ w : Nat) : Int) = 2 ^ w := Int.natCast_pow 2 w
  exact fun hfits => absurd hfits.2 (by omega)

/-- **Products.** The signed half of the condition misses an overflow only where the unsigned half
    finds one. -/
theorem overflows_mul_iff (hw : 2 ≤ w) (a b : BitVec w) :
    BinOp.overflows .mul a b (a * b) = true ↔ Overflows (· * ·) a b := by
  have hpos : 0 < w := by omega
  simp only [BinOp.overflows, Overflows, Bool.or_eq_true, Bool.and_eq_true, bne_iff_ne,
    BitVec.ult_iff_lt, BitVec.lt_def, umul_condition_iff]
  refine or_congr_left' fun hunsigned => ⟨?_, fun hsigned => ?_⟩
  · rintro ⟨ha, hne⟩ hfits
    refine hne (BitVec.toInt_inj.1 ?_)
    rw [BitVec.toInt_sdiv, BitVec.toInt_mul, bmod_of_fitsSigned hpos hfits,
      Int.mul_tdiv_cancel_left _ (toInt_ne_zero ha), bmod_of_fitsSigned hpos (fitsSigned_toInt b)]
  · have ha : a ≠ 0#w := by
      rintro rfl
      have hzero : (0 : Int) < 2 ^ (w - 1) := Int.pow_pos (by decide)
      rw [BitVec.toInt_zero, Int.zero_mul] at hsigned
      exact hsigned ⟨by omega, hzero⟩
    refine ⟨ha, fun hquotient => ?_⟩
    -- The division is reckoned in words: it gives `b` with or without having wrapped.
    by_cases hwraps : FitsSigned w ((a * b).toInt.tdiv a.toInt)
    · have htdiv : (a * b).toInt.tdiv a.toInt = b.toInt := by
        rw [← bmod_of_fitsSigned hpos hwraps, ← BitVec.toInt_sdiv, hquotient]
      have hexact := mul_eq_of_tdiv_eq hpos ha htdiv
      exact hsigned (hexact ▸ fitsSigned_toInt (a * b))
    · exact hunsigned (not_fitsUnsigned_of_quotient hw ha hquotient hwraps)

end Width

/-! ### The appended conditions -/

section Appended

variable {f : Function} {c : Cursor} {w : Watched} (t : Threshold) (a b : BitVec 32)

/-- **The condition of a product is exact.** Appended anywhere and run on sides `a` and `b` and
    their wrapped product, it finds out whether the exact product leaves the signed or the unsigned
    range. -/
theorem mulOverflow_exact (hc : c.block.index < f.blocks.size) (hw : w.Typed f)
    (hty : w.ty = .int 32) :
    CheckPredicate.mulOverflow.Yields t f c w (.ofBits a) (.ofBits b) (.ofBits (a * b))
      (decide (Overflows (· * ·) a b)) :=
  CheckPredicate.yields_int hc hw hty rfl
    (CheckPredicate.value?_mulOverflow (by decide) (by decide) t a b (a * b))
    (overflows_mul_iff (by decide) a b)

/-- The product of -1 and the least integer, which the signed half misses. -/
theorem mulOverflow_exact_least :
    Overflows (· * ·) (-1#32) (BitVec.intMin 32) ∧
      CheckPredicate.mulOverflow.Leaves .hundred doubling { block := ⟨2⟩ } .mul (-1#32)
        (BitVec.intMin 32) (-1#32 * BitVec.intMin 32) true :=
  ⟨by decide, (mulOverflow_exact (c := { block := ⟨2⟩ }) .hundred (-1#32) (BitVec.intMin 32)
    (by decide) ⟨rfl, rfl, rfl⟩ rfl).leaves⟩

/-- **The conditions of a sum and of a difference are exact.** Appended anywhere and run on sides
    `a` and `b` and the wrapped result, they find out whether the exact result leaves the signed or
    the unsigned range.  That is also what they would find if no room wrapped. -/
theorem addOverflow_subOverflow_exact (hc : c.block.index < f.blocks.size) (hw : w.Typed f)
    (hty : w.ty = .int 32) :
    (CheckPredicate.addOverflow.Yields t f c w (.ofBits a) (.ofBits b) (.ofBits (a + b))
        (decide (Overflows (· + ·) a b)) ∧
      (Overflows (· + ·) a b ↔ BinOp.outgrows .add a b (a + b))) ∧
    CheckPredicate.subOverflow.Yields t f c w (.ofBits a) (.ofBits b) (.ofBits (a - b))
        (decide (Overflows (· - ·) a b)) ∧
      (Overflows (· - ·) a b ↔ BinOp.outgrows .sub a b (a - b)) := by
  have hpos : 0 < 32 := by decide
  have hadd := BinOp.overflows_iff_outgrows (.inl rfl) hpos a b (a + b)
  have hsub := BinOp.overflows_iff_outgrows (.inr rfl) hpos a b (a - b)
  refine ⟨⟨CheckPredicate.yields_int hc hw hty rfl
      (CheckPredicate.value?_addOverflow hpos (by decide) t a b (a + b))
      (hadd.trans (outgrows_add_iff a b)), (outgrows_add_iff a b).symm⟩,
    CheckPredicate.yields_int hc hw hty rfl
      (CheckPredicate.value?_subOverflow hpos (by decide) t a b (a - b))
      (hsub.trans (outgrows_sub_iff a b)), (outgrows_sub_iff a b).symm⟩

/-- The least integer and 1: only the difference overflows.  The room above it wraps, unseen. -/
theorem addOverflow_subOverflow_exact_least :
    CheckPredicate.addOverflow.Leaves .hundred doubling { block := ⟨2⟩ } .add
      (BitVec.intMin 32) 1#32
        (BitVec.intMin 32 + 1#32) false ∧
      CheckPredicate.subOverflow.Leaves .hundred doubling { block := ⟨2⟩ } .sub (BitVec.intMin 32)
        1#32 (BitVec.intMin 32 - 1#32) true :=
  ⟨(addOverflow_subOverflow_exact (c := { block := ⟨2⟩ }) .hundred (BitVec.intMin 32) 1#32
      (by decide) ⟨rfl, rfl, rfl⟩ rfl).1.1.leaves,
    (addOverflow_subOverflow_exact (c := { block := ⟨2⟩ }) .hundred (BitVec.intMin 32) 1#32
      (by decide) ⟨rfl, rfl, rfl⟩ rfl).2.1.leaves⟩

end Appended

end ArithWatch
