import ArithWatch.Proofs.Execution.Machine
import ArithWatch.Proofs.IR.WellFormed
import ArithWatch.Proofs.Outcome

namespace ArithWatch

/-!
# Types and widths at run time

In a regular function every register holds a value of its type, and integers fit their widths.

* `Scalar.Fits` says that an integer fits its width; every operation gives such a value.
* `Scalar.exists_binary`: an operation on fitting values of one type that it fits has a result.
* `Registers.Typed` is the invariant of registers, where the widths may rest on a condition, and
  `Registers.Legal` the same without one.
* `RunState.Sound` is the invariant of a run; `Advances.sound` and `Runs.sound` say that steps and
  walks keep it.
-/

-- `2 ^ n` is the built-in power of natural numbers and integers, whatever else is in scope.
attribute [local instance (2000)] instPowNat

/-! ### Words -/

namespace Word

/-- A cut word has no bits above the width. -/
theorem toNat_and_lowMask_lt (width : Nat) (v : UInt64) :
    (v &&& lowMask width).toNat < 2 ^ width := by
  rcases Nat.lt_or_ge 64 width with h | h
  · exact Nat.lt_of_lt_of_le (UInt64.toNat_lt _) (Nat.pow_le_pow_right (by decide) (Nat.le_of_lt h))
  · rw [toNat_and_lowMask h]
    exact Nat.mod_lt _ (Nat.two_pow_pos _)

/-- A word without bits above the width that reads as zero is zero. -/
theorem eq_zero_of_signed {width : Nat} {v : UInt64} (hv : v.toNat < 2 ^ width)
    (h : signed width v = 0) : v = 0 := by
  have hspan : v.toNat < 2 ^ signedSpan width := by
    rw [signedSpan]
    split
    · exact UInt64.toNat_lt v
    · exact hv
  have hdvd := Int.dvd_of_bmod_eq_zero h
  have hzero : v.toNat = 0 := Nat.eq_zero_of_dvd_of_lt (Int.natCast_dvd_natCast.1 hdvd) hspan
  exact UInt64.toNat.inj hzero

end Word

/-! ### Scalars -/

namespace Scalar

/-- An integer has no bits above its width. -/
def Fits : Scalar → Prop
  | .int width word => word.toNat < 2 ^ width
  | .f32 _ | .f64 _ => True

instance : DecidablePred Fits := fun a =>
  match a with
  | .int width word => inferInstanceAs (Decidable (word.toNat < 2 ^ width))
  | .f32 _ | .f64 _ => .isTrue trivial

/-- A truth value fits its one bit. -/
theorem fits_ofBool (b : Bool) : (ofBool b).Fits := Word.toNat_and_lowMask_lt _ _

theorem bool?_ofBool (b : Bool) : (ofBool b).bool? = some b := by
  cases b <;> rfl

/-- A constant has the type that it is declared with. -/
theorem ty_ofConstant (c : Constant) : (ofConstant c).ty = c.ty := by
  unfold ofConstant
  cases c.ty <;> rfl

/-- The bits of a constant are cut to its type as it is read. -/
theorem fits_ofConstant (c : Constant) : (ofConstant c).Fits := by
  unfold ofConstant
  cases h : c.ty with
  | int width =>
    have := Word.toNat_and_lowMask_lt width c.bits
    simpa [Fits, Constant.unsigned, h, Ty.patternWidth] using this
  | f32 => trivial
  | f64 => trivial

/-- A truth value is the outcome of a test. -/
theorem exists_bool {a : Scalar} (h : a.ty = .i1) : ∃ b, a.bool? = some b := by
  cases a with
  | int width word =>
    cases h
    exact ⟨_, rfl⟩
  | f32 bits => cases h
  | f64 bits => cases h

end Scalar

namespace IntOp

/-- Results of integer operators are masked to the width. -/
theorem lt_of_result {op : BinOp} {width : Nat} {x y w : UInt64}
    (h : result op width x y = .ok (some w)) : w.toNat < 2 ^ width := by
  rw [result] at h
  cases hword : word op width x y with
  | error fault =>
    rw [hword] at h
    cases h
  | ok found =>
    rw [hword] at h
    obtain ⟨v, -, rfl⟩ := Option.map_eq_some_iff.1 (Except.ok.inj h)
    exact Word.toNat_and_lowMask_lt width v

/-- An integer operation has a word, or it divides by a word that is not zero but reads as zero. -/
theorem word_cases {op : BinOp} (hop : op.isFloat = false) (width : Nat) (x y : UInt64) :
    (∃ w, word op width x y = .ok (some w)) ∨
      word op width x y = .error .zeroDivisor ∧ y ≠ 0 ∧ Word.signed width y = 0 := by
  have hdivision : ∀ {a b : UInt64} {q : Result UInt64},
      q = (if y = 0 then .ok (some a) else if Word.signed width y = 0 then .error .zeroDivisor
        else .ok (some b)) →
      (∃ w, q = .ok (some w)) ∨ q = .error .zeroDivisor ∧ y ≠ 0 ∧ Word.signed width y = 0 := by
    rintro a b q rfl
    by_cases hy : y = 0
    · exact .inl ⟨a, if_pos hy⟩
    · by_cases hsigned : Word.signed width y = 0
      · exact .inr ⟨(if_neg hy).trans (if_pos hsigned), hy, hsigned⟩
      · exact .inl ⟨b, (if_neg hy).trans (if_neg hsigned)⟩
  cases op with
  | sdiv | srem => exact hdivision rfl
  | fadd | fsub | fmul | fdiv | frem => cases hop
  | _ => exact .inl ⟨_, rfl⟩

end IntOp

namespace FloatOp

/-- Float operators have a result on all patterns. -/
theorem exists_result? {op : BinOp} (hop : op.isFloat = true) (format : BinaryFormat) (x y : Nat) :
    ∃ w, result? format op x y = some w := by
  cases op <;> first | exact ⟨_, rfl⟩ | cases hop

end FloatOp

namespace Scalar

variable {op : BinOp} {a b r : Scalar}

/-- The result of an operation has the type of its left side. -/
theorem binary_eq_ok (h : binary op a b = .ok (some r)) : r.ty = a.ty ∧ r.Fits := by
  unfold binary at h
  -- One case for each pair of kinds; only the widths of integers are compared.
  split at h
  · next width x width' y =>
    split at h
    · next hwidth =>
      cases hresult : IntOp.result op width x y with
      | error fault =>
        rw [hresult] at h
        cases h
      | ok found =>
        rw [hresult] at h
        obtain ⟨w, rfl, rfl⟩ := Option.map_eq_some_iff.1 (Except.ok.inj h)
        exact ⟨rfl, IntOp.lt_of_result hresult⟩
    · cases h
  · obtain ⟨w, -, rfl⟩ := Option.map_eq_some_iff.1 (Except.ok.inj h)
    exact ⟨rfl, trivial⟩
  · obtain ⟨w, -, rfl⟩ := Option.map_eq_some_iff.1 (Except.ok.inj h)
    exact ⟨rfl, trivial⟩
  · cases h

/-- An operation on values of one type that it fits has a result, but for a division by a divisor
    that does not fit. -/
theorem binary_cases (hop : op.isFloat = a.ty.isFloat) (hty : b.ty = a.ty) :
    (∃ r, binary op a b = .ok (some r)) ∨ (binary op a b = .error .zeroDivisor ∧ ¬ b.Fits) := by
  -- The types match, which leaves the three pairs on the diagonal.
  cases a with
  | int width x =>
    cases b with
    | int width' y =>
      cases hty
      rcases IntOp.word_cases hop width x y with ⟨w, hw⟩ | ⟨hfault, hne, hsigned⟩
      · exact .inl ⟨.int width (w &&& Word.lowMask width),
          by simp [binary, IntOp.result, hw, Except.map]⟩
      · exact .inr ⟨by simp [binary, IntOp.result, hfault, Except.map],
          fun hfits => hne (Word.eq_zero_of_signed hfits hsigned)⟩
    | f32 y => cases hty
    | f64 y => cases hty
  | f32 x =>
    cases b with
    | f32 y =>
      obtain ⟨w, hw⟩ := FloatOp.exists_result? hop .single x.toNat y.toNat
      exact .inl ⟨.f32 (.ofNat w), by simp [binary, hw]⟩
    | int width y => cases hty
    | f64 y => cases hty
  | f64 x =>
    cases b with
    | f64 y =>
      obtain ⟨w, hw⟩ := FloatOp.exists_result? hop .double x.toNat y.toNat
      exact .inl ⟨.f64 (.ofNat w), by simp [binary, hw]⟩
    | int width y => cases hty
    | f32 y => cases hty

/-- **Operations have results**, as nothing faults on a divisor that fits. -/
theorem exists_binary (hop : op.isFloat = a.ty.isFloat) (hty : b.ty = a.ty) (hb : b.Fits) :
    ∃ r, binary op a b = .ok (some r) :=
  (binary_cases hop hty).resolve_right fun h => h.2 hb

/-- Comparisons of integers give truth values. -/
theorem icmp?_eq_some {pred : IntPredicate} (h : icmp? pred a b = some r) : ∃ c, r = ofBool c := by
  unfold icmp? at h
  split at h
  · split at h
    · exact ⟨_, (Option.some.inj h).symm⟩
    · cases h
  · cases h

/-- So do comparisons of floats. -/
theorem fcmp?_eq_some {pred : FloatPredicate} (h : fcmp? pred a b = some r) :
    ∃ c, r = ofBool c := by
  unfold fcmp? at h
  split at h
  · exact ⟨_, (Option.some.inj h).symm⟩
  · exact ⟨_, (Option.some.inj h).symm⟩
  · cases h

/-- Integers of one type can be compared. -/
theorem exists_icmp? (pred : IntPredicate) (hint : a.ty.isInt = true) (hty : b.ty = a.ty) :
    ∃ c, icmp? pred a b = some (ofBool c) := by
  cases a with
  | int width x =>
    cases b with
    | int width' y =>
      cases hty
      exact ⟨_, if_pos rfl⟩
    | f32 y => cases hty
    | f64 y => cases hty
  | f32 x => cases hint
  | f64 x => cases hint

/-- Floats of one type can be compared. -/
theorem exists_fcmp? (pred : FloatPredicate) (hfloat : a.ty.isFloat = true) (hty : b.ty = a.ty) :
    ∃ c, fcmp? pred a b = some (ofBool c) := by
  cases a with
  | int width x => cases hfloat
  | f32 x =>
    cases b with
    | f32 y => exact ⟨_, rfl⟩
    | int width y => cases hty
    | f64 y => cases hty
  | f64 x =>
    cases b with
    | f64 y => exact ⟨_, rfl⟩
    | int width y => cases hty
    | f32 y => cases hty

end Scalar

/-! ### Registers -/

/-- Every register that has a value has one of its type, which fits where `c` holds. -/
structure Registers.Typed (f : Function) (c : Prop) (regs : Registers) : Prop where
  size_eq : regs.size = f.valueTypes.size
  typed : ∀ v a, regs.read (.value v) = .ok a → f.valueType? v = some a.ty ∧ (c → a.Fits)

/-- Every register that has a value has one of its type, which fits. -/
structure Registers.Legal (f : Function) (regs : Registers) : Prop where
  size_eq : regs.size = f.valueTypes.size
  typed : ∀ v a, regs.read (.value v) = .ok a → f.valueType? v = some a.ty ∧ a.Fits

namespace Registers

variable {f : Function} {c : Prop} {regs regs' : Registers}

/-- Where the condition holds, typed registers are legal. -/
theorem Typed.legal (h : regs.Typed f c) (hc : c) : regs.Legal f where
  size_eq := h.size_eq
  typed v a hread := ⟨(h.typed v a hread).1, (h.typed v a hread).2 hc⟩

/-- Legal registers are typed, and all values in them fit. -/
theorem legal_iff_typed : regs.Legal f ↔ regs.Typed f True :=
  ⟨fun h => ⟨h.size_eq, fun v a hread => ⟨(h.typed v a hread).1, fun _ => (h.typed v a hread).2⟩⟩,
    fun h => h.legal trivial⟩

/-- No register is set at first. -/
theorem read_replicate (n : Nat) (v : ValueId) :
    read (Array.replicate n none) (.value v) = .error (.error (.undefined v)) := by
  simp only [read, Array.getElem?_replicate]
  split <;> simp_all

/-- Registers that are all empty are typed. -/
theorem typed_replicate (f : Function) (c : Prop) :
    Typed f c (Array.replicate f.valueTypes.size none) where
  size_eq := Array.size_replicate
  typed v a h := by
    rw [read_replicate] at h
    cases h

namespace Typed

variable (h : regs.Typed f c)

include h

/-- An operand reads as a value of its type. -/
theorem read {op : Operand} {a : Scalar} (hread : regs.read op = .ok a) :
    f.operandType? op = some a.ty ∧ (c → a.Fits) := by
  cases op with
  | value v => exact h.typed v a hread
  | const k =>
    cases hread
    exact ⟨congrArg some (Scalar.ty_ofConstant k).symm, fun _ => Scalar.fits_ofConstant k⟩

/-- A write keeps registers typed if the value has the type of its register. -/
theorem write {v : ValueId} {a : Scalar} (hty : f.valueType? v = some a.ty) (ha : c → a.Fits)
    (hwrite : regs.write v a = .ok regs') : regs'.Typed f c where
  size_eq := (size_eq_of_write hwrite).trans h.size_eq
  typed w b hread := by
    rw [read_write hwrite] at hread
    split at hread
    · next hv =>
      cases hread
      exact hv ▸ ⟨hty, ha⟩
    · exact h.typed w b hread

/-- So do writes one after the other. -/
theorem writeAll {writes : List (ValueId × Scalar)}
    (hwrites : ∀ e ∈ writes, f.valueType? e.1 = some e.2.ty ∧ (c → e.2.Fits))
    (hwrite : regs.writeAll writes = .ok regs') : regs'.Typed f c := by
  induction writes generalizing regs with
  | nil =>
    cases hwrite
    exact h
  | cons e rest ih =>
    obtain ⟨v, a⟩ := e
    rw [Registers.writeAll] at hwrite
    split at hwrite
    · next regs₁ hfirst =>
      obtain ⟨hty, ha⟩ := hwrites _ List.mem_cons_self
      exact ih (h.write hty ha hfirst) (fun e he => hwrites e (List.mem_cons_of_mem _ he)) hwrite
    · cases hwrite

/-- The arguments of a run have the types of the parameters. -/
theorem bindArgs {index : Nat} {args : List (ValueId × Scalar)}
    (hargs : ∀ e ∈ args, c → e.2.Fits)
    (hbind : f.bindArgs index regs args = .ok regs') : regs'.Typed f c := by
  induction args generalizing index regs with
  | nil =>
    cases hbind
    exact h
  | cons e rest ih =>
    obtain ⟨v, a⟩ := e
    rw [Function.bindArgs] at hbind
    -- A parameter has a type, the argument has it too, and its register can be written.
    split at hbind
    · cases hbind
    · next ty hty =>
      split at hbind
      · next hsame =>
        split at hbind
        · cases hbind
        · next regs₁ hfirst =>
          exact ih (h.write (hsame ▸ hty) (hargs _ List.mem_cons_self) hfirst)
            (fun e he => hargs e (List.mem_cons_of_mem _ he)) hbind
      · cases hbind

end Typed

/-- What is read from legal registers has the type of the operand and fits it. -/
theorem Legal.read (h : regs.Legal f) {op : Operand} {a : Scalar} (hread : regs.read op = .ok a) :
    f.operandType? op = some a.ty ∧ a.Fits := by
  obtain ⟨hty, ha⟩ := (legal_iff_typed.1 h).read hread
  exact ⟨hty, ha trivial⟩

end Registers

/-! ### Instructions -/

namespace Inst

variable {f : Function} {c : Prop} {regs : Registers} {i : Inst} {a : Scalar}

/-- What an instruction expects to be there is there if it succeeds. -/
theorem expect_eq_ok {found : Option Scalar} (h : i.expect found = .ok a) : found = some a := by
  cases found with
  | none => cases h
  | some b =>
    cases h
    rfl

/-- The result of a binary operation comes from the values of its sides. -/
theorem eval_binary_eq_ok {op : BinOp} {lhs rhs : Operand} {flags : WrapFlags}
    (hk : i.kind = .binary op lhs rhs flags) (h : i.eval regs = .ok a) :
    ∃ x y, regs.read lhs = .ok x ∧ regs.read rhs = .ok y ∧ Scalar.binary op x y = .ok (some a) := by
  simp only [eval, hk] at h
  obtain ⟨x, hx, h⟩ := except_bind_eq_ok.1 h
  obtain ⟨y, hy, h⟩ := except_bind_eq_ok.1 h
  refine ⟨x, y, hx, hy, ?_⟩
  split at h
  · next r hr => rw [hr, expect_eq_ok h]
  · cases h

/-- A comparison of integers reads both sides. -/
theorem eval_icmp_eq_ok {pred : IntPredicate} {lhs rhs : Operand}
    (hk : i.kind = .icmp pred lhs rhs) (h : i.eval regs = .ok a) :
    ∃ x y, regs.read lhs = .ok x ∧ regs.read rhs = .ok y ∧ Scalar.icmp? pred x y = some a := by
  simp only [eval, hk] at h
  obtain ⟨x, hx, h⟩ := except_bind_eq_ok.1 h
  obtain ⟨y, hy, h⟩ := except_bind_eq_ok.1 h
  exact ⟨x, y, hx, hy, expect_eq_ok h⟩

/-- A comparison of floats reads both sides. -/
theorem eval_fcmp_eq_ok {pred : FloatPredicate} {lhs rhs : Operand}
    (hk : i.kind = .fcmp pred lhs rhs) (h : i.eval regs = .ok a) :
    ∃ x y, regs.read lhs = .ok x ∧ regs.read rhs = .ok y ∧ Scalar.fcmp? pred x y = some a := by
  simp only [eval, hk] at h
  obtain ⟨x, hx, h⟩ := except_bind_eq_ok.1 h
  obtain ⟨y, hy, h⟩ := except_bind_eq_ok.1 h
  exact ⟨x, y, hx, hy, expect_eq_ok h⟩

/-- The result of a well-typed instruction has its type. -/
theorem typed_of_eval (h : regs.Typed f c) (hi : f.InstFits i) (heval : i.eval regs = .ok a) :
    f.valueType? i.result = some a.ty ∧ a.Fits := by
  unfold Function.InstFits at hi
  -- The result of an operator has the type of its left side, and that of a comparison is a truth
  -- value.
  cases hk : i.kind with
  | binary op lhs rhs flags =>
    rw [hk] at hi
    obtain ⟨ty, hlhs, -, hresult, -⟩ := hi
    obtain ⟨x, y, hx, -, hbinary⟩ := eval_binary_eq_ok hk heval
    obtain ⟨hty, ha⟩ := Scalar.binary_eq_ok hbinary
    have := (h.read hx).1
    rw [hlhs, Option.some.injEq] at this
    exact ⟨by rw [hresult, hty, this], ha⟩
  | icmp pred lhs rhs =>
    rw [hk] at hi
    obtain ⟨ty, -, -, hresult, -⟩ := hi
    obtain ⟨x, y, -, -, hcmp⟩ := eval_icmp_eq_ok hk heval
    obtain ⟨truth, rfl⟩ := Scalar.icmp?_eq_some hcmp
    exact ⟨hresult, Scalar.fits_ofBool truth⟩
  | fcmp pred lhs rhs =>
    rw [hk] at hi
    obtain ⟨ty, -, -, hresult, -⟩ := hi
    obtain ⟨x, y, -, -, hcmp⟩ := eval_fcmp_eq_ok hk heval
    obtain ⟨truth, rfl⟩ := Scalar.fcmp?_eq_some hcmp
    exact ⟨hresult, Scalar.fits_ofBool truth⟩
  | phi incoming =>
    simp only [eval, hk] at heval
    cases heval

/-- The results of well-typed phis have their types. -/
theorem typed_of_evalPhis (h : regs.Typed f c) {prev : Option BlockId} {is : List Inst}
    (his : ∀ i ∈ is, f.InstFits i) {writes : List (ValueId × Scalar)}
    (heval : evalPhis prev regs is = .ok writes) :
    ∀ e ∈ writes, f.valueType? e.1 = some e.2.ty ∧ (c → e.2.Fits) := by
  induction is generalizing writes with
  | nil =>
    cases heval
    exact fun e he => nomatch he
  | cons i rest ih =>
    rw [evalPhis] at heval
    split at heval
    · next incoming hk =>
      obtain ⟨a, ha, heval⟩ := except_bind_eq_ok.1 heval
      obtain ⟨found, hrest, heval⟩ := except_bind_eq_ok.1 heval
      cases heval
      -- The type of a phi is that of every input, and one of the inputs is read.
      refine List.forall_mem_cons.2 ⟨?_, ih (fun j hj => his j (List.mem_cons_of_mem _ hj)) hrest⟩
      have hi := his i List.mem_cons_self
      unfold Function.InstFits at hi
      rw [hk] at hi
      unfold evalPhi at ha
      split at ha
      · cases ha
      · split at ha
        · cases ha
        · next op hfind =>
          obtain ⟨hty, hfits⟩ := h.read ha
          exact ⟨(hi _ (List.mem_of_find?_eq_some hfind)).symm.trans hty, hfits⟩
    · cases heval
      exact fun e he => nomatch he

/-- Only the leading phis of a block are evaluated when it is entered. -/
theorem evalPhis_takeWhile (prev : Option BlockId) (regs : Registers) (is : List Inst) :
    evalPhis prev regs (is.takeWhile (·.kind.isPhi)) = evalPhis prev regs is := by
  induction is with
  | nil => rfl
  | cons i rest ih =>
    cases hk : i.kind with
    | phi incoming =>
      rw [List.takeWhile_cons_of_pos (by simp [hk, InstKind.isPhi])]
      simp only [evalPhis, hk, ih]
    | _ =>
      rw [List.takeWhile_cons_of_neg (by simp [hk, InstKind.isPhi])]
      simp only [evalPhis, hk]

/-- Every value that the phis give is the result of one of them. -/
theorem exists_of_evalPhis {prev : Option BlockId} {regs : Registers} {is : List Inst}
    {writes : List (ValueId × Scalar)} (h : evalPhis prev regs is = .ok writes) :
    ∀ e ∈ writes, ∃ i ∈ is, i.result = e.1 := by
  induction is generalizing writes with
  | nil =>
    cases h
    exact fun e he => nomatch he
  | cons i rest ih =>
    rw [evalPhis] at h
    split at h
    · obtain ⟨a, -, h⟩ := except_bind_eq_ok.1 h
      obtain ⟨found, hrest, h⟩ := except_bind_eq_ok.1 h
      cases h
      refine List.forall_mem_cons.2 ⟨⟨i, List.mem_cons_self, rfl⟩, fun e he => ?_⟩
      obtain ⟨j, hj, hresult⟩ := ih hrest e he
      exact ⟨j, List.mem_cons_of_mem _ hj, hresult⟩
    · cases h
      exact fun e he => nomatch he

end Inst

namespace Registers.Typed

variable {f : Function} {c : Prop} {regs regs' : Registers}

/-- Entering a block keeps registers typed. -/
theorem enter (h : regs.Typed f c) {block : Block} (htypes : ∀ i ∈ block.insts, f.InstFits i)
    {prev : Option BlockId} (henter : block.enter prev regs = .ok regs') : regs'.Typed f c := by
  obtain ⟨writes, hphis, hwrite⟩ := except_bind_eq_ok.1 henter
  exact h.writeAll (Inst.typed_of_evalPhis h htypes hphis) hwrite

/-- An instruction keeps registers typed. -/
theorem exec (h : regs.Typed f c) {i : Inst} (hi : f.InstFits i) {a : Scalar}
    (heval : i.eval regs = .ok a) (hwrite : regs.write i.result a = .ok regs') :
    regs'.Typed f c := by
  obtain ⟨hty, ha⟩ := Inst.typed_of_eval h hi heval
  exact h.write hty (fun _ => ha) hwrite

end Registers.Typed

/-! ### Runs -/

namespace RunState

/-- The registers of a run. -/
def regs : RunState → Registers
  | .entering _ _ regs | .inside _ _ regs => regs

/-- The registers are legal, and what is left of a block is the end of it. -/
def Sound (f : Function) (s : RunState) : Prop :=
  s.regs.Legal f ∧
    match s with
    | .entering _ cur _ => cur.index < f.blocks.size
    | .inside cur rest _ => ∃ block, f.block? cur = some block ∧ rest <:+ block.body

end RunState

section Sound

variable {f : Function} {s t : RunState}

/-- The body is the block behind its phis. -/
theorem Block.mem_of_mem_body {b : Block} {i : Inst} (h : i ∈ b.body) : i ∈ b.insts :=
  (List.dropWhile_sublist _).mem h

/-- What is left of a block consists of its instructions. -/
theorem RunState.Sound.inst_mem {cur : BlockId} {rest : List Inst} {regs : Registers}
    (h : Sound f (.inside cur rest regs)) :
    ∃ block, f.block? cur = some block ∧ ∀ i ∈ rest, i ∈ block.insts := by
  obtain ⟨-, block, hblock, hsuffix⟩ := h
  exact ⟨block, hblock, fun i hi => Block.mem_of_mem_body (hsuffix.mem hi)⟩

/-- The block to which control goes is a successor. -/
theorem Block.mem_successors_of_leave {b : Block} {cur target : BlockId} {regs : Registers}
    (h : b.leave cur regs = .ok (.jump target) ∨
      ∃ cond, b.leave cur regs = .ok (.branch cond target)) : target ∈ b.successors := by
  unfold Block.leave at h
  unfold Block.successors
  -- A terminator that is left for a block names that block.
  cases hterm : b.term with
  | none => simp [hterm] at h
  | some t =>
    cases hexit : t.exit with
    | br c =>
      simp only [hterm, hexit] at h
      rcases h with h | ⟨cond, h⟩
      · cases h
        simp [hexit, Exit.successors]
      · cases h
    | condBr cond thenTarget elseTarget =>
      simp only [hterm, hexit] at h
      rcases h with h | ⟨c, h⟩
      · obtain ⟨a, -, h⟩ := except_bind_eq_ok.1 h
        split at h <;> cases h
      · obtain ⟨a, -, h⟩ := except_bind_eq_ok.1 h
        split at h
        · next c' _ =>
          cases h
          cases c <;> simp [hexit, Exit.successors]
        · cases h
    | ret value =>
      simp only [hterm, hexit] at h
      cases value with
      | none => simp at h
      | some op =>
        rcases h with h | ⟨c, h⟩ <;> obtain ⟨a, -, h⟩ := except_bind_eq_ok.1 h <;> cases h
    | unreachable => simp [hterm, hexit] at h

/-- **One step keeps registers legal.** -/
theorem Advances.sound (h : f.Regular) {events : List Event} (hstep : Advances f s events t)
    (hs : s.Sound f) : t.Sound f := by
  have htarget : ∀ {cur target block regs}, f.block? cur = some block →
      (block.leave cur regs = .ok (.jump target) ∨
        ∃ cond, block.leave cur regs = .ok (.branch cond target)) →
      target.index < f.blocks.size :=
    fun hblock hleave => h.targets _ _ ⟨_, hblock, Block.mem_successors_of_leave hleave⟩
  -- Entering a block and executing an instruction write registers; the other steps only move on.
  cases hstep with
  | @enter prev cur block regs regs' hblock henter =>
    have hregs := (Registers.legal_iff_typed.1 hs.1).enter (h.types _ _ hblock) henter
    exact ⟨hregs.legal trivial, block, hblock, List.suffix_refl _⟩
  | @exec cur i rest regs a regs' heval hwrite =>
    obtain ⟨hlegal, block, hblock, hsuffix⟩ := hs
    have hi : i ∈ block.insts := Block.mem_of_mem_body (hsuffix.mem List.mem_cons_self)
    have hregs := (Registers.legal_iff_typed.1 hlegal).exec (h.types _ _ hblock i hi) heval hwrite
    exact ⟨hregs.legal trivial, block, hblock, (List.suffix_cons i rest).trans hsuffix⟩
  | jump hblock hleave => exact ⟨hs.1, htarget hblock (.inl hleave)⟩
  | branch hblock hleave => exact ⟨hs.1, htarget hblock (.inr ⟨_, hleave⟩)⟩

/-- **Runs keep the invariant.** -/
theorem Runs.sound (h : f.Regular) {n : Nat} {log : List Event} (hrun : Runs f s n log t)
    (hs : s.Sound f) : t.Sound f := by
  induction hrun with
  | refl s => exact hs
  | head hstep _ ih => exact ih (hstep.sound h hs)

/-- **Starts establish the invariant** if the arguments fit. -/
theorem Function.start_sound (h : f.Regular) {args : List Scalar} (hargs : ∀ a ∈ args, a.Fits)
    (hstart : f.start args = .ok s) : s.Sound f := by
  obtain ⟨-, regs, rfl, hbind⟩ := Function.start_eq_ok hstart
  have hregs : Registers.Typed f True regs := by
    refine (Registers.typed_replicate f True).bindArgs (fun e he _ => ?_) hbind
    exact hargs _ (List.of_mem_zip he).2
  exact ⟨hregs.legal trivial, (h.mem_layout _).1 h.entry_mem⟩

end Sound

end ArithWatch
