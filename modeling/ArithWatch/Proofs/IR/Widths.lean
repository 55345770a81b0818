import ArithWatch.Proofs.IR.Verified

namespace ArithWatch

/-!
# Widths of integers

The verifier looks at the widths of values only.  In a verified function every other type is that of
a value, that of floats or that of truth values, with two exceptions.  Nothing ties the type of two
constants that are compared with each other to the type of a value, nor the type of what a function
returns if it returns constants.

* `Ty.Sized` says that an integer has from 1 to 64 bits.
* `Function.Mentions`: the types that occur in a function, one case for each place.
* `Function.ComparesConstants` and `Function.ReturnsConstants` are the two exceptions.
* `mentions_sized_iff`: in a verified function every other type is sized.  `unsized_comparing` is a
  function that is accepted with integers of 100 bits.
-/

/-- An integer has from 1 to 64 bits. -/
def Ty.Sized : Ty → Prop
  | .int width => 1 ≤ width ∧ width ≤ 64
  | .f32 | .f64 => True

/-- Floating-point types have no width to check. -/
theorem Ty.Sized.of_isFloat {ty : Ty} (h : ty.isFloat = true) : ty.Sized := by
  cases ty with
  | int width => simp [isFloat, isInt] at h
  | f32 => trivial
  | f64 => trivial

namespace Function

/-- The types that occur in a function. -/
inductive Mentions (f : Function) : Ty → Prop
  | value {ty} : ty ∈ f.valueTypes → Mentions f ty
  /-- A constant that an instruction works on; a phi works on its inputs. -/
  | operand {b block i c} :
    f.block? b = some block → i ∈ block.insts → .const c ∈ i.kind.operands → Mentions f c.ty
  /-- A constant that a terminator reads. -/
  | exit {b block t c} :
    f.block? b = some block → block.term = some t → t.exit.operand? = some (.const c) →
    Mentions f c.ty
  | returned {ty} : f.returnType = some ty → Mentions f ty

/-- Two constants of the type are compared with each other. -/
def ComparesConstants (f : Function) (ty : Ty) : Prop :=
  ∃ b block i pred c d, f.block? b = some block ∧ i ∈ block.insts ∧
    i.kind = .icmp pred (.const c) (.const d) ∧ c.ty = ty ∧ d.ty = ty

/-- The function returns the type, and wherever it returns something that is a constant. -/
def ReturnsConstants (f : Function) (ty : Ty) : Prop :=
  f.returnType = some ty ∧ ∀ b block t value, f.block? b = some block → block.term = some t →
    t.exit = .ret value → ∃ c, value = some (.const c) ∧ c.ty = ty

variable {f : Function}

/-! ### Types of values -/

/-- The types of values are sized. -/
theorem Regular.sized_of_mem (h : f.Regular) {ty : Ty} (hmem : ty ∈ f.valueTypes) : ty.Sized := by
  cases ty with
  | int width => exact h.widths width hmem
  | f32 => trivial
  | f64 => trivial

/-- The type of a value is checked. -/
theorem Regular.sized_of_valueType? (h : f.Regular) {v : ValueId} {ty : Ty}
    (hty : f.valueType? v = some ty) : ty.Sized :=
  h.sized_of_mem (Array.mem_of_getElem? hty)

/-- An operand is a constant of its type, or the type is sized. -/
theorem Regular.sized_or_const (h : f.Regular) {op : Operand} {ty : Ty}
    (hty : f.operandType? op = some ty) : ty.Sized ∨ ∃ c, op = .const c ∧ c.ty = ty := by
  cases op with
  | value v => exact .inl (h.sized_of_valueType? hty)
  | const c => exact .inr ⟨c, rfl, Option.some.inj hty⟩

/-! ### Constants of instructions and terminators -/

/-- **Constants of instructions.** The type is sized, or it is that of two constants that are
    compared with each other. -/
theorem Regular.operand_sized (h : f.Regular) {b : BlockId} {block : Block}
    (hblock : f.block? b = some block) {i : Inst} (hi : i ∈ block.insts) {c : Constant}
    (hc : .const c ∈ i.kind.operands) : c.ty.Sized ∨ f.ComparesConstants c.ty := by
  have hfits := h.types b block hblock i hi
  unfold InstFits at hfits
  -- The type of a constant is the one that the rule of the instruction gives to its operands.
  have hsame : ∀ {lhs rhs : Operand} {ty : Ty}, f.operandType? lhs = some ty →
      f.operandType? rhs = some ty → .const c ∈ [lhs, rhs] → c.ty = ty := by
    intro lhs rhs ty hlhs hrhs hmem
    rcases List.mem_cons.1 hmem with rfl | hmem
    · exact Option.some.inj hlhs
    · rw [← List.mem_singleton.1 hmem] at hrhs
      exact Option.some.inj hrhs
  cases hk : i.kind with
  | binary op lhs rhs flags =>
    rw [hk] at hfits hc
    obtain ⟨ty, hlhs, hrhs, hresult, -⟩ := hfits
    rw [hsame hlhs hrhs hc]
    exact .inl (h.sized_of_valueType? hresult)
  | icmp pred lhs rhs =>
    rw [hk] at hfits hc
    obtain ⟨ty, hlhs, hrhs, -, -⟩ := hfits
    rw [hsame hlhs hrhs hc]
    -- The result is a truth value, so that only a side that is a value ties the type to one.
    rcases h.sized_or_const hlhs with hsized | ⟨l, rfl, hl⟩
    · exact .inl hsized
    · rcases h.sized_or_const hrhs with hsized | ⟨r, rfl, hr⟩
      · exact .inl hsized
      · exact .inr ⟨b, block, i, pred, l, r, hblock, hi, hk, hl, hr⟩
  | fcmp pred lhs rhs =>
    rw [hk] at hfits hc
    obtain ⟨ty, hlhs, hrhs, -, hfloat⟩ := hfits
    rw [hsame hlhs hrhs hc]
    exact .inl (.of_isFloat hfloat)
  | phi incoming =>
    rw [hk] at hfits hc
    obtain ⟨input, hinput, hop⟩ := List.mem_map.1 hc
    have hty := hfits input hinput
    rw [hop] at hty
    exact .inl (h.sized_of_valueType? hty.symm)

/-- **The type that is returned** is sized, or it is returned by way of constants only. -/
theorem Regular.returned_sized (h : f.Regular) {ty : Ty} (hty : f.returnType = some ty) :
    ty.Sized ∨ f.ReturnsConstants ty := by
  by_cases hsized : ty.Sized
  · exact .inl hsized
  · refine .inr ⟨hty, fun b block t value hblock ht hexit => ?_⟩
    obtain ⟨t', ht', hfits⟩ := h.closed b block hblock
    obtain rfl : t = t' := Option.some.inj (ht.symm.trans ht')
    rw [hexit] at hfits
    have hvalue : value.bind f.operandType? = some ty := hfits.trans hty
    obtain ⟨op, rfl, hop⟩ := Option.bind_eq_some_iff.1 hvalue
    rcases h.sized_or_const hop with hsized' | ⟨c, rfl, hc⟩
    · exact absurd hsized' hsized
    · exact ⟨c, rfl, hc⟩

/-- Constants of terminators. -/
theorem Regular.exit_sized (h : f.Regular) {b : BlockId} {block : Block}
    (hblock : f.block? b = some block) {t : Terminator} (ht : block.term = some t) {c : Constant}
    (hc : t.exit.operand? = some (.const c)) : c.ty.Sized ∨ f.ReturnsConstants c.ty := by
  obtain ⟨t', ht', hfits⟩ := h.closed b block hblock
  obtain rfl : t = t' := Option.some.inj (ht.symm.trans ht')
  -- A condition is a truth value; a returned constant has the return type.
  cases hexit : t.exit with
  | condBr cond thenTarget elseTarget =>
    rw [hexit] at hfits hc
    obtain rfl : cond = .const c := Option.some.inj hc
    have hbit : c.ty = .i1 := Option.some.inj hfits
    rw [hbit]
    exact .inl ⟨Nat.le_refl 1, by decide⟩
  | ret value =>
    rw [hexit] at hfits hc
    obtain rfl : value = some (.const c) := hc
    exact h.returned_sized hfits.symm
  | br target =>
    rw [hexit] at hc
    cases hc
  | unreachable =>
    rw [hexit] at hc
    cases hc

end Function

/-- **Widths of integers.** In a verified function every integer type has from 1 to 64 bits, apart
    from the type of two constants that are compared with each other and the type that is returned,
    if what is returned is nothing but constants.  So all of them have exactly if those two have. -/
theorem mentions_sized_iff (f : Function) (hverify : f.verify = .ok ()) :
    (∀ ty, f.Mentions ty → ty.Sized ∨ f.ComparesConstants ty ∨ f.ReturnsConstants ty) ∧
    ((∀ ty, f.Mentions ty → ty.Sized) ↔
      ∀ ty, f.ComparesConstants ty ∨ f.ReturnsConstants ty → ty.Sized) := by
  have h := (Function.verified_iff_wellFormed.1 hverify).toRegular
  have hcases : ∀ ty, f.Mentions ty →
      ty.Sized ∨ f.ComparesConstants ty ∨ f.ReturnsConstants ty := by
    intro ty hty
    cases hty with
    | value hmem => exact .inl (h.sized_of_mem hmem)
    | operand hblock hi hc => exact (h.operand_sized hblock hi hc).imp_right .inl
    | exit hblock ht hc => exact (h.exit_sized hblock ht hc).imp_right .inr
    | returned hreturned => exact (h.returned_sized hreturned).imp_right .inr
  -- The two exceptions are themselves mentioned, so they are the only obstacles.
  refine ⟨hcases, ?_⟩
  constructor
  · rintro hall ty (⟨b, block, i, pred, c, d, hblock, hi, hk, rfl, -⟩ | ⟨hreturned, -⟩)
    · apply hall
      exact .operand hblock hi (by simp [hk, InstKind.operands])
    · exact hall ty (.returned hreturned)
  · intro hexceptions ty hty
    rcases hcases ty hty with hsized | hexception
    · exact hsized
    · exact hexceptions ty hexception

/-! ### Constants of any width -/

/-- A function that compares two constants of the given width and returns one of them. -/
def comparing (width : Nat) : Function where
  name := "f"
  params := []
  returnType := some (.int width)
  valueTypes := #[.i1]
  blocks := #[
    { id := ⟨0⟩
      name := "entry"
      insts := [
        { id := ⟨0⟩
          result := ⟨0⟩
          kind := .icmp .eq (.const ⟨.int width, 1⟩) (.const ⟨.int width, 2⟩) }]
      term := some { exit := .ret (some (.const ⟨.int width, 1⟩)) } }]
  layout := [⟨0⟩]
  entry := ⟨0⟩
  instCount := 1

/-- The verifier accepts the function whatever the width is. -/
theorem verify_comparing (width : Nat) : (comparing width).verify = .ok () := by
  rw [Function.verify, Function.verifyReachability_of_alone rfl rfl rfl rfl]
  -- The one block is closed by a constant of the type that is returned, and it compares two
  -- constants
  -- of the same type: nothing else is asked.
  have hterm : (comparing width).verifyTerminators = .ok () := by
    refine Verdict.all_eq_ok.2 fun block hblock => ?_
    obtain rfl := List.mem_singleton.1 hblock
    exact Verdict.require_eq_ok.2 (beq_self_eq_true _)
  have hinsts : (comparing width).verifyInstructions = .ok () := by
    refine Verdict.all_eq_ok.2 fun block hblock => ?_
    obtain rfl := List.mem_singleton.1 hblock
    refine except_seq_eq_ok.2 ⟨Verdict.require_eq_ok.2 (Function.typesAgree_iff.2 ?_), rfl⟩
    exact ⟨.int width, rfl, rfl, rfl, rfl⟩
  rw [hterm, hinsts]
  rfl

/-- The example compares two constants of a type that is checked. -/
theorem mentions_sized_comparing :
    (comparing 64).verify = .ok () ∧ (comparing 64).ComparesConstants (.int 64) ∧
      ∀ ty, (comparing 64).Mentions ty → ty.Sized := by
  have hcompares : (comparing 64).ComparesConstants (.int 64) :=
    ⟨⟨0⟩, _, _, _, _, _, rfl, List.mem_cons_self, rfl, rfl, rfl⟩
  have hsized : Ty.Sized (.int 64) := ⟨by decide, by decide⟩
  obtain ⟨-, hiff⟩ := mentions_sized_iff (comparing 64) (verify_comparing 64)
  refine ⟨verify_comparing 64, hcompares, hiff.2 ?_⟩
  rintro ty (⟨b, block, i, pred, c, d, hblock, hi, hk, rfl, -⟩ | ⟨hreturned, -⟩)
  · have hlt : b.index < 1 := Function.lt_of_block? hblock
    obtain rfl : b = ⟨0⟩ := congrArg BlockId.mk (show b.index = 0 by omega)
    cases hblock
    obtain rfl := List.mem_singleton.1 hi
    cases hk
    exact hsized
  · cases hreturned
    exact hsized

/-- **The verifier accepts integers of 100 bits**, in a comparison of constants and as what a
    function returns. -/
theorem unsized_comparing :
    (comparing 100).verify = .ok () ∧ (comparing 100).Mentions (.int 100) ∧
      (comparing 100).returnType = some (.int 100) ∧ ¬ Ty.Sized (.int 100) := by
  refine ⟨verify_comparing 100, ?_, rfl, ?_⟩
  · exact .operand (b := ⟨0⟩) (c := ⟨.int 100, 1⟩) rfl List.mem_cons_self List.mem_cons_self
  · rintro ⟨-, hle⟩
    omega

end ArithWatch
