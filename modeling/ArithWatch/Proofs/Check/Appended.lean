import ArithWatch.Proofs.Check.Meaning

namespace ArithWatch

/-!
# Running an appended condition

A condition is appended to a block and run there on its own, whatever the function around it does.

* `CheckPredicate.Yields` says which truth value the appended instructions leave behind, where the
  sides and the result of the watched instruction hold given scalars.
* `CheckPredicate.yields_of_value?`: they leave the value of the formula;
  `CheckPredicate.yields_int` is about integers of 32 bits, which are the ones that are watched.
* `CheckPredicate.Leaves` is one such run, in registers that start with given integers.
-/

/-- A walk through the rest of a block that stays inside is a run of its instructions. -/
theorem Registers.runBody_of_runs {f : Function} {cur : BlockId} {rest : List Inst}
    {regs regs' : Registers} {log : List Event}
    (h : Runs f (.inside cur rest regs) rest.length log (.inside cur [] regs')) (limit : Nat)
    {budget : Nat} (hbudget : rest.length ≤ budget) :
    Registers.runBody limit budget regs rest = .ok regs' := by
  induction rest generalizing regs budget log with
  | nil =>
    -- No step is paid for, so the walk has not moved.
    generalize hn : ([] : List Inst).length = n at h
    cases h with
    | refl => rw [Registers.runBody]
    | head hstep _ =>
      simp only [RunState.cost, List.length_nil] at hn
      omega
  | cons i rest ih =>
    generalize hn : (i :: rest).length = n at h
    cases h with
    | @head _ _ _ events m log hstep hrest =>
      cases hstep with
      | exec heval hwrite =>
        obtain rfl : rest.length = m := by
          simp only [RunState.cost, List.length_cons] at hn
          omega
        obtain ⟨left, rfl⟩ : ∃ left, budget = left + 1 := ⟨budget - 1, by simp at hbudget; omega⟩
        rw [Registers.runBody, heval]
        simp only [hwrite]
        exact ih hrest (by simpa using hbudget)

/-- The condition can be appended at the cursor, and to run what is appended leaves `truth` behind
    wherever the sides and the result of the watched instruction hold `a`, `b` and `r`. -/
def CheckPredicate.Yields (p : CheckPredicate) (t : Threshold) (f : Function) (c : Cursor)
    (w : Watched) (a b r : Scalar) (truth : Bool) : Prop :=
  ∃ v code types, p.build t c w f = .ok v (f.append c.block code types) ∧
    ∀ regs : Registers, f.valueTypes.size + types.length ≤ regs.size → w.Holds regs a b r →
      ∀ limit budget, code.length ≤ budget →
        ∃ regs', Registers.runBody limit budget regs code = .ok regs' ∧
          regs'.read (.value v) = .ok (.ofBool truth)

/-- **An appended condition** leaves the value of its formula. -/
theorem CheckPredicate.yields_of_value? {p : CheckPredicate} {t : Threshold} {f : Function}
    {c : Cursor} {w : Watched} {a b r : Scalar} {truth : Bool}
    (hc : c.block.index < f.blocks.size) (hw : w.Typed f) (hkind : p.kind.isFloat = w.ty.isFloat)
    (hvalue : (p.formula t w.ty).value? a b r = some (.ofBool truth)) :
    p.Yields t f c w a b r truth := by
  refine ⟨_, _, _, p.build_eq t hc hw, fun regs hsize hholds limit budget hbudget => ?_⟩
  -- The watched values are typed in the function, so they are below those the code draws.
  have hlow : ∀ v, w.Mentions v → v.index < f.valueTypes.size := by
    have hlt : ∀ {op : Operand} {v : ValueId}, f.operandType? op = some w.ty → op = .value v →
        v.index < f.valueTypes.size := by
      rintro _ v hty rfl
      exact (Array.getElem?_eq_some_iff.1 hty).1
    rintro v (hv | hv | rfl)
    · exact hlt hw.lhs hv
    · exact hlt hw.rhs hv
    · exact (Array.getElem?_eq_some_iff.1 hw.result).1
  rw [Formula.length_types] at hsize
  obtain ⟨x, regs', log, hx, hrun, hread, -⟩ :=
    Formula.runs_code (p.formula_fits t hkind).1 hholds hlow hsize f c.block c.location
      f.instCount []
  rw [hvalue, Option.some.injEq] at hx
  rw [List.append_nil, ← Formula.length_code w c.location _ f.instCount f.valueTypes.size] at hrun
  rw [CheckPredicate.operand_formula, ← hx] at hread
  exact ⟨regs', Registers.runBody_of_runs hrun limit hbudget, hread⟩

/-- The condition of an integer check, appended behind an instruction on integers of 32 bits. -/
theorem CheckPredicate.yields_int {p : CheckPredicate} {t : Threshold} {f : Function} {c : Cursor}
    {w : Watched} {a b r : Scalar} {flag : Bool} {found : Prop} [Decidable found]
    (hc : c.block.index < f.blocks.size) (hw : w.Typed f) (hty : w.ty = .int 32)
    (hkind : p.kind.isFloat = false)
    (hvalue : (p.formula t (.int 32)).value? a b r = some (.ofBool flag))
    (hflag : flag = true ↔ found) : p.Yields t f c w a b r (decide found) := by
  have hfound : decide found = flag := by
    rw [Bool.eq_iff_iff, decide_eq_true_iff, hflag]
  refine yields_of_value? hc hw (by rw [hkind, hty]; rfl) ?_
  rw [hty, hvalue, hfound]

/-! ### Given scalars -/

/-- Registers with given values at the first places and room for more. -/
def Registers.holding (values : List Scalar) (room : Nat) : Registers :=
  (values.map some ++ List.replicate room none).toArray

/-- An instruction on integers of 32 bits that reads the first two values and gives the third. -/
def Watched.leading (op : BinOp) : Watched := ⟨op, .int 32, .value ⟨0⟩, .value ⟨1⟩, ⟨2⟩⟩

/-- A word of 32 bits is of its type. -/
theorem Scalar.isOf_ofBits (x : BitVec 32) : (ofBits x).IsOf (.int 32) := by
  refine ⟨rfl, ?_⟩
  show (Word.ofBits x).toNat < _
  rw [Word.toNat_ofBits (by decide)]
  exact x.isLt

/-- The first three values of a register file hold what is watched. -/
theorem Watched.holds_leading (op : BinOp) (x y z : BitVec 32) (room : Nat) :
    (leading op).Holds (.holding [.ofBits x, .ofBits y, .ofBits z] room) (.ofBits x) (.ofBits y)
      (.ofBits z) where
  lhs := rfl
  rhs := rfl
  result := rfl
  lhs_is := Scalar.isOf_ofBits x
  rhs_is := Scalar.isOf_ofBits y
  result_is := Scalar.isOf_ofBits z

/-- The condition can be appended at the cursor, and what is appended runs in registers that start
    with `x`, `y` and `z`, taken as the sides and the result, and leaves `truth` behind. -/
def CheckPredicate.Leaves (p : CheckPredicate) (t : Threshold) (f : Function) (c : Cursor)
    (op : BinOp) (x y z : BitVec 32) (truth : Bool) : Prop :=
  ∃ v code types regs', p.build t c (.leading op) f = .ok v (f.append c.block code types) ∧
    Registers.runBody code.length code.length
      (.holding [.ofBits x, .ofBits y, .ofBits z] (f.valueTypes.size + types.length)) code =
        .ok regs' ∧ regs'.read (.value v) = .ok (.ofBool truth)

/-- A check that yields its truth from any registers leaves it in those that hold the
    three words. -/
theorem CheckPredicate.Yields.leaves {p : CheckPredicate} {t : Threshold} {f : Function}
    {c : Cursor} {op : BinOp} {x y z : BitVec 32} {truth : Bool}
    (h : p.Yields t f c (.leading op) (.ofBits x) (.ofBits y) (.ofBits z) truth) :
    p.Leaves t f c op x y z truth := by
  obtain ⟨v, code, types, hbuild, hrun⟩ := h
  obtain ⟨regs', hbody, hread⟩ := hrun _ (by simp [Registers.holding]; omega)
    (Watched.holds_leading op x y z (f.valueTypes.size + types.length)) code.length code.length
    (Nat.le_refl _)
  exact ⟨v, code, types, regs', hbuild, hbody, hread⟩

end ArithWatch
