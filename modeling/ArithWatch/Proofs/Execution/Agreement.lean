import ArithWatch.Proofs.Execution.Machine
import Mathlib.Data.List.Basic

namespace ArithWatch

/-!
# Registers that agree on the old values

Code that is added to a function gives new values only, and what stood there before reads old ones
only.

* `Inst.eval_congr`, `Inst.evalPhi_congr` and `Block.leave_eq_of_read`: what instructions and exits
  do is a matter of what they read.
* `Block.Reads` are the values that the instructions and the exit of a block read.
* `Registers.Agree n` says that two register files read the same below value number `n`.
* `Registers.Agree.eval`: an instruction that reads such values gives the same on both.
* `Registers.Widens` relates the registers of a function to those of one with more values.
-/

/-- What an instruction gives is a matter of what it reads. -/
theorem Inst.eval_congr {i : Inst} {regs regs' : Registers}
    (h : ∀ op ∈ i.kind.operands, regs'.read op = regs.read op) : i.eval regs' = i.eval regs := by
  cases hk : i.kind with
  | binary op lhs rhs flags =>
    simp only [hk, InstKind.operands, List.forall_mem_cons] at h
    simp only [eval, hk, h.1, h.2.1]
  | icmp pred lhs rhs =>
    simp only [hk, InstKind.operands, List.forall_mem_cons] at h
    simp only [eval, hk, h.1, h.2.1]
  | fcmp pred lhs rhs =>
    simp only [hk, InstKind.operands, List.forall_mem_cons] at h
    simp only [eval, hk, h.1, h.2.1]
  | phi incoming => simp only [eval, hk]

/-- What a phi gives is a matter of what it reads. -/
theorem Inst.evalPhi_congr {i : Inst} {incoming : List (BlockId × Operand)} {regs regs' : Registers}
    (h : ∀ op ∈ incoming.map (·.2), regs'.read op = regs.read op) (prev : Option BlockId) :
    i.evalPhi incoming prev regs' = i.evalPhi incoming prev regs := by
  cases prev with
  | none => rfl
  | some pred =>
    simp only [evalPhi]
    cases hfind : incoming.find? (·.1 == pred) with
    | none => rfl
    | some input => exact h input.2 (List.mem_map_of_mem (List.mem_of_find?_eq_some hfind))

/-- Where control goes is a matter of what the exit reads. -/
theorem Block.leave_eq_of_read {b : Block} {regs regs' : Registers}
    (h : ∀ t, b.term = some t → ∀ op, t.exit.operand? = some op → regs'.read op = regs.read op)
    (cur : BlockId) : b.leave cur regs' = b.leave cur regs := by
  unfold leave
  cases ht : b.term with
  | none => rfl
  | some t =>
    have hread := h t ht
    cases he : t.exit with
    | condBr cond thenTarget elseTarget =>
      simp only [he, hread cond (by rw [he]; rfl)]
    | ret value =>
      cases value with
      | none => simp only [he]
      | some op => simp only [he, hread op (by rw [he]; rfl)]
    | br target => simp only [he]
    | unreachable => simp only [he]

/-- An instruction or the exit of the block reads the value. -/
def Block.Reads (b : Block) (v : ValueId) : Prop :=
  (∃ i ∈ b.insts, .value v ∈ i.kind.operands) ∨
    ∃ t, b.term = some t ∧ t.exit.operand? = some (.value v)

namespace Registers

/-- The values below number `n` read the same. -/
def Agree (n : Nat) (regs regs' : Registers) : Prop :=
  ∀ v : ValueId, v.index < n → regs'.read (.value v) = regs.read (.value v)

/-- A value id that is there can be written. -/
theorem exists_write {regs : Registers} {v : ValueId} (h : v.index < regs.size) (a : Scalar) :
    ∃ regs', regs.write v a = .ok regs' :=
  ⟨_, if_pos h⟩

/-- What can be read can still be read after a write. -/
theorem exists_read_of_write {regs regs₁ : Registers} {op : Operand} {v : ValueId} {a x : Scalar}
    (hread : regs.read op = .ok x) (hwrite : regs.write v a = .ok regs₁) :
    ∃ y, regs₁.read op = .ok y := by
  cases op with
  | const c => exact ⟨_, rfl⟩
  | value w =>
    rw [read_write hwrite]
    split
    · exact ⟨a, rfl⟩
    · exact ⟨x, hread⟩

namespace Agree

variable {m n : Nat} {regs regs₁ regs' regs₁' : Registers} {op : Operand} {v : ValueId} {a : Scalar}

theorem refl (n : Nat) (regs : Registers) : Agree n regs regs := fun _ _ => rfl

theorem trans (h : Agree n regs regs₁) (h' : Agree n regs₁ regs') : Agree n regs regs' :=
  fun v hv => (h' v hv).trans (h v hv)

theorem mono (h : Agree n regs regs') (hle : m ≤ n) : Agree m regs regs' :=
  fun v hv => h v (Nat.lt_of_lt_of_le hv hle)

/-- Operands below the bound read the same. -/
theorem read (h : Agree n regs regs') (hop : ∀ v, op = .value v → v.index < n) :
    regs'.read op = regs.read op := by
  cases op with
  | value v => exact h v (hop v rfl)
  | const c => rfl

/-- So do several of them. -/
theorem readAll (h : Agree n regs regs') {ops : List Operand}
    (hops : ∀ v, .value v ∈ ops → v.index < n) : regs'.readAll ops = regs.readAll ops :=
  List.filterMap_congr fun op hop => by
    rw [h.read fun v hv => hops v (hv ▸ hop)]

/-- Both files take the same value. -/
theorem write (h : Agree n regs regs') (hwrite : regs.write v a = .ok regs₁)
    (hwrite' : regs'.write v a = .ok regs₁') : Agree n regs₁ regs₁' := by
  intro w hw
  rw [read_write hwrite, read_write hwrite', h w hw]

/-- A value behind the old ones changes nothing for them. -/
theorem write_above (hwrite : regs.write v a = .ok regs₁) (hv : n ≤ v.index) :
    Agree n regs regs₁ := by
  intro w hw
  have hne : v ≠ w := by
    rintro rfl
    omega
  rw [read_write hwrite, if_neg hne]

/-- **Instructions that read old values give the same.** -/
theorem eval (h : Agree n regs regs') {i : Inst}
    (hi : ∀ v, .value v ∈ i.kind.operands → v.index < n) : i.eval regs' = i.eval regs :=
  Inst.eval_congr fun _ hop => h.read fun v hv => hi v (hv ▸ hop)

end Agree

end Registers

/-! ### Registers with more room -/

/-- The registers of `g` hold what those of `f` hold, and may have room for more. -/
structure Registers.Widens (f g : Function) (regs regs' : Registers) : Prop where
  size_eq : regs.size = f.valueTypes.size
  size_eq' : regs'.size = g.valueTypes.size
  le : f.valueTypes.size ≤ g.valueTypes.size
  agree : regs.Agree f.valueTypes.size regs'

namespace Registers.Widens

variable {f g : Function} {regs regs' : Registers}

/-- Both take the value of an old value id. -/
theorem write (h : Widens f g regs regs') {v : ValueId} (hv : v.index < f.valueTypes.size)
    (a : Scalar) :
    ∃ regs₁ regs₁', regs.write v a = .ok regs₁ ∧ regs'.write v a = .ok regs₁' ∧
      Widens f g regs₁ regs₁' := by
  obtain ⟨regs₁, hwrite⟩ := exists_write (h.size_eq ▸ hv) a
  obtain ⟨regs₁', hwrite'⟩ := exists_write (h.size_eq' ▸ Nat.lt_of_lt_of_le hv h.le) a
  exact ⟨regs₁, regs₁', hwrite, hwrite', (size_eq_of_write hwrite).trans h.size_eq,
    (size_eq_of_write hwrite').trans h.size_eq', h.le, h.agree.write hwrite hwrite'⟩

/-- The same writes are made on both sides. -/
theorem writeAll (h : Widens f g regs regs') {writes : List (ValueId × Scalar)}
    (hwrites : ∀ e ∈ writes, e.1.index < f.valueTypes.size) :
    ∃ regs₁ regs₁', regs.writeAll writes = .ok regs₁ ∧ regs'.writeAll writes = .ok regs₁' ∧
      Widens f g regs₁ regs₁' := by
  induction writes generalizing regs regs' with
  | nil => exact ⟨regs, regs', rfl, rfl, h⟩
  | cons e rest ih =>
    obtain ⟨v, a⟩ := e
    obtain ⟨regs₁, regs₁', hwrite, hwrite', h₁⟩ := h.write (hwrites _ List.mem_cons_self) a
    obtain ⟨regs₂, regs₂', hrest, hrest', h₂⟩ :=
      ih h₁ fun e he => hwrites e (List.mem_cons_of_mem _ he)
    exact ⟨regs₂, regs₂', by simp only [Registers.writeAll, hwrite, hrest],
      by simp only [Registers.writeAll, hwrite', hrest'], h₂⟩

end Registers.Widens

/-! ### Blocks without phis -/

namespace Block

variable {b : Block}

/-- A block without phis is all body. -/
theorem body_of_not_phi (h : ∀ i ∈ b.insts, i.kind.isPhi = false) : b.body = b.insts := by
  cases hb : b.insts with
  | nil => simp [body, hb]
  | cons i rest =>
    have hi : i.kind.isPhi = false := h i (hb ▸ List.mem_cons_self)
    simp [body, hb, hi]

/-- A block without phis can be entered from everywhere, and nothing happens. -/
theorem enter_of_not_phi (h : ∀ i ∈ b.insts, i.kind.isPhi = false) (prev : Option BlockId)
    (regs : Registers) : b.enter prev regs = .ok regs := by
  have hphis : Inst.evalPhis prev regs b.insts = .ok [] := by
    cases hb : b.insts with
    | nil => rfl
    | cons i rest =>
      have hi : i.kind.isPhi = false := h i (hb ▸ List.mem_cons_self)
      rw [Inst.evalPhis]
      split
      · next incoming hk => simp [hk, InstKind.isPhi] at hi
      · rfl
  rw [enter, hphis]
  rfl

end Block

end ArithWatch
