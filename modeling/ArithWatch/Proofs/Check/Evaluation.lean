import ArithWatch.Proofs.Check.Insertion
import ArithWatch.Proofs.Execution.Agreement
import ArithWatch.Proofs.Execution.Typing

namespace ArithWatch

/-!
# Running the conditions of checks

* `Formula.value?` is the value of a formula for two sides and a result.
* `Formula.runs_code`: the code of a formula runs to its end, leaves the value of the formula
  behind, and changes new values only.
* `Probe.runs_chain`: so does a chain of decision blocks, which visits its blocks in order and
  branches on the truth of their conditions.
-/

/-! ### Values of formulas -/

/-- The value of an operation. -/
def Operation.value? (o : Operation) (x y : Scalar) : Option Scalar :=
  match o with
  | .arith op =>
    match Scalar.binary op x y with
    | .ok found => found
    | .error _ => none
  | .icmp pred => Scalar.icmp? pred x y
  | .fcmp pred => Scalar.fcmp? pred x y

/-- The value of a formula for the sides `a` and `b` and the result `r`. -/
def Formula.value? (a b r : Scalar) : Formula → Option Scalar
  | .lhs => some a
  | .rhs => some b
  | .result => some r
  | .const c => some (.ofConstant c)
  | .node o x y =>
    match x.value? a b r, y.value? a b r with
    | some v, some w => o.value? v w
    | _, _ => none

/-- A value of a type that fits it. -/
def Scalar.IsOf (ty : Ty) (a : Scalar) : Prop := a.ty = ty ∧ a.Fits

/-- An operation on words of its type has a value. -/
theorem Operation.exists_value {o : Operation} {ty : Ty} {x y : Scalar} (ho : o.fits ty = true)
    (hx : x.IsOf ty) (hy : y.IsOf ty) : ∃ z, o.value? x y = some z ∧ z.IsOf (o.resultTy ty) := by
  obtain ⟨rfl, -⟩ := hx
  obtain ⟨hty, hfits⟩ := hy
  cases o with
  | arith op =>
    obtain ⟨z, hz⟩ := Scalar.exists_binary (by simpa [fits] using ho) hty hfits
    exact ⟨z, by simp only [value?, hz], Scalar.binary_eq_ok hz⟩
  | icmp pred =>
    obtain ⟨c, hc⟩ := Scalar.exists_icmp? pred ho hty
    exact ⟨_, hc, rfl, Scalar.fits_ofBool c⟩
  | fcmp pred =>
    obtain ⟨c, hc⟩ := Scalar.exists_fcmp? pred ho hty
    exact ⟨_, hc, rfl, Scalar.fits_ofBool c⟩

/-- **A fitting formula has a value.** -/
theorem Formula.exists_value {φ : Formula} {ty : Ty} {a b r : Scalar} (hφ : φ.Fits ty)
    (ha : a.IsOf ty) (hb : b.IsOf ty) (hr : r.IsOf ty) :
    ∃ x, φ.value? a b r = some x ∧ x.IsOf (φ.ty ty) := by
  induction φ with
  | lhs => exact ⟨a, rfl, ha⟩
  | rhs => exact ⟨b, rfl, hb⟩
  | result => exact ⟨r, rfl, hr⟩
  | const c => exact ⟨_, rfl, Scalar.ty_ofConstant c, Scalar.fits_ofConstant c⟩
  | node o x y ihx ihy =>
    obtain ⟨hx, hy, hsame, ho⟩ := hφ
    obtain ⟨v, hv, hvty⟩ := ihx hx
    obtain ⟨w, hw, hwty⟩ := ihy hy
    obtain ⟨z, hz, hzty⟩ := o.exists_value ho hvty (hsame ▸ hwty)
    exact ⟨z, by simp only [value?, hv, hw, hz], hzty⟩

/-! ### Running code -/

/-- The registers hold the sides `a` and `b` and the result `r` of the watched instruction. -/
structure Watched.Holds (w : Watched) (regs : Registers) (a b r : Scalar) : Prop where
  lhs : regs.read w.lhs = .ok a
  rhs : regs.read w.rhs = .ok b
  result : regs.read w.result = .ok r
  lhs_is : a.IsOf w.ty
  rhs_is : b.IsOf w.ty
  result_is : r.IsOf w.ty

/-- In legal registers sides and results of the watched type are what is held. -/
theorem Watched.Typed.holds {w : Watched} {f : Function} {regs : Registers} {a b r : Scalar}
    (hw : w.Typed f) (hlegal : regs.Legal f) (ha : regs.read w.lhs = .ok a)
    (hb : regs.read w.rhs = .ok b) (hr : regs.read w.result = .ok r) : w.Holds regs a b r := by
  have hty : ∀ {op x}, regs.read op = .ok x → f.operandType? op = some w.ty → x.IsOf w.ty := by
    intro op x hread htype
    obtain ⟨hty, hfits⟩ := hlegal.read hread
    rw [htype, Option.some.injEq] at hty
    exact ⟨hty.symm, hfits⟩
  exact ⟨ha, hb, hr, hty ha hw.lhs, hty hb hw.rhs, hty hr hw.result⟩

/-- Registers that agree on the watched values hold them both. -/
theorem Watched.Holds.agree {w : Watched} {regs regs' : Registers} {a b r : Scalar} {n : Nat}
    (h : w.Holds regs a b r) (hagree : regs.Agree n regs') (hw : ∀ v, w.Mentions v → v.index < n) :
    w.Holds regs' a b r :=
  { h with
    lhs := (hagree.read fun v hv => hw v (.inl hv)).trans h.lhs
    rhs := (hagree.read fun v hv => hw v (.inr (.inl hv))).trans h.rhs
    result := (hagree _ (hw _ (.inr (.inr rfl)))).trans h.result }

/-- The emitted instruction computes what the operation does. -/
theorem Operation.eval_inst {o : Operation} {lhs rhs : Operand} {regs : Registers}
    {x y z : Scalar} (hx : regs.read lhs = .ok x) (hy : regs.read rhs = .ok y)
    (hz : o.value? x y = some z) (location : Option Location) (inst value : Nat) :
    (o.inst lhs rhs location inst value).eval regs = .ok z := by
  cases o with
  | arith op =>
    simp only [value?] at hz
    split at hz
    · next found hfound =>
      subst hz
      simp only [Operation.inst, Operation.kind, Inst.eval, hx, hy]
      show (match Scalar.binary op x y with | .ok r => _ | .error fault => _) = _
      rw [hfound]
      rfl
    · cases hz
  | icmp pred =>
    simp only [Operation.inst, Operation.kind, Inst.eval, hx, hy]
    show Inst.expect _ (Scalar.icmp? pred x y) = _
    rw [show Scalar.icmp? pred x y = some z from hz]
    rfl
  | fcmp pred =>
    simp only [Operation.inst, Operation.kind, Inst.eval, hx, hy]
    show Inst.expect _ (Scalar.fcmp? pred x y) = _
    rw [show Scalar.fcmp? pred x y = some z from hz]
    rfl

/-- Running one operation gives its value, and leaves the values below its own as they are. -/
theorem Operation.advances_inst {o : Operation} {lhs rhs : Operand} {regs : Registers}
    {x y z : Scalar} (hx : regs.read lhs = .ok x) (hy : regs.read rhs = .ok y)
    (hz : o.value? x y = some z) {value : Nat} (hlt : value < regs.size) (f : Function)
    (cur : BlockId) (location : Option Location) (inst : Nat) (rest : List Inst) :
    ∃ regs' e, Advances f (.inside cur (o.inst lhs rhs location inst value :: rest) regs) [e]
        (.inside cur rest regs') ∧
      regs'.read (.value ⟨value⟩) = .ok z ∧ regs'.size = regs.size ∧ regs.Agree value regs' ∧
      e.block = cur ∧ e.isExec = true := by
  obtain ⟨regs', hwrite⟩ := Registers.exists_write (v := ⟨value⟩) hlt z
  refine ⟨regs', _, .exec (eval_inst hx hy hz location inst value) hwrite, ?_,
    Registers.size_eq_of_write hwrite, .write_above hwrite (Nat.le_refl _), rfl, rfl⟩
  rw [Registers.read_write hwrite, if_pos rfl]

/-- **Running the code of a formula.** It comes to its end with the value of the formula, and leaves
    the values below its own as they are. -/
theorem Formula.runs_code {φ : Formula} {w : Watched} {a b r : Scalar} {regs : Registers}
    {value : Nat} (hφ : φ.Fits w.ty) (hholds : w.Holds regs a b r)
    (hlow : ∀ v, w.Mentions v → v.index < value) (hsize : value + φ.size ≤ regs.size)
    (f : Function) (cur : BlockId) (location : Option Location) (inst : Nat) (rest : List Inst) :
    ∃ x regs' log, φ.value? a b r = some x ∧
      Runs f (.inside cur (φ.code w location inst value ++ rest) regs) φ.size log
        (.inside cur rest regs') ∧
      regs'.read (φ.operand w value) = .ok x ∧ regs'.size = regs.size ∧
      regs.Agree value regs' ∧ ∀ e ∈ log, e.block = cur ∧ e.isExec = true := by
  induction φ generalizing regs value inst rest with
  | lhs => exact ⟨a, regs, [], rfl, .refl _, hholds.lhs, rfl, .refl _ _, by simp⟩
  | rhs => exact ⟨b, regs, [], rfl, .refl _, hholds.rhs, rfl, .refl _ _, by simp⟩
  | result => exact ⟨r, regs, [], rfl, .refl _, hholds.result, rfl, .refl _ _, by simp⟩
  | const c => exact ⟨_, regs, [], rfl, .refl _, rfl, rfl, .refl _ _, by simp⟩
  | node o x y ihx ihy =>
    obtain ⟨hx, hy, hsame, ho⟩ := hφ
    simp only [size] at hsize
    obtain ⟨u, regs₁, log₁, hu, hrun₁, hread₁, hsize₁, hagree₁, hlog₁⟩ :=
      ihx hx hholds hlow (by omega) inst
        (y.code w location (InstId.advance inst x.size) (value + x.size) ++
        o.inst (x.operand w value) (y.operand w (value + x.size)) location
          (InstId.advance inst (x.size + y.size)) (value + x.size + y.size) :: rest)
    have hlow' : ∀ v, w.Mentions v → v.index < value + x.size :=
      fun v hv => Nat.lt_add_right _ (hlow v hv)
    obtain ⟨v, regs₂, log₂, hv, hrun₂, hread₂, hsize₂, hagree₂, hlog₂⟩ :=
      ihy hy (hholds.agree hagree₁ hlow) hlow' (by omega) (InstId.advance inst x.size)
        (o.inst (x.operand w value) (y.operand w (value + x.size)) location
          (InstId.advance inst (x.size + y.size)) (value + x.size + y.size) :: rest)
    -- the value of the left side is still there behind the code of the right side
    have hread₁' : regs₂.read (x.operand w value) = .ok u := by
      refine (hagree₂.read fun v hv => ?_).trans hread₁
      exact (operand_cases hv).elim (hlow' v) (·.2)
    obtain ⟨u', hu', huty⟩ := exists_value hx hholds.lhs_is hholds.rhs_is hholds.result_is
    obtain ⟨v', hv', hvty⟩ := exists_value hy hholds.lhs_is hholds.rhs_is hholds.result_is
    rw [hu, Option.some.injEq] at hu'
    rw [hv, Option.some.injEq] at hv'
    subst hu' hv'
    obtain ⟨z, hz, -⟩ := o.exists_value ho huty (hsame ▸ hvty)
    obtain ⟨regs₃, e₃, hstep, hread₃, hsize₃, hagree₃, he₃⟩ :=
      Operation.advances_inst hread₁' hread₂ hz
        (show value + x.size + y.size < regs₂.size by omega) f cur location
        (InstId.advance inst (x.size + y.size)) rest
    refine ⟨z, regs₃, log₁ ++ (log₂ ++ [e₃]), by simp only [value?, hu, hv, hz], ?_, hread₃,
      hsize₃.trans (hsize₂.trans hsize₁), ?_, ?_⟩
    · have hcount : (node o x y).size = x.size + (y.size + 1) := Nat.add_assoc ..
      rw [hcount, code, List.append_assoc, List.append_assoc, List.singleton_append]
      exact hrun₁.trans (hrun₂.trans (Runs.single hstep))
    · exact hagree₁.trans ((hagree₂.mono (by omega)).trans (hagree₃.mono (by omega)))
    · intro e he
      simp only [List.mem_append, List.mem_singleton] at he
      rcases he with he | he | rfl
      · exact hlog₁ e he
      · exact hlog₂ e he
      · exact he₃

/-! ### Running chains -/

namespace Probe

variable {k : Probe} {f : Function} {a b r : Scalar} {regs : Registers}

/-- The truth of a condition. -/
def truth (k : Probe) (a b r : Scalar) (p : CheckPredicate) : Bool :=
  ((k.formula p).value? a b r).bind (·.bool?) == some true

/-- The visit of a decision block. -/
def visit (k : Probe) (a b r : Scalar) (d : Decision) : List Event :=
  [.enter d.block, .branch d.block (k.truth a b r d.predicate)]

/-- **Running a decision block.** It branches on the truth of its condition. -/
theorem runs_decision {d : Decision} {name : String}
    (hblock : f.block? d.block = some (k.close d name))
    (hfits : (k.formula d.predicate).Fits k.watched.ty ∧
      (k.formula d.predicate).ty k.watched.ty = .i1)
    (hholds : k.watched.Holds regs a b r) (hlow : ∀ v, k.watched.Mentions v → v.index < d.value)
    (hsize : d.value + (k.formula d.predicate).size ≤ regs.size) (prev : Option BlockId) :
    ∃ regs' log, Runs f (.entering prev d.block regs) ((k.code d).length + 1) log
        (.entering (some d.block) d.next regs') ∧
      regs'.size = regs.size ∧ regs.Agree d.value regs' ∧ (∀ e ∈ log, e.block = d.block) ∧
      log.filter (!·.isExec) = k.visit a b r d := by
  have hphi : ∀ i ∈ (k.close d name).insts, i.kind.isPhi = false :=
    fun i hi => Formula.not_phi_of_mem_code hi
  obtain ⟨x, regs', log, hx, hrun, hread, hsize', hagree, hlog⟩ :=
    Formula.runs_code hfits.1 hholds hlow hsize f d.block k.location d.inst []
  obtain ⟨x', hx', hty, -⟩ :=
    Formula.exists_value hfits.1 hholds.lhs_is hholds.rhs_is hholds.result_is
  rw [hx, Option.some.injEq] at hx'
  subst hx'
  rw [hfits.2] at hty
  obtain ⟨c, hc⟩ := Scalar.exists_bool hty
  rw [List.append_nil] at hrun
  rw [formula, CheckPredicate.operand_formula] at hread
  -- The word the code leaves is the truth of the check.
  have htruth : k.truth a b r d.predicate = c := by
    rw [truth, hx, Option.bind_some, hc]
    cases c <;> rfl
  have henter : Advances f (.entering prev d.block regs) [.enter d.block]
      (.inside d.block (k.code d) regs) := by
    have := Advances.enter hblock (Block.enter_of_not_phi hphi prev regs)
    rwa [Block.body_of_not_phi hphi] at this
  have hleave : (k.close d name).leave d.block regs' = .ok (.branch c d.next) := by
    have hcond : regs'.read (.value (k.outcome d)) = .ok x := hread
    simp only [close, branch, Block.leave, hcond, bind, Except.bind, hc]
    cases c <;> rfl
  refine ⟨regs', [.enter d.block] ++ (log ++ [.branch d.block c]), ?_, hsize', hagree, ?_, ?_⟩
  · have hwalk := (Runs.single henter).trans (hrun.trans (Runs.single (.branch hblock hleave)))
    rw [length_code]
    simpa [RunState.cost] using hwalk
  · intro e he
    simp only [List.mem_append, List.mem_singleton] at he
    rcases he with rfl | he | rfl
    · rfl
    · exact (hlog e he).1
    · rfl
  · have hexec : log.filter (!·.isExec) = [] :=
      List.filter_eq_nil_iff.2 fun e he => by simp [(hlog e he).2]
    rw [List.filter_append, List.filter_append, hexec, visit, htruth]
    rfl

/-- **Running a chain.** It visits its decision blocks in order. -/
theorem runs_chain {cont : BlockId} {checks : List CheckPredicate} {block inst value : Nat}
    (hblocks : ∀ d ∈ k.chain cont checks block inst value,
      ∃ name, f.block? d.block = some (k.close d name))
    (hfits : ∀ p ∈ checks, (k.formula p).Fits k.watched.ty ∧
      (k.formula p).ty k.watched.ty = .i1)
    (hholds : k.watched.Holds regs a b r) (hlow : ∀ v, k.watched.Mentions v → v.index < value)
    (hsize : value + ((k.chain cont checks block inst value).flatMap k.code).length ≤ regs.size)
    (prev : BlockId) :
    ∃ n last regs' log,
      Runs f (.entering (some prev) (entrance cont (k.chain cont checks block inst value)) regs) n
        log (.entering (some last) cont regs') ∧
      regs'.size = regs.size ∧ regs.Agree value regs' ∧
      (∀ e ∈ log, e.block ∈ (k.chain cont checks block inst value).map (·.block)) ∧
      log.filter (!·.isExec) = (k.chain cont checks block inst value).flatMap (k.visit a b r) := by
  -- By induction on the checks; a chain is left where the next one starts.
  induction checks generalizing block inst value regs prev with
  | nil => exact ⟨0, prev, regs, [], .refl _, rfl, .refl _ _, by simp, rfl⟩
  | cons p rest ih =>
    rw [chain] at hblocks hsize ⊢
    simp only [List.flatMap_cons, List.length_append, length_code] at hsize
    obtain ⟨name, hname⟩ := hblocks _ List.mem_cons_self
    obtain ⟨regs₁, log₁, hrun₁, hsize₁, hagree₁, hlog₁, hvisit₁⟩ :=
      runs_decision hname (hfits p List.mem_cons_self) hholds hlow
        (by show value + (k.formula p).size ≤ _; omega) (some prev)
    obtain ⟨n, last, regs₂, log₂, hrun₂, hsize₂, hagree₂, hlog₂, hvisit₂⟩ :=
      ih (fun d hd => hblocks d (List.mem_cons_of_mem _ hd))
        (fun q hq => hfits q (List.mem_cons_of_mem _ hq)) (hholds.agree hagree₁ hlow)
        (fun v hv => Nat.lt_add_right _ (hlow v hv)) (by omega) ⟨block⟩
    refine ⟨_, last, regs₂, log₁ ++ log₂, hrun₁.trans hrun₂, hsize₂.trans hsize₁,
      hagree₁.trans (hagree₂.mono (Nat.le_add_right _ _)), fun e he => ?_, ?_⟩
    · rcases List.mem_append.1 he with he | he
      · exact List.mem_map.2 ⟨_, List.mem_cons_self, (hlog₁ e he).symm⟩
      · exact List.mem_cons_of_mem _ (hlog₂ e he)
    · rw [List.filter_append, hvisit₁, hvisit₂, List.flatMap_cons]

end Probe

end ArithWatch
