import ArithWatch.Proofs.Execution.Agreement
import ArithWatch.Proofs.Execution.Typing
import ArithWatch.Proofs.IR.Verified

namespace ArithWatch

/-!
# Verified functions do not go wrong

What the verifier checks of a function rules out all failures of a run but three: a value that is
read before it is defined, a phi in the entry block, and an exit that is marked unreachable.  A
limit adds a fourth one.

* `Halt.Remains` lists the ways to halt that are left; a division can fault only where some argument
  does not fit its width.
* `RunState.Placed` says that control is where the graph leads it, `RunState.Safe` adds that the
  registers are typed.  `Advances.safe` and `Runs.safe` say that steps and walks keep both.
* `Stops.remains` and `Stops.returns` are the two ways to end in a safe state.
* `run_safe` puts this together for runs under a limit.
-/

/-! ### Failures that are left -/

/-- The halts that types and graph do not rule out.  A division faults only on a divisor that does
    not fit its width, so not where `c`, under which registers fit, holds. -/
def Halt.Remains (c : Prop) : Halt → Prop
  | .error (.undefined _) | .error (.phiWithoutPredecessor _) | .error (.unreachable _) => True
  | .fault .zeroDivisor => ¬ c
  | _ => False

/-- The computation fails only in a way that is left. -/
def Remains {α : Type} (c : Prop) (x : Except Halt α) : Prop :=
  ∀ halt, x = .error halt → halt.Remains c

namespace Remains

variable {α β : Type} {c : Prop}

theorem ok (a : α) : Remains c (.ok a : Except Halt α) := by
  intro halt h
  cases h

theorem of_exists {x : Except Halt α} (h : ∃ a, x = .ok a) : Remains c x := by
  obtain ⟨a, rfl⟩ := h
  exact ok a

/-- A computation in steps fails as one of its steps does. -/
theorem bind {x : Except Halt α} {k : α → Except Halt β} (hx : Remains c x)
    (hk : ∀ a, x = .ok a → Remains c (k a)) : Remains c (x >>= k) := by
  intro halt h
  cases hxa : x with
  | error halt' =>
    rw [hxa] at h
    cases h
    exact hx halt hxa
  | ok a =>
    rw [hxa] at h
    exact hk a hxa halt h

/-- Reading an operand fails at most because it has no value yet. -/
theorem read (regs : Registers) (op : Operand) : Remains c (regs.read op) := by
  intro halt h
  cases op with
  | const k => cases h
  | value v =>
    simp only [Registers.read] at h
    split at h
    · cases h
    · cases h
      trivial

end Remains

/-! ### Arithmetic -/

namespace IntOp

/-- A shift amount is less than the width of a word. -/
theorem shiftAmount_lt {width : Nat} (hwidth : width ≤ 64) (y : UInt64) :
    shiftAmount width y < 64 := by
  have hpos : 0 < max width 1 := by omega
  have hlt : shiftAmount width y < max width 1 := Nat.mod_lt _ hpos
  omega

end IntOp

/-! ### Instructions -/

namespace Registers

variable {f : Function} {c : Prop} {regs : Registers}

/-- Values that have a type can be written. -/
theorem exists_writeAll {writes : List (ValueId × Scalar)}
    (h : ∀ e ∈ writes, e.1.index < regs.size) : ∃ regs', regs.writeAll writes = .ok regs' := by
  induction writes generalizing regs with
  | nil => exact ⟨regs, rfl⟩
  | cons e rest ih =>
    obtain ⟨v, a⟩ := e
    obtain ⟨regs₁, hfirst⟩ := exists_write (h _ List.mem_cons_self) a
    have hsize := size_eq_of_write hfirst
    have hrest : ∀ e ∈ rest, e.1.index < regs₁.size := by
      intro e he
      rw [hsize]
      exact h e (List.mem_cons_of_mem _ he)
    rw [writeAll, hfirst]
    exact ih hrest

/-- A typed instruction that is no phi fails only in a way that is left. -/
theorem Typed.remains_eval (h : regs.Typed f c) {i : Inst} (hi : f.InstFits i)
    (hphi : i.kind.isPhi = false) : Remains c (i.eval regs) := by
  unfold Function.InstFits at hi
  unfold Inst.eval
  -- Both sides are read, and their types are that of the operation.
  have hsides : ∀ {ty : Ty} {lhs rhs : Operand} {k : Scalar → Scalar → Except Halt Scalar},
      f.operandType? lhs = some ty → f.operandType? rhs = some ty →
      (∀ x y : Scalar, x.ty = ty → y.ty = ty → (c → y.Fits) → Remains c (k x y)) →
      Remains c (regs.read lhs >>= fun x => regs.read rhs >>= fun y => k x y) := by
    intro ty lhs rhs k hlhs hrhs hk
    refine .bind (.read regs lhs) fun x hx => .bind (.read regs rhs) fun y hy => ?_
    have hxty := (h.read hx).1
    obtain ⟨hyty, hyfits⟩ := h.read hy
    rw [hlhs, Option.some.injEq] at hxty
    rw [hrhs, Option.some.injEq] at hyty
    exact hk x y hxty.symm hyty.symm hyfits
  cases hk : i.kind with
  | binary op lhs rhs flags =>
    rw [hk] at hi
    obtain ⟨ty, hlhs, hrhs, -, hop⟩ := hi
    refine hsides hlhs hrhs fun x y hx hy hfits => ?_
    subst hx
    rcases Scalar.binary_cases hop hy with ⟨r, hr⟩ | ⟨hfault, hunfit⟩
    · rw [hr]
      exact .ok r
    · rw [hfault]
      rintro halt ⟨⟩
      exact fun hc => hunfit (hfits hc)
  | icmp pred lhs rhs =>
    rw [hk] at hi
    obtain ⟨ty, hlhs, hrhs, -, hint⟩ := hi
    refine hsides hlhs hrhs fun x y hx hy _ => ?_
    subst hx
    obtain ⟨truth, htruth⟩ := Scalar.exists_icmp? pred hint hy
    rw [htruth]
    exact .ok _
  | fcmp pred lhs rhs =>
    rw [hk] at hi
    obtain ⟨ty, hlhs, hrhs, -, hfloat⟩ := hi
    refine hsides hlhs hrhs fun x y hx hy _ => ?_
    subst hx
    obtain ⟨truth, htruth⟩ := Scalar.exists_fcmp? pred hfloat hy
    rw [htruth]
    exact .ok _
  | phi incoming =>
    rw [hk] at hphi
    cases hphi

end Registers

namespace Inst

variable {c : Prop} {regs : Registers} {prev : Option BlockId}

/-- A phi that has an input for the block from which control came. -/
theorem remains_evalPhi {i : Inst} {incoming : List (BlockId × Operand)}
    (h : ∀ p ∈ prev, p ∈ incoming.map (·.1)) : Remains c (i.evalPhi incoming prev regs) := by
  cases prev with
  | none =>
    rintro halt ⟨⟩
    trivial
  | some p =>
    obtain ⟨input, hinput, hp⟩ := List.mem_map.1 (h p rfl)
    cases hfind : incoming.find? (·.1 == p) with
    | none => exact absurd (List.find?_eq_none.1 hfind input hinput) (by simp [hp])
    | some found =>
      simp only [evalPhi, hfind]
      exact .read regs found.2

/-- The phis of a verified block find an input for each predecessor. -/
theorem remains_evalPhis {is : List Inst}
    (h : ∀ i ∈ is, ∀ incoming, i.kind = .phi incoming → ∀ p ∈ prev, p ∈ incoming.map (·.1)) :
    Remains c (evalPhis prev regs is) := by
  induction is with
  | nil => exact .ok []
  | cons i rest ih =>
    have hrest := ih fun j hj => h j (List.mem_cons_of_mem _ hj)
    unfold evalPhis
    split
    · next incoming hk =>
      have hfirst : Remains c (i.evalPhi incoming prev regs) :=
        remains_evalPhi (h i List.mem_cons_self incoming hk)
      exact hfirst.bind fun a _ => hrest.bind fun found _ => .ok _
    · exact .ok []

end Inst

/-! ### Blocks -/

namespace Function.Regular

variable {f : Function} (h : f.Regular) {c : Prop} {regs : Registers} {b : BlockId} {block : Block}

include h

/-- Behind the leading phis there are no others. -/
theorem not_phi_of_mem_body (hb : f.block? b = some block) {i : Inst} (hi : i ∈ block.body) :
    i.kind.isPhi = false :=
  h.phis_lead b block hb i hi

/-- A block that is entered along an edge, or from nowhere. -/
theorem remains_enter (hb : f.block? b = some block) (hregs : regs.Typed f c)
    {prev : Option BlockId} (hprev : ∀ p ∈ prev, f.Edge p b) :
    Remains c (block.enter prev regs) := by
  have hphis : ∀ i ∈ block.insts, ∀ incoming, i.kind = .phi incoming →
      ∀ p ∈ prev, p ∈ incoming.map (·.1) := by
    intro i hi incoming hk p hp
    exact ((h.inputs b block hb i hi incoming hk).2 p).2 (hprev p hp)
  refine (Inst.remains_evalPhis hphis).bind fun writes hwrites => .of_exists ?_
  refine Registers.exists_writeAll fun e he => ?_
  obtain ⟨i, hi, hresult⟩ := Inst.exists_of_evalPhis hwrites e he
  rw [hregs.size_eq, ← hresult]
  exact h.result_lt hb hi

/-- A typed exit fails only in a way that is left. -/
theorem remains_leave (hb : f.block? b = some block) (hregs : regs.Typed f c) :
    Remains c (block.leave b regs) := by
  obtain ⟨t, ht, hfits⟩ := h.closed b block hb
  unfold Block.leave
  simp only [ht]
  -- Only a condition is inspected, and its type is that of a truth value.
  cases hexit : t.exit with
  | br target => exact .ok _
  | condBr cond thenTarget elseTarget =>
    rw [hexit] at hfits
    refine (Remains.read regs cond).bind fun a ha => ?_
    have hty : f.operandType? cond = some a.ty := (hregs.read ha).1
    have hbit : f.operandType? cond = some .i1 := hfits
    rw [hty, Option.some.injEq] at hbit
    obtain ⟨truth, htruth⟩ := Scalar.exists_bool hbit
    rw [htruth]
    exact .ok _
  | ret value =>
    cases value with
    | none => exact .ok _
    | some op => exact (Remains.read regs op).bind fun a _ => .ok _
  | unreachable =>
    rintro halt ⟨⟩
    trivial

/-- What is returned has the type that the function returns. -/
theorem ty_of_finish (hb : f.block? b = some block) (hregs : regs.Typed f c) {ret : Option Scalar}
    (hleave : block.leave b regs = .ok (.finish ret)) : ret.map (·.ty) = f.returnType := by
  obtain ⟨t, ht, hfits⟩ := h.closed b block hb
  unfold Block.leave at hleave
  simp only [ht] at hleave
  -- Only a return finishes the run, and its operand was checked against the return type.
  cases hexit : t.exit with
  | br target =>
    simp only [hexit] at hleave
    cases hleave
  | condBr cond thenTarget elseTarget =>
    simp only [hexit] at hleave
    obtain ⟨a, -, hleave⟩ := except_bind_eq_ok.1 hleave
    split at hleave <;> cases hleave
  | ret value =>
    rw [hexit] at hfits
    simp only [hexit] at hleave
    have hvalue : value.bind f.operandType? = f.returnType := hfits
    cases value with
    | none =>
      cases hleave
      exact hvalue
    | some op =>
      obtain ⟨a, ha, hleave⟩ := except_bind_eq_ok.1 hleave
      cases hleave
      have hty : f.operandType? op = some a.ty := (hregs.read ha).1
      rw [← hvalue, Option.bind_some, hty]
      rfl
  | unreachable =>
    simp only [hexit] at hleave
    cases hleave

end Function.Regular

/-! ### Runs -/

namespace RunState

/-- Control is where the graph leads it: it enters the entry block from nowhere and every other
    block along an edge, and what is left of a block is the end of its body. -/
def Placed (f : Function) : RunState → Prop
  | .entering none cur _ => cur = f.entry
  | .entering (some p) cur _ => f.Edge p cur
  | .inside cur rest _ => ∃ block, f.block? cur = some block ∧ rest <:+ block.body

/-- Control is where the graph leads it, and registers are typed. -/
structure Safe (f : Function) (c : Prop) (s : RunState) : Prop where
  placed : s.Placed f
  typed : s.regs.Typed f c

end RunState

section Safe

variable {f : Function} {c : Prop} {s t : RunState}

/-- Steps follow edges, so a block is entered from a predecessor. -/
theorem Advances.placed {events : List Event} (hstep : Advances f s events t)
    (hs : s.Placed f) : t.Placed f := by
  cases hstep with
  | enter hblock henter => exact ⟨_, hblock, List.suffix_refl _⟩
  | @exec cur i rest regs a regs' heval hwrite =>
    obtain ⟨block, hblock, hsuffix⟩ := hs
    exact ⟨block, hblock, (List.suffix_cons i rest).trans hsuffix⟩
  | jump hblock hleave => exact ⟨_, hblock, Block.mem_successors_of_leave (.inl hleave)⟩
  | branch hblock hleave => exact ⟨_, hblock, Block.mem_successors_of_leave (.inr ⟨_, hleave⟩)⟩

/-- **One step keeps a run safe.** -/
theorem Advances.safe (h : f.Regular) {events : List Event} (hstep : Advances f s events t)
    (hs : s.Safe f c) : t.Safe f c := by
  refine ⟨hstep.placed hs.placed, ?_⟩
  have hregs := hs.typed
  have hplaced := hs.placed
  cases hstep with
  | enter hblock henter => exact hregs.enter (h.types _ _ hblock) henter
  | @exec cur i rest regs a regs' heval hwrite =>
    obtain ⟨block, hblock, hsuffix⟩ := hplaced
    have hi : i ∈ block.insts := Block.mem_of_mem_body (hsuffix.mem List.mem_cons_self)
    exact hregs.exec (h.types _ _ hblock i hi) heval hwrite
  | jump hblock hleave => exact hregs
  | branch hblock hleave => exact hregs

/-- Every state reached is safe. -/
theorem Runs.safe (h : f.Regular) {n : Nat} {log : List Event} (hrun : Runs f s n log t)
    (hs : s.Safe f c) : t.Safe f c := by
  induction hrun with
  | refl s => exact hs
  | head hstep _ ih => exact ih (hstep.safe h hs)

/-- What is left of a block in a safe state. -/
theorem RunState.Safe.exists_block {cur : BlockId} {i : Inst} {rest : List Inst} {regs : Registers}
    (hs : Safe f c (.inside cur (i :: rest) regs)) :
    ∃ block, f.block? cur = some block ∧ i ∈ block.body := by
  obtain ⟨block, hblock, hsuffix⟩ := hs.placed
  exact ⟨block, hblock, hsuffix.mem List.mem_cons_self⟩

/-- **A safe run fails only in a way that is left.** -/
theorem Stops.remains (h : f.Regular) (hs : s.Safe f c) {events : List Event} {halt : Halt}
    (hstop : Stops f s events (.error halt)) : halt.Remains c := by
  -- A block that is entered exists, the phis have inputs for it, and the registers have the types
  -- the instructions ask for.
  cases hstop with
  | @missing prev cur regs hnone =>
    have hlt : cur.index < f.blocks.size := by
      have hplaced := hs.placed
      cases prev with
      | none =>
        have hcur : cur = f.entry := hplaced
        rw [hcur]
        exact (h.mem_layout _).1 h.entry_mem
      | some p => exact h.targets p cur hplaced
    obtain ⟨block, hblock⟩ := Function.exists_block? hlt
    rw [hblock] at hnone
    cases hnone
  | @enter prev cur block regs halt hblock henter =>
    refine h.remains_enter hblock hs.typed (fun p hp => ?_) halt henter
    obtain rfl := Option.mem_def.1 hp
    exact hs.placed
  | @eval cur i rest regs halt heval =>
    obtain ⟨block, hblock, hi⟩ := hs.exists_block
    have hfits := h.types _ _ hblock i (Block.mem_of_mem_body hi)
    exact hs.typed.remains_eval hfits (h.not_phi_of_mem_body hblock hi) halt heval
  | @write cur i rest regs a halt heval hwrite =>
    obtain ⟨block, hblock, hi⟩ := hs.exists_block
    have hsize : regs.size = f.valueTypes.size := hs.typed.size_eq
    have hresult : i.result.index < regs.size := by
      rw [hsize]
      exact h.result_lt hblock (Block.mem_of_mem_body hi)
    obtain ⟨regs', hregs'⟩ := Registers.exists_write hresult a
    rw [hregs'] at hwrite
    cases hwrite
  | leave hblock hleave => exact h.remains_leave hblock hs.typed halt hleave

/-- A returned value has the return type. -/
theorem Stops.returns (h : f.Regular) (hs : s.Safe f c) {events : List Event}
    {ret : Option Scalar} (hstop : Stops f s events (.ok ret)) :
    ret.map (·.ty) = f.returnType := by
  cases hstop with
  | finish hblock hleave => exact h.ty_of_finish hblock hs.typed hleave

/-! ### Arguments -/

/-- The arguments are as many as the parameters and have their types. -/
def Function.Accepts (f : Function) (args : List Scalar) : Prop :=
  List.Forall₂ (fun v a => f.valueType? v = some a.ty) f.params args

/-- Arguments of the right types are bound. -/
theorem Function.exists_bindArgs {params : List ValueId} {args : List Scalar}
    (h : List.Forall₂ (fun v a => f.valueType? v = some a.ty) params args) (index : Nat)
    {regs : Registers} (hsize : regs.size = f.valueTypes.size) :
    ∃ regs', f.bindArgs index regs (params.zip args) = .ok regs' := by
  induction h generalizing index regs with
  | nil => exact ⟨regs, rfl⟩
  | @cons v a params args hty _ ih =>
    have hv : v.index < regs.size := by
      rw [hsize]
      exact (Array.getElem?_eq_some_iff.1 hty).1
    obtain ⟨regs₁, hwrite⟩ := Registers.exists_write hv a
    obtain ⟨regs', hrest⟩ := ih (index + 1) ((Registers.size_eq_of_write hwrite).trans hsize)
    refine ⟨regs', ?_⟩
    rw [List.zip_cons_cons, bindArgs, hty]
    simp only [if_pos, hwrite, hrest]

/-- A run that starts does so in a safe state. -/
theorem Function.start_safe {args : List Scalar} (h : f.start args = .ok s) :
    s.Safe f (∀ a ∈ args, a.Fits) := by
  obtain ⟨-, regs, rfl, hbind⟩ := start_eq_ok h
  refine ⟨rfl, (Registers.typed_replicate f _).bindArgs (fun e he hfits => ?_) hbind⟩
  exact hfits _ (List.of_mem_zip he).2

/-- A run starts on arguments of the right types, in a safe state. -/
theorem Function.Accepts.start {args : List Scalar} (h : f.Accepts args) :
    ∃ s, f.start args = .ok s ∧ s.Safe f (∀ a ∈ args, a.Fits) := by
  have hlength : args.length = f.params.length := (List.Forall₂.length_eq h).symm
  obtain ⟨regs, hregs⟩ := exists_bindArgs h 0
    (Array.size_replicate (n := f.valueTypes.size) (v := (none : Option Scalar)))
  have hstart : f.start args = .ok (.entering none f.entry regs) := by
    rw [Function.start, if_neg (Classical.not_not.2 hlength), hregs]
    rfl
  exact ⟨_, hstart, start_safe hstart⟩

/-! ### Shifts -/

/-- The instruction shifts no word by as many places as a word has. -/
def Inst.ShiftsWithin (i : Inst) (regs : Registers) : Prop :=
  ∀ op lhs rhs flags width x y, i.kind = .binary op lhs rhs flags →
    regs.read lhs = .ok (.int width x) → regs.read rhs = .ok (.int width y) →
    IntOp.shiftAmount width y < 64

/-- An operation has the type of a value, which is at most 64 bits wide. -/
theorem Function.Regular.shiftsWithin (h : f.Regular) {i : Inst} (hi : f.InstFits i)
    {regs : Registers} (hregs : regs.Typed f c) : i.ShiftsWithin regs := by
  intro op lhs rhs flags width x y hk hx _
  unfold Function.InstFits at hi
  rw [hk] at hi
  obtain ⟨ty, hlhs, -, hresult, -⟩ := hi
  have hty : f.operandType? lhs = some (.int width) := (hregs.read hx).1
  rw [hlhs, Option.some.injEq] at hty
  subst hty
  have hwidth := h.widths width (Array.mem_of_getElem? hresult)
  exact IntOp.shiftAmount_lt hwidth.2 y

end Safe

/-- **Verified functions do not go wrong.** On arguments of the right number and types a run starts.
    Under every limit it fails, if at all, because a value is read before it is defined, because the
    entry block has a phi, because an unreachable exit is reached or because the limit is used up;
    and what it returns has the type that the function returns.  If the arguments fit their widths,
    then at every point of the run every register that has a value has one of its type that fits,
    no shift is too wide, and nothing faults. -/
theorem run_safe (f : Function) (args : List Scalar) (hverify : f.verify = .ok ())
    (hargs : f.Accepts args) :
    ∃ s, f.start args = .ok s ∧
      (∀ limit e, f.run args limit = .error (.error e) →
        (∃ v, e = .undefined v) ∨ (∃ i, e = .phiWithoutPredecessor i) ∨
          (∃ b, e = .unreachable b) ∨ e = .stepLimit limit) ∧
      (∀ limit e, f.run args limit = .ok e → e.ret.map (·.ty) = f.returnType) ∧
      ((∀ a ∈ args, a.Fits) →
        (∀ n log t, Runs f s n log t → t.regs.Legal f) ∧
        (∀ n log cur i rest regs, Runs f s n log (.inside cur (i :: rest) regs) →
          i.ShiftsWithin regs) ∧
        ∀ limit fault, f.run args limit ≠ .error (.fault fault)) := by
  have h := (Function.verified_iff_wellFormed.1 hverify).toRegular
  obtain ⟨s, hstart, hsafe⟩ := hargs.start
  have hreached : ∀ {n log t}, Runs f s n log t → t.Safe f (∀ a ∈ args, a.Fits) :=
    fun hrun => hrun.safe h hsafe
  -- Under a limit a run fails as its walk does, or at the limit.
  have hfails : ∀ {limit halt}, f.run args limit = .error halt →
      halt.Remains (∀ a ∈ args, a.Fits) ∨ halt = .error (.stepLimit limit) := by
    intro limit halt hhalt
    rcases Function.run_cases hstart limit with ⟨n, log, r, hends, -, hrun⟩ | ⟨log, t, -, -, hrun⟩
    · obtain rfl := Trace.result_eq_error (hrun.symm.trans hhalt)
      obtain ⟨m, first, t, last, hwalk, hstop, -, -⟩ := hends
      exact .inl (hstop.remains h (hreached hwalk))
    · rw [hrun] at hhalt
      cases hhalt
      exact .inr rfl
  refine ⟨s, hstart, fun limit e he => ?_, fun limit e he => ?_, fun hfits => ⟨?_, ?_, ?_⟩⟩
  · rcases hfails he with hremains | hlimit
    · cases e with
      | undefined v => exact .inl ⟨v, rfl⟩
      | phiWithoutPredecessor i => exact .inr (.inl ⟨i, rfl⟩)
      | unreachable b => exact .inr (.inr (.inl ⟨b, rfl⟩))
      | _ => exact hremains.elim
    · cases hlimit
      exact .inr (.inr (.inr rfl))
  · rcases Function.run_cases hstart limit with ⟨n, log, r, hends, -, hrun⟩ | ⟨log, t, -, -, hrun⟩
    · obtain ⟨rfl, -, -⟩ := Trace.result_eq_ok (hrun.symm.trans he)
      obtain ⟨m, first, t, last, hwalk, hstop, -, -⟩ := hends
      exact hstop.returns h (hreached hwalk)
    · rw [hrun] at he
      cases he
  · intro n log t hrun
    exact (hreached hrun).typed.legal hfits
  · intro n log cur i rest regs hrun
    have ht := hreached hrun
    obtain ⟨block, hblock, hi⟩ := ht.exists_block
    exact h.shiftsWithin (h.types _ _ hblock i (Block.mem_of_mem_body hi)) ht.typed
  · intro limit fault hfault
    rcases hfails hfault with hremains | hlimit
    · cases fault with
      | zeroDivisor => exact hremains hfits
      | _ => exact hremains.elim
    · cases hlimit

/-- The example is called with a word that makes its addition overflow. -/
theorem run_safe_doubling :
    doubling.verify = .ok () ∧ doubling.Accepts [.int 32 0x40000000] ∧
      (∃ s, doubling.start [.int 32 0x40000000] = .ok s ∧
        ∀ n log t, Runs doubling s n log t → t.regs.Legal doubling) ∧
      ∀ limit e, doubling.run [.int 32 0x40000000] limit = .ok e →
        e.ret.map (·.ty) = some (.int 32) := by
  have hargs : doubling.Accepts [.int 32 0x40000000] := .cons rfl .nil
  have hfits : ∀ a ∈ [Scalar.int 32 0x40000000], a.Fits := by decide
  obtain ⟨s, hstart, -, hreturns, hlegal⟩ := run_safe doubling _ verify_doubling hargs
  exact ⟨verify_doubling, hargs, ⟨s, hstart, (hlegal hfits).1⟩, hreturns⟩

end ArithWatch
