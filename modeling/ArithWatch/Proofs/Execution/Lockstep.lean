import ArithWatch.Proofs.Execution.Agreement
import ArithWatch.Proofs.Execution.Typing
import Mathlib.Data.List.Forall2

namespace ArithWatch

/-!
# Runs in lockstep

Two functions may compute different values as long as these do not show in where control goes.  Then
they make walks of one length through the same blocks.

* `Outcomes` relates two computations that fail in the same way or give related results.
* `Leeway` says which values and which conditions may stand for each other; `Leeway.Insts`,
  `Leeway.Blocks` and `Leeway.Functions` are the parts of programs that keep to it.
* `Leeway.Firm` values are the same in both; `Leeway.Blocks.of_firm`: a block that reads and gives
  only such values does in both what it does in one.
* `Leeway.States` relates the states of two runs; `Leeway.Functions.advances` and
  `Leeway.Functions.stops` match one step and the end, `Leeway.Functions.runs` matches walks.
* `Leeway.Functions.run`: under every limit the two runs give related results.
-/

/-! ### Outcomes in pairs -/

/-- Two computations fail in the same way, or they give related results. -/
inductive Outcomes {α β : Type} (R : α → β → Prop) : Except Halt α → Except Halt β → Prop
  | error (halt : Halt) : Outcomes R (.error halt) (.error halt)
  | ok {a : α} {b : β} : R a b → Outcomes R (.ok a) (.ok b)

namespace Outcomes

variable {α β γ δ : Type} {R : α → β → Prop} {S : γ → δ → Prop} {x : Except Halt α}
  {y : Except Halt β}

/-- Related computations go on related, if what follows them does. -/
theorem bind {k : α → Except Halt γ} {l : β → Except Halt δ} (h : Outcomes R x y)
    (hk : ∀ a b, R a b → Outcomes S (k a) (l b)) : Outcomes S (x >>= k) (y >>= l) := by
  cases h with
  | error halt => exact .error halt
  | ok hab => exact hk _ _ hab

theorem mono {R' : α → β → Prop} (h : Outcomes R x y) (hR : ∀ a b, R a b → R' a b) :
    Outcomes R' x y := by
  cases h with
  | error halt => exact .error halt
  | ok hab => exact .ok (hR _ _ hab)

theorem refl {R : α → α → Prop} (hR : ∀ a, R a a) (x : Except Halt α) : Outcomes R x x := by
  cases x with
  | error halt => exact .error halt
  | ok a => exact .ok (hR a)

/-- What one side gives, the other gives related. -/
theorem exists_ok {a : α} (h : Outcomes R (.ok a) y) : ∃ b, y = .ok b ∧ R a b := by
  cases h with
  | ok hab => exact ⟨_, rfl, hab⟩

/-- A halt of one side is that of the other. -/
theorem eq_error {halt : Halt} (h : Outcomes R (.error halt) y) : y = .error halt := by
  cases h
  rfl

end Outcomes

/-- A result that has to be there, from two instructions with one id. -/
theorem Inst.outcomes_expect {R S : Scalar → Scalar → Prop} {i j : Inst} {x y : Option Scalar}
    (hid : j.id = i.id) (h : Option.Rel R x y) (hS : ∀ a b, R a b → S a b) :
    Outcomes S (i.expect x) (j.expect y) := by
  cases h with
  | some h => exact .ok (hS _ _ h)
  | none =>
    rw [expect, expect, hid]
    exact .error _

/-! ### What may differ -/

/-- Which values a value id may have in two runs, and which conditions the branch of a block. -/
structure Leeway where
  value : ValueId → Scalar → Scalar → Prop
  branch : BlockId → Bool → Bool → Prop

namespace Leeway

variable (w : Leeway)

/-- Every value id has related values, or none in either file. -/
structure Holds (regs regs' : Registers) : Prop where
  size_eq : regs'.size = regs.size
  read : ∀ v, Outcomes (w.value v) (regs.read (.value v)) (regs'.read (.value v))

/-- Instructions with one result that give related values. -/
inductive Insts : Inst → Inst → Prop
  | plain {i j : Inst} :
    j.result = i.result → i.kind.isPhi = false → j.kind.isPhi = false →
    (∀ regs regs', w.Holds regs regs' →
      Outcomes (w.value i.result) (i.eval regs) (j.eval regs')) →
    Insts i j
  | phi {i j : Inst} {incoming incoming' : List (BlockId × Operand)} :
    j.id = i.id → j.result = i.result → i.kind = .phi incoming → j.kind = .phi incoming' →
    (∀ prev regs regs', w.Holds regs regs' →
      Outcomes (w.value i.result) (i.evalPhi incoming prev regs)
        (j.evalPhi incoming' prev regs')) →
    Insts i j

/-- Control leaves the block in the same direction. -/
inductive Steps (b : BlockId) : Step → Step → Prop
  | jump (target : BlockId) : Steps b (.jump target) (.jump target)
  | branch {c c' : Bool} (target : BlockId) :
    w.branch b c c' → Steps b (.branch c target) (.branch c' target)
  | finish (ret : Option Scalar) : Steps b (.finish ret) (.finish ret)

/-- The instructions are related in pairs, and control leaves the blocks in the same direction. -/
structure Blocks (b : BlockId) (x y : Block) : Prop where
  insts : List.Forall₂ w.Insts x.insts y.insts
  leave : ∀ regs regs', w.Holds regs regs' →
    Outcomes (w.Steps b) (x.leave b regs) (y.leave b regs')

/-- The functions differ in related blocks only, and parameters have one value in both. -/
structure Functions (f g : Function) : Prop where
  frame : g = { f with blocks := g.blocks }
  size_eq : g.blocks.size = f.blocks.size
  blocks : ∀ b x, f.block? b = some x → ∃ y, g.block? b = some y ∧ w.Blocks b x y
  params : ∀ v ∈ f.params, ∀ a, w.value v a a

/-- Two runs are at the same place. -/
inductive States : RunState → RunState → Prop
  | entering {prev : Option BlockId} {cur : BlockId} {regs regs' : Registers} :
    w.Holds regs regs' → States (.entering prev cur regs) (.entering prev cur regs')
  | inside {cur : BlockId} {rest rest' : List Inst} {regs regs' : Registers} :
    List.Forall₂ w.Insts rest rest' → w.Holds regs regs' →
    States (.inside cur rest regs) (.inside cur rest' regs')

/-- The same happens in two runs, but for values and conditions. -/
inductive Events : Event → Event → Prop
  | enter (b : BlockId) : Events (.enter b) (.enter b)
  | exec {b : BlockId} {i j : Inst} {reads reads' : List Scalar} {a a' : Scalar} :
    w.Insts i j → w.value i.result a a' → Events (.exec b i reads a) (.exec b j reads' a')
  | branch {b : BlockId} {c c' : Bool} : w.branch b c c' → Events (.branch b c) (.branch b c')

/-- Two branches are taken in one block. -/
structure Branches (x y : BranchEvent) : Prop where
  block_eq : y.block = x.block
  cond : w.branch x.block x.cond y.cond

/-- Two runs return the same and go the same way. -/
structure Executions (e e' : Execution) : Prop where
  ret_eq : e'.ret = e.ret
  path_eq : e'.path = e.path
  branches : List.Forall₂ w.Branches e.branches.toList e'.branches.toList

variable {w} {f g : Function} {regs regs' regs₁ : Registers}

/-! ### Registers -/

namespace Holds

/-- Both files take related values. -/
theorem write (h : w.Holds regs regs') {v : ValueId} {a a' : Scalar} (ha : w.value v a a') :
    Outcomes w.Holds (regs.write v a) (regs'.write v a') := by
  -- Either both writes are in range, or both fail.
  by_cases hv : v.index < regs.size
  · obtain ⟨regs₁, hwrite⟩ := Registers.exists_write hv a
    obtain ⟨regs₁', hwrite'⟩ := Registers.exists_write (h.size_eq ▸ hv) a'
    rw [hwrite, hwrite']
    refine .ok ⟨?_, fun u => ?_⟩
    · rw [Registers.size_eq_of_write hwrite, Registers.size_eq_of_write hwrite', h.size_eq]
    · rw [Registers.read_write hwrite, Registers.read_write hwrite']
      split
      · next e => exact e ▸ .ok ha
      · exact h.read u
  · have hfail : ∀ {regs : Registers} (a : Scalar), ¬ v.index < regs.size →
        regs.write v a = .error (.fault .missing) := fun a hlt => if_neg hlt
    rw [hfail a hv, hfail a' (h.size_eq ▸ hv)]
    exact .error _

/-- Values that are written together. -/
theorem writeAll (h : w.Holds regs regs') {writes writes' : List (ValueId × Scalar)}
    (hwrites : List.Forall₂ (fun e e' => e'.1 = e.1 ∧ w.value e.1 e.2 e'.2) writes writes') :
    Outcomes w.Holds (regs.writeAll writes) (regs'.writeAll writes') := by
  -- By induction on the writes; the first that fails stops both sides.
  induction hwrites generalizing regs regs' with
  | nil => exact .ok h
  | @cons e e' rest rest' he _ ih =>
    obtain ⟨v, a⟩ := e
    obtain ⟨v', a'⟩ := e'
    obtain ⟨rfl, ha⟩ := he
    rw [Registers.writeAll, Registers.writeAll]
    cases hwrite : regs.write v' a with
    | error halt =>
      have := h.write ha
      rw [hwrite] at this
      rw [this.eq_error]
      exact .error halt
    | ok regs₁ =>
      have := h.write ha
      rw [hwrite] at this
      obtain ⟨regs₁', hwrite', h₁⟩ := this.exists_ok
      rw [hwrite']
      exact ih h₁

/-- Parameters take the same arguments. -/
theorem bindArgs (h : w.Holds regs regs) {args : List (ValueId × Scalar)}
    (hargs : ∀ e ∈ args, ∀ a, w.value e.1 a a) {index : Nat}
    (hbind : f.bindArgs index regs args = .ok regs₁) : w.Holds regs₁ regs₁ := by
  induction args generalizing index regs with
  | nil =>
    cases hbind
    exact h
  | cons e rest ih =>
    obtain ⟨v, a⟩ := e
    rw [List.forall_mem_cons] at hargs
    rw [Function.bindArgs] at hbind
    split at hbind
    · cases hbind
    split at hbind
    · split at hbind
      · cases hbind
      · next regs₂ hwrite =>
        -- The caller hands both sides the same words, which are in relation to themselves.
        have hboth := h.write (hargs.1 a)
        rw [hwrite] at hboth
        cases hboth with
        | ok h₂ => exact ih h₂ hargs.2 hbind
    · cases hbind

end Holds

/-! ### Instructions -/

theorem Insts.result_eq {i j : Inst} (h : w.Insts i j) : j.result = i.result := by
  cases h <;> assumption

/-- Matching instructions are phis together. -/
theorem Insts.isPhi_eq {i j : Inst} (h : w.Insts i j) : j.kind.isPhi = i.kind.isPhi := by
  cases h with
  | plain _ hi hj _ => rw [hi, hj]
  | phi _ _ hi hj _ => rw [hi, hj]; rfl

/-- Matching instructions evaluate to related words from related registers. -/
theorem Insts.eval {i j : Inst} (h : w.Insts i j) (hregs : w.Holds regs regs') :
    Outcomes (w.value i.result) (i.eval regs) (j.eval regs') := by
  cases h with
  | plain _ _ _ heval => exact heval _ _ hregs
  | phi hid _ hi hj _ =>
    -- behind the leading phis a phi is an error
    simp only [Inst.eval, hi, hj, hid]
    exact .error _

/-- What stands behind the leading phis is related, too. -/
theorem forall₂_dropWhile {is js : List Inst} (h : List.Forall₂ w.Insts is js) :
    List.Forall₂ w.Insts (is.dropWhile (·.kind.isPhi)) (js.dropWhile (·.kind.isPhi)) := by
  induction h with
  | nil => exact .nil
  | cons hij hrest ih =>
    rw [List.dropWhile_cons, List.dropWhile_cons, hij.isPhi_eq]
    split
    · exact ih
    · exact .cons hij hrest

/-- The phis at the head of matching blocks read related words, for the same values. -/
theorem evalPhis {is js : List Inst} (h : List.Forall₂ w.Insts is js)
    (hregs : w.Holds regs regs') (prev : Option BlockId) :
    Outcomes (List.Forall₂ fun e e' => e'.1 = e.1 ∧ w.value e.1 e.2 e'.2)
      (Inst.evalPhis prev regs is) (Inst.evalPhis prev regs' js) := by
  induction h with
  | nil => exact .ok .nil
  | @cons i j is js hij _ ih =>
    cases hij with
    | plain hresult hi hj _ =>
      -- The first instruction that is not a phi stops both lists at once.
      have hstop : ∀ {k : Inst} (ks : List Inst) (regs : Registers), k.kind.isPhi = false →
          Inst.evalPhis prev regs (k :: ks) = .ok [] := by
        intro k ks regs hk
        rw [← Inst.evalPhis_takeWhile, List.takeWhile_cons_of_neg (by simp [hk])]
        rfl
      rw [hstop is regs hi, hstop js regs' hj]
      exact .ok .nil
    | phi _ hresult hi hj heval =>
      simp only [Inst.evalPhis, hi, hj]
      refine (heval prev regs regs' hregs).bind fun a a' ha => ih.bind fun ws ws' hws => ?_
      exact .ok (.cons ⟨hresult, ha⟩ hws)

/-! ### What is the same in both -/

/-- The value id has the same value in both runs. -/
def Firm (w : Leeway) (v : ValueId) : Prop := ∀ a a', w.value v a a' ↔ a' = a

/-- An operand that leaves no room reads the same. -/
theorem Holds.read_eq (h : w.Holds regs regs') {op : Operand}
    (hop : ∀ v, op = .value v → w.Firm v) : regs'.read op = regs.read op := by
  cases op with
  | const c => rfl
  | value v =>
    have hread := h.read v
    cases hregs : regs.read (.value v) with
    | error halt =>
      rw [hregs] at hread
      exact hread.eq_error
    | ok a =>
      rw [hregs] at hread
      obtain ⟨a', ha', hvalue⟩ := hread.exists_ok
      rw [ha', (hop v rfl a a').1 hvalue]

/-- An instruction that reads and gives firm values. -/
theorem Insts.of_firm {i : Inst} (hreads : ∀ v, .value v ∈ i.kind.operands → w.Firm v)
    (hresult : w.Firm i.result) : w.Insts i i := by
  -- A value without leeway relates equal words only.
  have hsame : ∀ a, w.value i.result a a := fun a => (hresult a a).2 rfl
  cases hphi : i.kind.isPhi with
  | false =>
    refine .plain rfl hphi hphi fun regs regs' hregs => ?_
    rw [Inst.eval_congr fun op hop => hregs.read_eq fun v hv => hreads v (hv ▸ hop)]
    exact .refl hsame _
  | true =>
    obtain ⟨incoming, hk⟩ : ∃ incoming, i.kind = .phi incoming := by
      cases hk : i.kind with
      | phi incoming => exact ⟨incoming, rfl⟩
      | binary | icmp | fcmp => rw [hk] at hphi; cases hphi
    rw [hk] at hreads
    refine .phi rfl rfl hk hk fun prev regs regs' hregs => ?_
    rw [Inst.evalPhi_congr (fun op hop => hregs.read_eq fun v hv => hreads v (hv ▸ hop)) prev]
    exact .refl hsame _

/-- A block that reads and gives firm values. -/
theorem Blocks.of_firm {b : BlockId} {x : Block} (hreads : ∀ v, x.Reads v → w.Firm v)
    (hresults : ∀ i ∈ x.insts, w.Firm i.result) (hbranch : ∀ c, w.branch b c c) :
    w.Blocks b x x where
  insts := List.forall₂_same.2 fun i hi =>
    .of_firm (fun v hv => hreads v (.inl ⟨i, hi, hv⟩)) (hresults i hi)
  leave regs regs' hregs := by
    rw [Block.leave_eq_of_read fun t ht op hop => hregs.read_eq fun v hv =>
      hreads v (.inr ⟨t, ht, hop.trans (congrArg some hv)⟩)]
    refine .refl (fun step => ?_) _
    cases step with
    | jump target => exact .jump target
    | branch c target => exact .branch target (hbranch c)
    | finish ret => exact .finish ret

/-! ### Entering a block -/

/-- Matching blocks are entered with related registers. -/
theorem Blocks.enter {b : BlockId} {x y : Block} (h : w.Blocks b x y)
    (hregs : w.Holds regs regs') (prev : Option BlockId) :
    Outcomes w.Holds (x.enter prev regs) (y.enter prev regs') :=
  (evalPhis h.insts hregs prev).bind fun _ _ hwrites => hregs.writeAll hwrites

/-! ### Steps and walks -/

theorem States.cost_eq {s s' : RunState} (h : w.States s s') : s'.cost = s.cost := by
  cases h <;> rfl

namespace Functions

variable (h : w.Functions f g) {s s' t : RunState}

include h

/-- A block is missing on both sides. -/
theorem block?_eq_none {b : BlockId} (hb : f.block? b = none) : g.block? b = none := by
  rw [Function.block?_eq_none_iff] at hb ⊢
  rwa [h.size_eq]

/-- **One step.** The second function takes a step of the same kind. -/
theorem advances {events : List Event} (hstep : Advances f s events t) (hs : w.States s s') :
    ∃ events' t', Advances g s' events' t' ∧ w.States t t' ∧
      List.Forall₂ w.Events events events' := by
  -- Each kind of step is met by the same kind of step of the other function.
  cases hstep with
  | @enter prev cur block regs regs₁ hblock henter =>
    cases hs with
    | entering hregs =>
      obtain ⟨block', hblock', hboth⟩ := h.blocks cur block hblock
      have hentered := hboth.enter hregs prev
      rw [henter] at hentered
      obtain ⟨regs₁', henter', hregs₁⟩ := hentered.exists_ok
      exact ⟨_, _, .enter hblock' henter', .inside (forall₂_dropWhile hboth.insts) hregs₁,
        .cons (.enter cur) .nil⟩
  | @exec cur i rest regs a regs₁ heval hwrite =>
    cases hs with
    | inside hrest hregs =>
      cases hrest with
      | @cons _ j _ rest' hij hrest =>
        have hgiven := hij.eval hregs
        rw [heval] at hgiven
        obtain ⟨a', heval', ha⟩ := hgiven.exists_ok
        have hwritten := hregs.write ha
        rw [hwrite] at hwritten
        obtain ⟨regs₁', hwrite', hregs₁⟩ := hwritten.exists_ok
        rw [← hij.result_eq] at hwrite'
        exact ⟨_, _, .exec heval' hwrite', .inside hrest hregs₁, .cons (.exec hij ha) .nil⟩
  | @jump cur block regs target hblock hleave =>
    cases hs with
    | inside hrest hregs =>
      cases hrest
      obtain ⟨block', hblock', hboth⟩ := h.blocks cur block hblock
      have hleft := hboth.leave _ _ hregs
      rw [hleave] at hleft
      obtain ⟨_, hleave', hstep⟩ := hleft.exists_ok
      cases hstep
      exact ⟨_, _, .jump hblock' hleave', .entering hregs, .nil⟩
  | @branch cur block regs cond target hblock hleave =>
    cases hs with
    | inside hrest hregs =>
      cases hrest
      obtain ⟨block', hblock', hboth⟩ := h.blocks cur block hblock
      have hleft := hboth.leave _ _ hregs
      rw [hleave] at hleft
      obtain ⟨_, hleave', hstep⟩ := hleft.exists_ok
      cases hstep with
      | branch _ hcond =>
        exact ⟨_, _, .branch hblock' hleave', .entering hregs, .cons (.branch hcond) .nil⟩

/-- **The end.** Where the first function stops, the second one stops with the same result. -/
theorem stops {events : List Event} {r : Except Halt (Option Scalar)}
    (hstop : Stops f s events r) (hs : w.States s s') : Stops g s' events r := by
  -- Each way to stop is met by the same way, with the same result.
  cases hstop with
  | missing hblock =>
    cases hs with
    | entering _ => exact .missing (h.block?_eq_none hblock)
  | @enter prev cur block regs halt hblock henter =>
    cases hs with
    | entering hregs =>
      obtain ⟨block', hblock', hboth⟩ := h.blocks cur block hblock
      have hentered := hboth.enter hregs prev
      rw [henter] at hentered
      exact .enter hblock' hentered.eq_error
  | @eval cur i rest regs halt heval =>
    cases hs with
    | inside hrest hregs =>
      cases hrest with
      | cons hij _ =>
        have hgiven := hij.eval hregs
        rw [heval] at hgiven
        exact .eval hgiven.eq_error
  | @write cur i rest regs a halt heval hwrite =>
    cases hs with
    | inside hrest hregs =>
      cases hrest with
      | cons hij _ =>
        have hgiven := hij.eval hregs
        rw [heval] at hgiven
        obtain ⟨a', heval', ha⟩ := hgiven.exists_ok
        have hwritten := hregs.write ha
        rw [hwrite] at hwritten
        exact .write heval' (hij.result_eq ▸ hwritten.eq_error)
  | @leave cur block regs halt hblock hleave =>
    cases hs with
    | inside hrest hregs =>
      cases hrest
      obtain ⟨block', hblock', hboth⟩ := h.blocks cur block hblock
      have hleft := hboth.leave _ _ hregs
      rw [hleave] at hleft
      exact .leave hblock' hleft.eq_error
  | @finish cur block regs ret hblock hleave =>
    cases hs with
    | inside hrest hregs =>
      cases hrest
      obtain ⟨block', hblock', hboth⟩ := h.blocks cur block hblock
      have hleft := hboth.leave _ _ hregs
      rw [hleave] at hleft
      obtain ⟨_, hleave', hstep⟩ := hleft.exists_ok
      cases hstep
      exact .finish hblock' hleave'

/-- **Walks.** The second function makes a walk of the same cost, on which the same happens. -/
theorem runs {n : Nat} {log : List Event} (hrun : Runs f s n log t) (hs : w.States s s') :
    ∃ log' t', Runs g s' n log' t' ∧ w.States t t' ∧ List.Forall₂ w.Events log log' := by
  induction hrun generalizing s' with
  | refl s => exact ⟨[], s', .refl s', hs, .nil⟩
  | head hstep _ ih =>
    obtain ⟨events', t', hstep', ht, hevents⟩ := h.advances hstep hs
    obtain ⟨log', u', hrun', hu, hlog⟩ := ih ht
    refine ⟨_, u', ?_, hu, List.rel_append hevents hlog⟩
    rw [← hs.cost_eq]
    exact .head hstep' hrun'

/-- A whole execution ends at the same cost, with the same result. -/
theorem ends {n : Nat} {log : List Event} {r : Except Halt (Option Scalar)}
    (hends : Ends f s n log r) (hs : w.States s s') :
    ∃ log', Ends g s' n log' r ∧ List.Forall₂ w.Events log log' := by
  obtain ⟨m, first, t, last, hrun, hstop, rfl, rfl⟩ := hends
  obtain ⟨first', t', hrun', ht, hfirst⟩ := h.runs hrun hs
  have hlast : List.Forall₂ w.Events last last := by
    cases hstop with
    | missing _ => exact .cons (.enter _) .nil
    | enter _ _ => exact .cons (.enter _) .nil
    | eval _ => exact .nil
    | write _ _ => exact .nil
    | leave _ _ => exact .nil
    | finish _ _ => exact .nil
  exact ⟨_, ⟨m, first', t', last, hrun', h.stops hstop ht, by rw [ht.cost_eq], rfl⟩,
    List.rel_append hfirst hlast⟩

/-! ### Whole runs -/

theorem start_eq (args : List Scalar) : g.start args = f.start args :=
  Function.start_congr (by rw [h.frame]) (by rw [h.frame]) (by rw [h.frame]) args

/-- Both runs start in the same state. -/
theorem start {args : List Scalar} (hstart : f.start args = .ok s) : w.States s s := by
  obtain ⟨-, regs, rfl, hbind⟩ := Function.start_eq_ok hstart
  have hempty : w.Holds (Array.replicate f.valueTypes.size none)
      (Array.replicate f.valueTypes.size none) :=
    ⟨rfl, fun v => by rw [Registers.read_replicate]; exact .error _⟩
  exact .entering (hempty.bindArgs (fun e he => h.params e.1 (List.of_mem_zip he).1) hbind)

omit h in
/-- The traces of related events. -/
theorem trace {log log' : List Event} (hlog : List.Forall₂ w.Events log log') :
    log'.filterMap Event.entered? = log.filterMap Event.entered? ∧
      List.Forall₂ w.Branches (log.filterMap Event.branch?) (log'.filterMap Event.branch?) := by
  induction hlog with
  | nil => exact ⟨rfl, .nil⟩
  | cons he _ ih =>
    cases he with
    | enter b =>
      exact ⟨congrArg (b :: ·) ih.1, ih.2⟩
    | exec _ _ => exact ih
    | branch hcond => exact ⟨ih.1, .cons ⟨rfl, hcond⟩ ih.2⟩

/-- **Runs under a limit** return related results, or they fail in the same way. -/
theorem run (args : List Scalar) (limit : Nat) :
    Outcomes w.Executions (f.run args limit) (g.run args limit) := by
  cases hstart : f.start args with
  | error halt =>
    rw [Function.run_of_start_error hstart,
      Function.run_of_start_error ((h.start_eq args).trans hstart)]
    exact .error halt
  | ok s =>
    have hstart' := (h.start_eq args).trans hstart
    have hs := h.start hstart
    -- A run ends, or its limit runs out first; the costs agree, so both sides do the same.
    rcases Function.run_cases hstart limit with
      ⟨n, log, r, hends, hle, hrun⟩ | ⟨log, t, hrun, ht, hlimit⟩
    · obtain ⟨log', hends', hlog⟩ := h.ends hends hs
      rw [hrun, Function.run_of_ends hstart' hends', if_pos hle]
      cases r with
      | error halt => exact .error halt
      | ok ret =>
        obtain ⟨hpath, hbranches⟩ := trace hlog
        exact .ok ⟨rfl, by simp [Trace.extend, hpath], by simpa [Trace.extend] using hbranches⟩
    · obtain ⟨log', t', hrun', ht', -⟩ := h.runs hrun hs
      rw [hlimit, Function.run_of_runs hstart' hrun' (ht'.cost_eq.trans ht)]
      exact .error _

end Functions

end Leeway

end ArithWatch
