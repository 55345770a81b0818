import ArithWatch.Execution.Run

namespace ArithWatch

/-!
# Runs step by step

A run is a walk through states, one instruction or one terminator at a time.  The walk knows no
limit: a limit only says how far along the walk a run gets.

* `RunState` is where a run is, `Event` what it does there, `Advances` one step and `Stops` the end.
* `Runs` is a walk with its cost, that is the number of steps that a budget pays for.
* `Ends` is a walk to the end.
* `Function.run_cases`: a run under a limit is the walk to the end if the limit is high enough, and
  a cut-off walk otherwise.
-/

/-! ### States and steps -/

/-- Where a run is: about to enter a block, or inside one with instructions left. -/
inductive RunState
  | entering (prev : Option BlockId) (cur : BlockId) (regs : Registers)
  | inside (cur : BlockId) (rest : List Inst) (regs : Registers)

/-- What a run does. -/
inductive Event
  | enter (b : BlockId)
  /-- An instruction that is no phi, with the values that it reads and the one that it gives. -/
  | exec (b : BlockId) (i : Inst) (reads : List Scalar) (result : Scalar)
  | branch (b : BlockId) (cond : Bool)

namespace Event

/-- The block in which something happens. -/
def block : Event → BlockId
  | .enter b | .exec b .. | .branch b _ => b

/-- Is an instruction executed? -/
def isExec : Event → Bool
  | .exec .. => true
  | _ => false

end Event

/-- The values of operands, as far as they have some. -/
def Registers.readAll (regs : Registers) (ops : List Operand) : List Scalar :=
  ops.filterMap fun op => (regs.read op).toOption

/-- What a step from the state costs: entering a block is free. -/
def RunState.cost : RunState → Nat
  | .entering .. => 0
  | .inside .. => 1

section Machine

variable (f : Function)

/-- One step of a run. -/
inductive Advances : RunState → List Event → RunState → Prop
  | enter {prev cur block regs regs'} :
    f.block? cur = some block → block.enter prev regs = .ok regs' →
    Advances (.entering prev cur regs) [.enter cur] (.inside cur block.body regs')
  | exec {cur i rest regs a regs'} :
    i.eval regs = .ok a → regs.write i.result a = .ok regs' →
    Advances (.inside cur (i :: rest) regs) [.exec cur i (regs.readAll i.kind.operands) a]
      (.inside cur rest regs')
  | jump {cur block regs target} :
    f.block? cur = some block → block.leave cur regs = .ok (.jump target) →
    Advances (.inside cur [] regs) [] (.entering (some cur) target regs)
  | branch {cur block regs cond target} :
    f.block? cur = some block → block.leave cur regs = .ok (.branch cond target) →
    Advances (.inside cur [] regs) [.branch cur cond] (.entering (some cur) target regs)

/-- The end of a run. -/
inductive Stops : RunState → List Event → Except Halt (Option Scalar) → Prop
  | missing {prev cur regs} :
    f.block? cur = none →
    Stops (.entering prev cur regs) [.enter cur] (.error (.fault .missing))
  | enter {prev cur block regs halt} :
    f.block? cur = some block → block.enter prev regs = .error halt →
    Stops (.entering prev cur regs) [.enter cur] (.error halt)
  | eval {cur i rest regs halt} :
    i.eval regs = .error halt →
    Stops (.inside cur (i :: rest) regs) [] (.error halt)
  | write {cur i rest regs a halt} :
    i.eval regs = .ok a → regs.write i.result a = .error halt →
    Stops (.inside cur (i :: rest) regs) [] (.error halt)
  | leave {cur block regs halt} :
    f.block? cur = some block → block.leave cur regs = .error halt →
    Stops (.inside cur [] regs) [] (.error halt)
  | finish {cur block regs ret} :
    f.block? cur = some block → block.leave cur regs = .ok (.finish ret) →
    Stops (.inside cur [] regs) [] (.ok ret)

/-- A walk with its cost and its events. -/
inductive Runs : RunState → Nat → List Event → RunState → Prop
  | refl (s) : Runs s 0 [] s
  | head {s t u events n log} : Advances f s events t → Runs t n log u →
    Runs s (s.cost + n) (events ++ log) u

/-- A walk to the end. -/
def Ends (s : RunState) (n : Nat) (log : List Event) (result : Except Halt (Option Scalar)) :
    Prop :=
  ∃ m first t last, Runs f s m first t ∧ Stops f t last result ∧ n = m + t.cost ∧
    log = first ++ last

end Machine

variable {f : Function} {s t u : RunState}

namespace Runs

theorem trans {m n : Nat} {log log' : List Event} (h : Runs f s m log t)
    (h' : Runs f t n log' u) : Runs f s (m + n) (log ++ log') u := by
  induction h with
  | refl s => simpa using h'
  | head hstep _ ih =>
    rw [Nat.add_assoc, List.append_assoc]
    exact .head hstep (ih h')

theorem single {events : List Event} (h : Advances f s events t) : Runs f s s.cost events t := by
  have := Runs.head h (.refl t)
  simpa using this

/-- A function that takes the steps of another one makes its walks. -/
theorem mono {g : Function} (h : ∀ s events t, Advances f s events t → Advances g s events t)
    {n : Nat} {log : List Event} (hrun : Runs f s n log t) : Runs g s n log t := by
  induction hrun with
  | refl s => exact .refl s
  | head hstep _ ih => exact .head (h _ _ _ hstep) ih

end Runs

/-! ### There is only one walk -/

/-- From every state there is at most one step. -/
theorem Advances.deterministic {events events' : List Event} (h : Advances f s events t)
    (h' : Advances f s events' u) : events = events' ∧ t = u := by
  cases h <;> cases h' <;> simp_all

/-- The end is in at most one way. -/
theorem Stops.deterministic {events events' : List Event} {r r' : Except Halt (Option Scalar)}
    (h : Stops f s events r) (h' : Stops f s events' r') : events = events' ∧ r = r' := by
  cases h <;> cases h' <;> simp_all

/-- At the end there is no further step. -/
theorem Stops.not_step {events events' : List Event} {r : Except Halt (Option Scalar)}
    (h : Stops f s events r) (h' : Advances f s events' t) : False := by
  cases h <;> cases h' <;> simp_all

/-- The end determines the walk that leads to it. -/
theorem Ends.deterministic {m n : Nat} {log log' : List Event} {r r' : Except Halt (Option Scalar)}
    (h : Ends f s m log r) (h' : Ends f s n log' r') : m = n ∧ log = log' ∧ r = r' := by
  obtain ⟨k, first, t, last, hrun, hstop, rfl, rfl⟩ := h
  obtain ⟨k', first', t', last', hrun', hstop', rfl, rfl⟩ := h'
  -- By induction on the first execution; the second takes the same step or stops as it does.
  induction hrun generalizing k' first' with
  | refl s =>
    cases hrun' with
    | refl =>
      obtain ⟨rfl, rfl⟩ := hstop.deterministic hstop'
      exact ⟨rfl, rfl, rfl⟩
    | head hstep _ => exact (hstop.not_step hstep).elim
  | head hstep _ ih =>
    cases hrun' with
    | refl => exact (hstop'.not_step hstep).elim
    | head hstep' hrest =>
      obtain ⟨rfl, rfl⟩ := hstep.deterministic hstep'
      obtain ⟨hcost, hlog, hr⟩ := ih hstop _ _ hrest
      refine ⟨by omega, ?_, hr⟩
      rw [List.append_assoc, List.append_assoc, hlog]

/-- The walk to the end goes through every state that a walk leads to. -/
theorem Ends.after {m n : Nat} {log log' : List Event} {r : Except Halt (Option Scalar)}
    (h : Ends f s n log r) (hrun : Runs f s m log' t) :
    ∃ n' log'', Ends f t n' log'' r ∧ n = m + n' ∧ log = log' ++ log'' := by
  obtain ⟨k, first, u, last, hrun', hstop, rfl, rfl⟩ := h
  induction hrun generalizing k first with
  | refl s => exact ⟨_, _, ⟨k, first, u, last, hrun', hstop, rfl, rfl⟩, (Nat.zero_add _).symm, rfl⟩
  | head hstep _ ih =>
    cases hrun' with
    | refl => exact (hstop.not_step hstep).elim
    | head hstep' hrest =>
      obtain ⟨rfl, rfl⟩ := hstep.deterministic hstep'
      obtain ⟨n', log'', hends, hcost, hlog⟩ := ih _ _ hrest
      refine ⟨n', log'', hends, by omega, ?_⟩
      rw [List.append_assoc, hlog, List.append_assoc]

/-- A walk to the end is at its end, or it takes a first step. -/
theorem Ends.head_cases {n : Nat} {log : List Event} {r : Except Halt (Option Scalar)}
    (h : Ends f s n log r) :
    Stops f s log r ∨ ∃ events t n' log', Advances f s events t ∧ Ends f t n' log' r ∧
      n = s.cost + n' ∧ log = events ++ log' := by
  obtain ⟨k, first, u, last, hrun, hstop, rfl, rfl⟩ := h
  cases hrun with
  | refl => exact .inl hstop
  | @head _ t _ events n' log' hstep hrest =>
    refine .inr ⟨events, t, n' + u.cost, log' ++ last, hstep,
      ⟨n', log', u, last, hrest, hstop, rfl, rfl⟩, by omega, ?_⟩
    rw [List.append_assoc]

/-- Nothing happens any more where a run ends well. -/
theorem Stops.eq_nil_of_ok {events : List Event} {ret : Option Scalar}
    (h : Stops f s events (.ok ret)) : events = [] := by
  cases h
  rfl

/-- What is left to run costs at least the next step. -/
theorem Ends.cost_le {n : Nat} {log : List Event} {r : Except Halt (Option Scalar)}
    (h : Ends f s n log r) : s.cost ≤ n := by
  obtain ⟨k, first, u, last, hrun, hstop, rfl, rfl⟩ := h
  cases hrun with
  | refl => exact Nat.le_add_left _ _
  | head _ _ => omega

/-- A walk that is not at its end has cost less than the walk to the end. -/
theorem Ends.cost_lt {m n : Nat} {log log' : List Event} {r : Except Halt (Option Scalar)}
    (h : Ends f s n log r) (hrun : Runs f s m log' t) (ht : t.cost = 1) : m < n := by
  obtain ⟨n', log'', hends, rfl, -⟩ := h.after hrun
  have := hends.cost_le
  omega

/-- A walk can be put before another one. -/
theorem Runs.ends {m n : Nat} {log log' : List Event} {r : Except Halt (Option Scalar)}
    (h : Runs f s m log t) (h' : Ends f t n log' r) : Ends f s (m + n) (log ++ log') r := by
  obtain ⟨k, first, u, last, hrun, hstop, rfl, rfl⟩ := h'
  exact ⟨m + k, log ++ first, u, last, h.trans hrun, hstop, by omega, by simp⟩

/-! ### Traces -/

/-- The block that an event enters. -/
def Event.entered? : Event → Option BlockId
  | .enter b => some b
  | _ => none

/-- The conditional branch that an event takes. -/
def Event.branch? : Event → Option BranchEvent
  | .branch b cond => some { block := b, cond }
  | _ => none

namespace Trace

/-- The trace with the blocks and branches of more events. -/
def extend (t : Trace) (log : List Event) : Trace :=
  { path := t.path ++ (log.filterMap Event.entered?).toArray
    branches := t.branches ++ (log.filterMap Event.branch?).toArray }

/-- What a run with this trace and this end returns. -/
def result (t : Trace) (r : Except Halt (Option Scalar)) : Except Halt Execution :=
  r.map fun ret => { ret, path := t.path, branches := t.branches }

/-- Events are recorded one after the other. -/
theorem extend_extend (t : Trace) (log log' : List Event) :
    (t.extend log).extend log' = t.extend (log ++ log') := by
  simp [extend]

@[simp] theorem extend_nil (t : Trace) : t.extend [] = t := by
  simp [extend]

/-- Entering a block extends the path. -/
theorem extend_enter (t : Trace) (b : BlockId) :
    t.extend [.enter b] = { t with path := t.path.push b } := by
  simp [extend, List.filterMap_cons, Event.entered?, Event.branch?]

/-- Executing an instruction leaves no trace. -/
theorem extend_exec (t : Trace) (b : BlockId) (i : Inst) (reads : List Scalar) (a : Scalar) :
    t.extend [.exec b i reads a] = t := by
  simp [extend, List.filterMap_cons, Event.entered?, Event.branch?]

/-- A conditional branch is recorded with the condition it read. -/
theorem extend_branch (t : Trace) (b : BlockId) (cond : Bool) :
    t.extend [.branch b cond] =
      { t with branches := t.branches.push { block := b, cond } } := by
  simp [extend, List.filterMap_cons, Event.entered?, Event.branch?]

/-- What a finished run returns, and where it went. -/
theorem result_eq_ok {log : List Event} {r : Except Halt (Option Scalar)} {e : Execution}
    (h : (({} : Trace).extend log).result r = .ok e) :
    r = .ok e.ret ∧ e.path = (log.filterMap Event.entered?).toArray ∧
      e.branches = (log.filterMap Event.branch?).toArray := by
  cases r with
  | error halt => cases h
  | ok ret =>
    cases h
    simp [extend]

/-- A run that halts does so for the reason the machine stops. -/
theorem result_eq_error {t : Trace} {r : Except Halt (Option Scalar)} {halt : Halt}
    (h : t.result r = .error halt) : r = .error halt := by
  cases r with
  | error halt' =>
    cases h
    rfl
  | ok ret => cases h

end Trace

/-! ### Runs under a limit -/

/-- The instructions of a block under a limit: the walk goes through all of them, it ends among
    them, or the budget is used up. -/
theorem Registers.runBody_cases (f : Function) (cur : BlockId) (limit budget : Nat)
    (regs : Registers) (rest : List Inst) :
    (∃ regs' log, Registers.runBody limit budget regs rest = .ok regs' ∧ rest.length ≤ budget ∧
      Runs f (.inside cur rest regs) rest.length log (.inside cur [] regs') ∧
      ∀ trace : Trace, trace.extend log = trace) ∨
    (∃ halt n log, Registers.runBody limit budget regs rest = .error halt ∧
      Ends f (.inside cur rest regs) n log (.error halt) ∧ n ≤ budget) ∨
    ∃ log t, Registers.runBody limit budget regs rest = .error (.error (.stepLimit limit)) ∧
      Runs f (.inside cur rest regs) budget log t ∧ t.cost = 1 := by
  -- By induction on the instructions left. The budget is asked before each instruction, so a limit
  -- that is just enough runs the last one.
  induction rest generalizing budget regs with
  | nil =>
    refine .inl ⟨regs, [], ?_, Nat.zero_le _, .refl _, Trace.extend_nil⟩
    rw [Registers.runBody]
  | cons i rest ih =>
    cases budget with
    | zero => exact .inr (.inr ⟨[], _, rfl, .refl _, rfl⟩)
    | succ budget =>
      cases heval : i.eval regs with
      | error halt =>
        refine .inr (.inl ⟨halt, 1, [], ?_,
          ⟨0, [], _, [], .refl _, .eval heval, rfl, rfl⟩, by omega⟩)
        rw [Registers.runBody, heval]
      | ok a =>
        cases hwrite : regs.write i.result a with
        | error halt =>
          refine .inr (.inl ⟨halt, 1, [], ?_,
            ⟨0, [], _, [], .refl _, .write heval hwrite, rfl, rfl⟩, by omega⟩)
          rw [Registers.runBody, heval]
          simp only [hwrite]
        | ok regs₁ =>
          have hbody : Registers.runBody limit (budget + 1) regs (i :: rest) =
              Registers.runBody limit budget regs₁ rest := by
            rw [Registers.runBody, heval]
            simp only [hwrite]
          have hstep : Advances f (.inside cur (i :: rest) regs) _ (.inside cur rest regs₁) :=
            .exec heval hwrite
          rw [hbody]
          rcases ih budget regs₁ with ⟨regs', log, hok, hle, hrun, hsilent⟩ |
            ⟨halt, n, log, herr, hends, hle⟩ | ⟨log, t, hlimit, hrun, ht⟩
          · refine .inl ⟨regs', [.exec cur i (regs.readAll i.kind.operands) a] ++ log, hok,
              by simpa using hle, ?_, fun trace => ?_⟩
            · rw [List.length_cons, Nat.add_comm]
              exact .head hstep hrun
            · rw [← Trace.extend_extend, hsilent, Trace.extend_exec]
          · refine .inr (.inl ⟨halt, 1 + n, _, herr, (Runs.single hstep).ends hends, by omega⟩)
          · refine .inr (.inr ⟨[.exec cur i (regs.readAll i.kind.operands) a] ++ log, t, hlimit,
              ?_, ht⟩)
            rw [Nat.add_comm]
            exact .head hstep hrun

/-- What a run with this trace returns from a state on, within the budget: what the walk ends with,
    or that the budget is used up. -/
def Within (f : Function) (limit budget : Nat) (s : RunState) (trace : Trace)
    (outcome : Except Halt Execution) : Prop :=
  (∃ n log r, Ends f s n log r ∧ n ≤ budget ∧ outcome = (trace.extend log).result r) ∨
  ∃ log t, Runs f s budget log t ∧ t.cost = 1 ∧ outcome = .error (.error (.stepLimit limit))

namespace Within

variable {limit budget : Nat} {trace : Trace} {log : List Event}

/-- A state that stops within its budget is within it. -/
theorem stops {r : Except Halt (Option Scalar)} (h : Stops f s log r) (hle : s.cost ≤ budget) :
    Within f limit budget s trace ((trace.extend log).result r) :=
  .inl ⟨s.cost, log, r, ⟨0, [], s, log, .refl s, h, (Nat.zero_add _).symm, rfl⟩, hle, rfl⟩

/-- A walk is paid for out of the budget and goes into the trace. -/
theorem after {n left : Nat} {outcome : Except Halt Execution} (hwalk : Runs f s n log t)
    (hpaid : n + left = budget) (h : Within f limit left t (trace.extend log) outcome) :
    Within f limit budget s trace outcome := by
  subst hpaid
  rcases h with ⟨m, log', r, hends, hle, houtcome⟩ | ⟨log', u, hrun, hu, houtcome⟩
  · rw [Trace.extend_extend] at houtcome
    exact .inl ⟨n + m, log ++ log', r, hwalk.ends hends, Nat.add_le_add_left hle n, houtcome⟩
  · exact .inr ⟨log ++ log', u, hwalk.trans hrun, hu, houtcome⟩

end Within

/-- **Runs under a limit.** The walk comes to its end within the budget, and the run returns what it
    ends with, or the walk is cut off where the budget is used up. -/
theorem Function.runFrom_cases (f : Function) (limit budget : Nat) (prev : Option BlockId)
    (cur : BlockId) (regs : Registers) (trace : Trace) :
    (∃ n log r, Ends f (.entering prev cur regs) n log r ∧ n ≤ budget ∧
      f.runFrom limit budget prev cur regs trace = (trace.extend log).result r) ∨
    ∃ log t, Runs f (.entering prev cur regs) budget log t ∧ t.cost = 1 ∧
      f.runFrom limit budget prev cur regs trace = .error (.error (.stepLimit limit)) := by
  induction budget using Nat.strongRecOn generalizing prev cur regs trace with
  | ind budget ih =>
    show Within f limit budget (.entering prev cur regs) trace _
    rw [runFrom]
    cases hblock : f.block? cur with
    | none => exact .stops (.missing hblock) (Nat.zero_le _)
    | some block =>
      cases henter : block.enter prev regs with
      | error halt =>
        simp only [henter]
        exact .stops (.enter hblock henter) (Nat.zero_le _)
      | ok regs₁ =>
        simp only [henter]
        refine .after (.single (.enter hblock henter)) (Nat.zero_add _) ?_
        rcases Registers.runBody_cases f cur limit budget regs₁ block.body with
          ⟨regs₂, log, hok, hle, hrun, hsilent⟩ | ⟨halt, n, log, herr, hends, hle⟩ |
          ⟨log, t, hlimit, hrun, ht⟩
        · simp only [hok]
          refine .after hrun (Nat.add_sub_cancel' hle) ?_
          rw [hsilent, Trace.extend_enter]
          split
          · next hleft =>
            rw [hleft]
            exact .inr ⟨[], _, .refl _, rfl, rfl⟩
          · next left hleft =>
            -- one more step leaves the block
            have hlt : left < budget := by omega
            rw [hleft]
            cases hleave : block.leave cur regs₂ with
            | error halt => exact .stops (.leave hblock hleave) (Nat.le_add_left _ _)
            | ok step =>
              cases step with
              | finish ret => exact .stops (.finish hblock hleave) (Nat.le_add_left _ _)
              | jump target =>
                exact .after (.single (.jump hblock hleave)) (Nat.add_comm _ _)
                  (ih left hlt _ _ _ _)
              | branch cond target =>
                refine .after (.single (.branch hblock hleave)) (Nat.add_comm _ _) ?_
                rw [Trace.extend_branch]
                exact ih left hlt _ _ _ _
        · simp only [herr]
          exact .inl ⟨n, log, _, hends, hle, rfl⟩
        · simp only [hlimit]
          exact .inr ⟨log, t, hrun, ht, rfl⟩

/-- **Runs under a limit, seen from the end.** A run whose walk comes to an end returns what it ends
    with under every limit that is high enough, and is cut off under the others. -/
theorem Function.runFrom_of_ends {f : Function} {prev : Option BlockId} {cur : BlockId}
    {regs : Registers} {n : Nat} {log : List Event} {r : Except Halt (Option Scalar)}
    (h : Ends f (.entering prev cur regs) n log r) (limit budget : Nat) (trace : Trace) :
    f.runFrom limit budget prev cur regs trace =
      if n ≤ budget then (trace.extend log).result r
      else .error (.error (.stepLimit limit)) := by
  rcases f.runFrom_cases limit budget prev cur regs trace with
    ⟨n', log', r', hends, hle, heq⟩ | ⟨log', t, hrun, ht, heq⟩
  · obtain ⟨rfl, rfl, rfl⟩ := h.deterministic hends
    rw [heq, if_pos hle]
  · have := h.cost_lt hrun ht
    rw [heq, if_neg (by omega)]

/-! ### Runs from the start -/

namespace Function

/-- The state in which a run starts. -/
def start (f : Function) (args : List Scalar) : Except Halt RunState :=
  if args.length ≠ f.params.length then
    .error (.error (.argCount f.params.length args.length))
  else
    (f.bindArgs 0 (Array.replicate f.valueTypes.size none) (f.params.zip args)).map
      (.entering none f.entry ·)

variable {f : Function} {args : List Scalar} {s : RunState}

/-- A start has an argument for each parameter, bound in order. -/
theorem start_eq_ok (h : f.start args = .ok s) :
    args.length = f.params.length ∧ ∃ regs, s = .entering none f.entry regs ∧
      f.bindArgs 0 (Array.replicate f.valueTypes.size none) (f.params.zip args) = .ok regs := by
  rw [start] at h
  split at h
  · cases h
  · next hlen =>
    cases hbind : f.bindArgs 0 (Array.replicate f.valueTypes.size none) (f.params.zip args) with
    | error halt =>
      rw [hbind] at h
      cases h
    | ok regs =>
      rw [hbind] at h
      cases h
      exact ⟨Classical.not_not.1 hlen, regs, rfl, rfl⟩

/-- How a run starts is a matter of parameters, types and the entry. -/
theorem start_congr {g : Function} (hparams : g.params = f.params)
    (htypes : g.valueTypes = f.valueTypes) (hentry : g.entry = f.entry) (args : List Scalar) :
    g.start args = f.start args := by
  have hbind : ∀ (index : Nat) (regs : Registers) (args : List (ValueId × Scalar)),
      g.bindArgs index regs args = f.bindArgs index regs args := by
    intro index regs args
    induction args generalizing index regs with
    | nil => rfl
    | cons e rest ih =>
      obtain ⟨v, a⟩ := e
      simp only [bindArgs, ih, valueType?, htypes]
  rw [start, start, hbind, hparams, htypes, hentry]

/-- A run that cannot start fails under every limit. -/
theorem run_of_start_error {halt : Halt} (h : f.start args = .error halt) (limit : Nat) :
    f.run args limit = .error halt := by
  rw [start] at h
  rw [run]
  split at h
  · next hlen =>
    cases h
    rw [if_pos hlen]
  · next hlen =>
    rw [if_neg hlen]
    cases hbind : f.bindArgs 0 (Array.replicate f.valueTypes.size none) (f.params.zip args) with
    | error halt' =>
      rw [hbind] at h
      cases h
      rfl
    | ok regs =>
      rw [hbind] at h
      cases h

/-- A run is the loop of the interpreter from the start. -/
theorem run_eq_runFrom {regs : Registers}
    (h : f.start args = .ok (.entering none f.entry regs)) (limit : Nat) :
    f.run args limit = f.runFrom limit limit none f.entry regs {} := by
  obtain ⟨hlen, regs', hregs, hbind⟩ := start_eq_ok h
  cases hregs
  rw [run, if_neg (Classical.not_not.2 hlen), hbind]

/-- **A run under a limit** comes to its end, or is cut off where the limit is used up. -/
theorem run_cases (h : f.start args = .ok s) (limit : Nat) :
    (∃ n log r, Ends f s n log r ∧ n ≤ limit ∧
      f.run args limit = (({} : Trace).extend log).result r) ∨
    ∃ log t, Runs f s limit log t ∧ t.cost = 1 ∧
      f.run args limit = .error (.error (.stepLimit limit)) := by
  obtain ⟨-, regs, rfl, -⟩ := start_eq_ok h
  rw [run_eq_runFrom h]
  exact f.runFrom_cases limit limit none f.entry regs {}

/-- A run that ends at a cost needs a limit that pays it. -/
theorem run_of_ends (h : f.start args = .ok s) {n : Nat} {log : List Event}
    {r : Except Halt (Option Scalar)} (hends : Ends f s n log r) (limit : Nat) :
    f.run args limit = if n ≤ limit then (({} : Trace).extend log).result r
      else .error (.error (.stepLimit limit)) := by
  obtain ⟨-, regs, rfl, -⟩ := start_eq_ok h
  rw [run_eq_runFrom h]
  exact runFrom_of_ends hends limit limit {}

/-- A walk that uses up the limit before its end is cut off. -/
theorem run_of_runs (h : f.start args = .ok s) {limit : Nat} {log : List Event} {t : RunState}
    (hrun : Runs f s limit log t) (ht : t.cost = 1) :
    f.run args limit = .error (.error (.stepLimit limit)) := by
  rcases run_cases h limit with ⟨n, log', r, hends, hle, -⟩ | ⟨-, -, -, -, hlimit⟩
  · have := hends.cost_lt hrun ht
    omega
  · exact hlimit

end Function

end ArithWatch
