import ArithWatch.Proofs.Execution.Attachments
import ArithWatch.Proofs.Execution.Erasure
import ArithWatch.Proofs.Execution.Typing

namespace ArithWatch

/-!
# Functions that do the same with something in between

* `Matched` says that the walks of one function from a state are matched by those of another one.
* `Mirrors` says that this is so from the start; mirrors can be composed.
* `Mirrors.run_ok`, `Mirrors.run_error` and `Mirrors.run_limit` are what follows for runs under a
  limit.
-/

/-- The walks of `f` from `t` are matched by walks of `g` from `t'` at no lower cost.  Blocks of `g`
    are led back to those of `f`, and those from number `n` on are entered in between. -/
structure Matched (n : Nat) (back : BlockId → Option BlockId) (f g : Function)
    (t t' : RunState) : Prop where
  ends : ∀ m log r, Ends f t m log r → ∃ m' log' r', Ends g t' m' log' r' ∧ m ≤ m' ∧
    log'.filterMap (Event.erase? n back) = log ∧ LeadsBack back r' r
  runs : ∀ m log u, Runs f t m log u → u.cost = 1 →
    ∃ m' log' u', Runs g t' m' log' u' ∧ m ≤ m' ∧ u'.cost = 1

/-- Run on `args`, `g` does what `f` does and something in between. -/
structure Mirrors (n : Nat) (back : BlockId → Option BlockId) (f g : Function)
    (args : List Scalar) : Prop where
  start_error : ∀ halt, f.start args = .error halt →
    g.start args = .error halt ∧ halt.leadBack? back = some halt
  start_ok : ∀ t, f.start args = .ok t → ∃ t', g.start args = .ok t' ∧ Matched n back f g t t'

/-! ### Composition -/

section Composition

variable {n m : Nat} {back back' : BlockId → Option BlockId} {f g h : Function}
  {t t' t'' : RunState} {args : List Scalar}

theorem Matched.trans (hfg : Matched n back f g t t') (hgh : Matched m back' g h t' t'')
    (hle : n ≤ m) : Matched n (fun b => (back' b).bind back) f h t t'' where
  ends k log r hends := by
    obtain ⟨k', log', r', hends', hk, hlog, hback⟩ := hfg.ends k log r hends
    obtain ⟨k'', log'', r'', hends'', hk', hlog', hback'⟩ := hgh.ends k' log' r' hends'
    refine ⟨k'', log'', r'', hends'', Nat.le_trans hk hk', ?_, hback'.trans hback⟩
    rw [← Event.erase?_erase? hle, hlog', hlog]
  runs k log u hrun hu := by
    obtain ⟨k', log', u', hrun', hk, hu'⟩ := hfg.runs k log u hrun hu
    obtain ⟨k'', log'', u'', hrun'', hk', hu''⟩ := hgh.runs k' log' u' hrun' hu'
    exact ⟨k'', log'', u'', hrun'', Nat.le_trans hk hk', hu''⟩

theorem Mirrors.trans (hfg : Mirrors n back f g args) (hgh : Mirrors m back' g h args)
    (hle : n ≤ m) : Mirrors n (fun b => (back' b).bind back) f h args where
  start_error halt hstart := by
    obtain ⟨hstart', hback⟩ := hfg.start_error halt hstart
    obtain ⟨hstart'', hback'⟩ := hgh.start_error halt hstart'
    refine ⟨hstart'', ?_⟩
    rw [← Halt.leadBack?_leadBack?, hback']
    exact hback
  start_ok t hstart := by
    obtain ⟨t', hstart', hmatched⟩ := hfg.start_ok t hstart
    obtain ⟨t'', hstart'', hmatched'⟩ := hgh.start_ok t' hstart'
    exact ⟨t'', hstart'', hmatched.trans hmatched' hle⟩

end Composition

/-! ### Nothing in between -/

section Refl

variable {f : Function} {s t : RunState} {n : Nat} {log : List Event}
  {r : Except Halt (Option Scalar)}

/-- Every event is in a block that exists. -/
theorem Advances.block_lt (hstep : Advances f s log t) (hs : s.Sound f) :
    ∀ e ∈ log, e.block.index < f.blocks.size := by
  cases hstep with
  | enter hblock => exact List.forall_mem_singleton.2 (Function.lt_of_block? hblock)
  | exec heval hwrite =>
    obtain ⟨block, hblock, -⟩ := hs.inst_mem
    exact List.forall_mem_singleton.2 (Function.lt_of_block? hblock)
  | jump => exact fun e he => nomatch he
  | branch hblock => exact List.forall_mem_singleton.2 (Function.lt_of_block? hblock)

/-- Every event of an execution is in a block of the function. -/
theorem Runs.block_lt (hf : f.Regular) (hrun : Runs f s n log t) (hs : s.Sound f) :
    ∀ e ∈ log, e.block.index < f.blocks.size := by
  induction hrun with
  | refl s => exact fun e he => nomatch he
  | head hstep _ ih =>
    exact List.forall_mem_append.2 ⟨hstep.block_lt hs, ih (hstep.sound hf hs)⟩

/-- So are those of an execution to its end. -/
theorem Ends.block_lt (hf : f.Regular) (hends : Ends f s n log r) (hs : s.Sound f) :
    ∀ e ∈ log, e.block.index < f.blocks.size := by
  obtain ⟨m, first, t, last, hrun, hstop, rfl, rfl⟩ := hends
  refine List.forall_mem_append.2 ⟨hrun.block_lt hf hs, ?_⟩
  have ht := hrun.sound hf hs
  cases hstop with
  | missing hblock => exact List.forall_mem_singleton.2 ht.2
  | enter hblock => exact List.forall_mem_singleton.2 (Function.lt_of_block? hblock)
  | _ => exact fun e he => nomatch he

/-- Without renaming, a halt is led back to itself. -/
theorem Halt.leadBack?_some (halt : Halt) : halt.leadBack? some = some halt := by
  cases halt with
  | fault f => rfl
  | error e => cases e <;> rfl

theorem LeadsBack.refl {α : Type} (x : Except Halt α) : LeadsBack some x x := by
  cases x with
  | ok a => exact .ok a
  | error halt => exact .error halt.leadBack?_some

theorem Mirrors.refl (hf : f.Regular) {args : List Scalar} (hargs : ∀ a ∈ args, a.Fits) :
    Mirrors f.blocks.size some f f args where
  start_error halt hstart := ⟨hstart, halt.leadBack?_some⟩
  start_ok t hstart := by
    have ht := Function.start_sound hf hargs hstart
    refine ⟨t, hstart, fun m log r hends => ⟨m, log, r, hends, Nat.le_refl _, ?_, .refl r⟩,
      fun m log u hrun hu => ⟨m, log, u, hrun, Nat.le_refl _, hu⟩⟩
    conv_rhs => rw [← List.filterMap_some (l := log)]
    exact List.filterMap_congr fun e he => e.erase?_self (hends.block_lt hf ht e he) rfl

end Refl

/-! ### Runs under a limit -/

namespace Mirrors

variable {n : Nat} {back : BlockId → Option BlockId} {f g : Function} {args : List Scalar}
  {limit : Nat}

/-- **Runs that return something.** -/
theorem run_ok (h : Mirrors n back f g args) {e : Execution} (hrun : f.run args limit = .ok e) :
    ∃ bound e', (∀ limit', bound ≤ limit' → g.run args limit' = .ok e') ∧ e'.ret = e.ret ∧
      e'.path.filter (·.index < n) = e.path ∧
      e'.branches.filterMap (·.leadBack? back) = e.branches := by
  cases hstart : f.start args with
  | error halt =>
    rw [Function.run_of_start_error hstart] at hrun
    cases hrun
  | ok t =>
    obtain ⟨t', hstart', hmatched⟩ := h.start_ok t hstart
    -- The original run ends within its limit, so the other ends at some cost, which any greater
    -- limit pays.
    rcases Function.run_cases hstart limit with
      ⟨m, log, r, hends, -, heq⟩ | ⟨log, u, -, -, hlimit⟩
    · rw [heq] at hrun
      obtain ⟨rfl, hpath, hbranches⟩ := Trace.result_eq_ok hrun
      obtain ⟨m', log', r', hends', -, hlog, hback⟩ := hmatched.ends m log _ hends
      have hr' := hback.eq_ok
      subst hr'
      refine ⟨m', _, fun limit' hle => (Function.run_of_ends hstart' hends' limit').trans
        (if_pos hle), rfl, ?_, ?_⟩
      · rw [hpath, ← hlog, Event.filterMap_entered_erase]
        simp [Trace.extend]
      · rw [hbranches, ← hlog, Event.filterMap_branch_erase]
        simp [Trace.extend]
    · rw [hrun] at hlimit
      cases hlimit

/-- **Runs that fail**, other than at the limit. -/
theorem run_error (h : Mirrors n back f g args) {halt : Halt}
    (hrun : f.run args limit = .error halt)
    (hhalt : ∀ limit, halt ≠ .error (.stepLimit limit)) :
    ∃ bound halt', (∀ limit', bound ≤ limit' → g.run args limit' = .error halt') ∧
      halt'.leadBack? back = some halt := by
  cases hstart : f.start args with
  | error halt₁ =>
    rw [Function.run_of_start_error hstart, Except.error.injEq] at hrun
    subst hrun
    obtain ⟨hstart', hback⟩ := h.start_error _ hstart
    exact ⟨0, _, fun limit' _ => Function.run_of_start_error hstart' limit', hback⟩
  | ok t =>
    obtain ⟨t', hstart', hmatched⟩ := h.start_ok t hstart
    -- The same for a halt, which is not that of the limit.
    rcases Function.run_cases hstart limit with
      ⟨m, log, r, hends, -, heq⟩ | ⟨log, u, -, -, hlimit⟩
    · rw [heq] at hrun
      have hr := Trace.result_eq_error hrun
      subst hr
      obtain ⟨m', log', r', hends', -, -, hback⟩ := hmatched.ends m log _ hends
      obtain ⟨halt', rfl, hback'⟩ := hback.eq_error
      exact ⟨m', halt', fun limit' hle => (Function.run_of_ends hstart' hends' limit').trans
        (if_pos hle), hback'⟩
    · rw [hrun, Except.error.injEq] at hlimit
      exact (hhalt limit hlimit).elim

/-- Only a spent limit is led back to a spent limit. -/
theorem eq_stepLimit_of_leadBack? {halt : Halt} {k : Nat}
    (h : halt.leadBack? back = some (.error (.stepLimit k))) : halt = .error (.stepLimit k) := by
  cases halt with
  | fault f => cases h
  | error e => cases e <;> simp_all [Halt.leadBack?, RunError.leadBack?]

/-- **Runs that are cut off.** Where `f` uses up its limit, so does `g`. -/
theorem run_limit (h : Mirrors n back f g args) {k : Nat}
    (hrun : f.run args limit = .error (.error (.stepLimit k))) :
    ∃ k', g.run args limit = .error (.error (.stepLimit k')) := by
  cases hstart : f.start args with
  | error halt =>
    rw [Function.run_of_start_error hstart, Except.error.injEq] at hrun
    subst hrun
    exact ⟨k, Function.run_of_start_error (h.start_error _ hstart).1 limit⟩
  | ok t =>
    obtain ⟨t', hstart', hmatched⟩ := h.start_ok t hstart
    rcases Function.run_cases hstart limit with ⟨m, log, r, hends, -, heq⟩ | ⟨log, u, hwalk, hu, -⟩
    · rw [heq] at hrun
      have hr := Trace.result_eq_error hrun
      subst hr
      obtain ⟨m', log', r', hends', -, -, hback⟩ := hmatched.ends m log _ hends
      obtain ⟨halt', rfl, hback'⟩ := hback.eq_error
      rw [eq_stepLimit_of_leadBack? hback'] at hends'
      rw [Function.run_of_ends hstart' hends']
      split
      · exact ⟨k, rfl⟩
      · exact ⟨limit, rfl⟩
    · -- the other walk has not come to its end at the limit either
      obtain ⟨m', log', u', hwalk', hle, hu'⟩ := hmatched.runs limit log u hwalk hu
      rcases Function.run_cases hstart' limit with ⟨m, log₁, r, hends, hle', -⟩ | ⟨-, -, -, -, heq⟩
      · have := hends.cost_lt hwalk' hu'
        omega
      · exact ⟨limit, heq⟩

end Mirrors

end ArithWatch
