import Mathlib
import ArithWatch.Proofs.Execution.Machine
import ArithWatch.Proofs.IR.Verified

namespace ArithWatch

/-!
# What runs cost

A budget pays for the instructions behind the phis of every block on the path of a run, and for the
end of each of these blocks.

* `Block.steps` and `Function.steps` are the price of a block and of a path.
* `RunState.owed` is what is still to pay for the block that a run is in.  `Advances.paid` and
  `Runs.paid` say that steps and walks pay for the blocks that they enter.
* `run_budget_exact` says which limits a run needs.
-/

/-- The steps of a block: one for its end and one for each instruction behind its phis. -/
def Block.steps (b : Block) : Nat := 1 + b.body.length

/-- The steps of the blocks on a path. -/
def Function.steps (f : Function) (path : List BlockId) : Nat :=
  ((path.filterMap f.block?).map (·.steps)).sum

/-- What is still to pay for the block that a run is in. -/
def RunState.owed : RunState → Nat
  | .entering .. => 0
  | .inside _ rest _ => 1 + rest.length

section Steps

variable {f : Function} {s t : RunState}

/-- Steps add up along a path. -/
theorem Function.steps_append (f : Function) (path path' : List BlockId) :
    f.steps (path ++ path') = f.steps path + f.steps path' := by
  simp [steps]

/-- A block alone takes its own steps. -/
theorem Function.steps_singleton {b : BlockId} {block : Block} (h : f.block? b = some block) :
    f.steps [b] = block.steps := by
  simp [steps, h]

/-- **One step** pays its cost off what is owed, and owes the block that it enters. -/
theorem Advances.paid {events : List Event} (hstep : Advances f s events t) :
    s.cost + t.owed = s.owed + f.steps (events.filterMap Event.entered?) := by
  cases hstep with
  | enter hblock henter =>
    have hprice : f.steps ([Event.enter _].filterMap Event.entered?) = _ :=
      Function.steps_singleton hblock
    rw [hprice]
    rfl
  | exec heval hwrite =>
    show 1 + (1 + _) = 1 + (_ + 1) + 0
    omega
  | jump hblock hleave => rfl
  | branch hblock hleave => rfl

/-- **A walk** has paid for the blocks that it entered, but for what it owes at its end. -/
theorem Runs.paid {n : Nat} {log : List Event} (hrun : Runs f s n log t) :
    n + t.owed = s.owed + f.steps (log.filterMap Event.entered?) := by
  induction hrun with
  | refl s => exact Nat.zero_add _
  | head hstep _ ih =>
    have hfirst := hstep.paid
    rw [List.filterMap_append, Function.steps_append]
    omega

/-- A walk that ends well has paid for everything. -/
theorem Ends.cost_eq {n : Nat} {log : List Event} {ret : Option Scalar}
    (hends : Ends f s n log (.ok ret)) :
    n = s.owed + f.steps (log.filterMap Event.entered?) := by
  obtain ⟨m, first, t, last, hrun, hstop, rfl, rfl⟩ := hends
  have hpaid := hrun.paid
  cases hstop with
  | finish hblock hleave =>
    rw [List.append_nil]
    exact hpaid

end Steps

/-- **Limits.** If a run returns something under one limit, it returns the same under every limit
    that pays for the blocks on its path, and is cut off under all others.  If it fails other than
    at its limit, it fails in the same way under every greater limit. -/
theorem run_budget_exact (f : Function) (args : List Scalar) (limit : Nat) :
    (∀ e, f.run args limit = .ok e → ∀ limit', f.run args limit' =
      if f.steps e.path.toList ≤ limit' then .ok e else .error (.error (.stepLimit limit'))) ∧
    ∀ halt, f.run args limit = .error halt → (∀ k, halt ≠ .error (.stepLimit k)) →
      ∀ limit', limit ≤ limit' → f.run args limit' = .error halt := by
  cases hstart : f.start args with
  | error halt =>
    have hrun := Function.run_of_start_error hstart
    refine ⟨fun e he => ?_, fun halt' hhalt _ limit' _ => ?_⟩
    · rw [hrun] at he
      cases he
    · rw [hrun, ← hhalt, hrun]
  | ok s =>
    have hentering : s.owed = 0 := by
      obtain ⟨-, regs, rfl, -⟩ := Function.start_eq_ok hstart
      rfl
    -- A run that ended has a cost, and the steps along its path are that cost.
    rcases Function.run_cases hstart limit with ⟨n, log, r, hends, hle, hrun⟩ | ⟨log, t, -, -, hrun⟩
    · have hall := Function.run_of_ends hstart hends
      refine ⟨fun e he limit' => ?_, fun halt hhalt _ limit' hlimit => ?_⟩
      · obtain ⟨rfl, hpath, -⟩ := Trace.result_eq_ok (hrun.symm.trans he)
        have hcost : n = f.steps e.path.toList := by
          rw [hends.cost_eq, hentering, Nat.zero_add, hpath]
        rw [hall, ← hcost, ← he, hrun]
      · rw [hall, if_pos (Nat.le_trans hle hlimit), ← hrun, hhalt]
    · refine ⟨fun e he => ?_, fun halt hhalt hlimit => ?_⟩
      · rw [hrun] at he
        cases he
      · rw [hrun, Except.error.injEq] at hhalt
        exact (hlimit limit hhalt.symm).elim

/-- The example takes its loop twice. -/
theorem run_doubling_twice : doubling.run [.int 32 0x20000000] 100 =
    .ok { ret := some (.int 32 0x80000000)
          path := #[⟨0⟩, ⟨1⟩, ⟨1⟩, ⟨2⟩]
          branches := #[⟨⟨1⟩, false⟩, ⟨⟨1⟩, true⟩] } := by
  decide +kernel

/-- The loop whose end is marked as unreachable. -/
def endlessDoubling : Function :=
  doubling.updateBlock ⟨2⟩ fun b => { b with term := some { exit := .unreachable } }

/-- The loop is passed twice, at three steps each time, as its phi is free. -/
theorem run_budget_exact_doubling :
    (∃ e, doubling.run [.int 32 0x20000000] 100 = .ok e ∧ e.path = #[⟨0⟩, ⟨1⟩, ⟨1⟩, ⟨2⟩] ∧
      ∀ limit, doubling.run [.int 32 0x20000000] limit =
        if 8 ≤ limit then .ok e else .error (.error (.stepLimit limit))) ∧
      endlessDoubling.run [.int 32 0x20000000] 8 = .error (.error (.unreachable ⟨2⟩)) ∧
      ∀ limit, 8 ≤ limit →
        endlessDoubling.run [.int 32 0x20000000] limit = .error (.error (.unreachable ⟨2⟩)) := by
  have hend : endlessDoubling.run [.int 32 0x20000000] 8 = .error (.error (.unreachable ⟨2⟩)) := by
    decide +kernel
  refine ⟨⟨_, run_doubling_twice, rfl, fun limit => ?_⟩, hend, fun limit hlimit => ?_⟩
  · exact (run_budget_exact doubling _ 100).1 _ run_doubling_twice limit
  · exact (run_budget_exact endlessDoubling _ 8).2 _ hend (by simp) limit hlimit

end ArithWatch
