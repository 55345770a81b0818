import ArithWatch.Proofs.Execution.Steps
import Mathlib.Data.List.Chain

namespace ArithWatch

/-!
# What a finished run has recorded

The path of a run follows the edges of the function, and its events say at every fork which way it
went.

* `Function.exit?` is the exit of a block, `Function.forks` tells the blocks with two ways apart,
  and `BranchEvent.Takes` says that an event goes with a hop from one block to the next.
* `Function.Traces` builds a path and its events from the end; `Ends.traces` finds them in a walk.
* `run_traced` says the same of the two records as a whole.
-/

/-! ### Exits and hops -/

namespace Function

variable (f : Function)

/-- The exit of a block. -/
def exit? (b : BlockId) : Option Exit := ((f.block? b).bind (·.term)).map (·.exit)

/-- Does the block end with a conditional branch? -/
def forks (b : BlockId) : Bool :=
  match f.exit? b with
  | some (.condBr ..) => true
  | _ => false

end Function

/-- The event is that of a fork, and control goes on where its condition leads. -/
def BranchEvent.Takes (f : Function) (e : BranchEvent) (hop : BlockId × BlockId) : Prop :=
  e.block = hop.1 ∧ ∃ cond thenTarget elseTarget,
    f.exit? hop.1 = some (.condBr cond thenTarget elseTarget) ∧
      hop.2 = if e.cond then thenTarget else elseTarget

/-- A path with the events of its forks, from a block to one that returns. -/
inductive Function.Traces (f : Function) : List BlockId → List BranchEvent → Prop
  | finish {b value} : f.exit? b = some (.ret value) → Traces f [b] []
  | jump {b c path branches} : f.exit? b = some (.br c) → Traces f (c :: path) branches →
    Traces f (b :: c :: path) branches
  | branch {b e c path branches} : BranchEvent.Takes f e (b, c) → Traces f (c :: path) branches →
    Traces f (b :: c :: path) (e :: branches)

section Traces

variable {f : Function} {path : List BlockId} {branches : List BranchEvent} {b c : BlockId}

/-- An exit that leads somewhere makes an edge. -/
theorem Function.edge_of_exit {exit : Exit} (h : f.exit? b = some exit)
    (hc : c ∈ exit.successors) : f.Edge b c := by
  obtain ⟨t, ht, rfl⟩ := Option.map_eq_some_iff.1 h
  obtain ⟨block, hblock, hterm⟩ := Option.bind_eq_some_iff.1 ht
  refine ⟨block, hblock, ?_⟩
  rw [Block.successors, hterm]
  exact hc

namespace BranchEvent.Takes

variable {e : BranchEvent}

/-- A recorded branch takes an edge. -/
theorem edge (h : e.Takes f (b, c)) : f.Edge b c := by
  obtain ⟨-, cond, thenTarget, elseTarget, hexit, rfl⟩ := h
  refine Function.edge_of_exit hexit ?_
  cases e.cond <;> simp [Exit.successors]

/-- Its block ends in a conditional branch. -/
theorem forks (h : e.Takes f (b, c)) : f.forks b = true := by
  obtain ⟨-, cond, thenTarget, elseTarget, hexit, -⟩ := h
  rw [Function.forks, hexit]

end BranchEvent.Takes

namespace Function.Traces

/-- Consecutive blocks are joined by edges. -/
theorem isChain (h : f.Traces path branches) : path.IsChain f.Edge := by
  induction h with
  | finish hexit => exact .singleton _
  | jump hexit _ ih => exact .cons_cons (edge_of_exit hexit (by simp [Exit.successors])) ih
  | branch htakes _ ih => exact .cons_cons htakes.edge ih

/-- The last block returns. -/
theorem getLast? (h : f.Traces path branches) :
    ∃ last value, path.getLast? = some last ∧ f.exit? last = some (.ret value) := by
  induction h with
  | @finish b value hexit => exact ⟨b, value, rfl, hexit⟩
  | jump _ _ ih => simpa only [List.getLast?_cons_cons] using ih
  | branch _ _ ih => simpa only [List.getLast?_cons_cons] using ih

/-- There is one event for each fork on the path. -/
theorem map_block (h : f.Traces path branches) :
    branches.map (·.block) = path.filter f.forks := by
  induction h with
  | finish hexit => simp [forks, hexit]
  | @jump b c path branches hexit _ ih =>
    have hforks : f.forks b = false := by rw [forks, hexit]
    rw [List.filter_cons_of_neg (by simp [hforks]), ih]
  | @branch b e c path branches htakes _ ih =>
    rw [List.filter_cons_of_pos htakes.forks, List.map_cons, ih, htakes.1]

/-- Every event says where its fork was left. -/
theorem forall₂_takes (h : f.Traces path branches) :
    List.Forall₂ (BranchEvent.Takes f) branches
      ((path.zip path.tail).filter fun hop => f.forks hop.1) := by
  induction h with
  | finish hexit => exact .nil
  | @jump b c path branches hexit _ ih =>
    have hforks : f.forks b = false := by rw [forks, hexit]
    rw [List.tail_cons, List.zip_cons_cons, List.filter_cons_of_neg (by simp [hforks])]
    exact ih
  | @branch b e c path branches htakes _ ih =>
    rw [List.tail_cons, List.zip_cons_cons, List.filter_cons_of_pos (by simp [htakes.forks])]
    exact .cons htakes ih

end Function.Traces

end Traces

/-! ### Walks -/

/-- Where control goes from the end of a block is what its exit says. -/
theorem Block.exit_of_leave {b : Block} {cur : BlockId} {regs : Registers} {step : Step}
    (h : b.leave cur regs = .ok step) : ∃ t, b.term = some t ∧
      match step with
      | .jump target => t.exit = .br target
      | .branch c target => ∃ cond thenTarget elseTarget,
          t.exit = .condBr cond thenTarget elseTarget ∧
            target = if c then thenTarget else elseTarget
      | .finish _ => ∃ value, t.exit = .ret value := by
  unfold Block.leave at h
  cases hterm : b.term with
  | none =>
    rw [hterm] at h
    cases h
  | some t =>
    rw [hterm] at h
    refine ⟨t, rfl, ?_⟩
    -- A block that is left has read at most the value its terminator names.
    cases hexit : t.exit with
    | br target =>
      simp only [hexit] at h
      cases h
      rfl
    | condBr cond thenTarget elseTarget =>
      simp only [hexit] at h
      obtain ⟨a, -, h⟩ := except_bind_eq_ok.1 h
      split at h
      · cases h
        exact ⟨cond, thenTarget, elseTarget, rfl, rfl⟩
      · cases h
    | ret value =>
      simp only [hexit] at h
      cases value with
      | none =>
        cases h
        exact ⟨none, rfl⟩
      | some op =>
        obtain ⟨a, -, h⟩ := except_bind_eq_ok.1 h
        cases h
        exact ⟨some op, rfl⟩
    | unreachable =>
      simp only [hexit] at h
      cases h

/-- What follows in a state up to the end: the rest of the path and its events. -/
def RunState.Traces (f : Function) (log : List Event) : RunState → Prop
  | .entering _ cur _ => ∃ rest, log.filterMap Event.entered? = cur :: rest ∧
      f.Traces (cur :: rest) (log.filterMap Event.branch?)
  | .inside cur _ _ => f.Traces (cur :: log.filterMap Event.entered?) (log.filterMap Event.branch?)

section Walks

variable {f : Function} {s t : RunState}

/-- A block that is there leaves as its terminator says. -/
theorem Function.exit?_eq {b : BlockId} {block : Block} {term : Terminator}
    (hblock : f.block? b = some block) (hterm : block.term = some term) :
    f.exit? b = some term.exit := by
  rw [exit?, hblock, Option.bind_some, hterm, Option.map_some]

/-- **One step back.** -/
theorem Advances.traces {events log : List Event} (hstep : Advances f s events t)
    (ht : t.Traces f log) : s.Traces f (events ++ log) := by
  cases hstep with
  | enter hblock henter => exact ⟨_, rfl, ht⟩
  | exec heval hwrite => exact ht
  | @jump cur block regs target hblock hleave =>
    obtain ⟨term, hterm, hexit⟩ := Block.exit_of_leave hleave
    obtain ⟨rest, hpath, ht⟩ := ht
    show f.Traces (cur :: log.filterMap Event.entered?) _
    rw [hpath]
    exact .jump (hexit ▸ Function.exit?_eq hblock hterm) ht
  | @branch cur block regs c target hblock hleave =>
    obtain ⟨term, hterm, cond, thenTarget, elseTarget, hexit, htarget⟩ :=
      Block.exit_of_leave hleave
    obtain ⟨rest, hpath, ht⟩ := ht
    show f.Traces (cur :: log.filterMap Event.entered?) (⟨cur, c⟩ :: _)
    rw [hpath]
    exact .branch ⟨rfl, _, _, _, hexit ▸ Function.exit?_eq hblock hterm, htarget⟩ ht

/-- **A walk that ends well** records a path and its events. -/
theorem Ends.traces {n : Nat} {log : List Event} {ret : Option Scalar}
    (hends : Ends f s n log (.ok ret)) : s.Traces f log := by
  obtain ⟨m, first, t, last, hrun, hstop, rfl, rfl⟩ := hends
  induction hrun with
  | refl s =>
    cases hstop with
    | finish hblock hleave =>
      obtain ⟨term, hterm, value, hexit⟩ := Block.exit_of_leave hleave
      exact .finish (hexit ▸ Function.exit?_eq hblock hterm)
  | head hstep _ ih =>
    rw [List.append_assoc]
    exact hstep.traces (ih hstop)

end Walks

/-- **The record of a finished run.** Its path starts at the entry, follows the edges of the
    function and ends at a block that returns.  Its events are those of the forks on the path, one
    for each time that a fork is passed and in their order, and every one says where control went
    from there. -/
theorem run_traced (f : Function) (args : List Scalar) (limit : Nat) (e : Execution)
    (h : f.run args limit = .ok e) :
    e.path.toList.head? = some f.entry ∧ e.path.toList.IsChain f.Edge ∧
      (∃ last value, e.path.toList.getLast? = some last ∧ f.exit? last = some (.ret value)) ∧
      e.branches.toList.map (·.block) = e.path.toList.filter f.forks ∧
      List.Forall₂ (BranchEvent.Takes f) e.branches.toList
        ((e.path.toList.zip e.path.toList.tail).filter fun hop => f.forks hop.1) := by
  cases hstart : f.start args with
  | error halt =>
    rw [Function.run_of_start_error hstart] at h
    cases h
  | ok s =>
    -- A result belongs to an execution that ended, and its log traces a path from the entry.
    rcases Function.run_cases hstart limit with ⟨n, log, r, hends, -, hrun⟩ | ⟨log, t, -, -, hrun⟩
    · obtain ⟨rfl, hpath, hbranches⟩ := Trace.result_eq_ok (hrun.symm.trans h)
      obtain ⟨-, regs, rfl, -⟩ := Function.start_eq_ok hstart
      obtain ⟨rest, hlog, htraces⟩ := hends.traces
      rw [hpath, hbranches, hlog]
      exact ⟨rfl, htraces.isChain, htraces.getLast?, htraces.map_block, htraces.forall₂_takes⟩
    · rw [hrun] at h
      cases h

/-- The fork of the loop is passed twice, once in each direction. -/
theorem run_traced_doubling :
    ∃ e, doubling.run [.int 32 0x20000000] 100 = .ok e ∧
      e.path.toList.IsChain doubling.Edge ∧
      e.branches.toList.map (·.block) = e.path.toList.filter doubling.forks ∧
      e.branches.toList.map (·.block) = [⟨1⟩, ⟨1⟩] ∧
      List.Forall₂ (BranchEvent.Takes doubling) e.branches.toList [(⟨1⟩, ⟨1⟩), (⟨1⟩, ⟨2⟩)] := by
  obtain ⟨-, hchain, -, hblocks, htakes⟩ := run_traced doubling _ 100 _ run_doubling_twice
  exact ⟨_, run_doubling_twice, hchain, hblocks, rfl, htakes⟩

end ArithWatch
