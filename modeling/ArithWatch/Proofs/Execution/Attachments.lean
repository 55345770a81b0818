import ArithWatch.Proofs.Execution.Machine
import ArithWatch.Proofs.IR.Alike

namespace ArithWatch

/-!
# Metadata plays no part in runs

Functions that differ in metadata only make the same walks, and so they return the same.
-/

/-- Where control goes from a block is a matter of its exit. -/
theorem Block.leave_congr {a b : Block} (h : a.term.map (·.exit) = b.term.map (·.exit))
    (cur : BlockId) (regs : Registers) : b.leave cur regs = a.leave cur regs := by
  unfold leave
  cases ha : a.term with
  | none =>
    rw [ha, Option.map_none] at h
    rw [Option.map_eq_none_iff.1 h.symm]
  | some t =>
    rw [ha, Option.map_some] at h
    obtain ⟨t', ht', he⟩ := Option.map_eq_some_iff.1 h.symm
    simp only [ht', he]

namespace Block.Alike

variable {a b : Block}

/-- Alike blocks are entered the same. -/
theorem enter_eq (h : a.Alike b) (prev : Option BlockId) (regs : Registers) :
    b.enter prev regs = a.enter prev regs := by
  rw [enter, enter, h.insts_eq]

theorem body_eq (h : a.Alike b) : b.body = a.body := by
  rw [body, body, h.insts_eq]

theorem leave_eq (h : a.Alike b) (cur : BlockId) (regs : Registers) :
    b.leave cur regs = a.leave cur regs :=
  leave_congr h.exit_eq cur regs

end Block.Alike

/-- Functions that differ block by block start in the same way. -/
theorem Function.Blockwise.start_eq {r : Block → Block → Prop} {f g : Function}
    (h : f.Blockwise r g) (args : List Scalar) : g.start args = f.start args :=
  start_congr (by rw [h.frame]) (by rw [h.frame]) (by rw [h.frame]) args

namespace Function.Alike

variable {f g : Function} {s t : RunState}

/-- A step of one function is a step of the other. -/
theorem advances (h : f.Alike g) {events : List Event} (hstep : Advances f s events t) :
    Advances g s events t := by
  cases hstep with
  | @enter prev cur block regs regs' hblock henter =>
    obtain ⟨block', hblock', halike⟩ := h.exists_new hblock
    rw [← halike.body_eq]
    exact .enter hblock' ((halike.enter_eq prev regs).trans henter)
  | exec heval hwrite => exact .exec heval hwrite
  | @jump cur block regs target hblock hleave =>
    obtain ⟨block', hblock', halike⟩ := h.exists_new hblock
    exact .jump hblock' ((halike.leave_eq cur regs).trans hleave)
  | @branch cur block regs cond target hblock hleave =>
    obtain ⟨block', hblock', halike⟩ := h.exists_new hblock
    exact .branch hblock' ((halike.leave_eq cur regs).trans hleave)

/-- They stop in the same states. -/
theorem stops (h : f.Alike g) {events : List Event} {r : Except Halt (Option Scalar)}
    (hstop : Stops f s events r) : Stops g s events r := by
  cases hstop with
  | missing hblock => exact .missing (h.blockwise.block?_eq_none hblock)
  | @enter prev cur block regs halt hblock henter =>
    obtain ⟨block', hblock', halike⟩ := h.exists_new hblock
    exact .enter hblock' ((halike.enter_eq prev regs).trans henter)
  | eval heval => exact .eval heval
  | write heval hwrite => exact .write heval hwrite
  | @leave cur block regs halt hblock hleave =>
    obtain ⟨block', hblock', halike⟩ := h.exists_new hblock
    exact .leave hblock' ((halike.leave_eq cur regs).trans hleave)
  | @finish cur block regs ret hblock hleave =>
    obtain ⟨block', hblock', halike⟩ := h.exists_new hblock
    exact .finish hblock' ((halike.leave_eq cur regs).trans hleave)

theorem runs (h : f.Alike g) {n : Nat} {log : List Event} (hrun : Runs f s n log t) :
    Runs g s n log t :=
  hrun.mono fun _ _ _ => h.advances

/-- Alike functions end the same. -/
theorem ends (h : f.Alike g) {n : Nat} {log : List Event} {r : Except Halt (Option Scalar)}
    (hends : Ends f s n log r) : Ends g s n log r := by
  obtain ⟨m, first, t, last, hrun, hstop, hn, hlog⟩ := hends
  exact ⟨m, first, t, last, h.runs hrun, h.stops hstop, hn, hlog⟩

theorem start_eq (h : f.Alike g) (args : List Scalar) : g.start args = f.start args :=
  h.blockwise.start_eq args

/-- **Attachments play no part in what a function returns.** -/
theorem run_eq (h : f.Alike g) (args : List Scalar) (limit : Nat) :
    g.run args limit = f.run args limit := by
  cases hstart : f.start args with
  | error halt =>
    rw [run_of_start_error hstart, run_of_start_error ((h.start_eq args).trans hstart)]
  | ok s =>
    have hstart' := (h.start_eq args).trans hstart
    rcases run_cases hstart limit with ⟨n, log, r, hends, hle, hrun⟩ | ⟨log, t, hrun, ht, hlimit⟩
    · rw [run_of_ends hstart' (h.ends hends), if_pos hle, hrun]
    · rw [run_of_runs hstart' (h.runs hrun) ht, hlimit]

end Function.Alike

end ArithWatch
