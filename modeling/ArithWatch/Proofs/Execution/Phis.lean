import ArithWatch.Proofs.Execution.Attachments
import ArithWatch.Proofs.Execution.Safety
import Mathlib.Data.List.Perm.Basic

namespace ArithWatch

/-!
# The order of phis

The phis of a block read their inputs before any of them has its result, so that it does not matter
in which order they stand.

* `Block.Reordered` and `Function.Reordered` say that nothing but the order of leading phis differs.
* `Inst.evalPhis_perm` and `Registers.writeAll_perm`: in another order phis give the same values,
  and these are written with the same effect.
* `Function.FailsAtPhi` is the one way in which runs can come apart: of several phis without a value
  the first one is reported.
* `phis_simultaneous` compares the verdicts on two such functions and their runs.
-/

/-! ### Blocks and functions -/

/-- The leading phis. -/
def Block.phis (b : Block) : List Inst := b.insts.takeWhile (·.kind.isPhi)

/-- The blocks differ at most in the order of their leading phis. -/
structure Block.Reordered (a b : Block) : Prop where
  id_eq : a.id = b.id
  name_eq : a.name = b.name
  term_eq : a.term = b.term
  body_eq : a.body = b.body
  phis_perm : a.phis.Perm b.phis

/-- The functions differ at most in the order of the leading phis of their blocks. -/
def Function.Reordered (f g : Function) : Prop := f.Blockwise Block.Reordered g

namespace Block.Reordered

variable {a b : Block}

theorem symm (h : a.Reordered b) : b.Reordered a :=
  ⟨h.id_eq.symm, h.name_eq.symm, h.term_eq.symm, h.body_eq.symm, h.phis_perm.symm⟩

/-- The instructions are the same up to order. -/
theorem insts_perm (h : a.Reordered b) : a.insts.Perm b.insts := by
  have hperm := h.phis_perm.append (.of_eq h.body_eq)
  rwa [phis, body, phis, body, List.takeWhile_append_dropWhile, List.takeWhile_append_dropWhile]
    at hperm

theorem kin (h : a.Reordered b) : a.Kin b :=
  ⟨h.id_eq, by rw [h.term_eq], h.insts_perm, h.body_eq⟩

end Block.Reordered

namespace Function.Reordered

variable {f g : Function}

theorem kin (h : f.Reordered g) : f.Blockwise Block.Kin g := h.mono fun _ _ hr => hr.kin

end Function.Reordered

/-! ### Writing in another order -/

namespace Registers

/-- Two values can be written in either order. -/
theorem writeAll_swap {v w : ValueId} (hne : v ≠ w) (a b : Scalar) (regs : Registers)
    (rest : List (ValueId × Scalar)) :
    regs.writeAll ((v, a) :: (w, b) :: rest) = regs.writeAll ((w, b) :: (v, a) :: rest) := by
  have hindex : v.index ≠ w.index := fun e => hne (congrArg ValueId.mk e)
  by_cases hv : v.index < regs.size <;> by_cases hw : w.index < regs.size <;>
    simp [writeAll, write, hv, hw, Array.setIfInBounds_comm _ _ hindex]

/-- **Different values can be written in any order.** -/
theorem writeAll_perm {writes writes' : List (ValueId × Scalar)} (h : writes.Perm writes')
    (hnodup : (writes.map (·.1)).Nodup) (regs : Registers) :
    regs.writeAll writes' = regs.writeAll writes := by
  induction h generalizing regs with
  | nil => rfl
  | cons e _ ih =>
    obtain ⟨v, a⟩ := e
    simp only [writeAll, ih (List.nodup_cons.1 hnodup).2]
  | swap e e' rest =>
    have hne : e.1 ≠ e'.1 := fun he => (List.nodup_cons.1 hnodup).1 (by simp [he])
    exact writeAll_swap hne e.2 e'.2 regs rest
  | trans h _ ih ih' => rw [ih' ((h.map _).nodup_iff.1 hnodup), ih hnodup]

end Registers

/-! ### Phis in another order -/

namespace Inst

variable {prev : Option BlockId} {regs : Registers} {is is' : List Inst}

/-- The phi gives a value to its result. -/
def PhiGives (prev : Option BlockId) (regs : Registers) (i : Inst) (e : ValueId × Scalar) : Prop :=
  i.result = e.1 ∧ ∃ incoming, i.kind = .phi incoming ∧ i.evalPhi incoming prev regs = .ok e.2

/-- The phi has no value. -/
def PhiFails (prev : Option BlockId) (regs : Registers) (i : Inst) (halt : Halt) : Prop :=
  ∃ incoming, i.kind = .phi incoming ∧ i.evalPhi incoming prev regs = .error halt

/-- Every phi gives its value on its own. -/
theorem evalPhis_eq_ok_iff (h : ∀ i ∈ is, i.kind.isPhi = true)
    {writes : List (ValueId × Scalar)} :
    evalPhis prev regs is = .ok writes ↔ List.Forall₂ (PhiGives prev regs) is writes := by
  -- By induction on the phis; each reads the registers from before the block.
  induction is generalizing writes with
  | nil =>
    rw [List.forall₂_nil_left_iff, evalPhis, Except.ok.injEq]
    exact eq_comm
  | cons i rest ih =>
    rw [List.forall_mem_cons] at h
    rw [List.forall₂_cons_left_iff]
    simp only [← ih h.2, evalPhis]
    cases hk : i.kind with
    | phi incoming =>
      simp only [except_bind_eq_ok, PhiGives, hk]
      constructor
      · rintro ⟨a, ha, found, hrest, hw⟩
        cases hw
        exact ⟨_, _, ⟨rfl, incoming, rfl, ha⟩, hrest, rfl⟩
      · rintro ⟨⟨v, a⟩, found, ⟨rfl, _, hk', ha⟩, hrest, rfl⟩
        cases hk'
        exact ⟨a, ha, found, hrest, rfl⟩
    | _ => simp [hk, InstKind.isPhi] at h

/-- Where phis fail, one of them does. -/
theorem exists_of_evalPhis_error {halt : Halt} (h : evalPhis prev regs is = .error halt) :
    ∃ i ∈ is, PhiFails prev regs i halt := by
  -- The phi that fails first is the one reported.
  induction is with
  | nil => cases h
  | cons i rest ih =>
    rw [evalPhis] at h
    split at h
    · next incoming hk =>
      cases ha : i.evalPhi incoming prev regs with
      | error halt' =>
        rw [ha] at h
        cases h
        exact ⟨i, List.mem_cons_self, incoming, hk, ha⟩
      | ok a =>
        rw [ha] at h
        cases hrest : evalPhis prev regs rest with
        | error halt' =>
          rw [hrest] at h
          cases h
          obtain ⟨j, hj, hfails⟩ := ih hrest
          exact ⟨j, List.mem_cons_of_mem _ hj, hfails⟩
        | ok found =>
          rw [hrest] at h
          cases h
    · cases h

/-- **Phis in another order** give the same values, in another order. -/
theorem evalPhis_perm (hperm : is'.Perm is) (his : ∀ i ∈ is, i.kind.isPhi = true)
    {writes : List (ValueId × Scalar)} (h : evalPhis prev regs is = .ok writes) :
    ∃ writes', evalPhis prev regs is' = .ok writes' ∧ writes'.Perm writes := by
  obtain ⟨writes', hgives, hwrites⟩ :=
    List.perm_comp_forall₂ hperm ((evalPhis_eq_ok_iff his).1 h)
  exact ⟨writes', (evalPhis_eq_ok_iff fun i hi => his i (hperm.mem_iff.1 hi)).2 hgives, hwrites⟩

/-- The values of phis go to their results. -/
theorem map_fst_of_evalPhis (his : ∀ i ∈ is, i.kind.isPhi = true)
    {writes : List (ValueId × Scalar)} (h : evalPhis prev regs is = .ok writes) :
    writes.map (·.1) = is.map (·.result) := by
  have hgives := (evalPhis_eq_ok_iff his).1 h
  clear h his
  induction hgives with
  | nil => rfl
  | cons hfirst _ ih => rw [List.map_cons, List.map_cons, hfirst.1, ih]

/-- A phi that has an input for the block from which control came fails only where that input has no
    value or control came from nowhere. -/
theorem PhiFails.cases {i : Inst} {halt : Halt} (h : PhiFails prev regs i halt)
    (hinputs : ∀ incoming, i.kind = .phi incoming → ∀ p ∈ prev, p ∈ incoming.map (·.1)) :
    (∃ v, halt = .error (.undefined v)) ∨ halt = .error (.phiWithoutPredecessor i.id) := by
  obtain ⟨incoming, hk, heval⟩ := h
  -- In the entry there is no predecessor; elsewhere the inputs of a verified phi name it.
  cases prev with
  | none =>
    cases heval
    exact .inr rfl
  | some p =>
    obtain ⟨input, hinput, hp⟩ := List.mem_map.1 (hinputs incoming hk p rfl)
    cases hfind : incoming.find? (·.1 == p) with
    | none => exact absurd (List.find?_eq_none.1 hfind input hinput) (by simp [hp])
    | some found =>
      simp only [evalPhi, hfind] at heval
      obtain ⟨q, op⟩ := found
      cases op with
      | const c => cases heval
      | value v =>
        simp only [Registers.read] at heval
        split at heval
        · cases heval
        · cases heval
          exact .inl ⟨v, rfl⟩

end Inst

/-! ### Failures away from phis -/

/-- The computation does not fail for want of a predecessor. -/
def Preceded {α : Type} (x : Except Halt α) : Prop :=
  ∀ i, x ≠ .error (.error (.phiWithoutPredecessor i))

namespace Preceded

variable {α β : Type}

/-- A computation in steps fails for no predecessor only where a step does. -/
theorem bind {x : Except Halt α} {k : α → Except Halt β} (hx : Preceded x)
    (hk : ∀ a, Preceded (k a)) : Preceded (x >>= k) := by
  intro i h
  cases x with
  | error halt =>
    cases h
    exact hx i rfl
  | ok a => exact hk a i h

/-- Reading an operand needs no predecessor. -/
theorem read (regs : Registers) (op : Operand) : Preceded (regs.read op) := by
  intro i h
  cases op with
  | const c => cases h
  | value v =>
    simp only [Registers.read] at h
    split at h <;> cases h

theorem expect (i : Inst) (found : Option Scalar) : Preceded (i.expect found) := by
  intro j h
  cases found <;> cases h

/-- An instruction inside a block needs no predecessor. -/
theorem eval (i : Inst) (regs : Registers) : Preceded (i.eval regs) := by
  unfold Inst.eval
  split
  · refine (read regs _).bind fun a => (read regs _).bind fun b => ?_
    split
    · exact expect i _
    · nofun
  · exact (read regs _).bind fun a => (read regs _).bind fun b => expect i _
  · exact (read regs _).bind fun a => (read regs _).bind fun b => expect i _
  · nofun

/-- Nor does leaving a block. -/
theorem leave (b : Block) (cur : BlockId) (regs : Registers) : Preceded (b.leave cur regs) := by
  unfold Block.leave
  split
  · nofun
  · split
    · nofun
    · refine (read regs _).bind fun a => ?_
      split <;> nofun
    · nofun
    · exact (read regs _).bind fun a => nofun
    · nofun

end Preceded

/-! ### Runs -/

/-- A run fails as it enters a block: the walk comes to the block, and one of its phis has no value
    there, which is what the run reports. -/
structure Function.FailsAtPhi (f : Function) (args : List Scalar) (limit : Nat) (log : List Event)
    (prev : Option BlockId) (cur : BlockId) (regs : Registers) : Prop where
  reached : ∃ s n, f.start args = .ok s ∧ Runs f s n log (.entering prev cur regs) ∧ n ≤ limit
  failed : ∃ block i e, f.block? cur = some block ∧ i ∈ block.phis ∧
    i.PhiFails prev regs (.error e) ∧ ((∃ v, e = .undefined v) ∨ e = .phiWithoutPredecessor i.id) ∧
    f.run args limit = .error (.error e)

namespace Function

variable {f g : Function} {s t : RunState}

/-- The results of the phis of a block are distinct. -/
theorem Regular.phis_nodup (h : f.Regular) {b : BlockId} {block : Block}
    (hblock : f.block? b = some block) : (block.phis.map (·.result)).Nodup := by
  have hmem : block ∈ f.laidOut := h.laid.mem_laidOut.2 ⟨b, hblock⟩
  have hall := h.results_nodup
  rw [allInsts, List.map_flatMap, List.nodup_flatMap] at hall
  exact (hall.1 block hmem).sublist ((List.takeWhile_sublist _).map _)

namespace Reordered

/-- Where a block can be entered, a block with its phis in another order can be, to the same
    effect. -/
theorem enter (hf : f.Regular) {cur : BlockId} {a b : Block} (hblock : f.block? cur = some a)
    (hab : a.Reordered b) {prev : Option BlockId} {regs regs' : Registers}
    (henter : a.enter prev regs = .ok regs') : b.enter prev regs = .ok regs' := by
  have hphis : ∀ i ∈ a.phis, i.kind.isPhi = true := fun i hi =>
    List.all_eq_true.1 List.all_takeWhile i hi
  obtain ⟨writes, hwrites, hwrite⟩ := except_bind_eq_ok.1 henter
  rw [← Inst.evalPhis_takeWhile] at hwrites
  obtain ⟨writes', hwrites', hperm⟩ := Inst.evalPhis_perm hab.phis_perm.symm hphis hwrites
  have hnodup : (writes.map (·.1)).Nodup := by
    rw [Inst.map_fst_of_evalPhis hphis hwrites]
    exact hf.phis_nodup hblock
  rw [Block.enter, ← Inst.evalPhis_takeWhile]
  refine except_bind_eq_ok.2 ⟨writes', hwrites', ?_⟩
  rw [← hwrite]
  exact Registers.writeAll_perm hperm.symm hnodup regs

/-- Where a block cannot be entered, neither can one with its phis in another order. -/
theorem enter_error (hg : g.Regular) {cur : BlockId} {a b : Block} (hblock : g.block? cur = some b)
    (hab : a.Reordered b) {prev : Option BlockId} {regs : Registers} {halt : Halt}
    (henter : a.enter prev regs = .error halt) : ∃ halt', b.enter prev regs = .error halt' := by
  cases hcase : b.enter prev regs with
  | error halt' => exact ⟨halt', rfl⟩
  | ok regs' =>
    rw [enter hg hblock hab.symm hcase] at henter
    cases henter

/-- Each step of one function is a step of the other, to the same state. -/
theorem advances (h : f.Reordered g) (hf : f.Regular) {events : List Event}
    (hstep : Advances f s events t) : Advances g s events t := by
  cases hstep with
  | @enter prev cur block regs regs' hblock henter =>
    obtain ⟨block', hblock', hsame⟩ := h.exists_new hblock
    rw [hsame.body_eq]
    exact .enter hblock' (enter hf hblock hsame henter)
  | exec heval hwrite => exact .exec heval hwrite
  | @jump cur block regs target hblock hleave =>
    obtain ⟨block', hblock', hsame⟩ := h.exists_new hblock
    exact .jump hblock' ((Block.leave_congr hsame.kin.exit_eq cur regs).trans hleave)
  | @branch cur block regs cond target hblock hleave =>
    obtain ⟨block', hblock', hsame⟩ := h.exists_new hblock
    exact .branch hblock' ((Block.leave_congr hsame.kin.exit_eq cur regs).trans hleave)

theorem runs (h : f.Reordered g) (hf : f.Regular) {n : Nat} {log : List Event}
    (hrun : Runs f s n log t) : Runs g s n log t :=
  hrun.mono fun _ _ _ => h.advances hf

/-- Away from the entrances of blocks the functions stop in the same way. -/
theorem stops (h : f.Reordered g) {cur : BlockId} {rest : List Inst} {regs : Registers}
    {events : List Event} {r : Except Halt (Option Scalar)}
    (hstop : Stops f (.inside cur rest regs) events r) :
    Stops g (.inside cur rest regs) events r := by
  cases hstop with
  | eval heval => exact .eval heval
  | write heval hwrite => exact .write heval hwrite
  | @leave _ block _ halt hblock hleave =>
    obtain ⟨block', hblock', hsame⟩ := h.exists_new hblock
    exact .leave hblock' ((Block.leave_congr hsame.kin.exit_eq cur regs).trans hleave)
  | @finish _ block _ ret hblock hleave =>
    obtain ⟨block', hblock', hsame⟩ := h.exists_new hblock
    exact .finish hblock' ((Block.leave_congr hsame.kin.exit_eq cur regs).trans hleave)

end Reordered

/-- A run that stops at the entrance of a block in a safe state fails at one of its phis. -/
theorem Regular.failsAtPhi (hf : f.Regular) {args : List Scalar} (hstart : f.start args = .ok s)
    {n : Nat} {log : List Event} {prev : Option BlockId} {cur : BlockId} {regs : Registers}
    (hrun : Runs f s n log (.entering prev cur regs)) {block : Block}
    (hblock : f.block? cur = some block) {halt : Halt}
    (henter : block.enter prev regs = .error halt) {limit : Nat} (hle : n ≤ limit) :
    f.FailsAtPhi args limit log prev cur regs := by
  have hsafe := hrun.safe hf (start_safe hstart)
  have hends : Ends f s n (log ++ [.enter cur]) (.error halt) :=
    ⟨n, log, _, _, hrun, .enter hblock henter, rfl, rfl⟩
  have hhalt : f.run args limit = .error halt := by
    rw [run_of_ends hstart hends, if_pos hle]
    rfl
  -- In a safe state all results have a register, so that the failure is that of a phi.
  have hphis : ∃ i ∈ block.phis, i.PhiFails prev regs halt := by
    rw [Block.enter, ← Inst.evalPhis_takeWhile] at henter
    cases hwrites : Inst.evalPhis prev regs (block.insts.takeWhile (·.kind.isPhi)) with
    | error halt' =>
      rw [hwrites] at henter
      cases henter
      exact Inst.exists_of_evalPhis_error hwrites
    | ok writes =>
      have hroom : ∀ e ∈ writes, e.1.index < regs.size := by
        intro e he
        obtain ⟨i, hi, hresult⟩ := Inst.exists_of_evalPhis hwrites e he
        have hsize : regs.size = f.valueTypes.size := hsafe.typed.size_eq
        rw [hsize, ← hresult]
        exact hf.result_lt hblock ((List.takeWhile_sublist _).mem hi)
      obtain ⟨regs', hregs'⟩ := Registers.exists_writeAll hroom
      rw [hwrites] at henter
      have hboth := hregs'.symm.trans henter
      cases hboth
  obtain ⟨i, hi, hfails⟩ := hphis
  have hcases := hfails.cases fun incoming hk p hp => by
    obtain rfl := Option.mem_def.1 hp
    exact ((hf.inputs cur block hblock i ((List.takeWhile_sublist _).mem hi) incoming hk).2 p).2
      hsafe.placed
  refine ⟨⟨s, n, hstart, hrun, hle⟩, ?_⟩
  rcases hcases with ⟨v, rfl⟩ | rfl
  · exact ⟨block, i, _, hblock, hi, hfails, .inl ⟨v, rfl⟩, hhalt⟩
  · exact ⟨block, i, _, hblock, hi, hfails, .inr rfl, hhalt⟩

end Function

/-- The run returns something, is cut off at its limit, comes to an unreachable exit or reads a
    value that is not there. -/
def Ordinary (limit : Nat) (r : Except Halt Execution) : Prop :=
  (∃ e, r = .ok e) ∨ r = .error (.error (.stepLimit limit)) ∨
    (∃ b, r = .error (.error (.unreachable b))) ∨ ∃ v, r = .error (.error (.undefined v))

/-- Away from the entrances of blocks a safe run ends in an ordinary way, if its arguments fit. -/
theorem Stops.ordinary {f : Function} (hf : f.Regular) {c : Prop} (hc : c) {cur : BlockId}
    {rest : List Inst} {regs : Registers} (hs : RunState.Safe f c (.inside cur rest regs))
    {events : List Event} {r : Except Halt (Option Scalar)}
    (hstop : Stops f (.inside cur rest regs) events r) (trace : Trace) (limit : Nat) :
    Ordinary limit (trace.result r) := by
  cases r with
  | ok ret => exact .inl ⟨_, rfl⟩
  | error halt =>
    have hremains := hstop.remains hf hs
    have hpreceded : ∀ i, halt ≠ .error (.phiWithoutPredecessor i) := by
      rintro i rfl
      cases hstop with
      | eval heval => exact Preceded.eval _ regs i heval
      | write heval hwrite =>
        simp only [Registers.write] at hwrite
        split at hwrite <;> cases hwrite
      | @leave _ block _ _ hblock hleave => exact Preceded.leave block cur regs i hleave
    -- The invariant leaves three ways to stop inside a block.
    cases halt with
    | error e =>
      cases e with
      | undefined v => exact .inr (.inr (.inr ⟨v, rfl⟩))
      | unreachable b => exact .inr (.inr (.inl ⟨b, rfl⟩))
      | phiWithoutPredecessor i => exact (hpreceded i rfl).elim
      | _ => exact hremains.elim
    | fault fault =>
      cases fault with
      | zeroDivisor => exact (hremains hc).elim
      | _ => exact hremains.elim

/-- **Phis are evaluated simultaneously.** If the verifier accepts a function it accepts it with the
    leading phis of its blocks in any other order.  The two functions return the same, which is one
    of the ordinary results if the arguments have the right types and fit; or both fail as they
    enter the same block in the same place of the run, each at one of the phis of that block. -/
theorem phis_simultaneous (f g : Function) (hverify : f.verify = .ok ()) (h : f.Reordered g) :
    g.verify = .ok () ∧ ∀ args limit,
      (g.run args limit = f.run args limit ∧
        (f.Accepts args → (∀ a ∈ args, a.Fits) → Ordinary limit (f.run args limit))) ∨
      ∃ log prev cur regs, f.FailsAtPhi args limit log prev cur regs ∧
        g.FailsAtPhi args limit log prev cur regs := by
  have hwell := Function.verified_iff_wellFormed.1 hverify
  have hwell' := h.kin.wellFormed hwell
  have hf := hwell.toRegular
  have hg := hwell'.toRegular
  refine ⟨Function.verified_iff_wellFormed.2 hwell', fun args limit => ?_⟩
  have hsame := Function.Blockwise.start_eq h args
  cases hstart : f.start args with
  | error halt =>
    refine .inl ⟨?_, fun haccepts => ?_⟩
    · rw [Function.run_of_start_error hstart, Function.run_of_start_error (hsame.trans hstart)]
    · obtain ⟨s, hs, -⟩ := haccepts.start
      rw [hstart] at hs
      cases hs
  | ok s =>
    have hstart' := hsame.trans hstart
    -- The executions are the same up to where they stop. Only the phis of a block can be met in
    -- another order, and then both fail at the entry of that block.
    rcases Function.run_cases hstart limit with
      ⟨n, log, r, hends, hle, hrun⟩ | ⟨log, t, hrun, ht, hlimit⟩
    · obtain ⟨m, first, t, last, hwalk, hstop, rfl, rfl⟩ := hends
      have hwalk' := h.runs hf hwalk
      cases t with
      | inside cur rest regs =>
        have hends' : Ends g s _ (first ++ last) r :=
          ⟨m, first, _, last, hwalk', h.stops hstop, rfl, rfl⟩
        refine .inl ⟨?_, fun _ hfits => ?_⟩
        · rw [hrun, Function.run_of_ends hstart' hends', if_pos hle]
        · rw [hrun]
          exact hstop.ordinary hf hfits (hwalk.safe hf (Function.start_safe hstart)) _ limit
      | entering prev cur regs =>
        cases hstop with
        | missing hblock =>
          have hsafe := hwalk.safe hf (Function.start_safe hstart)
          exact ((Stops.missing hblock).remains hf hsafe).elim
        | @enter _ _ block _ halt hblock henter =>
          obtain ⟨block', hblock', hreordered⟩ := h.exists_new hblock
          obtain ⟨halt', henter'⟩ :=
            Function.Reordered.enter_error hg hblock' hreordered henter
          exact .inr ⟨first, prev, cur, regs, hf.failsAtPhi hstart hwalk hblock henter hle,
            hg.failsAtPhi hstart' hwalk' hblock' henter' hle⟩
    · refine .inl ⟨?_, fun _ _ => .inr (.inl hlimit)⟩
      rw [hlimit, Function.run_of_runs hstart' (h.runs hf hrun) ht]

/-! ### Phis that swap -/

/-- A loop that swaps its two values until they are in order. -/
def swapping : Function where
  name := "swapping"
  params := [⟨0⟩, ⟨1⟩]
  returnType := some (.int 32)
  valueTypes := #[.int 32, .int 32, .int 32, .int 32, .i1]
  blocks := #[
    { id := ⟨0⟩, name := "entry", insts := [], term := some { exit := .br ⟨1⟩ } },
    { id := ⟨1⟩
      name := "loop"
      insts := [
        { id := ⟨0⟩, result := ⟨2⟩, kind := .phi [(⟨0⟩, .value ⟨0⟩), (⟨1⟩, .value ⟨3⟩)] },
        { id := ⟨1⟩, result := ⟨3⟩, kind := .phi [(⟨0⟩, .value ⟨1⟩), (⟨1⟩, .value ⟨2⟩)] },
        { id := ⟨2⟩, result := ⟨4⟩, kind := .icmp .slt (.value ⟨2⟩) (.value ⟨3⟩) }]
      term := some { exit := .condBr (.value ⟨4⟩) ⟨2⟩ ⟨1⟩ } },
    { id := ⟨2⟩, name := "exit", insts := [], term := some { exit := .ret (some (.value ⟨2⟩)) } }]
  layout := [⟨0⟩, ⟨1⟩, ⟨2⟩]
  entry := ⟨0⟩
  instCount := 3

/-- The same loop with its phis the other way round. -/
def swapped : Function :=
  swapping.updateBlock ⟨1⟩ fun b => { b with insts := b.phis.reverse ++ b.body }

/-- All blocks of the example are reached. -/
theorem reached_swapping : swapping.reached = #[true, true, true] := by
  show swapping.flood #[false, false, false] [⟨0⟩] = _
  rw [Function.flood, if_pos (by decide)]
  show swapping.flood #[true, false, false] [⟨1⟩] = _
  rw [Function.flood, if_pos (by decide)]
  show swapping.flood #[true, true, false] [⟨2⟩, ⟨1⟩] = _
  rw [Function.flood, if_pos (by decide)]
  show swapping.flood #[true, true, true] [⟨1⟩] = _
  rw [Function.flood, if_neg (by decide), Function.flood]

/-- The example verifies. -/
theorem verify_swapping : swapping.verify = .ok () := by
  have hreach : swapping.verifyReachability = .ok () := by
    rw [Function.verifyReachability, reached_swapping]
    rfl
  rw [Function.verify, hreach]
  rfl

/-- The example has its two phis exchanged. -/
theorem reordered_swapping : swapping.Reordered swapped := by
  refine .updateBlock (fun _ => ⟨rfl, rfl, rfl, rfl, .refl _⟩) ⟨1⟩ fun block hblock => ?_
  cases hblock
  exact ⟨rfl, rfl, rfl, rfl, .swap _ _ _⟩

/-- Read one after the other, the phis would give both values the smaller one. -/
theorem phis_simultaneous_swapping :
    swapping.verify = .ok () ∧ swapping.Reordered swapped ∧ swapped.verify = .ok () ∧
      ∃ e, swapping.run [.int 32 5, .int 32 3] 100 = .ok e ∧ e.ret = some (.int 32 3) ∧
        e.path = #[⟨0⟩, ⟨1⟩, ⟨1⟩, ⟨2⟩] ∧ swapped.run [.int 32 5, .int 32 3] 100 = .ok e := by
  have hrun : swapping.run [.int 32 5, .int 32 3] 100 = .ok
      { ret := some (.int 32 3)
        path := #[⟨0⟩, ⟨1⟩, ⟨1⟩, ⟨2⟩]
        branches := #[⟨⟨1⟩, false⟩, ⟨⟨1⟩, true⟩] } := by
    decide +kernel
  obtain ⟨hverify, hsame⟩ := phis_simultaneous swapping swapped verify_swapping reordered_swapping
  refine ⟨verify_swapping, reordered_swapping, hverify, _, hrun, rfl, rfl, ?_⟩
  -- The run gives a result, so the second alternative does not occur.
  rcases hsame [.int 32 5, .int 32 3] 100 with ⟨heq, -⟩ | ⟨log, prev, cur, regs, hfails, -⟩
  · rw [heq, hrun]
  · obtain ⟨block, i, e, -, -, -, -, herror⟩ := hfails.failed
    rw [hrun] at herror
    cases herror

end ArithWatch
