import ArithWatch.Proofs.Execution.Agreement
import ArithWatch.Proofs.Execution.Machine
import ArithWatch.Proofs.Execution.Typing
import ArithWatch.Proofs.IR.Split

namespace ArithWatch

/-!
# Runs of a function with a block split

The two halves of a block are walked one after the other, and everything else is as it was.

* `Inst.evalPhis_repoint`: where control comes from another block and the phis take from that block
  what they took before, they give the same.
* `Spot.Sim` relates the states of the two walks; `Spot.Sim.advances` matches one step and
  `Spot.Sim.runs` a walk.
* `splitBlockAfter_sound` is about the edit on verified functions, and about where it does nothing
  on any others.
-/

/-! ### Phis of a cut block -/

section Phis

variable {old new : BlockId} {prev : Option BlockId} {regs regs' : Registers}

/-- The input from a block is found at the block that stands in its place. -/
theorem find?_repoint {p : BlockId} (hp : p ≠ new) {incoming : List (BlockId × Operand)}
    (hincoming : new ∉ incoming.map (·.1)) :
    (incoming.map fun input => (if input.1 = old then new else input.1, input.2)).find?
        (·.1 == if p = old then new else p) =
      (incoming.find? (·.1 == p)).map fun input =>
        (if input.1 = old then new else input.1, input.2) := by
  induction incoming with
  | nil => rfl
  | cons input rest ih =>
    rw [List.map_cons, List.mem_cons, not_or] at hincoming
    -- Renaming keeps sources apart, as none of them has the new name yet.
    have hsame : (if input.1 = old then new else input.1) = (if p = old then new else p) ↔
        input.1 = p := by
      have hinput : input.1 ≠ new := fun e => hincoming.1 e.symm
      by_cases h : input.1 = old <;> by_cases h' : p = old <;> simp_all [eq_comm]
    rw [List.map_cons, List.find?_cons, List.find?_cons, ih hincoming.2]
    by_cases h : input.1 = p
    · simp [h]
    · simp [beq_eq_false_iff_ne.2 (mt hsame.1 h), beq_eq_false_iff_ne.2 h]

/-- A repointed phi gives what the phi gave. -/
theorem Inst.evalPhi_repoint (old : BlockId) {i : Inst} {incoming : List (BlockId × Operand)}
    {a : Scalar} (hprev : ∀ p, prev = some p → p ≠ new) (hincoming : new ∉ incoming.map (·.1))
    (h : i.evalPhi incoming prev regs = .ok a) :
    (i.repoint old new).evalPhi
        (incoming.map fun input => (if input.1 = old then new else input.1, input.2))
        (prev.map fun p => if p = old then new else p) regs = .ok a := by
  -- Without a predecessor a phi does not evaluate at all.
  cases prev with
  | none => cases h
  | some p =>
    simp only [evalPhi, Option.map_some, find?_repoint (hprev p rfl) hincoming] at h ⊢
    cases hfind : incoming.find? (·.1 == p) with
    | none =>
      rw [hfind] at h
      cases h
    | some input =>
      rw [hfind] at h
      exact h

/-- Repointed phis give what the phis gave. -/
theorem Inst.evalPhis_repoint (old : BlockId) {is : List Inst} {writes : List (ValueId × Scalar)}
    (hprev : ∀ p, prev = some p → p ≠ new)
    (hsources : ∀ i ∈ is, ∀ incoming, i.kind = .phi incoming → new ∉ incoming.map (·.1))
    (h : evalPhis prev regs is = .ok writes) :
    evalPhis (prev.map fun p => if p = old then new else p) regs (is.map (·.repoint old new)) =
      .ok writes := by
  induction is generalizing writes with
  | nil => exact h
  | cons i rest ih =>
    rw [List.forall_mem_cons] at hsources
    -- Evaluation stops at the first instruction that is no phi.
    cases hk : i.kind with
    | phi incoming =>
      simp only [evalPhis, hk] at h
      obtain ⟨a, ha, h⟩ := except_bind_eq_ok.1 h
      obtain ⟨found, hfound, hwrites⟩ := except_bind_eq_ok.1 h
      have hfirst := evalPhi_repoint old hprev (hsources.1 incoming hk) ha
      simp only [List.map_cons, evalPhis, Inst.kind_repoint, hk, InstKind.repoint]
      rw [hfirst, ih hsources.2 hfound]
      exact hwrites
    | _ =>
      simp only [evalPhis, hk] at h
      simp only [List.map_cons, evalPhis, Inst.kind_repoint, hk, InstKind.repoint, h]

end Phis

/-! ### Entering and leaving -/

section Blocks

variable {f : Function} {p : Spot} {cont cur : BlockId} {block block' : Block}

/-- The body of a repointed block is the same. -/
theorem Function.Regular.body_repoint (h : f.Regular) (hblock : f.block? cur = some block)
    (old new : BlockId) : (block.repoint old new).body = block.body := by
  rw [Block.body, Block.repoint, dropWhile_repoint]
  exact map_repoint_of_not_phi (h.phis_lead cur block hblock)

namespace Spot

/-- The phis of the cut block, and its other instructions up to the one of the spot. -/
theorem split_phis (hphi : p.inst.kind.isPhi = false) (rest : List Inst) :
    (p.before ++ p.inst :: rest).takeWhile (·.kind.isPhi) = p.before.takeWhile (·.kind.isPhi) ∧
      (p.before ++ p.inst :: rest).dropWhile (·.kind.isPhi) =
        p.before.dropWhile (·.kind.isPhi) ++ p.inst :: rest := by
  rw [List.takeWhile_append, List.dropWhile_append]
  -- Either a phi-free instruction stands in front of the watched one, or that one ends the run of
  -- phis.
  constructor
  · split
    · next h =>
      rw [List.takeWhile_cons_of_neg (by simp [hphi]), List.append_nil]
      exact ((List.takeWhile_prefix _).eq_of_length h).symm
    · rfl
  · split
    · next h =>
      rw [List.isEmpty_iff.1 h, List.dropWhile_cons_of_neg (by simp [hphi]), List.nil_append]
    · rfl

/-- The phis of the cut block stay in front. -/
theorem takeWhile_front (p : Spot) (hp : p.In f) (hphi : p.inst.kind.isPhi = false)
    (t : Terminator) :
    (p.front cont t).insts.takeWhile (·.kind.isPhi) =
      (p.block.insts.takeWhile (·.kind.isPhi)).map (·.repoint p.home cont) := by
  rw [front, takeWhile_repoint, (split_phis hphi []).1, hp.insts_eq, (split_phis hphi p.after).1]

/-- The instruction is in the body of the cut block, and the last one of its front. -/
theorem body_home (p : Spot) (h : f.Regular) (hp : p.In f) (hphi : p.inst.kind.isPhi = false)
    (cont : BlockId) (t : Terminator) :
    p.block.body = p.before.dropWhile (·.kind.isPhi) ++ p.inst :: p.after ∧
      (p.front cont t).body = p.before.dropWhile (·.kind.isPhi) ++ [p.inst] := by
  constructor
  · exact (congrArg _ hp.insts_eq).trans (split_phis hphi p.after).2
  · rw [Block.body, front, dropWhile_repoint, map_repoint_of_not_phi (h.phis_lead_front hp),
      (split_phis hphi []).2]

end Spot

/-- A block whose phis are repointed can be entered from the block that stands in place of another
    one as it was entered from that. -/
theorem Block.enter_repoint (h : f.Regular) (hblock : f.block? cur = some block)
    {old new : BlockId} (hnew : f.blocks.size ≤ new.index)
    (hphis : block'.insts.takeWhile (·.kind.isPhi) =
      (block.insts.takeWhile (·.kind.isPhi)).map (·.repoint old new))
    {prev : Option BlockId} (hprev : ∀ p, prev = some p → p ≠ new) {regs regs' : Registers}
    (henter : block.enter prev regs = .ok regs') :
    block'.enter (prev.map fun p => if p = old then new else p) regs = .ok regs' := by
  obtain ⟨writes, hwrites, hwrite⟩ := except_bind_eq_ok.1 henter
  -- The new id is no block of `f`, so that no phi has it as a source.
  have hsources : ∀ i ∈ block.insts.takeWhile (·.kind.isPhi), ∀ incoming,
      i.kind = .phi incoming → new ∉ incoming.map (·.1) := by
    intro i hi incoming hk hmem
    have hinst : i ∈ block.insts := (List.takeWhile_sublist _).mem hi
    obtain ⟨source, hsource, -⟩ := ((h.inputs cur block hblock i hinst incoming hk).2 new).1 hmem
    exact Nat.not_lt_of_le hnew (Function.lt_of_block? hsource)
  rw [← Inst.evalPhis_takeWhile] at hwrites
  have hphis' := Inst.evalPhis_repoint old hprev hsources hwrites
  rw [← hphis, Inst.evalPhis_takeWhile] at hphis'
  rw [Block.enter, hphis']
  exact hwrite

/-- Where control goes from a block is a matter of its terminator. -/
theorem Block.leave_of_term {regs : Registers} {step : Step} (h : block.leave cur regs = .ok step)
    (hterm : block'.term = block.term) (cur' : BlockId) : block'.leave cur' regs = .ok step := by
  unfold Block.leave at h ⊢
  rw [hterm]
  cases ht : block.term with
  | none =>
    rw [ht] at h
    cases h
  | some t =>
    rw [ht] at h
    cases he : t.exit with
    | br target =>
      simp only [he] at h ⊢
      exact h
    | condBr cond thenTarget elseTarget =>
      simp only [he] at h ⊢
      obtain ⟨a, ha, h⟩ := except_bind_eq_ok.1 h
      refine except_bind_eq_ok.2 ⟨a, ha, ?_⟩
      -- Without a condition the fault names the block.
      cases hc : a.bool? with
      | none =>
        rw [hc] at h
        cases h
      | some c =>
        rw [hc] at h
        exact h
    | ret value =>
      cases value with
      | none =>
        simp only [he] at h ⊢
        exact h
      | some op =>
        simp only [he] at h ⊢
        exact h
    | unreachable =>
      simp only [he] at h
      cases h

end Blocks

/-! ### The simulation -/

namespace Spot

variable {p : Spot} {cont : BlockId} {f g : Function}

/-- The block that control leaves where it left `b` before. -/
def forth (p : Spot) (cont b : BlockId) : BlockId := if b = p.home then cont else b

/-- The blocks that are entered where `b` was entered before. -/
def visit (p : Spot) (cont b : BlockId) : List BlockId := if b = p.home then [p.home, cont] else [b]

/-- The branch that is taken where another one was taken before. -/
def moved (p : Spot) (cont : BlockId) (e : BranchEvent) : BranchEvent :=
  { e with block := p.forth cont e.block }

/-- The states of the two walks, with the blocks that the new one has still to enter to catch up.
    Behind the instruction of the spot it is in the rest. -/
inductive Sim (p : Spot) (cont : BlockId) : RunState → List BlockId → RunState → Prop
  | entering {prev cur regs} :
    (∀ b, prev = some b → b ≠ cont) →
    Sim p cont (.entering prev cur regs) [] (.entering (prev.map (p.forth cont)) cur regs)
  | elsewhere {cur rest regs} :
    cur ≠ p.home → Sim p cont (.inside cur rest regs) [] (.inside cur rest regs)
  | front {mid regs} :
    Sim p cont (.inside p.home (mid ++ p.inst :: p.after) regs) [cont]
      (.inside p.home (mid ++ [p.inst]) regs)
  | rest {rest regs} :
    Sim p cont (.inside p.home rest regs) [] (.inside cont rest regs)

namespace Sim

variable {t u t' : RunState} {due : List BlockId}

section Steps

variable (h : f.Regular) (hp : p.In f) (hphi : p.inst.kind.isPhi = false) (hg : p.Cuts cont f g)

include h hp hphi hg

/-- Behind the instruction control passes on to the rest. -/
theorem crosses (regs : Registers) :
    ∃ n, Runs g (.inside p.home [] regs) n [.enter cont] (.inside cont p.after regs) := by
  obtain ⟨name, hrest⟩ := hg.regular_rest h hp
  have hafter : ∀ i ∈ (p.rest cont name).insts, i.kind.isPhi = false :=
    fun i hi => h.not_phi_of_mem_after hp hphi hi
  have hleave : Advances g (.inside p.home [] regs) [] (.entering (some p.home) cont regs) :=
    .jump (hg.regular_home h hp) rfl
  have henter := Advances.enter hrest (Block.enter_of_not_phi hafter (some p.home) regs)
  rw [Block.body_of_not_phi hafter] at henter
  exact ⟨_, (Runs.single hleave).trans (Runs.single henter)⟩

/-- Control enters the same block in both walks. -/
theorem enters {prev : Option BlockId} {cur : BlockId} {block : Block} {regs regs' : Registers}
    (hblock : f.block? cur = some block) (henter : block.enter prev regs = .ok regs')
    (hprev : ∀ b, prev = some b → b ≠ cont) :
    ∃ u' due', Advances g (.entering (prev.map (p.forth cont)) cur regs) [.enter cur] u' ∧
      p.Sim cont (.inside cur block.body regs') due' u' ∧ cur :: due' = p.visit cont cur := by
  have hnew : f.blocks.size ≤ cont.index := Nat.le_of_eq hg.cont_index.symm
  -- Entering the block that was cut starts in its first half, and the second one is still due.
  by_cases hcur : cur = p.home
  · subst hcur
    obtain rfl : p.block = block := Option.some.inj (hp.block_eq.symm.trans hblock)
    obtain ⟨hbody, hfront⟩ := p.body_home h hp hphi cont { exit := .br cont }
    have hstep := Advances.enter (hg.regular_home h hp) (Block.enter_repoint h hblock hnew
      (p.takeWhile_front hp hphi _) hprev henter)
    rw [hfront] at hstep
    rw [hbody]
    exact ⟨_, [cont], hstep, .front, (if_pos rfl).symm⟩
  · have hstep := Advances.enter (hg.regular_other h hp hcur hblock) (Block.enter_repoint h hblock
      hnew (takeWhile_repoint block.insts) hprev henter)
    rw [h.body_repoint hblock] at hstep
    exact ⟨_, [], hstep, .elsewhere hcur, (if_neg hcur).symm⟩

omit hphi in
/-- Control leaves a block in the same way in both walks. -/
theorem leaves {cur : BlockId} {block : Block} {regs : Registers} {step : Step}
    (hblock : f.block? cur = some block) (hleave : block.leave cur regs = .ok step)
    (hsim : p.Sim cont (.inside cur [] regs) due t') :
    due = [] ∧ ∃ block', t' = .inside (p.forth cont cur) [] regs ∧
      g.block? (p.forth cont cur) = some block' ∧
      block'.leave (p.forth cont cur) regs = .ok step := by
  -- The first half ends in a branch of its own, which no step of `f` matches.
  generalize hrest : ([] : List Inst) = rest at hsim
  cases hsim with
  | elsewhere hcur =>
    rw [forth, if_neg hcur]
    exact ⟨rfl, _, rfl, hg.regular_other h hp hcur hblock,
      Block.leave_of_term hleave rfl cur⟩
  | front => simp at hrest
  | rest =>
    obtain ⟨name, hname⟩ := hg.regular_rest h hp
    obtain rfl : p.block = block := Option.some.inj (hp.block_eq.symm.trans hblock)
    rw [forth, if_pos rfl]
    exact ⟨rfl, _, rfl, hname, Block.leave_of_term hleave rfl cont⟩

/-- **One step.** The new walk enters the blocks that are due, and takes the same branches. -/
theorem advances {events : List Event} (hstep : Advances f t events u)
    (hsim : p.Sim cont t due t') :
    ∃ n log u' due', Runs g t' n log u' ∧ p.Sim cont u due' u' ∧
      log.filterMap Event.entered? ++ due' =
        due ++ (events.filterMap Event.entered?).flatMap (p.visit cont) ∧
      log.filterMap Event.branch? = (events.filterMap Event.branch?).map (p.moved cont) := by
  cases hstep with
  | @enter prev cur block regs regs' hblock henter =>
    cases hsim with
    | entering hprev =>
      obtain ⟨u', due', hstep', hsim', hdue⟩ := enters h hp hphi hg hblock henter hprev
      refine ⟨_, _, u', due', .single hstep', hsim', ?_, rfl⟩
      simpa [Event.entered?] using hdue
  | @exec cur i rest regs a regs' heval hwrite =>
    generalize hrest : i :: rest = all at hsim
    cases hsim with
    | elsewhere hcur =>
      subst hrest
      exact ⟨_, _, _, [], .single (.exec heval hwrite), .elsewhere hcur, rfl, rfl⟩
    | @front mid =>
      cases mid with
      | cons j mid =>
        cases hrest
        exact ⟨_, _, _, [cont], .single (.exec heval hwrite), .front, rfl, rfl⟩
      | nil =>
        -- The instruction of the spot: the new walk crosses over to the rest.
        cases hrest
        obtain ⟨n, hcross⟩ := crosses h hp hphi hg regs'
        exact ⟨_, _, _, [], (Runs.single (.exec heval hwrite)).trans hcross, .rest, rfl, rfl⟩
    | rest =>
      subst hrest
      exact ⟨_, _, _, [], .single (.exec heval hwrite), .rest, rfl, rfl⟩
  | @jump cur block regs target hblock hleave =>
    obtain ⟨rfl, block', rfl, hblock', hleave'⟩ := leaves h hp hg hblock hleave hsim
    refine ⟨_, _, _, [], .single (.jump hblock' hleave'), .entering fun b hb => ?_, rfl, rfl⟩
    cases hb
    exact hg.ne_cont (Function.lt_of_block? hblock)
  | @branch cur block regs cond target hblock hleave =>
    obtain ⟨rfl, block', rfl, hblock', hleave'⟩ := leaves h hp hg hblock hleave hsim
    refine ⟨_, _, _, [], .single (.branch hblock' hleave'), .entering fun b hb => ?_, rfl, rfl⟩
    cases hb
    exact hg.ne_cont (Function.lt_of_block? hblock)

/-- **Walks.** -/
theorem runs {n : Nat} {log : List Event} (hrun : Runs f t n log u) (hsim : p.Sim cont t due t') :
    ∃ n' log' u' due', Runs g t' n' log' u' ∧ p.Sim cont u due' u' ∧
      log'.filterMap Event.entered? ++ due' =
        due ++ (log.filterMap Event.entered?).flatMap (p.visit cont) ∧
      log'.filterMap Event.branch? = (log.filterMap Event.branch?).map (p.moved cont) := by
  induction hrun generalizing t' due with
  | refl t => exact ⟨0, [], t', due, .refl _, hsim, by simp, rfl⟩
  | head hstep _ ih =>
    obtain ⟨n₁, log₁, u₁, due₁, hrun₁, hsim₁, hpath₁, hbranches₁⟩ :=
      advances h hp hphi hg hstep hsim
    obtain ⟨n₂, log₂, u₂, due₂, hrun₂, hsim₂, hpath₂, hbranches₂⟩ := ih hsim₁
    -- What was due behind the first part has been visited by the second one.
    refine ⟨_, _, u₂, due₂, hrun₁.trans hrun₂, hsim₂, ?_, ?_⟩
    · rw [List.filterMap_append, List.append_assoc, hpath₂, ← List.append_assoc, hpath₁,
        List.filterMap_append, List.flatMap_append, List.append_assoc]
    · rw [List.filterMap_append, hbranches₁, hbranches₂, List.filterMap_append, List.map_append]

/-- **Walks to a good end.** -/
theorem ends {n : Nat} {log : List Event} {ret : Option Scalar} (hends : Ends f t n log (.ok ret))
    (hsim : p.Sim cont t due t') :
    ∃ n' log', Ends g t' n' log' (.ok ret) ∧
      log'.filterMap Event.entered? =
        due ++ (log.filterMap Event.entered?).flatMap (p.visit cont) ∧
      log'.filterMap Event.branch? = (log.filterMap Event.branch?).map (p.moved cont) := by
  obtain ⟨m, first, u, last, hrun, hstop, rfl, rfl⟩ := hends
  obtain ⟨m', first', u', due', hrun', hsim', hpath, hbranches⟩ := runs h hp hphi hg hrun hsim
  obtain rfl := hstop.eq_nil_of_ok
  -- Only the end of a block that returns is an end of the whole.
  cases hstop with
  | finish hblock hleave =>
    obtain ⟨rfl, block', rfl, hblock', hleave'⟩ := leaves h hp hg hblock hleave hsim'
    refine ⟨_, _, ⟨m', first', _, [], hrun', .finish hblock' hleave', rfl, rfl⟩, ?_, ?_⟩
    · rw [List.append_nil] at hpath ⊢
      rw [hpath, List.append_nil]
    · rw [List.append_nil, List.append_nil, hbranches]

end Steps

end Sim

end Spot

/-! ### Runs -/

/-- The run with the block `origin` walked in two halves, of which `cont` is the second one. -/
def Execution.split (origin cont : BlockId) (e : Execution) : Execution where
  ret := e.ret
  path := e.path.flatMap fun b => if b = origin then #[origin, cont] else #[b]
  branches := e.branches.map fun e => if e.block = origin then { e with block := cont } else e

section Runs

variable {f g : Function} {p : Spot} {cont : BlockId}

/-- What a finished run becomes, by the events of its walk. -/
theorem Execution.split_eq {log log' : List Event} {e : Execution}
    (hpath : e.path = (log.filterMap Event.entered?).toArray)
    (hbranches : e.branches = (log.filterMap Event.branch?).toArray)
    (hpath' : log'.filterMap Event.entered? =
      (log.filterMap Event.entered?).flatMap (p.visit cont))
    (hbranches' : log'.filterMap Event.branch? =
      (log.filterMap Event.branch?).map (p.moved cont)) :
    e.split p.home cont =
      { ret := e.ret
        path := (log'.filterMap Event.entered?).toArray
        branches := (log'.filterMap Event.branch?).toArray } := by
  -- The record renames as the two maps on events do.
  have hvisit : ∀ b, (if b = p.home then #[p.home, cont] else #[b]).toList = p.visit cont b := by
    intro b
    rw [Spot.visit]
    split <;> rfl
  have hmoved : ∀ e : BranchEvent,
      (if e.block = p.home then { e with block := cont } else e) = p.moved cont e := by
    intro e
    rw [Spot.moved, Spot.forth]
    split <;> rfl
  rw [Execution.split, hpath, hbranches, hpath', hbranches', List.flatMap_toArray,
    List.map_toArray]
  simp only [hvisit, hmoved]

/-- **A run of the cut function** returns what the run returned, and walks the block in two
    halves. -/
theorem Spot.Cuts.run_eq (hg : p.Cuts cont f g) (h : f.Regular) (hp : p.In f)
    (hphi : p.inst.kind.isPhi = false) {args : List Scalar} {limit : Nat} {e : Execution}
    (hrun : f.run args limit = .ok e) :
    ∃ bound, ∀ limit', bound ≤ limit' → g.run args limit' = .ok (e.split p.home cont) := by
  cases hstart : f.start args with
  | error halt =>
    rw [Function.run_of_start_error hstart] at hrun
    cases hrun
  | ok s =>
    obtain ⟨-, regs, rfl, -⟩ := Function.start_eq_ok hstart
    have hstart' : g.start args = .ok (.entering none f.entry regs) :=
      (Function.start_congr hg.params_eq hg.valueTypes_eq hg.entry_eq args).trans hstart
    -- A run that succeeds is a walk to the end within its limit.
    rcases Function.run_cases hstart limit with ⟨n, log, r, hends, -, hresult⟩ | ⟨-, -, -, -, hcut⟩
    · rw [hrun] at hresult
      obtain ⟨rfl, hpath, hbranches⟩ := Trace.result_eq_ok hresult.symm
      obtain ⟨n', log', hends', hpath', hbranches'⟩ :=
        Spot.Sim.ends h hp hphi hg hends (.entering fun b hb => by cases hb)
      refine ⟨n', fun limit' hle => ?_⟩
      rw [Function.run_of_ends hstart' hends', if_pos hle,
        Execution.split_eq hpath hbranches hpath' hbranches']
      simp [Trace.result, Trace.extend, Except.map]
    · rw [hrun] at hcut
      cases hcut

end Runs

/-- In a verified function an instruction that is no phi can be split behind. -/
theorem Function.WellFormed.exists_cuts {f : Function} (h : f.WellFormed) {i : Inst}
    (hi : i ∈ f.allInsts) :
    ∃ p : Spot, p.In f ∧ p.inst = i ∧ ∃ g,
      Edit.splitBlockAfter i.id f = .ok (some (p.home, ⟨f.blocks.size⟩)) g ∧
        p.Cuts ⟨f.blocks.size⟩ f g := by
  rcases h.laid.locate_cases i.id with ⟨-, hnone⟩ | ⟨p, hp, hid, hlocate⟩
  · exact absurd rfl (hnone i hi)
  · have hmem := h.laid.arranged.inst_mem_allInsts hp.toIn ((h.mem_layout _).2 hp.home_lt)
    have hinst : p.inst = i := List.inj_on_of_nodup_map h.instIds_nodup hmem hi hid
    obtain ⟨t, ht, -⟩ := h.closed p.home p.block hp.block_eq
    have hfollowed : p.Followed := .inr fun hterm => by simp [ht] at hterm
    exact ⟨p, hp.toIn, hinst, _, splitBlockAfter_eq hp.toIn hlocate hfollowed,
      cuts_cutBlock hp.toIn⟩

/-- **Splitting is sound.**  In a verified function every instruction that is no phi can be split
    behind: its block is cut in two, the function is verified again, the walk meets the same
    instruction ids, and a run that returns something returns it again, with the two halves walked
    one after the other and branches taken at the end of the second one.  In any function with
    blocks at their places, a layout of blocks that exist and instruction ids that are distinct in
    the arena or along the layout, the edit does nothing exactly where nothing follows the
    instruction. -/
theorem splitBlockAfter_sound :
    (∀ f : Function, f.verify = .ok () → ∀ i ∈ f.allInsts, i.kind.isPhi = false →
      ∃ origin cont g, Edit.splitBlockAfter i.id f = .ok (some (origin, cont)) g ∧
        (∃ block, f.block? origin = some block ∧ i ∈ block.insts) ∧ f.block? cont = none ∧
        g.verify = .ok () ∧
        f.instIds = .ok (f.allInsts.map (·.id)) ∧ g.instIds = f.instIds ∧
        ∀ args limit e, f.run args limit = .ok e →
          ∃ bound, ∀ limit', bound ≤ limit' → g.run args limit' = .ok (e.split origin cont)) ∧
    ∀ f : Function, (∀ b block, f.block? b = some block → block.id = b) →
      (∀ b ∈ f.layout, b.index < f.blocks.size) →
      (f.blocks.toList.flatMap fun block => block.insts.map (·.id)).Nodup ∨
        (f.allInsts.map (·.id)).Nodup → ∀ i,
        (f.NothingBehind i → Edit.splitBlockAfter i f = .ok none f) ∧
          (¬ f.NothingBehind i → ∃ halves g, Edit.splitBlockAfter i f = .ok (some halves) g) := by
  refine ⟨fun f hverify i hi hphi => ?_, fun f hids hlayout hdistinct i =>
    Function.splitBlockAfter_decides hids hlayout
      (hdistinct.elim Function.idsDistinct_of_blocks Function.idsDistinct_of_allInsts) i⟩
  -- The first half needs a verified function; the second only asks for ids that tell instructions
  -- apart.
  have h := Function.verified_iff_wellFormed.1 hverify
  obtain ⟨p, hp, rfl, g, hsplit, hg⟩ := h.exists_cuts hi
  refine ⟨p.home, _, g, hsplit, ⟨p.block, hp.block_eq, hp.inst_mem⟩,
    Function.block?_eq_none_iff.2 (Nat.le_refl _), ?_, h.laid.arranged.instIds_eq, ?_, ?_⟩
  · exact Function.verified_iff_wellFormed.2 (hg.wellFormed h hp hphi)
  · exact hg.instIds_eq h.laid.arranged hp ((h.mem_layout _).2 hp.home_lt)
  · exact fun args limit e hrun => hg.run_eq h.toRegular hp hphi hrun

/-- A run in which the block that is split is entered from itself. -/
theorem run_doubling_again : doubling.run [.int 32 0x20000000] 100 =
    .ok { ret := some (.int 32 0x80000000)
          path := #[⟨0⟩, ⟨1⟩, ⟨1⟩, ⟨2⟩]
          branches := #[{ block := ⟨1⟩, cond := false }, { block := ⟨1⟩, cond := true }] } := by
  decide +kernel

theorem splitBlockAfter_sound_doubling :
    doubling.verify = .ok () ∧ (doubling.allInsts.map (·.id)).Nodup ∧
      (∃ origin cont g, Edit.splitBlockAfter ⟨1⟩ doubling = .ok (some (origin, cont)) g ∧
        g.verify = .ok () ∧ g.instIds = doubling.instIds ∧
        ∃ bound, ∀ limit, bound ≤ limit → g.run [.int 32 0x20000000] limit =
          .ok (Execution.split origin cont
            { ret := some (.int 32 0x80000000)
              path := #[⟨0⟩, ⟨1⟩, ⟨1⟩, ⟨2⟩]
              branches := #[{ block := ⟨1⟩, cond := false }, { block := ⟨1⟩, cond := true }] })) ∧
      doubling.NothingBehind ⟨3⟩ ∧ Edit.splitBlockAfter ⟨3⟩ doubling = .ok none doubling := by
  obtain ⟨hsound, hdecides⟩ := splitBlockAfter_sound
  have h := Function.verified_iff_wellFormed.1 verify_doubling
  -- Instruction 3 is not there, and instruction 1 is followed by others.
  have hnothing : doubling.NothingBehind ⟨3⟩ := .inl (by decide)
  have hi : doubling.allInsts.get ⟨1, by decide⟩ ∈ doubling.allInsts := List.get_mem _ _
  obtain ⟨origin, cont, g, hsplit, -, -, hverify, -, hids, hruns⟩ :=
    hsound doubling verify_doubling _ hi rfl
  exact ⟨verify_doubling, h.instIds_nodup,
    ⟨origin, cont, g, hsplit, hverify, hids, hruns _ _ _ run_doubling_again⟩, hnothing,
    (hdecides doubling h.ids h.laid.arranged.layout_lt (.inr h.instIds_nodup) ⟨3⟩).1
      hnothing⟩

end ArithWatch
