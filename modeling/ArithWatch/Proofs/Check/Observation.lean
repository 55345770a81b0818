import ArithWatch.Proofs.Check.Meaning
import ArithWatch.Proofs.Check.Sites
import ArithWatch.Proofs.Execution.Attachments

namespace ArithWatch

/-!
# What runs show

A run of a function with checks shows for every execution of a watched instruction what its checks
find, and it shows nothing else.

* `CheckSite.Observed` says this of the events of a run.
* `Insertion.Outside` are the states outside the chain of a site; `Insertion.Stands.detour` is the
  way through the chain.
* `Insertion.Stands.observed` is one site, `instrument_observed` are all sites of a report.
-/

/-! ### Values that are never there -/

/-- The value has no content. -/
def Registers.Unset (v : ValueId) (regs : Registers) : Prop := ∀ a, regs.read (.value v) ≠ .ok a

/-- Every instruction with the result `v` reads `v`, and is no phi. -/
def Function.SelfFed (f : Function) (v : ValueId) : Prop :=
  ∀ b block, f.block? b = some block → ∀ i ∈ block.insts, i.result = v →
    i.kind.isPhi = false ∧ .value v ∈ i.kind.operands

section Unset

variable {f : Function} {v : ValueId} {regs regs' : Registers}

/-- An instruction that gives something has read all its operands. -/
theorem Inst.exists_read_of_eval {i : Inst} {a : Scalar} (h : i.eval regs = .ok a) {op : Operand}
    (hop : op ∈ i.kind.operands) : ∃ x, regs.read op = .ok x := by
  have hsides : ∀ {lhs rhs x y}, op ∈ [lhs, rhs] → regs.read lhs = .ok x →
      regs.read rhs = .ok y → ∃ x, regs.read op = .ok x := by
    intro lhs rhs x y hmem hx hy
    rcases List.mem_pair.1 hmem with rfl | rfl
    · exact ⟨x, hx⟩
    · exact ⟨y, hy⟩
  -- An instruction in a body reads both of its sides before it computes.
  cases hk : i.kind with
  | binary o lhs rhs flags =>
    rw [hk] at hop
    obtain ⟨x, y, hx, hy, -⟩ := eval_binary_eq_ok hk h
    exact hsides hop hx hy
  | icmp pred lhs rhs =>
    rw [hk] at hop
    obtain ⟨x, y, hx, hy, -⟩ := eval_icmp_eq_ok hk h
    exact hsides hop hx hy
  | fcmp pred lhs rhs =>
    rw [hk] at hop
    obtain ⟨x, y, hx, hy, -⟩ := eval_fcmp_eq_ok hk h
    exact hsides hop hx hy
  | phi incoming =>
    simp only [eval, hk] at h
    cases h

namespace Registers.Unset

/-- Writing another value leaves this one unset. -/
theorem write (h : regs.Unset v) {w : ValueId} {a : Scalar} (hne : w ≠ v)
    (hwrite : regs.write w a = .ok regs') : regs'.Unset v := by
  intro b
  rw [read_write hwrite, if_neg hne]
  exact h b

/-- So do several writes. -/
theorem writeAll (h : regs.Unset v) {writes : List (ValueId × Scalar)}
    (hne : ∀ e ∈ writes, e.1 ≠ v) (hwrite : regs.writeAll writes = .ok regs') : regs'.Unset v := by
  induction writes generalizing regs with
  | nil =>
    cases hwrite
    exact h
  | cons e rest ih =>
    obtain ⟨w, a⟩ := e
    rw [List.forall_mem_cons] at hne
    rw [Registers.writeAll] at hwrite
    split at hwrite
    · next regs₁ hfirst => exact ih (h.write hne.1 hfirst) hne.2 hwrite
    · cases hwrite

/-- So does binding the arguments, if it is no parameter. -/
theorem bindArgs (h : regs.Unset v) {index : Nat} {args : List (ValueId × Scalar)}
    (hne : ∀ e ∈ args, e.1 ≠ v) (hbind : f.bindArgs index regs args = .ok regs') :
    regs'.Unset v := by
  induction args generalizing index regs with
  | nil =>
    cases hbind
    exact h
  | cons e rest ih =>
    obtain ⟨w, a⟩ := e
    rw [List.forall_mem_cons] at hne
    rw [Function.bindArgs] at hbind
    split at hbind
    · cases hbind
    · split at hbind
      · split at hbind
        · cases hbind
        · next regs₁ hfirst => exact ih (h.write hne.1 hfirst) hne.2 hbind
      · cases hbind

end Registers.Unset

/-- A value that only instructions reading it could give is never there. -/
theorem Advances.unset (hv : f.SelfFed v) {s t : RunState} {events : List Event}
    (hstep : Advances f s events t) (hs : s.Sound f) (h : s.regs.Unset v) : t.regs.Unset v := by
  cases hstep with
  | @enter prev cur block regs regs' hblock henter =>
    obtain ⟨writes, hphis, hwrite⟩ := except_bind_eq_ok.1 henter
    refine h.writeAll (fun e he hresult => ?_) hwrite
    rw [← Inst.evalPhis_takeWhile] at hphis
    obtain ⟨i, hi, hi'⟩ := Inst.exists_of_evalPhis hphis e he
    have hphi := (hv cur block hblock i ((List.takeWhile_sublist _).mem hi) (hi'.trans hresult)).1
    have hleading := List.all_eq_true.1 List.all_takeWhile i hi
    simp [hphi] at hleading
  | @exec cur i rest regs a regs' heval hwrite =>
    obtain ⟨block, hblock, hmem⟩ := hs.inst_mem
    refine h.write (fun hresult => ?_) hwrite
    obtain ⟨x, hx⟩ := Inst.exists_read_of_eval heval
      (hv cur block hblock i (hmem i List.mem_cons_self) hresult).2
    exact h x hx
  | jump hblock hleave => exact h
  | branch hblock hleave => exact h

/-- A value that only its own definition could set stays unset. -/
theorem Runs.unset (hf : f.Regular) (hv : f.SelfFed v) {s t : RunState} {n : Nat} {log : List Event}
    (hrun : Runs f s n log t) (hs : s.Sound f) (h : s.regs.Unset v) : t.regs.Unset v := by
  induction hrun with
  | refl s => exact h
  | head hstep _ ih => exact ih (hstep.sound hf hs) (hstep.unset hv hs h)

/-- At the start only parameters are set. -/
theorem Function.start_unset {args : List Scalar} {s : RunState} (hv : v ∉ f.params)
    (hstart : f.start args = .ok s) : s.regs.Unset v := by
  obtain ⟨-, regs, rfl, hbind⟩ := start_eq_ok hstart
  have hempty : Registers.Unset v (Array.replicate f.valueTypes.size none) := fun a ha => by
    rw [Registers.read_replicate] at ha
    cases ha
  exact hempty.bindArgs (fun e he hsame => hv (hsame ▸ (List.of_mem_zip he).1)) hbind

end Unset

/-! ### What the events of a run show -/

namespace CheckSite

/-- What the chain of a site shows for an execution that reads `a` and `b` and gives `r`: every
    decision block is entered and branches on what its check finds, in order. -/
def findings (s : CheckSite) (t : Threshold) (a b r : Scalar) : List Event :=
  s.checks.flatMap fun c => [.enter c.block, .branch c.block (c.kind.holds t s.op a b r)]

/-- The events of a run are in order at a site that watches the instruction `i`: behind every
    execution of `i` stand the findings of the chain, then the rest of the block is entered, and
    nothing else happens in the chain. -/
inductive Observed (s : CheckSite) (t : Threshold) (i : Inst) : List Event → Prop
  | done : Observed s t i []
  | other {e : Event} {rest : List Event} :
    e.block ∉ s.decisionBlocks → (∀ b reads r, e ≠ .exec b i reads r) →
    Observed s t i rest → Observed s t i (e :: rest)
  | watched {a b r : Scalar} {visit rest : List Event} :
    (∀ e ∈ visit, e.block ∈ s.decisionBlocks) →
    visit.filter (!·.isExec) = s.findings t a b r →
    Observed s t i (.enter s.contBlock :: rest) →
    Observed s t i (.exec s.originBlock i [a, b] r :: (visit ++ .enter s.contBlock :: rest))

end CheckSite

/-! ### Outside the chain -/

namespace Insertion

/-- A run is outside the chain, and not behind the watched instruction. -/
inductive Outside (s : Insertion) (f : Function) : RunState → Prop
  | entering {prev cur regs} :
    cur ∉ (s.decisions f).map (·.block) → Outside s f (.entering prev cur regs)
  | elsewhere {cur rest regs} :
    cur ∉ (s.decisions f).map (·.block) → cur ≠ s.spot.home → Outside s f (.inside cur rest regs)
  | front {mid regs} : Outside s f (.inside s.spot.home (mid ++ [s.spot.inst]) regs)

/-- The run is about to execute the watched instruction. -/
def Due (s : Insertion) (t : RunState) : Prop :=
  ∃ regs, t = .inside s.spot.home [s.spot.inst] regs

/-- The event has nothing to do with the site. -/
def Ignores (s : Insertion) (f : Function) (e : Event) : Prop :=
  e.block ∉ (s.decisions f).map (·.block) ∧ ∀ b reads r, e ≠ .exec b s.spot.inst reads r

variable {s : Insertion} {f h : Function}

namespace Stands

variable (hst : s.Stands f h)

include hst

/-- The watched instruction ends the body of its block. -/
theorem exists_body : ∃ block mid, h.block? s.spot.home = some block ∧
    block.body = mid ++ [s.spot.inst] ∧ block.term = some (s.branch f) := by
  obtain ⟨before, block, hblock, hinsts, hterm⟩ := hst.home
  refine ⟨block, before.dropWhile (·.kind.isPhi), hblock, ?_, hterm⟩
  have hphi := hst.fits.not_phi
  rw [Block.body, hinsts, List.dropWhile_append]
  split
  · next hempty =>
    rw [List.isEmpty_iff.1 hempty, List.dropWhile_cons_of_neg (by simp [hphi]), List.nil_append]
  · rfl

/-- The watched instruction is executed in its block only. -/
theorem home_of_exec (hh : h.Regular) {cur : BlockId} {rest : List Inst} {regs : Registers}
    (hs : RunState.Sound h (.inside cur (s.spot.inst :: rest) regs)) : cur = s.spot.home := by
  obtain ⟨before, block, hblock, hinsts, -⟩ := hst.home
  obtain ⟨block', hblock', hmem⟩ := hs.inst_mem
  refine hh.block_unique hblock' hblock (hmem _ List.mem_cons_self) ?_
  rw [hinsts]
  exact List.mem_append_right _ List.mem_cons_self

/-- From outside control does not go into the chain but from the watched instruction. -/
theorem target_not_mem {b c : BlockId} (hb : b ∉ (s.decisions f).map (·.block))
    (hne : b ≠ s.spot.home) (hedge : h.Edge b c) : c ∉ (s.decisions f).map (·.block) := by
  intro hc
  rcases hst.entered b c (.inr hc) hedge with ⟨heq, -⟩ | ⟨d, hd, heq, -⟩
  · exact hne heq
  · exact hb (heq ▸ List.mem_map_of_mem hd)

/-- Outside, an instruction that is not due is not the watched one, and what follows is outside. -/
theorem exec (hh : h.Regular) {cur : BlockId} {i : Inst} {rest : List Inst} {regs : Registers}
    (hs : RunState.Sound h (.inside cur (i :: rest) regs))
    (ho : s.Outside f (.inside cur (i :: rest) regs))
    (hdue : ¬ s.Due (.inside cur (i :: rest) regs)) :
    (∀ regs', s.Outside f (.inside cur rest regs')) ∧ i ≠ s.spot.inst := by
  generalize hrest : i :: rest = all at ho
  cases ho with
  | elsewhere hcur hne =>
    refine ⟨fun _ => .elsewhere hcur hne, ?_⟩
    rintro rfl
    exact hne (hst.home_of_exec hh hs)
  | @front mid _ =>
    cases mid with
    | nil =>
      cases hrest
      exact (hdue ⟨regs, rfl⟩).elim
    | cons j mid =>
      cases hrest
      -- the watched instruction stands once in its block, and that is at the end
      obtain ⟨-, block, hblock, hsuffix⟩ := hs
      have hnodup : (i :: (mid ++ [s.spot.inst])).Nodup :=
        (hh.insts_nodup hblock).sublist (hsuffix.sublist.trans (List.dropWhile_sublist _))
      refine ⟨fun _ => .front, ?_⟩
      rintro rfl
      exact (List.nodup_cons.1 hnodup).1 (List.mem_append_right _ List.mem_cons_self)

/-- No instruction outside is one of the chain. -/
theorem not_mem_of_outside {cur : BlockId} {rest : List Inst} {regs : Registers}
    (ho : s.Outside f (.inside cur rest regs)) : cur ∉ (s.decisions f).map (·.block) := by
  cases ho with
  | elsewhere hcur _ => exact hcur
  | front => exact not_mem_of_lt hst.fits.spot_in.home_lt

/-- **One step outside.** It stays outside and has nothing to do with the site, unless the watched
    instruction is due. -/
theorem advances (hh : h.Regular) {t u : RunState} {events : List Event}
    (hstep : Advances h t events u) (hs : t.Sound h) (ho : s.Outside f t) (hdue : ¬ s.Due t) :
    s.Outside f u ∧ ∀ e ∈ events, s.Ignores f e := by
  -- Outside the site, no step is in a decision block, and none executes the watched instruction.
  cases hstep with
  | @enter prev cur block regs regs' hblock henter =>
    cases ho with
    | entering hcur =>
      refine ⟨?_, fun e he => ?_⟩
      · by_cases hhome : cur = s.spot.home
        · subst hhome
          obtain ⟨block', mid, hblock', hbody, -⟩ := hst.exists_body
          rw [hblock, Option.some.injEq] at hblock'
          subst hblock'
          rw [hbody]
          exact .front
        · exact .elsewhere hcur hhome
      · rw [List.mem_singleton.1 he]
        exact ⟨hcur, fun b reads r => nofun⟩
  | exec heval hwrite =>
    obtain ⟨ho', hne⟩ := hst.exec hh hs ho hdue
    refine ⟨ho' _, fun e he => ?_⟩
    rw [List.mem_singleton.1 he]
    refine ⟨hst.not_mem_of_outside ho, fun b reads r heq => ?_⟩
    cases heq
    exact hne rfl
  | @jump cur block regs target hblock hleave =>
    generalize hrest : ([] : List Inst) = all at ho
    cases ho with
    | elsewhere hcur hne =>
      exact ⟨.entering (hst.target_not_mem hcur hne ⟨block, hblock,
        Block.mem_successors_of_leave (.inl hleave)⟩), fun e he => nomatch he⟩
    | front => simp at hrest
  | @branch cur block regs cond target hblock hleave =>
    generalize hrest : ([] : List Inst) = all at ho
    cases ho with
    | elsewhere hcur hne =>
      refine ⟨.entering (hst.target_not_mem hcur hne ⟨block, hblock,
        Block.mem_successors_of_leave (.inr ⟨cond, hleave⟩)⟩), fun e he => ?_⟩
      rw [List.mem_singleton.1 he]
      exact ⟨hcur, fun b reads r => nofun⟩
    | front => simp at hrest

/-- Where the watched instruction reads its own result, nothing gives that result. -/
theorem selfFed (hh : h.Regular) (hself : .value s.spot.inst.result ∈ s.spot.inst.kind.operands) :
    h.SelfFed s.spot.inst.result := by
  intro b block hblock i hi hresult
  obtain ⟨before, block', hblock', hinsts, -⟩ := hst.home
  have hmem : s.spot.inst ∈ block'.insts := by
    rw [hinsts]
    exact List.mem_append_right _ List.mem_cons_self
  obtain rfl := hh.eq_of_result_eq (hh.laid.mem_allInsts.2 ⟨b, block, hblock, hi⟩)
    (hh.laid.mem_allInsts.2 ⟨_, _, hblock', hmem⟩) hresult
  exact ⟨hst.fits.not_phi, hself⟩

/-- Behind the watched instruction its sides still read as they did. -/
theorem exists_holds {regs regs₁ : Registers} {r : Scalar}
    (hunset : .value s.spot.inst.result ∈ s.spot.inst.kind.operands →
      regs.Unset s.spot.inst.result)
    (heval : s.spot.inst.eval regs = .ok r) (hwrite : regs.write s.spot.inst.result r = .ok regs₁)
    (hlegal : regs₁.Legal h) :
    ∃ a b, regs.readAll s.spot.inst.kind.operands = [a, b] ∧
      s.probe.watched.Holds regs₁ a b r := by
  obtain ⟨flags, hkind⟩ := hst.fits.watches
  obtain ⟨a, b, ha, hb, -⟩ := Inst.eval_binary_eq_ok hkind heval
  have hoperands : s.spot.inst.kind.operands = [s.probe.watched.lhs, s.probe.watched.rhs] := by
    rw [hkind]
    rfl
  -- The instruction does not write one of its own operands, since an operand without a value would
  -- have stopped it.
  have hsame : ∀ op ∈ s.spot.inst.kind.operands, ∀ x, regs.read op = .ok x →
      regs₁.read op = .ok x := by
    intro op hop x hx
    cases op with
    | const c => exact hx
    | value v =>
      have hne : s.spot.inst.result ≠ v := by
        rintro rfl
        exact hunset hop x hx
      rw [Registers.read_write hwrite, if_neg hne, hx]
  have ha' := hsame _ (by rw [hoperands]; exact List.mem_cons_self) a ha
  have hb' := hsame _ (by rw [hoperands]; exact List.mem_cons_of_mem _ List.mem_cons_self) b hb
  have hr : regs₁.read (.value s.probe.watched.result) = .ok r := by
    rw [hst.fits.result_eq, Registers.read_write hwrite, if_pos rfl]
  refine ⟨a, b, ?_, hst.typed.holds hlegal ha' hb' hr⟩
  rw [hoperands, Registers.readAll]
  simp [ha, hb, Except.toOption]

/-- The visits of the decision blocks are the findings of the chain. -/
theorem flatMap_visit {a b r : Scalar} (ha : a.IsOf s.probe.watched.ty)
    (hb : b.IsOf s.probe.watched.ty) (hr : r.IsOf s.probe.watched.ty) (id : SiteId) :
    (s.decisions f).flatMap (s.probe.visit a b r) =
      (s.site f id).findings s.probe.threshold a b r := by
  rw [CheckSite.findings, site, List.flatMap_map]
  refine List.flatMap_congr fun d hd => ?_
  have hmem : d.predicate ∈ s.checks := predicate_mem_checks hd
  rw [Probe.visit, Probe.truth_eq (hst.fits.checks_eq ▸ hmem) (hst.fits.family _ hmem)
    hst.fits.int_ty ha hb hr]
  rfl

/-- **The way through the chain.** It shows the findings and nothing else. -/
theorem detour {regs : Registers} {a b r : Scalar} (hholds : s.probe.watched.Holds regs a b r)
    (hsize : regs.size = h.valueTypes.size) (id : SiteId) :
    ∃ n last regs' visit, Runs h (.inside s.spot.home [] regs) n visit
        (.entering (some last) (cont f) regs') ∧
      (∀ e ∈ visit, e.block ∈ (s.site f id).decisionBlocks) ∧
      visit.filter (!·.isExec) = (s.site f id).findings s.probe.threshold a b r := by
  obtain ⟨block, mid, hblock, -, hterm⟩ := hst.exists_body
  have hleave : Advances h (.inside s.spot.home [] regs) []
      (.entering (some s.spot.home) (entrance (cont f) (s.decisions f)) regs) := by
    refine .jump hblock ?_
    rw [Block.leave, hterm]
    rfl
  have hroom : f.valueTypes.size + (s.code f).length ≤ regs.size := hsize ▸ hst.room
  obtain ⟨n, last, regs', visit, hrun, -, -, hblocks, hvisit⟩ :=
    Probe.runs_chain hst.decision
      (fun p hp => CheckPredicate.formula_fits _ (hst.fits.family p hp)) hholds
      (fun v hv => hst.regular.defined_lt v (Makes.defined_of_mentions hst.regular hst.fits hv))
      hroom s.spot.home
  -- The home jumps into the chain, and the chain is walked block by block.
  refine ⟨_, last, regs', visit, (Runs.single hleave).trans hrun, fun e he => ?_, ?_⟩
  · rw [decisionBlocks_site]
    exact hblocks e he
  · rw [hvisit]
    exact hst.flatMap_visit hholds.lhs_is hholds.rhs_is hholds.result_is id

end Stands

end Insertion

/-! ### Whole runs -/

/-- A state owes at most one step. -/
theorem RunState.cost_le_one (s : RunState) : s.cost ≤ 1 := by
  cases s <;> simp [cost]

/-- Entering a block is free, but not twice in a row. -/
theorem Advances.cost_pos {f : Function} {s t : RunState} {events : List Event}
    (hstep : Advances f s events t) : 1 ≤ s.cost + t.cost := by
  cases hstep <;> simp [RunState.cost]

/-- A run that returns has entered the block it was about to enter. -/
theorem Ends.eq_enter_cons {f : Function} {prev : Option BlockId} {cur : BlockId}
    {regs : Registers} {n : Nat} {log : List Event} {ret : Option Scalar}
    (hends : Ends f (.entering prev cur regs) n log (.ok ret)) :
    ∃ rest, log = .enter cur :: rest := by
  rcases hends.head_cases with hstop | ⟨events, t, n', log', hstep, -, -, rfl⟩
  · cases hstop
  · cases hstep
    exact ⟨log', rfl⟩

/-- Events that have nothing to do with a site do not matter. -/
theorem CheckSite.Observed.append {s : Insertion} {f : Function} {id : SiteId} {t : Threshold}
    {events rest : List Event} (hevents : ∀ e ∈ events, s.Ignores f e)
    (h : (s.site f id).Observed t s.spot.inst rest) :
    (s.site f id).Observed t s.spot.inst (events ++ rest) := by
  induction events with
  | nil => exact h
  | cons e events ih =>
    rw [List.forall_mem_cons] at hevents
    refine .other ?_ hevents.1.2 (ih hevents.2)
    rw [Insertion.decisionBlocks_site]
    exact hevents.1.1

/-- **One site.** A run that starts outside the chain and ends well is in order at the site. -/
theorem Insertion.Stands.observed {s : Insertion} {f h : Function} (hst : s.Stands f h)
    (hh : h.Regular) (id : SiteId) {t : RunState} {n : Nat} {log : List Event}
    {ret : Option Scalar} (hends : Ends h t n log (.ok ret)) (hs : t.Sound h)
    (ho : s.Outside f t) (hunset : .value s.spot.inst.result ∈ s.spot.inst.kind.operands →
      t.regs.Unset s.spot.inst.result) :
    (s.site f id).Observed s.probe.threshold s.spot.inst log := by
  -- every step costs something, but that the one into a block is followed by one that does
  induction hm : 2 * n + 1 - t.cost using Nat.strongRecOn generalizing t n log with
  | ind m ih =>
    subst hm
    rcases hends.head_cases with hstop | ⟨events, u, n', log', hstep, hends', rfl, rfl⟩
    · rw [hstop.eq_nil_of_ok]
      exact .done
    have hs' := hstep.sound hh hs
    have hunset' : .value s.spot.inst.result ∈ s.spot.inst.kind.operands →
        u.regs.Unset s.spot.inst.result :=
      fun hself => hstep.unset (hst.selfFed hh hself) hs (hunset hself)
    by_cases hdue : s.Due t
    · obtain ⟨regs, rfl⟩ := hdue
      cases hstep with
      | @exec _ _ _ _ r regs₁ heval hwrite =>
        obtain ⟨a, b, hreads, hholds⟩ := hst.exists_holds hunset heval hwrite hs'.1
        obtain ⟨k, last, regs', visit, hrun, hblocks, hfindings⟩ :=
          hst.detour hholds hs'.1.size_eq id
        obtain ⟨n'', log'', hends'', rfl, rfl⟩ := hends'.after hrun
        obtain ⟨rest, rfl⟩ := hends''.eq_enter_cons
        have hcost : 2 * n'' + 1 - 0 < 2 * (1 + (k + n'')) + 1 - 1 := by omega
        have hrest := ih _ hcost hends'' (hrun.sound hh hs') (.entering cont_not_mem)
          (fun hself => hrun.unset hh (hst.selfFed hh hself) hs' (hunset' hself)) rfl
        rw [show regs.readAll s.spot.inst.kind.operands = [a, b] from hreads]
        exact .watched hblocks hfindings hrest
    · obtain ⟨ho', hignores⟩ := hst.advances hh hstep hs ho hdue
      have hpos := hstep.cost_pos
      have hle := t.cost_le_one
      have hcost : 2 * n' + 1 - u.cost < 2 * (t.cost + n') + 1 - t.cost := by omega
      exact .append hignores (ih _ hcost hends' hs' ho' hunset' rfl)

/-- A run starts outside the chain of every site, and the result of a watched instruction is not
    there yet. -/
theorem Insertion.Stands.start {s : Insertion} {f h : Function} (hst : s.Stands f h)
    (hh : h.Regular) {args : List Scalar} {t : RunState} (hstart : h.start args = .ok t) :
    s.Outside f t ∧ t.regs.Unset s.spot.inst.result := by
  constructor
  · obtain ⟨-, regs, rfl, -⟩ := Function.start_eq_ok hstart
    refine .entering fun hmem => ?_
    have hnew := (new_of_mem (.inr hmem)).1
    rw [hst.entry_eq] at hnew
    exact Nat.not_lt.2 hnew ((hst.regular.mem_layout _).1 hst.regular.entry_mem)
  · obtain ⟨before, block, hblock, hinsts, -⟩ := hst.home
    have hmem : s.spot.inst ∈ h.allInsts := by
      refine hh.laid.mem_allInsts.2 ⟨_, block, hblock, ?_⟩
      rw [hinsts]
      exact List.mem_append_right _ List.mem_cons_self
    refine Function.start_unset (fun hparam => ?_) hstart
    exact (List.nodup_append.1 hh.defined_nodup).2.2 _ hparam _ (List.mem_map_of_mem hmem) rfl

/-- **What runs show.** Instrumenting a verified function never fails.  Every run of the new
    function that returns something is a walk whose events are in order at every site of the report:
    each execution of the instruction of a site is followed by the findings of its chain on the
    values that it read and gave. -/
theorem instrument_observed (t : Threshold) (options : InstrumentOptions) (f : Function)
    (hverify : f.verify = .ok ()) :
    ∃ report f', Edit.instrument t options f = .ok report f' ∧
      ∀ (args : List Scalar) (limit : Nat) (e : Execution), (∀ a ∈ args, a.Fits) →
        f'.run args limit = .ok e →
        ∃ start n log, f'.start args = .ok start ∧ Ends f' start n log (.ok e.ret) ∧
          e.path = (log.filterMap Event.entered?).toArray ∧
          e.branches = (log.filterMap Event.branch?).toArray ∧
          ∀ s ∈ report.sites, ∃ i ∈ f.allInsts, i.id = s.inst ∧
            (∃ lhs rhs flags, i.kind = .binary s.op lhs rhs flags) ∧ s.Observed t i log := by
  have hf := Function.verified_iff_wellFormed.1 hverify
  obtain ⟨report, g, f', hrun, hinserts, halike, -⟩ := Edit.instrument_eq t options hf.toRegular
  have hg := hinserts.regular hf.toRegular
  have hsites := hinserts.stands hf.toRegular hf.queues
  refine ⟨report, f', hrun, fun args limit e hargs he => ?_⟩
  rw [halike.run_eq] at he
  cases hstart : g.start args with
  | error halt =>
    rw [Function.run_of_start_error hstart] at he
    cases he
  | ok start =>
    -- Only a run that ends has a result.
    rcases Function.run_cases hstart limit with
      ⟨n, log, r, hends, -, hresult⟩ | ⟨log, u, -, -, hlimit⟩
    · obtain ⟨rfl, hpath, hbranches⟩ := Trace.result_eq_ok (hresult.symm.trans he)
      refine ⟨start, n, log, (halike.start_eq args).trans hstart, halike.ends hends, hpath,
        hbranches, fun site hsite => ?_⟩
      obtain ⟨s, f₀, id, rfl, rfl, hst, -, hfind⟩ := hsites site hsite
      obtain ⟨flags, hkind⟩ := hst.fits.watches
      refine ⟨s.spot.inst, List.mem_of_find?_eq_some hfind, rfl, ⟨_, _, flags, hkind⟩, ?_⟩
      obtain ⟨houtside, hunset⟩ := hst.start hg hstart
      exact hst.observed hg id hends (Function.start_sound hg hargs hstart) houtside fun _ => hunset
    · rw [hlimit] at he
      cases he

/-- The double of 2 ^ 30 overflows as a signed integer and exceeds the threshold in both
    readings. -/
theorem run_instrumented_doubling :
    (match Edit.instrument .hundred {} doubling with
      | .ok report f' =>
        some (report.sites.map (·.kinds), (f'.run [.int 32 0x40000000] 30).toOption)
      | .error _ _ => none) =
    some ([[.intOverflow, .intExceptionalSignedValue, .intExceptionalUnsignedValue]],
      some {
        ret := some (.int 32 0x80000000)
        path := #[⟨0⟩, ⟨1⟩, ⟨4⟩, ⟨5⟩, ⟨6⟩, ⟨3⟩, ⟨2⟩]
        branches := #[⟨⟨4⟩, true⟩, ⟨⟨5⟩, true⟩, ⟨⟨6⟩, true⟩, ⟨⟨3⟩, true⟩] }) := by
  decide +kernel

/-- All three checks of the example fire. -/
theorem instrument_observed_doubling :
    doubling.verify = .ok () ∧ (∀ a ∈ [Scalar.int 32 0x40000000], a.Fits) ∧
      ∃ report f' e, Edit.instrument .hundred {} doubling = .ok report f' ∧
        report.sites.map (·.kinds) =
          [[.intOverflow, .intExceptionalSignedValue, .intExceptionalUnsignedValue]] ∧
        f'.run [.int 32 0x40000000] 30 = .ok e ∧
        e.branches = #[⟨⟨4⟩, true⟩, ⟨⟨5⟩, true⟩, ⟨⟨6⟩, true⟩, ⟨⟨3⟩, true⟩] ∧
        ∃ start n log, f'.start [.int 32 0x40000000] = .ok start ∧
          Ends f' start n log (.ok e.ret) ∧
          e.path = (log.filterMap Event.entered?).toArray ∧
          e.branches = (log.filterMap Event.branch?).toArray ∧
          ∀ s ∈ report.sites, ∃ i ∈ doubling.allInsts, i.id = s.inst ∧
            (∃ lhs rhs flags, i.kind = .binary s.op lhs rhs flags) ∧ s.Observed .hundred i log := by
  have hargs : ∀ a ∈ [Scalar.int 32 0x40000000], a.Fits := by decide
  obtain ⟨report, f', hinstrument, hobserved⟩ :=
    instrument_observed .hundred {} doubling verify_doubling
  have hshown := run_instrumented_doubling
  rw [hinstrument] at hshown
  obtain ⟨hkinds, hrun⟩ := Prod.mk.inj (Option.some.inj hshown)
  cases he : f'.run [.int 32 0x40000000] 30 with
  | error halt =>
    rw [he] at hrun
    cases hrun
  | ok e =>
    rw [he] at hrun
    refine ⟨verify_doubling, hargs, report, f', e, hinstrument, hkinds, he, ?_,
      hobserved _ 30 e hargs he⟩
    rw [Option.some.inj hrun]

end ArithWatch
