import ArithWatch.Proofs.Check.Tuned
import ArithWatch.Proofs.Execution.Attachments

namespace ArithWatch

/-!
# The pass with two thresholds

* `Function.blank` drops the bits of the constants in the decision blocks of bound checks.
* `Function.blank_retune`: retuning changes nothing else.
* `Execution.Tuned` says in what two finished runs with two thresholds may differ.
* `instrument_threshold`: two passes with different thresholds give one report, functions that
  differ in the constants of bound checks only, and runs that differ in what bound checks find only.
-/

/-! ### Constants without their bits -/

/-- The operand, with zero for the bits of a constant. -/
def Operand.blank : Operand → Operand
  | .value v => .value v
  | .const c => .const { c with bits := 0 }

/-- The instruction, with zero for the bits of its constants. -/
def InstKind.blank : InstKind → InstKind
  | .binary op lhs rhs flags => .binary op lhs.blank rhs.blank flags
  | .icmp pred lhs rhs => .icmp pred lhs.blank rhs.blank
  | .fcmp pred lhs rhs => .fcmp pred lhs.blank rhs.blank
  | .phi incoming => .phi (incoming.map fun (pred, v) => (pred, v.blank))

/-- The block, with zero for the bits of the constants of its instructions. -/
def Block.blank (b : Block) : Block :=
  { b with insts := b.insts.map fun i => { i with kind := i.kind.blank } }

/-- The function, with zero for the bits of the constants in the decision blocks of bound checks. -/
def Function.blank (m : CheckMap) (f : Function) : Function :=
  { f with blocks := f.blocks.mapIdx fun n b =>
      if (m.kind? ⟨n⟩).any (·.isBound) then b.blank else b }

/-- Blanked limits are the same, whatever they were. -/
theorem InstKind.blank_retune (k : CheckKind) (t : Threshold) (kind : InstKind) :
    (kind.retune k t).blank = kind.blank := by
  have hconst : ∀ (c : Constant) (o : Operation),
      (Operand.const ((k.bound? t c.ty o).getD c)).blank = (Operand.const c).blank := by
    intro c o
    cases hb : k.bound? t c.ty o with
    | none => rfl
    | some c' =>
      rw [Option.getD_some, Operand.blank, Operand.blank, CheckKind.ty_of_bound? hb]
  unfold retune
  split
  · rw [blank, blank, hconst]
  · rw [blank, blank, hconst]
  · rfl

/-- So are blocks with blanked limits. -/
theorem Block.blank_retune (k : Option CheckKind) (t : Threshold) (b : Block) :
    (b.retune k t).blank = b.blank := by
  cases k with
  | none => rfl
  | some k =>
    simp only [retune, blank, List.map_map, Function.comp_def, Inst.retune, InstKind.blank_retune]

/-- **Retuning** changes the bits of constants in decision blocks of bound checks only. -/
theorem Function.blank_retune (t : Threshold) (m : CheckMap) (f : Function) :
    (f.retune t m).blank m = f.blank m := by
  have hblocks : ((f.blocks.mapIdx fun n b => b.retune (m.kind? ⟨n⟩) t).mapIdx fun n b =>
        if (m.kind? ⟨n⟩).any (·.isBound) then b.blank else b) =
      f.blocks.mapIdx fun n b => if (m.kind? ⟨n⟩).any (·.isBound) then b.blank else b := by
    refine Array.ext (by simp) fun n hn _ => ?_
    simp only [Array.getElem_mapIdx]
    split
    · rw [Block.blank_retune]
    · next hbound =>
      refine Block.retune_of_not_isBound (fun k hk => ?_) _
      rw [hk, Option.any_some, Bool.not_eq_true] at hbound
      exact hbound
  rw [blank, blank, retune, hblocks]

/-! ### Attachments -/

/-- Functions that differ in metadata only still do so when both are retuned. -/
theorem Function.Alike.retune {f g : Function} (h : f.Alike g) (t : Threshold) (m : CheckMap) :
    (f.retune t m).Alike (g.retune t m) where
  frame := by rw [h.frame]; rfl
  size_eq := by rw [size_retune, size_retune, h.size_eq]
  exists_old b block hb := by
    rw [block?_retune] at hb
    obtain ⟨new, hnew, rfl⟩ := Option.map_eq_some_iff.1 hb
    obtain ⟨old, hold, halike⟩ := h.exists_old b new hnew
    refine ⟨_, by rw [block?_retune, hold, Option.map_some], ?_⟩
    refine ⟨?_, ?_, ?_, ?_, ?_⟩
    · rw [Block.id_retune, Block.id_retune, halike.id_eq]
    · rw [Block.name_retune, Block.name_retune, halike.name_eq]
    · cases m.kind? b with
      | none => exact halike.insts_eq
      | some k => simp only [Block.retune, halike.insts_eq]
    · rw [Block.term_retune, Block.term_retune, halike.exit_eq]
    · rw [Block.term_retune, Block.term_retune, halike.location_eq]

/-! ### Two passes -/

/-- Two finished runs with two thresholds: both return the same and take the same path, and they
    branch in the same way but for what bound checks find. -/
structure Execution.Tuned (t t' : Threshold) (m : CheckMap) (e e' : Execution) : Prop where
  ret_eq : e'.ret = e.ret
  path_eq : e'.path = e.path
  branches : List.Forall₂ (BranchEvent.Tuned t t' m) e.branches.toList e'.branches.toList

/-- The branches of two walks. -/
theorem Leeway.forall₂_tuned {t t' : Threshold} {m : CheckMap} {f : Function}
    {xs ys : List BranchEvent} (h : List.Forall₂ (Leeway.tuned t t' m f).Branches xs ys) :
    List.Forall₂ (BranchEvent.Tuned t t' m) xs ys := by
  refine h.imp fun x y hxy => ?_
  obtain ⟨b, c⟩ := x
  obtain ⟨b', c'⟩ := y
  obtain ⟨rfl, hcond⟩ := hxy
  exact hcond

/-- **Two thresholds.** On a verified function two passes that differ in the threshold both succeed,
    with one report.  The functions that they make differ only in the bits of constants in the
    decision blocks of bound checks (third part).  Runs of the two on the same arguments and under
    the same limit return the same and take the same path, or they fail in the same way, and only
    bound checks find different things: those for integers no more with a higher bound (fourth
    part).  The same holds of all that happens before a run fails: every walk of one function is
    matched by a walk of the other through the same blocks, which takes as many steps
    (last part). -/
theorem instrument_threshold (t t' : Threshold) (options : InstrumentOptions) {f : Function}
    (hverify : f.verify = .ok ()) :
    ∃ report g g', Edit.instrument t options f = .ok report g ∧
      Edit.instrument t' options f = .ok report g' ∧
      g'.blank report.checks = g.blank report.checks ∧
      (∀ args limit,
        Outcomes (Execution.Tuned t t' report.checks) (g.run args limit) (g'.run args limit)) ∧
      ∀ args, g'.start args = g.start args ∧
        ∀ s, g.start args = .ok s → ∀ n log u, Runs g s n log u →
          ∃ log' u', Runs g' s n log' u' ∧
            log'.filterMap Event.entered? = log.filterMap Event.entered? ∧
            List.Forall₂ (BranchEvent.Tuned t t' report.checks)
              (log.filterMap Event.branch?) (log'.filterMap Event.branch?) := by
  have hf := Function.verified_iff_wellFormed.1 hverify
  obtain ⟨report, g, hrun, hinserts, hr, -, hg, -⟩ := Edit.instrument_tagged t options hf.toRegular
  replace hrun := hrun options.emitMetadata
  obtain ⟨report', g₁, hrun₁, hrun₁'⟩ := Edit.instrument_retune t t' options hf
  rw [hrun] at hrun₁
  cases hrun₁
  -- the tags play no part
  obtain ⟨g₁, hg₁⟩ : ∃ g₁, g₁ = if options.emitMetadata then g.tagged report.checks else g :=
    ⟨_, rfl⟩
  have halike : g.Alike g₁ := hg₁ ▸ g.alike_ite_tagged report.checks options.emitMetadata
  rw [← hg₁] at hrun hrun₁'
  have halike' := halike.retune t' report.checks
  have hfunctions := (hinserts.footprint hf.toRegular hf.queues
    (.initial hf.toRegular t _)).functions hr hg t'
  refine ⟨report, g₁, g₁.retune t' report.checks, hrun, hrun₁', Function.blank_retune .., ?_, ?_⟩
  · intro args limit
    rw [halike.run_eq, halike'.run_eq]
    exact (hfunctions.run args limit).mono fun e e' he =>
      ⟨he.ret_eq, he.path_eq, Leeway.forall₂_tuned he.branches⟩
  · intro args
    rw [halike.start_eq, halike'.start_eq]
    refine ⟨hfunctions.start_eq args, fun s hs n log u hwalk => ?_⟩
    obtain ⟨log', u', hwalk', -, hlog⟩ :=
      hfunctions.runs (halike.symm.runs hwalk) (hfunctions.start hs)
    obtain ⟨hentered, hbranches⟩ := Leeway.Functions.trace hlog
    exact ⟨log', u', halike'.runs hwalk', hentered, Leeway.forall₂_tuned hbranches⟩

/-- The double of -60 is beyond the first threshold only; read without a sign it is beyond both. -/
theorem branches_instrumented_doubling :
    [Threshold.hundred, .edge].map (fun t => match Edit.instrument t {} doubling with
      | .ok _ g => (g.run [.int 32 0xffffffc4] 30).toOption.map Execution.branches
      | .error _ _ => none) =
    [some #[⟨⟨4⟩, true⟩, ⟨⟨5⟩, true⟩, ⟨⟨6⟩, true⟩, ⟨⟨3⟩, true⟩],
      some #[⟨⟨4⟩, true⟩, ⟨⟨5⟩, false⟩, ⟨⟨6⟩, true⟩, ⟨⟨3⟩, true⟩]] := by
  decide +kernel

/-- With the greater threshold, the second check of the example no longer fires. -/
theorem instrument_threshold_doubling :
    doubling.verify = .ok () ∧
      (Threshold.hundred.intBound (.int 32)).signed ≤ (Threshold.edge.intBound (.int 32)).signed ∧
      ∃ report g g' e e', Edit.instrument .hundred {} doubling = .ok report g ∧
        Edit.instrument .edge {} doubling = .ok report g' ∧
        g'.blank report.checks = g.blank report.checks ∧
        g.run [.int 32 0xffffffc4] 30 = .ok e ∧ g'.run [.int 32 0xffffffc4] 30 = .ok e' ∧
        e.branches = #[⟨⟨4⟩, true⟩, ⟨⟨5⟩, true⟩, ⟨⟨6⟩, true⟩, ⟨⟨3⟩, true⟩] ∧
        e'.branches = #[⟨⟨4⟩, true⟩, ⟨⟨5⟩, false⟩, ⟨⟨6⟩, true⟩, ⟨⟨3⟩, true⟩] ∧
        Execution.Tuned .hundred .edge report.checks e e' := by
  obtain ⟨report, g, g', hrun, hrun', hblank, houtcomes, -⟩ :=
    instrument_threshold .hundred .edge {} verify_doubling
  have hshown := branches_instrumented_doubling
  simp only [List.map_cons, List.map_nil, hrun, hrun', List.cons.injEq, and_true] at hshown
  have hboth := houtcomes [.int 32 0xffffffc4] 30
  cases he : g.run [.int 32 0xffffffc4] 30 with
  | error halt =>
    rw [he] at hshown
    cases hshown.1
  | ok e =>
    rw [he] at hboth hshown
    obtain ⟨e', he', htuned⟩ := hboth.exists_ok
    rw [he'] at hshown
    exact ⟨verify_doubling, by decide +kernel, report, g, g', e, e', hrun, hrun', hblank, he, he',
      Option.some.inj hshown.1, Option.some.inj hshown.2, htuned⟩

end ArithWatch
