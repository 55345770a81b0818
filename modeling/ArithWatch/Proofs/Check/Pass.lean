import ArithWatch.Proofs.Check.Records

namespace ArithWatch

/-!
# The pass over a function

* `Function.qualify_eq_ok` says what is known of a watched instruction.
* `Inserts` lists the insertions that a work list leads to.
* `Edit.instrument_keeps`: the pass never fails where the layout can be walked, and what its steps
  keep holds at its end.
* `Edit.instrument_tagged`: on a regular function the pass makes a list of insertions and then, if
  asked to, writes the tags of its records.
* `Inserts.regular` says what they keep, and `Inserts.draws` that they draw instruction ids.
-/

/-! ### Qualification -/

/-- The checks of an operator are of its family. -/
theorem BinOp.isFloat_of_mem_checks {op : BinOp} {p : CheckPredicate} (h : p ∈ op.checks) :
    p.kind.isFloat = op.isFloat := by
  revert p
  cases op <;> simp [checks, isFloat, CheckPredicate.kind, CheckKind.isFloat]

/-- Each floating-point operator has checks. -/
theorem BinOp.checks_ne_nil_of_isFloat {op : BinOp} (h : op.isFloat = true) : op.checks ≠ [] := by
  cases op <;> simp_all [checks, isFloat]

/-- An accepted floating-point operation has one type throughout. -/
theorem qualifyFloat_eq_ok {options : InstrumentOptions} {op : BinOp} {lhs rhs : Operand}
    {result : ValueId} {lhsTy rhsTy resultTy : Option Ty} {q : Qualified}
    (h : qualifyFloat options op lhs rhs result lhsTy rhsTy resultTy = .ok q) :
    ∃ ty, lhsTy = some ty ∧ rhsTy = some ty ∧ resultTy = some ty ∧ ty.isFloat = true ∧
      op.isFloat = true ∧
      q = { family := .float, watched := { op, ty, lhs, rhs, result }, checks := op.checks } := by
  unfold qualifyFloat at h
  split at h
  · cases h
  split at h
  · next ty =>
    split at h
    · next hfits =>
      cases h
      simp only [Bool.and_eq_true, beq_iff_eq] at hfits
      obtain ⟨⟨⟨hfloat, hop⟩, hlhs⟩, hrhs⟩ := hfits
      exact ⟨ty, hlhs, hrhs.trans hlhs, rfl, hfloat, hop, rfl⟩
    · cases h
  · cases h

/-- An accepted integer operation is of the watched width throughout. -/
theorem qualifyInt_eq_ok {options : InstrumentOptions} {op : BinOp} {lhs rhs : Operand}
    {flags : WrapFlags} {result : ValueId} {lhsTy rhsTy resultTy : Option Ty} {q : Qualified}
    (h : qualifyInt options op lhs rhs flags result lhsTy rhsTy resultTy = .ok q) :
    lhsTy = some watchedIntTy ∧ rhsTy = some watchedIntTy ∧ resultTy = some watchedIntTy ∧
      op.checks ≠ [] ∧
      q = { family := .int, watched := { op, ty := watchedIntTy, lhs, rhs, result },
            checks := op.checks } := by
  -- Each guard that returns early would have rejected the operation.
  unfold qualifyInt at h
  split at h
  · cases h
  split at h
  · cases h
  next htypes =>
  split at h
  · cases h
  split at h
  · cases h
  next hchecks =>
  split at h
  · cases h
  next hresult =>
  cases h
  simp only [not_or, Classical.not_not] at htypes hresult
  exact ⟨htypes.1, htypes.2, hresult, hchecks, rfl⟩

namespace Function

variable {f : Function} {options : InstrumentOptions} {i : Inst} {q : Qualified}

/-- A qualified instruction is a binary operation on one type, watched with its operator's checks;
    integers are watched at one width. -/
theorem qualify_eq_ok (h : f.qualify options i = .ok q) :
    (∃ flags, i.kind = .binary q.watched.op q.watched.lhs q.watched.rhs flags) ∧
      q.watched.result = i.result ∧ q.watched.Typed f ∧ q.checks = q.watched.op.checks ∧
      q.checks ≠ [] ∧ q.watched.op.isFloat = q.watched.ty.isFloat ∧
      (q.watched.ty.isFloat = false → q.watched.ty = watchedIntTy) := by
  -- The family is chosen by the operator and the type of the result.
  unfold qualify at h
  split at h
  · next op lhs rhs flags hkind =>
    simp only at h
    split at h
    · obtain ⟨ty, hlhs, hrhs, hresult, hfloat, hop, rfl⟩ := qualifyFloat_eq_ok h
      exact ⟨⟨flags, hkind⟩, rfl, ⟨hlhs, hrhs, hresult⟩, rfl, BinOp.checks_ne_nil_of_isFloat hop,
        hop.trans hfloat.symm, fun hint => absurd (hfloat.symm.trans hint) (by decide)⟩
    · next hint =>
      obtain ⟨hlhs, hrhs, hresult, hchecks, rfl⟩ := qualifyInt_eq_ok h
      have hop : op.isFloat = false := by
        simp only [Bool.or_eq_true, not_or, Bool.not_eq_true] at hint
        exact hint.2
      exact ⟨⟨flags, hkind⟩, rfl, ⟨hlhs, hrhs, hresult⟩, rfl, hchecks, hop, fun _ => rfl⟩
  · cases h

/-- A qualified instruction at a spot gives an insertion there. -/
theorem fits_of_qualify {p : Spot} (hp : p.In f) (h : f.qualify options p.inst = .ok q)
    (t : Threshold) :
    Insertion.Fits ⟨p, ⟨t, q.watched, p.inst.location⟩, q.checks⟩ f := by
  obtain ⟨hkind, hresult, htyped, hchecks, hne, hfloat, hint⟩ := qualify_eq_ok h
  refine ⟨hp, hkind, hresult, rfl, htyped, hchecks, hne, fun c hc => ?_, hint⟩
  rw [← hfloat]
  exact BinOp.isFloat_of_mem_checks (hchecks ▸ hc)

end Function

/-! ### The work list -/

/-- A binary instruction has an operator and two sides. -/
theorem InstKind.exists_of_isBinary {kind : InstKind} (h : kind.isBinary = true) :
    ∃ op lhs rhs flags, kind = .binary op lhs rhs flags := by
  cases kind with
  | binary op lhs rhs flags => exact ⟨op, lhs, rhs, flags, rfl⟩
  | _ => cases h

/-- The insertions that a work list leads to, and the function after all of them. -/
inductive Inserts (t : Threshold) :
    List InstId → Function → List CheckSite → Function → Prop
  | done (f : Function) : Inserts t [] f [] f
  /-- An id without an instruction that is watched. -/
  | skip {i : InstId} {ids : List InstId} {f g : Function} {sites : List CheckSite} :
    Inserts t ids f sites g → Inserts t (i :: ids) f sites g
  /-- An insertion behind the first instruction with the id. -/
  | insert {ids : List InstId} {f g h : Function} {sites : List CheckSite} {s : Insertion}
    (id : SiteId) : s.Fits f → s.spot.First f → s.probe.threshold = t → s.Makes f g →
    Inserts t ids g sites h → Inserts t (s.spot.inst.id :: ids) f (s.site f id :: sites) h

/-- Insertions keep functions regular. -/
theorem Inserts.regular {t : Threshold} {ids : List InstId} {f g : Function}
    {sites : List CheckSite} (h : Inserts t ids f sites g) (hf : f.Regular) : g.Regular := by
  induction h with
  | done f => exact hf
  | skip _ ih => exact ih hf
  | insert id hs _ _ hg _ ih => exact ih (hg.regular hf hs)

namespace Edit

variable {f : Function} {report : FunctionReport} (t : Threshold) (options : InstrumentOptions)

/-- The records of a report are about blocks of the function. -/
def RecordsIn (f : Function) (m : CheckMap) : Prop :=
  ∀ b, m.contains b = true → b.index < f.blocks.size

/-- Recorded blocks exist. -/
theorem RecordsIn.lt_of_mem {m : CheckMap} (hm : RecordsIn f m) {e : BlockId × CheckRecord}
    (he : e ∈ m.entries) : e.1.index < f.blocks.size := by
  refine hm e.1 ?_
  rw [SortedMap.contains, SortedMap.find?, Option.isSome_map, List.find?_isSome]
  exact ⟨e, he, by simp [Std.ReflCmp.compare_self]⟩

/-- Blocks still to come are not recorded. -/
theorem RecordsIn.kind?_eq_none {m : CheckMap} (hm : RecordsIn f m) {b : BlockId}
    (hb : f.blocks.size ≤ b.index) : m.kind? b = none := by
  rw [CheckMap.kind?, Option.map_eq_none_iff, ← Option.not_isSome_iff_eq_none]
  exact fun hmem => Nat.not_lt.2 hb (hm b hmem)

/-- The records of an insertion are about its decision blocks. -/
theorem RecordsIn.recordAll {g : Function} {m : CheckMap} (hm : RecordsIn f m) {s : Insertion}
    (hsize : g.blocks.size = f.blocks.size + 1 + s.checks.length)
    (record : CheckKind → CheckRecord) : RecordsIn g (recordAll record m (s.decisions f)) := by
  intro b hb
  rw [hsize]
  rcases contains_recordAll.1 hb with hb | hb
  · have := hm b hb
    omega
  · obtain ⟨d, hd, rfl⟩ := List.mem_map.1 hb
    exact (Insertion.mem_decisions_block hd).2

/-- The records of a report are about blocks that are closed. -/
theorem RecordsIn.closed {m : CheckMap} (hm : RecordsIn f m) (h : f.Regular) :
    ∀ e ∈ m.entries, ∃ block t, f.block? e.1 = some block ∧ block.term = some t := by
  intro e he
  obtain ⟨block, hblock⟩ := Function.exists_block? (hm.lt_of_mem he)
  obtain ⟨t, ht, -⟩ := h.closed _ _ hblock
  exact ⟨block, t, hblock, ht⟩

/-- An instruction that is no binary operation is passed over in silence. -/
theorem instrumentInst_of_not_binary {i : InstId} {j : Inst} (hinst : f.inst i = .ok (some j))
    (hj : j.kind.isBinary = false) : instrumentInst t options report i f = .ok report f := by
  rw [instrumentInst, bind_eq (query_eq hinst)]
  cases hk : j.kind with
  | binary op lhs rhs flags =>
    rw [hk] at hj
    cases hj
  | _ =>
    simp only [hk]
    rfl

/-- One id of the work list: nothing changes but what the report says of skipped instructions, or a
    chain is inserted behind the first instruction with the id. -/
theorem instrumentInst_carves (h : f.Arranged) (hm : RecordsIn f report.checks) (id : InstId) :
    (∃ skipped, instrumentInst t options report id f = .ok { report with skipped } f) ∨
    ∃ (s : Insertion) (g : Function), s.Fits f ∧ s.spot.First f ∧ s.probe.threshold = t ∧
      s.spot.inst.id = id ∧ s.Carves f g ∧
      instrumentInst t options report id f = .ok { report with
        sites := report.sites ++ [s.site f ⟨report.sites.length⟩]
        checks := recordAll (s.record ⟨report.sites.length⟩) report.checks (s.decisions f) } g := by
  -- The id names nothing, or the first instruction that has it.
  rcases h.locate_cases id with ⟨hnone, -⟩ | ⟨p, hp, -, rfl, hlocate⟩
  · have hinst : query (·.inst id) f = .ok none f := by
      refine query_eq ?_
      rw [Function.inst, hnone]
      rfl
    refine .inl ⟨report.skipped, ?_⟩
    rw [instrumentInst, bind_eq hinst]
    rfl
  · have hinst : query (·.inst p.inst.id) f = .ok (some p.inst) f :=
      query_eq (Function.inst_eq_ok hp.toIn hlocate)
    by_cases hbinary : p.inst.kind.isBinary = true
    · obtain ⟨op, lhs, rhs, flags, hk⟩ := InstKind.exists_of_isBinary hbinary
      rw [instrumentInst, bind_eq hinst]
      simp only [hk]
      rw [bind_eq (show (get : Edit Function) f = .ok f f from rfl)]
      cases hq : f.qualify options p.inst with
      | error reason => exact .inl ⟨_, rfl⟩
      | ok q =>
        have hs := Function.fits_of_qualify hp.toIn hq t
        by_cases hfollowed : p.Followed
        · obtain ⟨g, hinsert, hg⟩ := insertSite_eq hs hfollowed q.family
            ⟨report.sites.length⟩ hlocate hm
          exact .inr ⟨_, g, hs, hp, rfl, rfl, hg, bind_eq hinsert⟩
        · have hnone := insertSite_eq_none hp.toIn hlocate hfollowed t q
            ⟨report.sites.length⟩ report.checks
          exact .inl ⟨_, bind_eq hnone⟩
    · exact .inl ⟨report.skipped, instrumentInst_of_not_binary t options
        (Function.inst_eq_ok hp.toIn hlocate) (Bool.eq_false_iff.2 hbinary)⟩

/-- In a regular function the phis follow. -/
theorem instrumentInst_cases (h : f.Regular) (hm : RecordsIn f report.checks) (id : InstId) :
    (∃ skipped, instrumentInst t options report id f = .ok { report with skipped } f) ∨
    ∃ (s : Insertion) (g : Function), s.Fits f ∧ s.spot.First f ∧ s.probe.threshold = t ∧
      s.spot.inst.id = id ∧ s.Makes f g ∧
      instrumentInst t options report id f = .ok { report with
        sites := report.sites ++ [s.site f ⟨report.sites.length⟩]
        checks := recordAll (s.record ⟨report.sites.length⟩) report.checks (s.decisions f) } g := by
  rcases instrumentInst_carves t options h.laid.arranged hm id with
    hsame | ⟨s, g, hs, hfirst, ht, hid, hg, hstep⟩
  · exact .inl hsame
  · exact .inr ⟨s, g, hs, hfirst, ht, hid, hg.makes h hs.spot_in, hstep⟩

/-- The whole work list. -/
theorem foldlM_instrumentInst (ids : List InstId) (h : f.Regular)
    (hm : RecordsIn f report.checks) (hr : report.Consistent) :
    ∃ report' g sites, ids.foldlM (instrumentInst t options) report f = .ok report' g ∧
      Inserts t ids f sites g ∧ report'.sites = report.sites ++ sites ∧
      RecordsIn g report'.checks ∧ report'.Consistent ∧ report'.function = report.function := by
  -- By induction on the work list; the function stays regular and the report consistent.
  induction ids generalizing f report with
  | nil => exact ⟨report, f, [], rfl, .done f, (List.append_nil _).symm, hm, hr, rfl⟩
  | cons id rest ih =>
    rw [List.foldlM_cons]
    rcases instrumentInst_cases t options h hm id with
      ⟨skipped, hstep⟩ | ⟨s, g, hs, hfirst, rfl, rfl, hg, hstep⟩
    · obtain ⟨report', g, sites, hrest, hinserts, hkept⟩ :=
        @ih f { report with skipped } h hm ⟨hr.ids, hr.records⟩
      exact ⟨report', g, sites, (bind_eq hstep).trans hrest, .skip hinserts, hkept⟩
    · obtain ⟨report₁, hreport⟩ : ∃ r : FunctionReport, r = { report with
          sites := report.sites ++ [s.site f ⟨report.sites.length⟩]
          checks := recordAll (s.record ⟨report.sites.length⟩) report.checks (s.decisions f) } :=
        ⟨_, rfl⟩
      rw [← hreport] at hstep
      have hm₁ : RecordsIn g report₁.checks := by
        rw [hreport]
        exact hm.recordAll hg.size _
      have hr₁ : report₁.Consistent := by
        rw [hreport]
        exact hr.add fun e he => hm.lt_of_mem he
      obtain ⟨report', g', sites, hrest, hinserts, hsites', hm', hr', hname⟩ :=
        ih (hg.regular h hs) hm₁ hr₁
      refine ⟨report', g', s.site f ⟨report.sites.length⟩ :: sites,
        (bind_eq hstep).trans hrest, .insert _ hs hfirst rfl hg hinserts, ?_, hm', hr', ?_⟩
      · rw [hsites', hreport, List.append_assoc]
        rfl
      · rw [hname, hreport]

/-! ### The whole pass -/

/-- Writing the tags succeeds where the branches exist, and changes metadata only. -/
theorem emitMetadata_exists {m : CheckMap} (hm : RecordsIn f m) :
    ∃ n g, m.emitMetadata f = .ok n g ∧ f.Alike g := by
  have hattach : ∀ e ∈ m.entries, ∀ g : Function, f.Alike g →
      ∃ there h, attachMetadata e.1 checkKey e.2.kind.tag g = .ok there h ∧ f.Alike h := by
    intro e he g hg
    obtain ⟨block, hblock⟩ := Function.exists_block? (f := g) (hg.size_eq ▸ hm.lt_of_mem he)
    exact ⟨_, _, updateTerminator_eq hblock _,
      hg.trans (g.alike_updateBlock e.1 (Block.alike_tag e.2.kind))⟩
  obtain ⟨written, g, hrun, hg⟩ := mapM_exists _ hattach (.refl f)
  exact ⟨_, g, bind_eq hrun, hg⟩

/-- Once the work list is done, only metadata changes. -/
theorem instrument_alike_of_foldlM {ids : List InstId} {g : Function}
    (hwork : workList f = .ok ids)
    (hfold : ids.foldlM (instrumentInst t options) { function := f.name } f = .ok report g)
    (hm : RecordsIn g report.checks) :
    ∃ h, instrument t options f = .ok report h ∧ g.Alike h := by
  have hget : (get : Edit Function) f = .ok f f := rfl
  rw [instrument, bind_eq (query_eq hwork), bind_eq hget, bind_eq hfold]
  cases options.emitMetadata with
  | false => exact ⟨g, rfl, .refl g⟩
  | true =>
    obtain ⟨n, h, hemit, halike⟩ := emitMetadata_exists hm
    exact ⟨h, bind_eq hemit, halike⟩

/-- Once the work list is done, the pass succeeds. -/
theorem instrument_of_foldlM {ids : List InstId} {g : Function} (hwork : workList f = .ok ids)
    (hfold : ids.foldlM (instrumentInst t options) { function := f.name } f = .ok report g)
    (hm : RecordsIn g report.checks) : ∃ h, instrument t options f = .ok report h := by
  obtain ⟨h, hrun, -⟩ := instrument_alike_of_foldlM t options hwork hfold hm
  exact ⟨h, hrun⟩

/-- **The pass step by step.**  It succeeds on every function whose layout can be walked, and what
    every insertion and every change of metadata keep of sites and functions holds at its end. -/
theorem instrument_keeps {P : List CheckSite → Function → Prop}
    (hinsert : ∀ sites f (s : Insertion) g id, f.Arranged → s.Fits f → s.Carves f g → P sites f →
      P (sites ++ [s.site f id]) g)
    (halike : ∀ sites f g, f.Alike g → P sites f → P sites g)
    (h : f.Arranged) (hP : P [] f) :
    ∃ report g, instrument t options f = .ok report g ∧ P report.sites g := by
  -- A step keeps the layout walkable and the records about blocks that exist, too.
  have hall : ∀ (ids : List InstId) (f : Function) (report : FunctionReport), f.Arranged →
      RecordsIn f report.checks → P report.sites f → ∃ report' g,
        ids.foldlM (instrumentInst t options) report f = .ok report' g ∧
          RecordsIn g report'.checks ∧ P report'.sites g := by
    intro ids
    induction ids with
    | nil => exact fun f report _ hm hP => ⟨report, f, rfl, hm, hP⟩
    | cons id rest ih =>
      intro f report h hm hP
      rw [List.foldlM_cons]
      rcases instrumentInst_carves t options h hm id with
        ⟨skipped, hstep⟩ | ⟨s, g, hs, -, -, -, hg, hstep⟩
      · rw [bind_eq hstep]
        exact ih f _ h hm hP
      · rw [bind_eq hstep]
        exact ih g _ (hg.arranged h hs.spot_in) (hm.recordAll hg.size _)
          (hinsert _ _ _ _ _ h hs hg hP)
  have hwork : workList f =
      .ok ((f.laidOut.flatMap (·.insts) |>.filter (·.kind.isBinary)).map (·.id)) := by
    rw [workList, h.blocksInLayout_eq]
    rfl
  obtain ⟨report, g, hfold, hm, hP'⟩ :=
    hall _ f { function := f.name } h (fun b hb => by cases hb) hP
  obtain ⟨g', hrun, hg'⟩ := instrument_alike_of_foldlM t options hwork hfold hm
  exact ⟨report, g', hrun, halike _ _ _ hg' hP'⟩

/-- The pass succeeds on every function whose layout can be walked. -/
theorem instrument_exists (h : f.Arranged) : ∃ report g, instrument t options f = .ok report g := by
  obtain ⟨report, g, hrun, -⟩ := instrument_keeps t options (P := fun _ _ => True)
    (fun _ _ _ _ _ _ _ _ _ => trivial) (fun _ _ _ _ _ => trivial) h trivial
  exact ⟨report, g, hrun⟩

/-- The work list names the binary instructions along the layout. -/
theorem workList_eq (h : f.Laid) :
    workList f = .ok ((f.allInsts.filter (·.kind.isBinary)).map (·.id)) := by
  rw [workList, h.blocksInLayout_eq]
  rfl

/-- **The pass with and without tags.** On a regular function it never fails.  It inserts behind the
    instructions of its work list, which are the binary operations in layout order; its report is
    consistent, and the tags of the records are written at the end if that is asked for. -/
theorem instrument_tagged (h : f.Regular) :
    ∃ report g, (∀ emit, instrument t { options with emitMetadata := emit } f =
        .ok report (if emit then g.tagged report.checks else g)) ∧
      Inserts t ((f.allInsts.filter (·.kind.isBinary)).map (·.id)) f report.sites g ∧
      report.Consistent ∧ RecordsIn g report.checks ∧ g.Regular ∧ report.function = f.name := by
  have hwork : query workList f = .ok ((f.allInsts.filter (·.kind.isBinary)).map (·.id)) f :=
    query_eq (workList_eq h.laid)
  have hempty : RecordsIn f ({ function := f.name } : FunctionReport).checks :=
    fun b hb => by cases hb
  obtain ⟨report, g, sites, hfold, hinserts, hsites, hm, hr, hname⟩ :=
    foldlM_instrumentInst t options ((f.allInsts.filter (·.kind.isBinary)).map (·.id)) h hempty
      (.empty f.name)
  rw [List.nil_append] at hsites
  subst hsites
  have hg : g.Regular := hinserts.regular h
  have hget : (get : Edit Function) f = .ok f f := rfl
  refine ⟨report, g, fun emit => ?_, hinserts, hr, hm, hg, hname⟩
  -- The option is not looked at before the work list is done.
  have hfold' : ((f.allInsts.filter (·.kind.isBinary)).map (·.id)).foldlM
      (instrumentInst t { options with emitMetadata := emit }) { function := f.name } f =
        .ok report g := hfold
  rw [instrument, bind_eq hwork, bind_eq hget, bind_eq hfold']
  cases emit with
  | false => rfl
  | true => exact bind_eq (emitMetadata_eq (hm.closed hg))

/-- **The pass.** On a regular function it never fails.  It inserts behind the instructions of its
    work list and changes metadata at the end.  Its records are about blocks that exist. -/
theorem instrument_eq (h : f.Regular) :
    ∃ report g f', instrument t options f = .ok report f' ∧
      Inserts t ((f.allInsts.filter (·.kind.isBinary)).map (·.id)) f report.sites g ∧
      g.Alike f' ∧ RecordsIn f' report.checks := by
  obtain ⟨report, g, hrun, hinserts, -, hm, -⟩ := instrument_tagged t options h
  have halike := g.alike_ite_tagged report.checks options.emitMetadata
  exact ⟨report, g, _, hrun options.emitMetadata, hinserts, halike,
    fun b hb => halike.size_eq ▸ hm b hb⟩

end Edit

/-! ### What the insertions keep -/

namespace Inserts

variable {t : Threshold} {ids : List InstId} {f g : Function} {sites : List CheckSite}

/-- Insertions change blocks, layout, values and the next free instruction id only. -/
theorem frame (h : Inserts t ids f sites g) : g = { f with
    blocks := g.blocks
    layout := g.layout
    valueTypes := g.valueTypes
    instCount := g.instCount } := by
  induction h with
  | done f => rfl
  | skip _ ih => exact ih
  | insert id _ _ _ hg _ ih => rw [ih, hg.frame]

/-- The ids that are drawn, insertion by insertion. -/
theorem draws (h : Inserts t ids f sites g) (hf : f.Regular) : ∃ n, f.Draws n g := by
  induction h with
  | done f => exact ⟨0, .refl f⟩
  | skip _ ih => exact ih hf
  | insert id hs _ _ hg _ ih =>
    obtain ⟨n, hn⟩ := ih (hg.regular hf hs)
    exact ⟨_, (hg.draws hf hs).trans hn⟩

end Inserts

end ArithWatch
