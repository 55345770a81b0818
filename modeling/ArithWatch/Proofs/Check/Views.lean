import ArithWatch.Proofs.Check.Acceptance
import ArithWatch.Proofs.Check.Naming
import ArithWatch.Proofs.Check.Pieces

namespace ArithWatch

/-!
# The views of a report

A report says the same thing several times: in the sites of its functions, in the records of their
branches, in the list of branches of the module, and in numbers.

* `Outcome` is what a run over a module makes of one of its functions, and `Outcome.Agrees` says
  that its views agree with each other and with the instrumented function.
* `Module.instrumentFunctions_eq_ok` takes a successful run over a module apart into outcomes.
* `Edit.agrees_of_instrument`: the pass makes outcomes that agree.
* `views_agree` is about all views of the report of a module.
-/

/-- The entry of a check in the list of branches; none if its decision block does not exist. -/
def CheckSite.branch? (s : CheckSite) (g : Function) (c : Check) : Option TaggedBranch :=
  (g.block? c.block).map fun block =>
    { function := g.name
      block := block.name
      tag := c.kind
      site := s.id
      location := s.location }

/-- The entries of all checks, over sites in their order and over checks in the order of the
    chain. -/
def FunctionReport.branches? (r : FunctionReport) (g : Function) : List (Option TaggedBranch) :=
  r.sites.flatMap fun s => s.checks.map (s.branch? g)

/-- What a run over a module makes of one of its functions. -/
structure Outcome where
  before : Function
  after : Function
  report : FunctionReport
  branches : List TaggedBranch

/-- The views of the outcome agree with each other, and with the instrumented function. -/
structure Outcome.Agrees (o : Outcome) : Prop where
  name : o.after.name = o.before.name ∧ o.report.function = o.before.name
  ids : ∀ (k : Nat) (s : CheckSite), o.report.sites[k]? = some s → s.id = ⟨k⟩
  /-- The records are about the decision blocks of the sites, in their order. -/
  keys : o.report.checks.keys = o.report.sites.flatMap (·.decisionBlocks)
  /-- No decision block belongs to two sites, or twice to one. -/
  apart : (o.report.sites.flatMap (·.decisionBlocks)).Nodup
  records : ∀ s ∈ o.report.sites, ∀ c ∈ s.checks, o.report.checks.find? c.block =
    some { kind := c.kind, site := s.id, origin := s.inst, location := s.location }
  /-- The list of branches is the one of the checks, all of whose blocks exist. -/
  branches : o.branches.map some = o.report.branches? o.after
  /-- The recorded names lead to the decision blocks. -/
  found : (o.branches.map fun b => o.after.findBlock? b.block) =
    (o.report.sites.flatMap (·.decisionBlocks)).map some

/-! ### The functions of a module -/

namespace Module

/-- An instrumented function that passes is reported with its branches. -/
theorem finishFunction_eq_ok {options : InstrumentOptions} {f : Function} {report : FunctionReport}
    {part : Part} (h : finishFunction options f report = .ok part) :
    part.1 = report ∧ report.checks.entries.mapM f.taggedBranch = .ok part.2 := by
  have hnamed : ((report.checks.entries.mapM f.taggedBranch).mapError .fault >>= fun branches =>
      .ok (report, branches)) = (.ok part : Except InstrumentError Part) := by
    rw [finishFunction] at h
    cases hverify : options.verify with
    | false =>
      rw [hverify] at h
      exact h
    | true =>
      rw [hverify] at h
      exact (except_seq_eq_ok.1 h).2
  obtain ⟨branches, hbranches, hpart⟩ := except_bind_eq_ok.1 hnamed
  cases hpart
  exact ⟨rfl, except_mapError_eq_ok.1 hbranches⟩

/-- A successful run over the functions is one over each of them. -/
theorem instrumentFunctions_eq_ok {t : Threshold} {options : InstrumentOptions}
    {functions after : List Function} {parts : List Part}
    (h : instrumentFunctions t options functions = (after, .ok parts)) :
    ∃ outcomes : List Outcome, functions = outcomes.map (·.before) ∧
      after = outcomes.map (·.after) ∧ parts = outcomes.map (fun o => (o.report, o.branches)) ∧
      ∀ o ∈ outcomes, Edit.instrument t options o.before = .ok o.report o.after ∧
        o.report.checks.entries.mapM o.after.taggedBranch = .ok o.branches := by
  induction functions generalizing after parts with
  | nil =>
    cases h
    exact ⟨[], rfl, rfl, rfl, nofun⟩
  | cons f rest ih =>
    -- A fault, a verdict or a later failure would be the result of the run.
    rw [instrumentFunctions] at h
    cases hrun : Edit.instrument t options f with
    | error fault g => simp [hrun] at h
    | ok report g =>
      simp only [hrun] at h
      cases hfinish : finishFunction options g report with
      | error e => simp [hfinish] at h
      | ok part =>
        simp only [hfinish] at h
        obtain ⟨hafter, hparts⟩ := Prod.mk.inj h
        cases hrest : (instrumentFunctions t options rest).2 with
        | error e =>
          rw [hrest] at hparts
          cases hparts
        | ok parts' =>
          rw [hrest] at hparts
          cases hafter
          cases hparts
          obtain ⟨outcomes, rfl, hafter', rfl, houtcomes⟩ := ih (Prod.ext rfl hrest)
          obtain ⟨rfl, hbranches⟩ := finishFunction_eq_ok hfinish
          refine ⟨⟨f, g, part.1, part.2⟩ :: outcomes, rfl, ?_, rfl, ?_⟩
          · rw [List.map_cons, ← hafter']
          · exact List.forall_mem_cons.2 ⟨⟨hrun, hbranches⟩, houtcomes⟩

end Module

/-! ### One function -/

section OneFunction

variable {f g : Function} {r : FunctionReport}

/-- Decision blocks are new. -/
theorem Inserts.decisionBlock_range {t : Threshold} {ids : List InstId} {sites : List CheckSite}
    (h : Inserts t ids f sites g) {s : CheckSite} (hs : s ∈ sites) {c : Check}
    (hc : c ∈ s.checks) : f.blocks.size ≤ c.block.index ∧ c.block.index < g.blocks.size := by
  have hnew : c.block ∈ sites.flatMap (·.newBlocks) :=
    List.mem_flatMap.2 ⟨s, hs, List.mem_cons_of_mem _ (List.mem_map_of_mem hc)⟩
  rw [h.newBlocks_eq] at hnew
  obtain ⟨n, hn, hblock⟩ := List.mem_map.1 hnew
  have hrange := List.mem_range'_1.1 hn
  rw [← hblock]
  show f.blocks.size ≤ n ∧ n < g.blocks.size
  omega

namespace FunctionReport

/-- The entries of the records are those of the checks. -/
theorem Consistent.branches_eq (hr : r.Consistent) {branches : List TaggedBranch}
    (hrun : r.checks.entries.mapM g.taggedBranch = .ok branches) :
    branches.map some = r.branches? g := by
  have hentry : ∀ e b, g.taggedBranch e = .ok b → some b = (g.block? e.1).map fun block =>
      { function := g.name
        block := block.name
        tag := e.2.kind
        site := e.2.site
        location := e.2.location } := by
    intro e b hb
    obtain ⟨block, hblock, hb⟩ := except_bind_eq_ok.1 hb
    cases hb
    rw [Function.block?_eq_some hblock]
    rfl
  rw [except_mapM_map hentry hrun, hr.records, List.map_flatMap]
  simp only [CheckSite.records, List.map_map]
  rfl

/-- Names that lead to the decision blocks do so in the list of branches, too. -/
theorem findBlock?_branches {branches : List TaggedBranch}
    (hbranches : branches.map some = r.branches? g)
    (hfound : ∀ s ∈ r.sites, ∀ c ∈ s.checks, ∃ block, g.block? c.block = some block ∧
      g.findBlock? block.name = some c.block) :
    (branches.map fun b => g.findBlock? b.block) =
      (r.sites.flatMap (·.decisionBlocks)).map some := by
  -- Looked up through the entries of the checks, site by site.
  have hread : (branches.map fun b => g.findBlock? b.block) =
      (branches.map some).map fun b => b.bind fun b => g.findBlock? b.block := by
    rw [List.map_map]
    rfl
  rw [hread, hbranches, branches?, List.map_flatMap, List.map_flatMap]
  refine List.flatMap_congr fun s hs => ?_
  rw [CheckSite.decisionBlocks, List.map_map, List.map_map]
  refine List.map_congr_left fun c hc => ?_
  obtain ⟨block, hblock, hname⟩ := hfound s hs c hc
  simp [CheckSite.branch?, hblock, hname]

end FunctionReport

/-- **The outcome of the pass over a function** agrees with itself. -/
theorem Edit.agrees_of_instrument {t : Threshold} {options : InstrumentOptions}
    {branches : List TaggedBranch} (h : f.Regular) (hrun : instrument t options f = .ok r g)
    (hnamed : r.checks.entries.mapM g.taggedBranch = .ok branches) :
    Outcome.Agrees ⟨f, g, r, branches⟩ := by
  -- The names are followed through the single edits, all else through the insertions.
  obtain ⟨r', f', hrun', hinserts, hr, hm, hf', hname⟩ := instrument_tagged t options h
  have halike := f'.alike_ite_tagged r'.checks options.emitMetadata
  have hnames := keeps_instrument (Function.stable_namedApart f.names) t options f r g hrun
    (.refl f)
  obtain ⟨rfl, rfl⟩ : r = r' ∧ g = if options.emitMetadata then f'.tagged r'.checks else f' := by
    cases hrun.symm.trans (hrun' options.emitMetadata)
    exact ⟨rfl, rfl⟩
  have hg := (halike.regular hf').laid.arranged
  have hkeys : r.checks.keys = r.sites.flatMap (·.decisionBlocks) := hr.keys_checks
  have hbranches := hr.branches_eq hnamed
  refine ⟨⟨by rw [halike.frame, hinserts.frame], hname⟩, fun k s hs => ?_, hkeys,
    hkeys ▸ r.checks.nodup_keys, fun s hs c hc => ?_, hbranches,
    FunctionReport.findBlock?_branches hbranches fun s hs c hc => ?_⟩
  · have hid : (r.sites.map (·.id))[k]? = some s.id := by rw [List.getElem?_map, hs]; rfl
    have hlt := (List.getElem?_eq_some_iff.1 hs).1
    rw [hr.ids, List.getElem?_map, List.getElem?_range hlt] at hid
    exact (Option.some.inj hid).symm
  · refine (SortedMap.find?_eq_some_iff ..).2 ?_
    rw [hr.records]
    exact List.mem_flatMap.2 ⟨s, hs, List.mem_map_of_mem hc⟩
  · -- A decision block stands behind the old blocks, where names are apart.
    obtain ⟨hle, hlt⟩ := hinserts.decisionBlock_range hs hc
    obtain ⟨block, hblock⟩ := Function.exists_block? (halike.size_eq ▸ hlt)
    refine ⟨block, hblock, ?_⟩
    rw [← hg.ids c.block block hblock]
    exact hnames.findBlock?_eq hblock (by simpa [Function.names] using hle)

end OneFunction

/-! ### Numbers -/

/-- A branch is listed once for each record, with its kind. -/
theorem FunctionReport.countP_branches {r : FunctionReport} {g : Function}
    {branches : List TaggedBranch} (h : r.checks.entries.mapM g.taggedBranch = .ok branches) :
    branches.length = r.checks.entries.length ∧
      ∀ kind, branches.countP (·.tag == kind) = r.count kind := by
  have htags : branches.map (·.tag) = r.checks.entries.map (·.2.kind) := by
    refine except_mapM_map (fun e b hb => ?_) h
    obtain ⟨block, -, hb⟩ := except_bind_eq_ok.1 hb
    cases hb
    rfl
  constructor
  · simpa using congrArg List.length htags
  · intro kind
    have hcount := congrArg (List.countP (· == kind)) htags
    rw [List.countP_map, List.countP_map] at hcount
    rw [count, CheckMap.count, SortedMap.values, List.countP_map]
    exact hcount

namespace ModuleReport

variable {r : ModuleReport} {kind : CheckKind}

/-- The counts by kind list every kind that occurs, with its number. -/
theorem mem_countsByKind_iff {n : Nat} :
    (kind, n) ∈ r.countsByKind ↔ n = r.branches.countP (·.tag == kind) ∧ n ≠ 0 := by
  have hall : kind ∈ CheckKind.all := by cases kind <;> decide
  rw [countsByKind, List.mem_filter, List.mem_map, bne_iff_ne]
  constructor
  · rintro ⟨⟨kind', -, heq⟩, hn⟩
    cases heq
    exact ⟨rfl, hn⟩
  · rintro ⟨rfl, hn⟩
    exact ⟨⟨kind, hall, rfl⟩, hn⟩

/-- No kind is counted twice. -/
theorem nodup_countsByKind : (r.countsByKind.map (·.1)).Nodup := by
  have hkinds : (CheckKind.all.map fun kind =>
      (kind, r.branches.countP (·.tag == kind))).map Prod.fst = CheckKind.all := by
    rw [List.map_map]
    exact List.map_id _
  have hsub : (r.countsByKind.map Prod.fst).Sublist CheckKind.all :=
    hkinds ▸ List.filter_sublist.map Prod.fst
  exact hsub.nodup (by decide)

section Outcomes

variable {outcomes : List Outcome} (hfunctions : r.functions = outcomes.map (·.report))
  (hbranches : r.branches = outcomes.flatMap (·.branches))
  (hnamed : ∀ o ∈ outcomes,
    o.report.checks.entries.mapM o.after.taggedBranch = .ok o.branches)

include hfunctions hbranches hnamed

/-- Checks are counted by tagged branches. -/
theorem checkCount_eq : r.checkCount = r.branches.length := by
  rw [checkCount, hfunctions, hbranches, List.flatMap_map, List.length_flatMap,
    List.length_flatMap]
  exact congrArg List.sum (List.map_congr_left fun o ho =>
    (FunctionReport.countP_branches (hnamed o ho)).1.symm)

/-- The branches of a kind are those of all functions. -/
theorem countP_branches_eq :
    r.branches.countP (·.tag == kind) = (r.functions.map (·.count kind)).sum := by
  rw [hfunctions, hbranches, List.countP_flatMap, List.map_map]
  exact congrArg List.sum (List.map_congr_left fun o ho =>
    (FunctionReport.countP_branches (hnamed o ho)).2 kind)

end Outcomes

end ModuleReport

/-! ### The whole report -/

/-- **All views of a report agree.**  Take any verified module, with whatever names its blocks have,
    and let instrumenting it give a report.  Then the report and the instrumented module are made of
    one outcome for each function, in their order, each of which agrees with itself: sites are
    numbered, the records are those of their checks, and the list of branches leads from site to
    site and along the chains to the decision blocks, by names that no other block has.  The number
    of checks is the one of branches, and the number of each kind is its sum over the functions. -/
theorem views_agree (t : Threshold) (options : InstrumentOptions) (m : Module)
    (report : ModuleReport) (hverify : m.verify = .ok ())
    (hrun : (m.instrument t options).2 = .ok report) :
    ∃ outcomes : List Outcome, m.functions = outcomes.map (·.before) ∧
      (m.instrument t options).1.functions = outcomes.map (·.after) ∧
      report.functions = outcomes.map (·.report) ∧
      report.branches = outcomes.flatMap (·.branches) ∧
      (∀ o ∈ outcomes, Edit.instrument t options o.before = .ok o.report o.after ∧ o.Agrees) ∧
      report.checkCount = report.branches.length ∧
      (∀ kind n, (kind, n) ∈ report.countsByKind ↔
        n = (report.functions.map (·.count kind)).sum ∧ n ≠ 0) ∧
      (report.countsByKind.map (·.1)).Nodup := by
  rw [Module.instrument_eq hverify] at hrun ⊢
  cases hparts : (Module.instrumentFunctions t options m.functions).2 with
  | error e =>
    rw [hparts] at hrun
    cases hrun
  | ok parts =>
    -- All views are read from one list of outcomes, one for each function.
    obtain ⟨outcomes, hbefore, hafter, rfl, houtcomes⟩ :=
      Module.instrumentFunctions_eq_ok (Prod.ext rfl hparts)
    rw [hparts] at hrun
    have hreport := Except.ok.inj hrun
    have hfunctions : report.functions = outcomes.map (·.report) := by simp [← hreport]
    have hbranches : report.branches = outcomes.flatMap (·.branches) := by
      simp [← hreport, List.flatMap_map]
    have hnamed := fun o ho => (houtcomes o ho).2
    refine ⟨outcomes, hbefore, hafter, hfunctions, hbranches, fun o ho => ?_,
      ModuleReport.checkCount_eq hfunctions hbranches hnamed, fun kind n => ?_,
      ModuleReport.nodup_countsByKind⟩
    · obtain ⟨hinstrument, hnamed⟩ := houtcomes o ho
      have hf : o.before ∈ m.functions := hbefore ▸ List.mem_map_of_mem ho
      exact ⟨hinstrument, Edit.agrees_of_instrument
        (Module.wellFormed_of_verify hverify _ hf).toRegular hinstrument hnamed⟩
    · rw [ModuleReport.mem_countsByKind_iff,
        ModuleReport.countP_branches_eq hfunctions hbranches hnamed]

/-- A function whose two blocks have one name, which is the one that a check asks for. -/
def namesakes : Function where
  name := "double"
  params := [⟨0⟩]
  returnType := some (.int 32)
  valueTypes := #[.int 32, .int 32]
  blocks := #[
    { id := ⟨0⟩
      name := "overflow_check"
      insts := [
        { id := ⟨0⟩, result := ⟨1⟩, kind := .binary .add (.value ⟨0⟩) (.value ⟨0⟩) .empty }]
      term := some { exit := .br ⟨1⟩ } },
    { id := ⟨1⟩
      name := "overflow_check"
      insts := []
      term := some { exit := .ret (some (.value ⟨1⟩)) } }]
  layout := [⟨0⟩, ⟨1⟩]
  entry := ⟨0⟩
  instCount := 1

/-- The example with blocks of one name verifies. -/
theorem verify_namesakes : namesakes.verify = .ok () := by
  have hreached : namesakes.reached = #[true, true] := by
    show namesakes.flood #[false, false] [⟨0⟩] = _
    rw [Function.flood, if_pos (by decide)]
    show namesakes.flood #[true, false] [⟨1⟩] = _
    rw [Function.flood, if_pos (by decide)]
    show namesakes.flood #[true, true] [] = _
    rw [Function.flood]
  have hreach : namesakes.verifyReachability = .ok () := by
    rw [Function.verifyReachability, hreached]
    rfl
  rw [Function.verify, hreach]
  rfl

/-- Its checks are listed by block name, function by function. -/
theorem branches_namesakes :
    (match (Module.instrument .hundred {} ⟨"m", [namesakes, namesakes]⟩).2 with
      | .ok report => report.branches.map (·.block)
      | .error _ => []) = ["overflow_check1", "signed_bound_check", "unsigned_bound_check",
        "overflow_check1", "signed_bound_check", "unsigned_bound_check"] := by
  decide +kernel

/-- Two functions of one name, with blocks of one name. -/
theorem views_agree_namesakes :
    Module.verify ⟨"m", [namesakes, namesakes]⟩ = .ok () ∧
      ∃ report, (Module.instrument .hundred {} ⟨"m", [namesakes, namesakes]⟩).2 = .ok report ∧
        report.branches.map (·.block) = ["overflow_check1", "signed_bound_check",
          "unsigned_bound_check", "overflow_check1", "signed_bound_check",
          "unsigned_bound_check"] ∧
        report.checkCount = 6 ∧
        ∃ outcomes : List Outcome, report.branches = outcomes.flatMap (·.branches) ∧
          ∀ o ∈ outcomes, o.Agrees := by
  have hverify : Module.verify ⟨"m", [namesakes, namesakes]⟩ = .ok () :=
    Module.verify_eq_ok.2 (by simp [verify_namesakes])
  have hnames := branches_namesakes
  cases hrun : (Module.instrument .hundred {} ⟨"m", [namesakes, namesakes]⟩).2 with
  | error e => simp [hrun] at hnames
  | ok report =>
    rw [hrun] at hnames
    obtain ⟨outcomes, -, -, -, hbranches, houtcomes, hcount, -⟩ :=
      views_agree .hundred {} _ report hverify hrun
    have hlength := congrArg List.length hnames
    rw [List.length_map] at hlength
    exact ⟨hverify, report, rfl, hnames, hcount.trans hlength, outcomes, hbranches,
      fun o ho => (houtcomes o ho).2⟩

end ArithWatch
