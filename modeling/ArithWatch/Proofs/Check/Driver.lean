import ArithWatch.Proofs.Check.Views

namespace ArithWatch

/-!
# What a run over a module leaves behind

A run ends with a report, with the verdict on the module that it was given, or with the verdict on a
function that it has instrumented.

* `Edit.recordsIn_of_instrument`: the branches that a pass records exist, on any function on which
  it does not fault.  So nothing else can go wrong behind it.
* `Module.verify_eq_error_iff`: the verdict on a module is the one on its first rejected function.
* `instrument_outcome` says what is left behind in each of the three cases.
-/

/-! ### Records of any function -/

/-- No edit takes a block away. -/
theorem Function.stable_size (n : Nat) : Stable fun f => n ≤ f.blocks.size where
  newValue _ _ h := h
  createBlock f _ h := by
    rw [Array.size_push]
    exact Nat.le_succ_of_le h
  setTerm f b _ h := by rwa [size_updateBlock]
  append f b _ _ _ h _ := by rwa [size_append]
  cutBlock f origin block count h _ := by
    have hnames := congrArg List.length (f.names_cutBlock origin block count)
    simp only [names, List.length_map, Array.length_toList, List.length_append] at hnames
    omega

namespace Edit

variable {f g : Function} {t : Threshold}

theorem RecordsIn.mono {m : CheckMap} (hm : RecordsIn f m) (hle : f.blocks.size ≤ g.blocks.size) :
    RecordsIn g m :=
  fun b hb => Nat.lt_of_lt_of_le (hm b hb) hle

/-- What is kept by all edits is kept by one that leads from `f` to `g`. -/
theorem RecordsIn.of_keeps {α : Type} {x : Edit α} {a : α} {m : CheckMap} (hm : RecordsIn f m)
    (hkeeps : Keeps (fun h => f.blocks.size ≤ h.blocks.size) x) (hrun : x f = .ok a g) :
    RecordsIn g m :=
  hm.mono (hkeeps f a g hrun (Nat.le_refl _))

/-- A record is added for a block that exists. -/
theorem RecordsIn.recordCheck {m m' : CheckMap} {branch : BlockId} {r : CheckRecord}
    (hm : RecordsIn f m) (hbranch : branch.index < f.blocks.size)
    (hrun : recordCheck m branch r f = .ok m' g) : RecordsIn g m' := by
  cases hknown : m.contains branch with
  | true =>
    rw [Edit.recordCheck, CheckMap.record, hknown] at hrun
    cases hrun
  | false =>
    rw [recordCheck_eq hknown] at hrun
    cases hrun
    intro b hb
    rw [SortedMap.contains, SortedMap.find?_insert] at hb
    by_cases h : branch = b
    · exact h ▸ hbranch
    · rw [if_neg (by simpa using h)] at hb
      exact hm b hb

/-- The branches of a chain are recorded once their blocks are closed. -/
theorem RecordsIn.fillChain {w : Watched} {location : Option Location}
    {record : CheckKind → CheckRecord} {cont : BlockId} {chain : List (CheckPredicate × BlockId)}
    {m : CheckMap} {r : List Check × CheckMap} (hm : RecordsIn f m)
    (hrun : fillChain t w location record cont chain m f = .ok r g) : RecordsIn g r.2 := by
  induction chain generalizing f m r with
  | nil =>
    cases hrun
    exact hm
  | cons head rest ih =>
    obtain ⟨p, block⟩ := head
    rw [fillChain_cons] at hrun
    obtain ⟨predicate, f₁, hbuild, hrun⟩ := bind_eq_ok hrun
    obtain ⟨branch, f₂, hbranch, hrun⟩ := bind_eq_ok hrun
    obtain ⟨m', f₃, hrecord, hrun⟩ := bind_eq_ok hrun
    obtain ⟨r', f₄, hrest, hrun⟩ := bind_eq_ok hrun
    cases hrun
    have hm₁ := hm.of_keeps (keeps_build (Function.stable_size _) p t _ w) hbuild
    -- A block that could be closed exists, and it is the one that is recorded.
    obtain ⟨closed, hblock, hopen⟩ := exists_open_of_terminate hbranch
    have hlt := Function.lt_of_block? hblock
    rw [Cursor.condBr, terminate_eq hblock hopen] at hbranch
    cases hbranch
    show RecordsIn g r'.2
    refine ih (RecordsIn.recordCheck (hm₁.mono ?_) ?_ hrecord) hrest
    · rw [Function.size_updateBlock]
    · rwa [Function.size_updateBlock]

/-- **One site** records the branches of the blocks that it closes, and these exist. -/
theorem RecordsIn.insertSite {i : InstId} {q : Qualified} {site : SiteId} {m m' : CheckMap}
    {s : CheckSite} (hm : RecordsIn f m)
    (hrun : insertSite t i q site m f = .ok (some (s, m')) g) : RecordsIn g m' := by
  have hsize := Function.stable_size
  -- Step by step through the edit: none of them takes a block away.
  obtain ⟨location, f₁, hlocation, hrun⟩ := bind_eq_ok hrun
  have hm₁ := hm.of_keeps (.query _) hlocation
  obtain ⟨halves, f₂, hsplit, hrun⟩ := bind_eq_ok hrun
  have hm₂ := hm₁.of_keeps (keeps_splitBlockAfter (hsize _) i) hsplit
  cases halves with
  | none => cases hrun
  | some halves =>
    obtain ⟨_, f₃, herase, hrun⟩ := bind_eq_ok hrun
    have hm₃ := hm₂.of_keeps (keeps_eraseTerminator (hsize _) _) herase
    obtain ⟨blocks, f₄, hblocks, hrun⟩ := bind_eq_ok hrun
    have hm₄ := hm₃.of_keeps (.mapM fun _ _ => keeps_createBlock (hsize _) _) hblocks
    obtain ⟨_, f₅, hbr, hrun⟩ := bind_eq_ok hrun
    have hm₅ := hm₄.of_keeps (keeps_terminate (hsize _) _ _) hbr
    obtain ⟨r, f₆, hfill, hrun⟩ := bind_eq_ok hrun
    cases hrun
    exact hm₅.fillChain hfill

/-- **One instruction** is left alone, or it becomes a site. -/
theorem RecordsIn.instrumentInst {options : InstrumentOptions} {report report' : FunctionReport}
    {id : InstId} (hm : RecordsIn f report.checks)
    (hrun : instrumentInst t options report id f = .ok report' g) : RecordsIn g report'.checks := by
  obtain ⟨found, f₁, hfound, hrun⟩ := bind_eq_ok hrun
  replace hm := hm.of_keeps (.query _) hfound
  cases found with
  | none =>
    cases hrun
    exact hm
  | some i =>
    -- Only a binary operation that qualifies gets as far as an insertion.
    cases hk : i.kind with
    | binary op lhs rhs flags =>
      simp only [hk] at hrun
      obtain ⟨f₂, f₃, hget, hrun⟩ := bind_eq_ok hrun
      cases hget
      cases hq : f₁.qualify options i with
      | error reason =>
        rw [hq] at hrun
        cases hrun
        exact hm
      | ok q =>
        rw [hq] at hrun
        obtain ⟨inserted, f₄, hinsert, hrun⟩ := bind_eq_ok hrun
        cases inserted with
        | none =>
          cases hrun
          exact hm.of_keeps (keeps_insertSite (Function.stable_size _) _ _ _ _ _) hinsert
        | some inserted =>
          cases hrun
          exact hm.insertSite hinsert
    | icmp | fcmp | phi =>
      simp only [hk] at hrun
      cases hrun
      exact hm

/-- **The branches that a pass records exist**, on whatever function it does not fault. -/
theorem recordsIn_of_instrument {options : InstrumentOptions} {report : FunctionReport}
    (hrun : instrument t options f = .ok report g) : RecordsIn g report.checks := by
  -- The work list is walked with the report that has been made so far.
  have hwork : ∀ (ids : List InstId) {f g : Function} {report report' : FunctionReport},
      RecordsIn f report.checks → ids.foldlM (instrumentInst t options) report f = .ok report' g →
        RecordsIn g report'.checks := by
    intro ids
    induction ids with
    | nil =>
      intro f g report report' hm h
      cases h
      exact hm
    | cons id rest ih =>
      intro f g report report' hm h
      rw [List.foldlM_cons] at h
      obtain ⟨report₁, f₁, hstep, h⟩ := bind_eq_ok h
      exact ih (hm.instrumentInst hstep) h
  obtain ⟨ids, f₁, hids, hrun⟩ := bind_eq_ok hrun
  obtain ⟨f₂, f₃, hget, hrun⟩ := bind_eq_ok hrun
  obtain ⟨report₁, f₄, hfold, hrun⟩ := bind_eq_ok hrun
  have hm := hwork ids (fun b hb => by cases hb) hfold
  -- Writing the tags to the terminators comes last, if at all.
  cases hemit : options.emitMetadata with
  | false =>
    rw [hemit] at hrun
    cases hrun
    exact hm
  | true =>
    rw [hemit] at hrun
    obtain ⟨n, f₅, hwrite, hrun⟩ := bind_eq_ok hrun
    cases hrun
    exact hm.of_keeps (keeps_emitMetadata (Function.stable_size _) _) hwrite

/-- The pass does not look at the option to verify. -/
theorem instrument_verify (options : InstrumentOptions) (verify : Bool) :
    instrument t { options with verify := verify } = instrument t options :=
  rfl

end Edit

/-! ### Verdicts -/

namespace Module

variable {t : Threshold} {options : InstrumentOptions} {m : Module}

/-- **The verdict on a module** is the one on its first rejected function. -/
theorem verify_eq_error_iff {e : VerifyError} : m.verify = .error e ↔
    ∃ before f after, FirstRejected Function.verify m.functions before f after e := by
  rw [verify, except_forM_eq_error]
  constructor
  · rintro ⟨before, f, after, hsplit, hbefore, hf⟩
    exact ⟨before, f, after, hsplit, hbefore, hf⟩
  · rintro ⟨before, f, after, hsplit, hbefore, hf⟩
    exact ⟨before, f, after, hsplit, hbefore, hf⟩

/-- There is only one first rejected function. -/
theorem FirstRejected.unique {check : Function → Except VerifyError Unit}
    {functions before before' : List Function} {f f' : Function} {after after' : List Function}
    {e e' : VerifyError} (h : FirstRejected check functions before f after e)
    (h' : FirstRejected check functions before' f' after' e') :
    before = before' ∧ f = f' ∧ after = after' ∧ e = e' := by
  have hclash : ∀ {g : Function} {d : VerifyError}, check g = .ok () → check g = .error d → False :=
    fun hok herror => nomatch hok.symm.trans herror
  obtain ⟨hsplit, hbefore, hf⟩ := h
  obtain ⟨hsplit', hbefore', hf'⟩ := h'
  rw [hsplit] at hsplit'
  clear hsplit
  -- Both walks pass the same accepted functions, and neither stops before the other.
  induction before generalizing before' with
  | nil =>
    cases before' with
    | nil =>
      cases hsplit'
      cases hf.symm.trans hf'
      exact ⟨rfl, rfl, rfl, rfl⟩
    | cons g before' =>
      cases hsplit'
      exact (hclash (hbefore' _ List.mem_cons_self) hf).elim
  | cons g before ih =>
    cases before' with
    | nil =>
      cases hsplit'
      exact (hclash (hbefore _ List.mem_cons_self) hf').elim
    | cons g' before' =>
      rw [List.cons_append, List.cons_append, List.cons.injEq] at hsplit'
      obtain ⟨rfl, hrest⟩ := hsplit'
      obtain ⟨rfl, hsame⟩ := ih (fun _ hg => hbefore _ (List.mem_cons_of_mem _ hg)) hrest
        fun _ hg => hbefore' _ (List.mem_cons_of_mem _ hg)
      exact ⟨rfl, hsame⟩

/-- Where all functions are accepted, none is rejected first. -/
theorem FirstRejected.not_forall {check : Function → Except VerifyError Unit}
    {functions before : List Function} {f : Function} {after : List Function} {e : VerifyError}
    (h : FirstRejected check functions before f after e) : ¬ ∀ g ∈ functions, check g = .ok () := by
  intro hall
  have hf : f ∈ functions := h.split ▸ List.mem_append_right _ List.mem_cons_self
  exact nomatch (hall f hf).symm.trans h.rejected

/-! ### Runs over a module -/

/-- A pass that does not fault leaves the instrumented function, and its branches exist. -/
theorem instrument_eq_of_exists {f : Function}
    (h : ∃ report g, Edit.instrument t options f = .ok report g) :
    ∃ report, Edit.instrument t options f = .ok report (f.instrumented t options) ∧
      Edit.RecordsIn (f.instrumented t options) report.checks := by
  obtain ⟨report, g, hrun⟩ := h
  have hg : f.instrumented t options = g := by rw [Function.instrumented, hrun]
  exact ⟨report, hg ▸ hrun, hg ▸ Edit.recordsIn_of_instrument hrun⟩

/-- The report of a run from the outcomes of its functions. -/
def reportOf (m : Module) (outcomes : List Outcome) : ModuleReport where
  module := m.name
  functions := outcomes.map (·.report)
  branches := outcomes.flatMap (·.branches)

/-- The outcomes are those of the passes over the functions, each on its own. -/
structure Outcomes (t : Threshold) (options : InstrumentOptions) (m : Module)
    (outcomes : List Outcome) : Prop where
  before : outcomes.map (·.before) = m.functions
  runs : ∀ o ∈ outcomes, Edit.instrument t options o.before = .ok o.report o.after
  branches : ∀ o ∈ outcomes,
    o.report.checks.entries.mapM o.after.taggedBranch = .ok o.branches

/-- The functions of the outcomes are the instrumented ones, in order. -/
theorem Outcomes.after {outcomes : List Outcome} (h : Outcomes t options m outcomes) :
    outcomes.map (·.after) = m.functions.map (·.instrumented t options) := by
  rw [← h.before, List.map_map]
  refine List.map_congr_left fun o ho => ?_
  rw [Function.comp_apply, Function.instrumented, h.runs o ho]

/-- Without verification the outcomes are all there is. -/
theorem instrumentFunctions_of_outcomes (hverify : options.verify = false)
    {outcomes : List Outcome}
    (h : ∀ o ∈ outcomes, Edit.instrument t options o.before = .ok o.report o.after ∧
      o.report.checks.entries.mapM o.after.taggedBranch = .ok o.branches) :
    instrumentFunctions t options (outcomes.map (·.before)) =
      (outcomes.map (·.after), .ok (outcomes.map fun o => (o.report, o.branches))) := by
  induction outcomes with
  | nil => rfl
  | cons o rest ih =>
    obtain ⟨⟨hrun, hbranches⟩, hrest⟩ := List.forall_mem_cons.1 h
    have hfinish : finishFunction options o.after o.report = .ok (o.report, o.branches) := by
      rw [finishFunction, hverify, hbranches]
      rfl
    rw [List.map_cons, instrumentFunctions_cons hrun _ hfinish, ih hrest]
    rfl

/-- Without verification the outcomes are all that there is. -/
theorem instrument_of_outcomes {outcomes : List Outcome} (h : Outcomes t options m outcomes)
    (hverify : options.verify = false) :
    m.instrument t options = (m.instrumented t options, .ok (m.reportOf outcomes)) := by
  have hwalk := instrumentFunctions_of_outcomes hverify fun o ho => ⟨h.runs o ho, h.branches o ho⟩
  rw [h.before, h.after] at hwalk
  rw [instrument, hverify]
  show (_, _) = _
  rw [hwalk]
  simp only [Except.map, instrumented, reportOf, List.map_map, List.flatMap_map]
  rfl

/-- The module where a run stops behind `f`. -/
def stoppedBehind (t : Threshold) (options : InstrumentOptions) (m : Module)
    (before : List Function) (f : Function) (after : List Function) : Module :=
  { m with
    functions := before.map (·.instrumented t options) ++ f.instrumented t options :: after }

/-- **The three ends of a run**, where no pass faults. -/
theorem instrument_cases (t : Threshold) (options : InstrumentOptions) (m : Module)
    (hpass : ∀ f ∈ m.functions, ∃ report g, Edit.instrument t options f = .ok report g) :
    (∃ e, options.verify = true ∧ m.verify = .error e ∧
      m.instrument t options = (m, .error (.invalidInput e))) ∨
    (options.verify = true ∧ m.verify = .ok () ∧ ∃ before f after e,
      FirstRejected (fun f => (f.instrumented t options).verify) m.functions before f after e ∧
      m.instrument t options =
        (m.stoppedBehind t options before f after, .error (.invalidOutput e))) ∨
    ((options.verify = true → m.verify = .ok () ∧
        ∀ f ∈ m.functions, (f.instrumented t options).verify = .ok ()) ∧
      ∃ outcomes, Outcomes t options m outcomes ∧
        m.instrument t options = (m.instrumented t options, .ok (m.reportOf outcomes))) := by
  -- The module itself may be rejected, then one of the outcomes, or nothing is.
  by_cases hinput : ∃ e, options.verify = true ∧ m.verify = .error e
  · obtain ⟨e, hverify, he⟩ := hinput
    refine .inl ⟨e, hverify, he, ?_⟩
    rw [instrument, if_pos hverify, he]
  have hok : options.verify = true → m.verify = .ok () := by
    intro hverify
    cases he : m.verify with
    | ok => rfl
    | error e => exact absurd ⟨e, hverify, he⟩ hinput
  have hguard : (if options.verify then m.verify else .ok ()) = .ok () := by
    cases hverify : options.verify with
    | false => rfl
    | true => exact hok hverify
  rcases instrumentFunctions_outcome t options fun f hf => instrument_eq_of_exists (hpass f hf) with
    ⟨haccepted, parts, hparts⟩ | ⟨hverify, before, f, after, e, hfirst, herror⟩
  · obtain ⟨outcomes, hbefore, -, rfl, houtcomes⟩ := instrumentFunctions_eq_ok hparts
    refine .inr (.inr ⟨fun hverify => ⟨hok hverify, haccepted hverify⟩, outcomes,
      ⟨hbefore.symm, fun o ho => (houtcomes o ho).1, fun o ho => (houtcomes o ho).2⟩, ?_⟩)
    rw [instrument, hguard]
    show (_, _) = _
    rw [hparts]
    simp only [Except.map, instrumented, reportOf, List.map_map, List.flatMap_map]
    rfl
  · refine .inr (.inl ⟨hverify, hok hverify, before, f, after, e, hfirst, ?_⟩)
    rw [instrument, hguard]
    show (_, _) = _
    rw [herror]
    rfl

end Module

/-- **What a run leaves behind.** Take any module whose functions can be instrumented one by one.
    With verification, the run objects to the module exactly if one of its functions is rejected,
    with the error of the first one, and leaves it as it is.  It objects to its output exactly if
    the module is accepted and an instrumented function is rejected, with the error of the first
    one; all functions up to that one are instrumented, and those behind it are untouched.
    Otherwise every function is instrumented, and the report lists what the single passes report.
    Verification changes nothing else. -/
theorem instrument_outcome (t : Threshold) (options : InstrumentOptions) (m : Module)
    (hpass : ∀ f ∈ m.functions, ∃ report g, Edit.instrument t options f = .ok report g) :
    (∀ e, (m.instrument t options).2 = .error (.invalidInput e) ↔
      options.verify = true ∧ m.verify = .error e) ∧
    (∀ e, m.verify = .error e ↔
      ∃ before f after, Module.FirstRejected Function.verify m.functions before f after e) ∧
    (∀ e, (m.instrument t options).2 = .error (.invalidInput e) → (m.instrument t options).1 = m) ∧
    (∀ e, (m.instrument t options).2 = .error (.invalidOutput e) ↔
      options.verify = true ∧ m.verify = .ok () ∧ ∃ before f after,
        Module.FirstRejected (fun f => (f.instrumented t options).verify) m.functions before f after
          e) ∧
    (∀ before f after e,
      Module.FirstRejected (fun f => (f.instrumented t options).verify) m.functions before f after
        e →
      (m.instrument t options).2 = .error (.invalidOutput e) →
      (m.instrument t options).1 = m.stoppedBehind t options before f after) ∧
    ((∀ e, (m.instrument t options).2 ≠ .error (.invalidInput e) ∧
        (m.instrument t options).2 ≠ .error (.invalidOutput e)) →
      ∃ outcomes, Module.Outcomes t options m outcomes ∧
        m.instrument t options = (m.instrumented t options, .ok (m.reportOf outcomes))) ∧
    (∀ verify, Edit.instrument t { options with verify := verify } = Edit.instrument t options) ∧
    (∀ report, (m.instrument t options).2 = .ok report →
      m.instrument t { options with verify := false } = m.instrument t options) := by
  -- The three outcomes exclude each other, so each equivalence is settled by the case at hand.
  rcases m.instrument_cases t options hpass with
    ⟨e, hverify, he, hrun⟩ | ⟨hverify, hok, before, f, after, e, hfirst, hrun⟩ |
      ⟨haccepted, outcomes, houtcomes, hrun⟩
  · rw [hrun]
    refine ⟨fun d => ?_, fun _ => Module.verify_eq_error_iff, fun _ _ => rfl, fun d => ?_,
      fun _ _ _ _ _ herror => (nomatch herror), fun h => absurd rfl (h e).1,
      Edit.instrument_verify options, nofun⟩
    · rw [he, and_iff_right hverify, Except.error.injEq, Except.error.injEq,
        InstrumentError.invalidInput.injEq]
    · rw [he]
      exact ⟨nofun, nofun⟩
  · rw [hrun]
    refine ⟨fun d => ?_, fun _ => Module.verify_eq_error_iff, nofun, fun d => ?_,
      fun before' f' after' d hd _ => ?_, fun h => absurd rfl (h e).2,
      Edit.instrument_verify options, nofun⟩
    · rw [hok]
      exact ⟨nofun, nofun⟩
    · rw [and_iff_right hverify, and_iff_right hok]
      constructor
      · rintro ⟨⟩
        exact ⟨before, f, after, hfirst⟩
      · rintro ⟨before', f', after', hd⟩
        rw [(hfirst.unique hd).2.2.2]
    · obtain ⟨rfl, rfl, rfl, -⟩ := hfirst.unique hd
      rfl
  · rw [hrun]
    refine ⟨fun d => ?_, fun _ => Module.verify_eq_error_iff, nofun, fun d => ?_,
      fun _ _ _ _ _ herror => (nomatch herror), fun _ => ⟨outcomes, houtcomes, rfl⟩,
      Edit.instrument_verify options, fun _ _ => ?_⟩
    · exact ⟨nofun, fun ⟨hverify, hd⟩ => nomatch hd.symm.trans (haccepted hverify).1⟩
    · refine ⟨nofun, ?_⟩
      rintro ⟨hverify, -, before', f', after', hd⟩
      exact absurd (haccepted hverify).2 hd.not_forall
    · -- The passes are the same without verification, so that their outcomes are.
      exact Module.instrument_of_outcomes ⟨houtcomes.before, houtcomes.runs, houtcomes.branches⟩ rfl

/-- An accepted module of three functions.  An id is drawn again in the second one, so that the
    third one is left alone. -/
theorem instrument_outcome_countless :
    (∀ f ∈ [doubling, countless, mixture], ∃ report g,
        Edit.instrument .hundred { verify := true } f = .ok report g) ∧
      (Module.instrument .hundred { verify := true } ⟨"m", [doubling, countless, mixture]⟩).2 =
        .error (.invalidOutput ⟨"double", .duplicateInst ⟨0⟩⟩) ∧
      (Module.instrument .hundred { verify := true } ⟨"m", [doubling, countless, mixture]⟩).1 =
        ⟨"m", [doubling.instrumented .hundred { verify := true },
          countless.instrumented .hundred { verify := true }, mixture]⟩ := by
  have hverified : ∀ f ∈ [doubling, countless, mixture], f.verify = .ok () :=
    List.forall_mem_cons.2 ⟨verify_doubling, List.forall_mem_cons.2
      ⟨verify_countless, List.forall_mem_singleton.2 verify_mixture⟩⟩
  have hpass : ∀ f ∈ [doubling, countless, mixture], ∃ report g,
      Edit.instrument .hundred { verify := true } f = .ok report g := fun f hf =>
    Edit.instrument_exists .hundred { verify := true }
      (Function.verified_iff_wellFormed.1 (hverified f hf)).laid.arranged
  have hdoubling : (doubling.instrumented .hundred { verify := true }).verify = .ok () :=
    (Function.verified_iff_wellFormed.1 verify_doubling).verify_instrumented.1.2
      (freshIds_doubling.not_redraws (roomFor_doubling true))
  have hcountless : (countless.instrumented .hundred { verify := true }).verify =
      .error ⟨"double", .duplicateInst ⟨0⟩⟩ :=
    (Function.verified_iff_wellFormed.1 verify_countless).verify_instrumented.2 _ redraws_countless
  -- The loop is accepted after its pass, and the next function is not.
  have hfirst : Module.FirstRejected
      (fun f => (f.instrumented .hundred { verify := true }).verify)
      [doubling, countless, mixture] [doubling] countless [mixture]
      ⟨"double", .duplicateInst ⟨0⟩⟩ :=
    ⟨rfl, List.forall_mem_singleton.2 hdoubling, hcountless⟩
  obtain ⟨-, -, -, houtput, hstopped, -⟩ :=
    instrument_outcome .hundred { verify := true } ⟨"m", [doubling, countless, mixture]⟩ hpass
  have herror := (houtput _).2 ⟨rfl, Module.verify_eq_ok.2 hverified, _, _, _, hfirst⟩
  exact ⟨hpass, herror, hstopped _ _ _ _ hfirst herror⟩

end ArithWatch
