import ArithWatch.Proofs.Check.Retuned
import ArithWatch.Proofs.Check.Sites

namespace ArithWatch

/-!
# The pass with another threshold

The pass reads the threshold only for the constants of its bound checks.

* `Edit.Retunes` says that one edit does to retuned functions what another one does to the functions
  themselves.
* `Edit.retunes_build`: so does building a condition with the other threshold.
* `Edit.insertSite_retune` and `Edit.instrumentInst_retune` are one chain and one id of the work
  list; `Edit.Underway` says what holds between the ids, and `Edit.foldlM_retune` is the whole list.
* `Edit.instrument_retune`: a pass with another threshold makes the retuned function, and the same
  report.
-/

/-! ### Retuned edits -/

namespace Edit

/-- What the first edit makes of a function, the second one makes of the retuned function, with the
    same result. -/
def Retunes {α : Type} (t : Threshold) (m : CheckMap) (x y : Edit α) : Prop :=
  ∀ f a g, x f = .ok a g → y (f.retune t m) = .ok a (g.retune t m)

section Retunes

variable {α β : Type} {t : Threshold} {m : CheckMap}

namespace Retunes

variable {x y : Edit α}

protected theorem pure (a : α) : Retunes t m (pure a) (pure a) := by
  intro f b g h
  cases h
  rfl

protected theorem throw (fault : Fault) : Retunes t m (throw fault : Edit α) (throw fault) :=
  fun _ _ _ h => nomatch h

protected theorem bind {k l : α → Edit β} (h : Retunes t m x y)
    (hk : ∀ a, Retunes t m (k a) (l a)) : Retunes t m (x >>= k) (y >>= l) := by
  intro f b g hrun
  obtain ⟨a, f', hfirst, hrest⟩ := bind_eq_ok hrun
  rw [bind_eq (h f a f' hfirst)]
  exact hk a f' b g hrest

protected theorem query {ask : Function → Except Fault α}
    (h : ∀ f a, ask f = .ok a → ask (f.retune t m) = .ok a) :
    Retunes t m (query ask) (query ask) := by
  intro f a g hrun
  obtain ⟨hask, rfl⟩ := query_eq_ok hrun
  exact query_eq (h g a hask)

protected theorem mapM {items : List β} {step : β → Edit α}
    (h : ∀ b ∈ items, Retunes t m (step b) (step b)) :
    Retunes t m (items.mapM step) (items.mapM step) := by
  induction items with
  | nil => exact .pure []
  | cons b rest ih =>
    rw [List.mapM_cons]
    exact (h b List.mem_cons_self).bind fun _ =>
      (ih fun c hc => h c (List.mem_cons_of_mem _ hc)).bind fun _ => .pure _

/-- It plays no part what is made of the result, as long as nothing of it is lost. -/
theorem of_map {c : α → β} (hc : ∀ a b, c a = c b → a = b) (h : Retunes t m (c <$> x) (c <$> y)) :
    Retunes t m x y := by
  intro f a g hrun
  obtain ⟨b, hy, hb⟩ := map_eq_ok (h f (c a) g (map_eq hrun c))
  rw [hy, hc b a hb]

end Retunes

/-! ### Single edits -/

/-- A new block is empty and holds no limit. -/
theorem retunes_createBlock (name : String) :
    Retunes t m (createBlock name) (createBlock name) := by
  intro f b g h
  cases h
  rw [Function.retune_push _ _ (by cases m.kind? _ <;> rfl), createBlock, ← f.freshName_retune]
  show EStateM.Result.ok _ _ = _
  simp only [Function.size_retune]
  rfl

/-- Terminators hold no limit, and a block is open in both functions or in neither. -/
theorem retunes_terminate (c : Cursor) (exit : Exit) :
    Retunes t m (c.terminate exit) (c.terminate exit) := by
  intro f b g h
  obtain ⟨block, hblock, hopen⟩ := exists_open_of_terminate h
  have hblock' := (Function.block?_retune (t := t) (m := m) c.block).trans (congrArg _ hblock)
  rw [terminate_eq hblock hopen] at h
  cases h
  rw [terminate_eq hblock' (by rwa [Block.term_retune])]
  exact congrArg _ (f.retune_setTerm c.block fun _ => _).symm

/-- Taking a terminator away reads no limit. -/
theorem retunes_eraseTerminator (b : BlockId) :
    Retunes t m (eraseTerminator b) (eraseTerminator b) := by
  intro f term g h
  obtain ⟨block, hblock⟩ := exists_block_of_ok h
  have hblock' := (Function.block?_retune (t := t) (m := m) b).trans (congrArg _ hblock)
  rw [eraseTerminator_eq hblock] at h
  cases h
  rw [eraseTerminator_eq hblock', Block.term_retune]
  exact congrArg _ (f.retune_setTerm b fun _ => none).symm

/-- Nor does changing it. -/
theorem retunes_updateTerminator (b : BlockId) (change : Terminator → Terminator) :
    Retunes t m (updateTerminator b change) (updateTerminator b change) := by
  intro f there g h
  obtain ⟨block, hblock⟩ := exists_block_of_ok h
  have hblock' := (Function.block?_retune (t := t) (m := m) b).trans (congrArg _ hblock)
  rw [updateTerminator_eq hblock] at h
  cases h
  rw [updateTerminator_eq hblock', Block.term_retune]
  exact congrArg _ (f.retune_setTerm b (Option.map change)).symm

section Push

variable {c : Cursor} {k : CheckKind} (hk : m.kind? c.block = some k)

include hk

/-- An instruction of a check block is emitted retuned. -/
theorem retunes_push (kind : InstKind) (ty : Ty) :
    Retunes t m (c.push kind ty) (c.push (kind.retune k t) ty) := by
  intro f a g h
  have hc := Cursor.lt_of_push h
  rw [Cursor.push_eq hc] at h
  cases h
  rw [Cursor.push_eq (by rwa [Function.size_retune]), Function.retune_append hk]
  rfl

/-- Arithmetic is emitted the same. -/
theorem retunes_arith (op : BinOp) (lhs rhs : Operand) :
    Retunes t m (c.arith op lhs rhs) (c.arith op lhs rhs) := by
  have htype : Retunes t m (Cursor.typeOf lhs) (Cursor.typeOf lhs) := .query fun _ _ h => h
  exact (htype.bind fun ty => retunes_push hk (.binary op lhs rhs .empty) ty).bind fun _ => .pure _

/-- An integer comparison is emitted with the other limit. -/
theorem retunes_icmp (pred : IntPredicate) (lhs : Operand) (b : Constant) :
    Retunes t m (c.icmp pred lhs b)
      (c.icmp pred lhs (.const ((k.bound? t b.ty (.icmp pred)).getD b))) :=
  (retunes_push hk (.icmp pred lhs (.const b)) .i1).bind fun _ => .pure _

/-- So is a floating-point comparison. -/
theorem retunes_fcmp (pred : FloatPredicate) (lhs : Operand) (b : Constant) :
    Retunes t m (c.fcmp pred lhs b)
      (c.fcmp pred lhs (.const ((k.bound? t b.ty (.fcmp pred)).getD b))) :=
  (retunes_push hk (.fcmp pred lhs (.const b)) .i1).bind fun _ => .pure _

/-- The conditions of the other checks are not retuned. -/
theorem retunes_compile (hbound : k.isBound = false) (w : Watched) (φ : Formula) :
    Retunes t m (φ.compile c w) (φ.compile c w) := by
  induction φ with
  | lhs | rhs | result | const b => exact .pure _
  | node o x y ihx ihy =>
    have hpush : ∀ lhs rhs, Retunes t m (o.push c lhs rhs) (o.push c lhs rhs) := by
      intro lhs rhs
      have hsame : ∀ kind ty, Retunes t m (c.push kind ty) (c.push kind ty) := fun kind ty => by
        have := retunes_push (t := t) hk kind ty
        rwa [InstKind.retune_of_not_isBound hbound] at this
      cases o with
      | arith op => exact retunes_arith hk op lhs rhs
      | icmp pred => exact (hsame (.icmp pred lhs rhs) .i1).bind fun _ => .pure _
      | fcmp pred => exact (hsame (.fcmp pred lhs rhs) .i1).bind fun _ => .pure _
    exact ihx.bind fun _ => ihy.bind fun _ => (hpush _ _).bind fun _ => .pure _

end Push

/-! ### The pass -/

variable (t₀ : Threshold)

/-- **A condition** is built with the other threshold. -/
theorem retunes_build {c : Cursor} {p : CheckPredicate} (hk : m.kind? c.block = some p.kind)
    (w : Watched) : Retunes t m (p.build t₀ c w) (p.build t c w) := by
  -- Checks without a threshold emit the same code.
  have hother : p.kind.isBound = false → p.formula t₀ w.ty = p.formula t w.ty →
      Retunes t m (p.build t₀ c w) (p.build t c w) := by
    intro hbound hformula
    refine .of_map (c := Operand.value) (fun _ _ => Operand.value.inj) ?_
    rw [p.build_eq_compile, p.build_eq_compile, ← hformula]
    exact retunes_compile hk hbound w _
  -- The bound checks emit the same comparisons, with the other limits.
  cases p with
  | signedBound =>
    exact (retunes_icmp hk .slt _ _).bind fun _ => (retunes_icmp hk .sgt _ _).bind fun _ =>
      retunes_arith hk _ _ _
  | unsignedBound => exact retunes_icmp hk .ugt _ _
  | floatBound =>
    exact (retunes_fcmp hk .olt _ _).bind fun _ => (retunes_fcmp hk .ogt _ _).bind fun _ =>
      retunes_arith hk _ _ _
  | addOverflow | subOverflow | mulOverflow | zeroDivisor | infinite | floatZeroDivisor =>
    exact hother rfl rfl

/-- Records hold no limit. -/
theorem retunes_recordCheck (checks : CheckMap) (branch : BlockId) (r : CheckRecord) :
    Retunes t m (recordCheck checks branch r) (recordCheck checks branch r) := by
  rw [recordCheck]
  split
  · exact .pure _
  · exact .throw _

/-- A chain is filled with the limits of its checks, and recorded the same. -/
theorem retunes_fillChain (w : Watched) (location : Option Location)
    (record : CheckKind → CheckRecord) (cont : BlockId) {chain : List (CheckPredicate × BlockId)}
    (hchain : ∀ e ∈ chain, m.kind? e.2 = some e.1.kind) (checks : CheckMap) :
    Retunes t m (fillChain t₀ w location record cont chain checks)
      (fillChain t w location record cont chain checks) := by
  induction chain generalizing checks with
  | nil => exact .pure _
  | cons head rest ih =>
    obtain ⟨p, block⟩ := head
    rw [List.forall_mem_cons] at hchain
    rw [fillChain_cons, fillChain_cons]
    exact (retunes_build t₀ hchain.1 w).bind fun _ => (retunes_terminate _ _).bind fun _ =>
      (retunes_recordCheck _ _ _).bind fun _ => (ih hchain.2 _).bind fun _ => .pure _

/-- The checks of a chain are listed with their kinds and blocks. -/
theorem checks_of_fillChain {w : Watched} {location : Option Location}
    {record : CheckKind → CheckRecord} {cont : BlockId} {chain : List (CheckPredicate × BlockId)}
    {checks : CheckMap} {f g : Function} {r : List Check × CheckMap}
    (h : fillChain t₀ w location record cont chain checks f = .ok r g) :
    ∀ e ∈ chain, ∃ c ∈ r.1, c.kind = e.1.kind ∧ c.block = e.2 := by
  induction chain generalizing checks f r with
  | nil => exact fun e he => nomatch he
  | cons head rest ih =>
    obtain ⟨p, block⟩ := head
    rw [fillChain_cons] at h
    obtain ⟨predicate, f₁, -, h⟩ := bind_eq_ok h
    obtain ⟨branch, f₂, hbranch, h⟩ := bind_eq_ok h
    obtain ⟨checks', f₃, -, h⟩ := bind_eq_ok h
    obtain ⟨r', f₄, hrest, h⟩ := bind_eq_ok h
    cases h
    rw [List.forall_mem_cons]
    refine ⟨⟨_, List.mem_cons_self, rfl, eq_of_terminate hbranch⟩, fun e he => ?_⟩
    obtain ⟨c, hc, heq⟩ := ih hrest e he
    exact ⟨c, List.mem_cons_of_mem _ hc, heq⟩

/-- Metadata holds no limit. -/
theorem retunes_emitMetadata (checks : CheckMap) :
    Retunes t m checks.emitMetadata checks.emitMetadata :=
  (Retunes.mapM fun _ _ => retunes_updateTerminator _ _).bind fun _ => .pure _

section Split

variable {f g : Function} {i : InstId}
  (hhome : ∀ place, f.locate i = .ok (some place) → m.kind? place.1 = none)
  (hcont : m.kind? ⟨f.blocks.size⟩ = none)

include hhome hcont

/-- A split commutes with retuning: the instruction is found in the same place, and the halves are
    retuned as the block was. -/
theorem splitBlockAfter_retune {halves : Option (BlockId × BlockId)}
    (h : splitBlockAfter i f = .ok halves g) :
    splitBlockAfter i (f.retune t m) = .ok halves (g.retune t m) := by
  obtain ⟨found, f', hquery, h⟩ := bind_eq_ok h
  obtain ⟨hfound, rfl⟩ := query_eq_ok hquery
  rw [splitBlockAfter, bind_eq (query_eq (Function.splitBlockAfter_retune hfound hhome hcont))]
  cases found <;> cases h <;> rfl

/-- **A chain** is inserted with the other threshold. -/
theorem insertSite_retune {q : Qualified} {site : SiteId} {checks : CheckMap}
    {r : Option (CheckSite × CheckMap)} (h : insertSite t₀ i q site checks f = .ok r g)
    (hnew : ∀ s checks', r = some (s, checks') → ∀ c ∈ s.checks, m.kind? c.block = some c.kind) :
    insertSite t i q site checks (f.retune t m) = .ok r (g.retune t m) := by
  obtain ⟨location, f', hlocation, h⟩ := bind_eq_ok h
  obtain ⟨hfound, hf'⟩ := query_eq_ok hlocation
  subst f'
  obtain ⟨halves, f₁, hsplit, h⟩ := bind_eq_ok h
  rw [insertSite, bind_eq (query_eq (Function.location_retune hfound)),
    bind_eq (splitBlockAfter_retune hhome hcont hsplit)]
  cases halves with
  | none =>
    cases h
    rfl
  | some halves =>
    obtain ⟨term, f₂, herase, h⟩ := bind_eq_ok h
    obtain ⟨blocks, f₃, hmade, h⟩ := bind_eq_ok h
    obtain ⟨origin, f₄, hbranch, h⟩ := bind_eq_ok h
    obtain ⟨filled, f₅, hfill, h⟩ := bind_eq_ok h
    cases h
    -- the blocks of the chain are those of its checks
    have hchain : ∀ e ∈ q.checks.zip blocks, m.kind? e.2 = some e.1.kind := by
      intro e he
      obtain ⟨c, hc, hkind, hblock⟩ := checks_of_fillChain t₀ hfill e he
      rw [← hkind, ← hblock]
      exact hnew _ _ rfl c hc
    have hmade' := Retunes.mapM (t := t) (m := m) (fun p _ => retunes_createBlock
      (CheckKind.blockName (CheckPredicate.kind p))) _ _ _ hmade
    have hbranch' := retunes_terminate (t := t) (m := m) _ _ _ _ _ hbranch
    show (eraseTerminator halves.1 >>= _) _ = _
    rw [bind_eq (retunes_eraseTerminator _ _ _ _ herase), bind_eq hmade']
    exact (bind_eq hbranch').trans (bind_eq (retunes_fillChain t₀ _ _ _ _ hchain _ _ _ _ hfill))

/-- **One id of the work list.** -/
theorem instrumentInst_retune {options : InstrumentOptions} {report report' : FunctionReport}
    (h : instrumentInst t₀ options report i f = .ok report' g)
    (hnew : ∀ s ∈ report'.sites, ∀ c ∈ s.checks, m.kind? c.block = some c.kind) :
    instrumentInst t options report i (f.retune t m) = .ok report' (g.retune t m) := by
  obtain ⟨found, f', hquery, h⟩ := bind_eq_ok h
  obtain ⟨hfound, hf'⟩ := query_eq_ok hquery
  subst f'
  cases found with
  | none =>
    cases h
    rw [instrumentInst, bind_eq (query_eq (Function.inst_retune_of_none hfound))]
    rfl
  | some j =>
    obtain ⟨j', hfound', -, hsame, hbinary⟩ := Function.inst_retune (t := t) (m := m) hfound
    by_cases hj : j.kind.isBinary = true
    · obtain ⟨op, lhs, rhs, flags, hk⟩ := InstKind.exists_of_isBinary hj
      rw [hsame hj] at hfound'
      rw [instrumentInst, bind_eq (query_eq hfound')]
      simp only [hk] at h ⊢
      obtain ⟨_, _, hget, h⟩ := bind_eq_ok h
      cases hget
      rw [bind_eq (show (get : Edit Function) _ = .ok _ _ from rfl)]
      -- the types of operands are kept, and so is what is made of them
      rw [show (f.retune t m).qualify options j = f.qualify options j from rfl]
      cases hq : f.qualify options j with
      | error reason =>
        simp only [hq] at h
        cases h
        rfl
      | ok q =>
        simp only [hq] at h
        obtain ⟨inserted, f₁, hinsert, h⟩ := bind_eq_ok h
        have hinsert' := insertSite_retune (t := t) t₀ hhome hcont hinsert fun s checks' hs => by
          subst hs
          cases h
          exact hnew s (List.mem_append_right _ List.mem_cons_self)
        refine (bind_eq hinsert').trans ?_
        cases inserted <;> cases h <;> rfl
    · rw [Bool.not_eq_true] at hj
      have hskip : instrumentInst t₀ options report i f = .ok report f :=
        instrumentInst_of_not_binary t₀ options hfound hj
      rw [instrumentInst, bind_eq hquery] at hskip
      rw [hskip] at h
      cases h
      exact instrumentInst_of_not_binary t options hfound' (hbinary.trans hj)

end Split

end Retunes

/-! ### The work list -/

/-- The pass is underway: the records of its report are in place, and their blocks are done with. -/
structure Underway (ids : List InstId) (report : FunctionReport) (f : Function) : Prop where
  regular : f.Regular
  queues : f.Queues ids
  recordsIn : RecordsIn f report.checks
  consistent : report.Consistent
  settled : ∀ b, report.checks.contains b = true → f.Settled ids b

namespace Underway

variable {id : InstId} {ids : List InstId} {report : FunctionReport} {f g : Function}

/-- At first there are no records. -/
theorem initial (h : f.WellFormed) :
    Underway ((f.allInsts.filter (·.kind.isBinary)).map (·.id)) { function := f.name } f :=
  have hnone : ∀ b, ({ function := f.name } : FunctionReport).checks.contains b ≠ true :=
    fun b hb => by cases hb
  ⟨h.toRegular, h.queues, fun b hb => (hnone b hb).elim, .empty f.name,
    fun b hb => (hnone b hb).elim⟩

/-- A skipped instruction leaves the function as it was. -/
theorem skip (h : Underway (id :: ids) report f) (skipped : List SkippedInst) :
    Underway ids { report with skipped } f :=
  ⟨h.regular, h.queues.tail, h.recordsIn, ⟨h.consistent.ids, h.consistent.records⟩,
    fun b hb => (h.settled b hb).tail⟩

/-- A site behind an operation leaves a function under way, one operation further. -/
theorem insert {s : Insertion} (h : Underway (s.spot.inst.id :: ids) report f) (hs : s.Fits f)
    (hfirst : s.spot.First f) (hg : s.Makes f g) :
    Underway ids { report with
      sites := report.sites ++ [s.site f ⟨report.sites.length⟩]
      checks := recordAll (s.record ⟨report.sites.length⟩) report.checks (s.decisions f) } g where
  regular := hg.regular h.regular hs
  queues := (hg.queues h.regular hs h.queues).tail
  recordsIn := h.recordsIn.recordAll hg.size _
  consistent := h.consistent.add fun _ he => h.recordsIn.lt_of_mem he
  settled b hb := by
    rcases contains_recordAll.1 hb with hb | hb
    · exact hg.settled h.regular hs h.queues hfirst (h.settled b hb) (h.recordsIn b hb)
    · obtain ⟨d, hd, rfl⟩ := List.mem_map.1 hb
      exact hg.settled_decision h.regular hs h.queues hd

/-- The next instruction stands in an old block that belongs to no check. -/
theorem quiet (h : Underway (id :: ids) report f) {place : BlockId × Nat}
    (hplace : f.locate id = .ok (some place)) :
    place.1.index < f.blocks.size ∧ report.checks.kind? place.1 = none := by
  rcases h.regular.laid.locate_cases id with ⟨hnone, -⟩ | ⟨p, hp, rfl, hlocate⟩
  · rw [hnone] at hplace
    cases hplace
  · rw [hlocate] at hplace
    cases hplace
    refine ⟨hp.home_lt, ?_⟩
    rw [CheckMap.kind?, Option.map_eq_none_iff, ← Option.not_isSome_iff_eq_none]
    exact fun hmem => (h.settled p.home hmem).home_ne hp List.mem_cons_self rfl

end Underway

/-- **The work list.** Every insertion is made with the other threshold, as it is made in a block
    that belongs to no check. -/
theorem foldlM_retune (t₀ t : Threshold) (options : InstrumentOptions) (ids : List InstId)
    {f : Function} {report : FunctionReport} (h : Underway ids report f) :
    ∃ report' g, ids.foldlM (instrumentInst t₀ options) report f = .ok report' g ∧
      ids.foldlM (instrumentInst t options) report (f.retune t report.checks) =
        .ok report' (g.retune t report'.checks) := by
  induction ids generalizing f report with
  | nil => exact ⟨report, f, rfl, rfl⟩
  | cons id rest ih =>
    rw [List.foldlM_cons, List.foldlM_cons]
    rcases instrumentInst_cases t₀ options h.regular h.recordsIn id with
      ⟨skipped, hstep⟩ | ⟨s, g, hs, hfirst, rfl, rfl, hg, hstep⟩
    · have hstep' := instrumentInst_retune (t := t) t₀ (fun _ hplace => (h.quiet hplace).2)
        (h.recordsIn.kind?_eq_none (Nat.le_refl _)) hstep
        fun s hs c hc => h.consistent.kind?_eq_some_iff.2 ⟨s, hs, c, hc, rfl, rfl⟩
      obtain ⟨report', g, hrest, hrest'⟩ := ih (h.skip skipped)
      exact ⟨report', g, (bind_eq hstep).trans hrest, (bind_eq hstep').trans hrest'⟩
    · have h₁ := h.insert hs hfirst hg
      obtain ⟨report', g', hrest, hrest'⟩ := ih h₁
      -- the new records say nothing of the old blocks, nor of the rest of the block that is cut
      have hold : ∀ b : BlockId, b.index < f.blocks.size →
          (recordAll (s.record ⟨report.sites.length⟩) report.checks (s.decisions f)).kind? b =
            report.checks.kind? b :=
        fun b hb => kind?_recordAll (Insertion.not_mem_of_lt hb)
      have hcont : (recordAll (s.record ⟨report.sites.length⟩) report.checks
          (s.decisions f)).kind? (Insertion.cont f) = none :=
        (kind?_recordAll Insertion.cont_not_mem).trans
          (h.recordsIn.kind?_eq_none (Nat.le_refl _))
      have hstep' := instrumentInst_retune (t := t) _
        (fun _ hplace => (hold _ (h.quiet hplace).1).trans (h.quiet hplace).2) hcont hstep
        fun s hs c hc => h₁.consistent.kind?_eq_some_iff.2 ⟨s, hs, c, hc, rfl, rfl⟩
      rw [Function.retune_congr hold] at hstep'
      exact ⟨report', g', (bind_eq hstep).trans hrest, (bind_eq hstep').trans hrest'⟩

/-- **The pass with another threshold.** On a verified function it gives the same report, and the
    function that it makes is the retuned one: names, ids, layout, control flow and all blocks but
    the decision blocks of bound checks are the same. -/
theorem instrument_retune (t₀ t : Threshold) (options : InstrumentOptions) {f : Function}
    (h : f.WellFormed) :
    ∃ report f', instrument t₀ options f = .ok report f' ∧
      instrument t options f = .ok report (f'.retune t report.checks) := by
  obtain ⟨report, f', hrun, -⟩ := instrument_tagged t₀ options h.toRegular
  replace hrun := hrun options.emitMetadata
  have hwork : query workList f = .ok ((f.allInsts.filter (·.kind.isBinary)).map (·.id)) f :=
    query_eq (workList_eq h.toRegular.laid)
  have hget : (get : Edit Function) f = .ok f f := rfl
  -- The loop starts with an empty map, where retuning does nothing.
  obtain ⟨report', g, hfold, hfold'⟩ := foldlM_retune t₀ t options
    ((f.allInsts.filter (·.kind.isBinary)).map (·.id)) (.initial h)
  rw [Function.retune_eq_self fun _ _ => rfl] at hfold'
  refine ⟨report, _, hrun, ?_⟩
  rw [instrument, bind_eq hwork, bind_eq hget, bind_eq hfold] at hrun
  rw [instrument, bind_eq hwork, bind_eq hget, bind_eq hfold']
  cases hemit : options.emitMetadata with
  | false =>
    rw [hemit] at hrun
    cases hrun
    rfl
  | true =>
    rw [hemit] at hrun
    obtain ⟨n, g', hwrite, hrun⟩ := bind_eq_ok hrun
    cases hrun
    exact bind_eq (retunes_emitMetadata _ _ _ _ hwrite)

end Edit

end ArithWatch
