import Mathlib
import ArithWatch.Proofs.Check.Pieces
import ArithWatch.Proofs.Check.Sites

namespace ArithWatch

/-!
# The shape of sites in the end

* `CheckSite.Shaped` is what a site looks like when the pass is done: the watched instruction, the
  decision blocks behind it and the block that goes on are passed in a row, and cannot be entered
  from anywhere else.
* `Insertion.Stands.shaped`: an insertion that stands has this shape.
* `Inserts.blockCount_eq` and `Inserts.edgesFrom_eq` count blocks and edges.
* `instrument_shape` is the whole pass.
-/

/-! ### What a site looks like -/

/-- The block ends with an exit, and the exit has a location. -/
def Block.Closes (b : Block) (exit : Exit) (location : Option Location) : Prop :=
  ∃ t, b.term = some t ∧ t.exit = exit ∧ t.location = location

/-- The block of a check computes its predicate last and goes on to `next` in any case.  All that
    stands in it has the location. -/
def Function.Decides (g : Function) (location : Option Location) (c : Check) (next : BlockId) :
    Prop :=
  ∃ block code last, g.block? c.block = some block ∧ block.insts = code ++ [last] ∧
    last.result = c.predicate ∧ g.valueType? c.predicate = some .i1 ∧
    block.Closes (.condBr (.value c.predicate) next next) location ∧
    ∀ i ∈ block.insts, i.location = location

/-- The blocks behind the instruction of a site, in the order in which control enters them. -/
def CheckSite.route (s : CheckSite) : List BlockId := s.decisionBlocks ++ [s.contBlock]

/-- The site of an instruction of `f` in the instrumented function `g`, whose blocks have the
    predecessors `preds`. -/
structure CheckSite.Shaped (s : CheckSite) (f g : Function)
    (preds : SortedMap BlockId (List BlockId)) : Prop where
  /-- The instruction is the last one of its block, which goes on to the first decision block. -/
  origin : ∃ inst first block before, f.inst s.inst = .ok (some inst) ∧
    inst.location = s.location ∧ s.decisionBlocks.head? = some first ∧
    g.block? s.originBlock = some block ∧ block.insts = before ++ [inst] ∧
    block.Closes (.br first) s.location
  /-- Each check goes on to the next one, and the last one to the block behind the chain. -/
  decision : List.Forall₂ (g.Decides s.location) s.checks s.route.tail
  /-- The only predecessor of a block behind the instruction is the one before it. -/
  entered : (s.originBlock :: s.route).IsChain fun b c => preds.find? c = some [b]

/-! ### Chains -/

/-- The instructions of a formula have the location that they are given. -/
theorem Formula.location_of_mem_code {w : Watched} {location : Option Location} {φ : Formula}
    {inst value : Nat} {i : Inst} (h : i ∈ φ.code w location inst value) :
    i.location = location := by
  induction φ generalizing inst value with
  | node o x y ihx ihy =>
    simp only [code, List.mem_append, List.mem_singleton] at h
    rcases h with (h | h) | rfl
    · exact ihx h
    · exact ihy h
    · rfl
  | _ => simp [code] at h

/-- The last instruction of a condition gives its outcome. -/
theorem CheckPredicate.code_formula (p : CheckPredicate) (t : Threshold) (w : Watched)
    (location : Option Location) (inst value : Nat) :
    ∃ code last, (p.formula t w.ty).code w location inst value = code ++ [last] ∧
      last.result = p.outcome t w.ty value := by
  cases p <;> exact ⟨_, _, rfl, rfl⟩

namespace Probe

variable {k : Probe} {cont : BlockId} {checks : List CheckPredicate} {block inst value : Nat}
  {ds : List Decision}

/-- The blocks of a chain and the one behind it, passed in their order. -/
theorem isChain_of_chain {R : BlockId → BlockId → Prop} {b : BlockId}
    (hds : ds = k.chain cont checks block inst value) (hfirst : R b (entrance cont ds))
    (h : ∀ d ∈ ds, R d.block d.next) : (b :: (ds.map (·.block) ++ [cont])).IsChain R := by
  induction checks generalizing b block inst value ds with
  | nil =>
    subst hds
    exact .cons_cons hfirst (.singleton _)
  | cons p rest ih =>
    rw [chain] at hds
    subst hds
    exact .cons_cons hfirst
      (ih rfl (h _ List.mem_cons_self) fun d hd => h d (List.mem_cons_of_mem _ hd))

/-- The decision blocks of a chain with what follows each of them. -/
theorem forall₂_of_chain {R : Check → BlockId → Prop}
    (hds : ds = k.chain cont checks block inst value) (h : ∀ d ∈ ds, R (k.check d) d.next) :
    List.Forall₂ R (ds.map k.check) (ds.map (·.block) ++ [cont]).tail := by
  induction checks generalizing block inst value ds with
  | nil =>
    subst hds
    exact .nil
  | cons p rest ih =>
    rw [chain] at hds
    subst hds
    have htail := ih rfl fun d hd => h d (List.mem_cons_of_mem _ hd)
    have hfirst := h _ List.mem_cons_self
    cases rest with
    | nil => exact .cons hfirst .nil
    | cons p' rest' => exact .cons hfirst htail

/-- A decision block is followed by the next one in number, or it is the last one. -/
theorem next_cases {d : Decision} (hd : d ∈ k.chain cont checks block inst value) :
    (d.next = cont ∧ d.block.index + 1 = block + checks.length) ∨
      d.next.index = d.block.index + 1 := by
  induction checks generalizing block inst value with
  | nil => simp [chain] at hd
  | cons p rest ih =>
    rw [List.length_cons]
    rcases List.mem_cons.1 hd with rfl | hd
    · cases rest with
      | nil => exact .inl ⟨rfl, rfl⟩
      | cons p' rest' => exact .inr rfl
    · rcases ih hd with ⟨hcont, hlast⟩ | hnext
      · exact .inl ⟨hcont, by omega⟩
      · exact .inr hnext

end Probe

/-! ### Predecessors -/

namespace Function

variable {f : Function}

/-- A block that is entered from one block only has that one as its predecessor. -/
theorem Laid.predecessorsIn_eq_singleton (h : f.Laid) {b c : BlockId}
    (hedge : ∀ p, f.Edge p c ↔ p = b) : predecessorsIn f.laidOut c = [b] := by
  have hmem : ∀ p, p ∈ predecessorsIn f.laidOut c ↔ p ∈ [b] := by
    intro p
    rw [h.mem_predecessorsIn, hedge, List.mem_singleton]
  exact List.perm_singleton.1
    ((List.perm_ext_iff_of_nodup (eraseDups_nodup _) (List.nodup_singleton b)).2 hmem)

/-- An id that is found among the instructions is found. -/
theorem Laid.inst_eq_of_find? (h : f.Laid) {i : InstId} {inst : Inst}
    (hfind : f.allInsts.find? (·.id == i) = some inst) : f.inst i = .ok (some inst) := by
  rcases h.locate_cases i with ⟨-, hnone⟩ | ⟨p, hp, rfl, hlocate⟩
  · have hid := List.find?_some hfind
    exact absurd (by simpa using hid) (hnone inst (List.mem_of_find?_eq_some hfind))
  · rw [hp.find?_eq, Option.some.injEq] at hfind
    rw [inst_eq_ok hp.toIn hlocate, hfind]

end Function

/-! ### Standing insertions -/

/-- A block like one that is closed is closed the same. -/
theorem Block.Alike.closes {a b : Block} (h : a.Alike b) {t : Terminator} (ht : a.term = some t) :
    b.Closes t.exit t.location := by
  have hexit := h.exit_eq
  have hlocation := h.location_eq
  rw [ht] at hexit hlocation
  obtain ⟨t', ht', hexit'⟩ := Option.map_eq_some_iff.1 hexit.symm
  rw [ht', Option.map_some, Option.map_some, Option.some.injEq] at hlocation
  exact ⟨t', ht', hexit', hlocation.symm⟩

namespace Insertion

variable {s : Insertion} {f₀ g h : Function}

/-- The chain starts behind the block that goes on. -/
theorem Fits.head?_decisions (hs : s.Fits f₀) :
    ((s.decisions f₀).map (·.block)).head? = some ⟨f₀.blocks.size + 1⟩ := by
  rw [decisions, Probe.map_block_chain]
  cases hchecks : s.checks with
  | nil => exact (hs.checks_ne_nil hchecks).elim
  | cons p rest => rfl

/-- A decision block leads to the continuation if it is the last, and to the next number
    otherwise. -/
theorem next_decisions {d : Decision} (hd : d ∈ s.decisions f₀) :
    d.next = cont f₀ ∧ d.block.index = f₀.blocks.size + s.checks.length ∨
      d.next.index = d.block.index + 1 := by
  rcases Probe.next_cases hd with ⟨hcont, hlast⟩ | hnext
  · exact .inl ⟨hcont, by omega⟩
  · exact .inr hnext

/-- No decision block goes back to the first one. -/
theorem Fits.next_ne_entrance (hs : s.Fits f₀) {d : Decision} (hd : d ∈ s.decisions f₀) :
    d.next ≠ entrance (cont f₀) (s.decisions f₀) := by
  intro heq
  rw [entrance_eq, hs.head?_decisions] at heq
  have hindex : d.next.index = f₀.blocks.size + 1 := congrArg BlockId.index heq
  have hnew := (mem_decisions_block hd).1
  rcases next_decisions hd with ⟨hcont, -⟩ | hnext
  · rw [hcont] at hindex
    exact absurd hindex (Nat.ne_of_lt (Nat.lt_succ_self _))
  · omega

/-- No two decision blocks go on to the same block. -/
theorem block_eq_of_next_eq {c d : Decision} (hc : c ∈ s.decisions f₀) (hd : d ∈ s.decisions f₀)
    (heq : c.next = d.next) : c.block = d.block := by
  have hindex : c.block.index = d.block.index := by
    have hcnew := (mem_decisions_block hc).1
    have hdnew := (mem_decisions_block hd).1
    -- Two different decision blocks lead on to different blocks, unless both were the last of the
    -- chain.
    rcases next_decisions hc with ⟨hcont, hlast⟩ | hnext
    · rcases next_decisions hd with ⟨-, hlast'⟩ | hnext'
      · omega
      · rw [← heq, hcont] at hnext'
        exact absurd hnext' (by simp only [cont]; omega)
    · rcases next_decisions hd with ⟨hcont', -⟩ | hnext'
      · rw [heq, hcont'] at hnext
        exact absurd hnext (by simp only [cont]; omega)
      · rw [heq] at hnext
        omega
  cases hcb : c.block
  cases hdb : d.block
  rw [hcb, hdb] at hindex
  exact congrArg _ hindex

namespace Stands

variable (hst : s.Stands f₀ g)

include hst

/-- Control gets to the blocks of the chain and to the one behind it along the chain only. -/
theorem isChain_edges :
    (s.spot.home :: ((s.decisions f₀).map (·.block) ++ [cont f₀])).IsChain fun b c =>
      ∀ p, g.Edge p c ↔ p = b := by
  have hhead := hst.fits.head?_decisions
  have hentrance : entrance (cont f₀) (s.decisions f₀) ∈ (s.decisions f₀).map (·.block) := by
    rw [entrance_eq, hhead]
    exact List.mem_of_mem_head? hhead
  refine Probe.isChain_of_chain rfl (fun p => ⟨fun hedge => ?_, ?_⟩) fun d hd p =>
    ⟨fun hedge => ?_, ?_⟩
  -- The first decision block is entered from the watched instruction, as no decision block leads
  -- back to it.
  · rcases hst.entered p _ (.inr hentrance) hedge with ⟨hp, -⟩ | ⟨d, hd, -, heq⟩
    · exact hp
    · exact (hst.fits.next_ne_entrance hd heq.symm).elim
  · rintro rfl
    obtain ⟨before, block, hblock, -, hterm⟩ := hst.home
    refine ⟨block, hblock, ?_⟩
    simp [Block.successors, hterm, branch, Exit.successors]
  -- What follows a decision block is entered from that one only.
  · have hnext : d.next = cont f₀ ∨ d.next ∈ (s.decisions f₀).map (·.block) := by
      rcases Probe.next_of_mem_chain hd with hcont | ⟨c, hc, heq⟩
      · exact .inl hcont
      · exact .inr (heq ▸ List.mem_map_of_mem hc)
    rcases hst.entered p _ hnext hedge with ⟨-, heq⟩ | ⟨c, hc, rfl, heq⟩
    · exact (hst.fits.next_ne_entrance hd heq).elim
    · exact block_eq_of_next_eq hc hd heq.symm
  · rintro rfl
    obtain ⟨name, hname⟩ := hst.decision d hd
    refine ⟨_, hname, ?_⟩
    simp [Probe.close, Probe.branch, Block.successors, Exit.successors]

/-- A decision block computes its predicate and goes on. -/
theorem decides (hg : g.Regular) (halike : g.Alike h) {d : Decision} (hd : d ∈ s.decisions f₀) :
    h.Decides s.probe.location (s.probe.check d) d.next := by
  obtain ⟨name, hname⟩ := hst.decision d hd
  obtain ⟨block, hblock, hsame⟩ := halike.exists_new hname
  obtain ⟨code, last, hcode, hlast⟩ := d.predicate.code_formula s.probe.threshold s.probe.watched
    s.probe.location d.inst d.value
  -- A regular function branches on truth values only, so that the predicate is one.
  obtain ⟨t, ht, hfits⟩ := hg.closed _ _ hname
  cases ht
  refine ⟨block, code, last, hblock, ?_, hlast, halike.exitFits_iff.2 hfits, hsame.closes rfl,
    fun i hi => ?_⟩
  · rw [← hsame.insts_eq]
    exact hcode
  · rw [← hsame.insts_eq] at hi
    exact Formula.location_of_mem_code hi

/-- **An insertion that stands has the shape of its site.** -/
theorem shaped (hg : g.Regular) (halike : g.Alike h) {f : Function}
    (hinst : f.inst s.spot.inst.id = .ok (some s.spot.inst))
    {preds : SortedMap BlockId (List BlockId)}
    (hpreds : ∀ b : BlockId, b.index < h.blocks.size →
      preds.find? b = some (Function.predecessorsIn h.laidOut b)) (id : SiteId) :
    (s.site f₀ id).Shaped f h preds where
  origin := by
    obtain ⟨before, block, hblock, hinsts, hterm⟩ := hst.home
    obtain ⟨block', hblock', hsame⟩ := halike.exists_new hblock
    refine ⟨s.spot.inst, ⟨f₀.blocks.size + 1⟩, block', before, hinst, hst.fits.location_eq.symm, ?_,
      hblock', hsame.insts_eq ▸ hinsts, ?_⟩
    · rw [decisionBlocks_site]
      exact hst.fits.head?_decisions
    · have hcloses := hsame.closes hterm
      simp only [branch, entrance_eq, hst.fits.head?_decisions] at hcloses
      exact hcloses
  decision := by
    rw [CheckSite.route, decisionBlocks_site]
    exact Probe.forall₂_of_chain rfl fun d hd => hst.decides hg halike hd
  entered := by
    rw [CheckSite.route, decisionBlocks_site]
    refine hst.isChain_edges.imp fun b c hedge => ?_
    have hedge' : ∀ p, h.Edge p c ↔ p = b := fun p => halike.edge_iff.trans (hedge p)
    have hh := halike.regular hg
    -- A block with one edge into it has one predecessor in the table.
    rw [hpreds c (hh.targets b c ((hedge' b).2 rfl)), hh.laid.predecessorsIn_eq_singleton hedge']

end Stands

end Insertion

/-! ### Counting -/

/-- The number of edges out of some blocks. -/
def Function.edgesFrom (f : Function) (order : List BlockId) : Nat :=
  ((order.filterMap f.block?).flatMap (·.successors)).length

namespace Function

variable {f g : Function} {order order' : List BlockId}

/-- The edges of a list of blocks are counted block by block. -/
theorem edgesFrom_cons {b : BlockId} {block : Block} (h : f.block? b = some block) :
    f.edgesFrom (b :: order) = block.successors.length + f.edgesFrom order := by
  rw [edgesFrom, List.filterMap_cons_some h, List.flatMap_cons, List.length_append, edgesFrom]

/-- They are counted piece by piece. -/
theorem edgesFrom_append :
    f.edgesFrom (order ++ order') = f.edgesFrom order + f.edgesFrom order' := by
  rw [edgesFrom, List.filterMap_append, List.flatMap_append, List.length_append, edgesFrom,
    edgesFrom]

/-- The order of the blocks plays no part. -/
theorem edgesFrom_perm (h : order.Perm order') : f.edgesFrom order = f.edgesFrom order' :=
  ((h.filterMap f.block?).flatMap_right _).length_eq

/-- Counting the edges succeeds, and counts the successors along the layout. -/
theorem Laid.edgeCount_eq (h : f.Laid) : f.edgeCount = .ok (f.edgesFrom f.layout) := by
  rw [edgeCount, h.blocksInLayout_eq]
  rfl

theorem Alike.edgesFrom_eq (hfg : f.Alike g) : g.edgesFrom g.layout = f.edgesFrom f.layout :=
  congrArg List.length (hfg.kin.flatMap_laidOut fun _ _ h => h.successors_eq.symm)

end Function

namespace Insertion.Makes

variable {s : Insertion} {f g : Function}

/-- A site adds its continuation and a block for each check. -/
theorem blockCount_eq (hg : s.Makes f g) : g.blockCount = f.blockCount + (1 + s.checks.length) := by
  rw [Function.blockCount, hg.layout_eq, List.length_append, (perm_insertBehind ..).length_eq,
    List.length_map, decisions, Probe.length_chain, List.length_cons, Function.blockCount]
  omega

/-- The cut adds one edge, and every check two. -/
theorem edgesFrom_eq (hg : s.Makes f g) (hf : f.Regular) (hs : s.Fits f) :
    g.edgesFrom g.layout = f.edgesFrom f.layout + (1 + 2 * s.checks.length) := by
  have hhome : s.spot.home ∈ f.layout := (hf.mem_layout _).2 hs.spot_in.home_lt
  obtain ⟨others, hothers⟩ : ∃ others, others = f.layout.erase s.spot.home := ⟨_, rfl⟩
  have hperm : f.layout.Perm (s.spot.home :: others) := hothers ▸ List.perm_cons_erase hhome
  have hnot : s.spot.home ∉ others := hothers ▸ hf.layout_nodup.not_mem_erase
  have hlt : ∀ b ∈ others, b.index < f.blocks.size :=
    fun b hb => (hf.mem_layout b).1 (hperm.mem_iff.2 (List.mem_cons_of_mem _ hb))
  have hsame : g.edgesFrom others = f.edgesFrom others := by
    rw [Function.edgesFrom, hg.blocks_of_not_mem hnot hlt, List.flatMap_map]
    rfl
  have hchain : ∀ ds : List Decision, (∀ d ∈ ds, d ∈ s.decisions f) →
      g.edgesFrom (ds.map (·.block)) = 2 * ds.length := by
    intro ds hds
    induction ds with
    | nil => rfl
    | cons d rest ih =>
      obtain ⟨name, hname⟩ := hg.decision d (hds d List.mem_cons_self)
      rw [List.map_cons, Function.edgesFrom_cons hname,
        ih fun d hd => hds d (List.mem_cons_of_mem _ hd), List.length_cons]
      show 2 + _ = _
      omega
  -- The new layout is the cut block, what it goes on with, the others and the chain.
  have hlayout : g.layout.Perm
      ((cont f :: s.spot.home :: others) ++ (s.decisions f).map (·.block)) := by
    rw [hg.layout_eq]
    exact ((perm_insertBehind ..).trans (hperm.cons _)).append_right _
  obtain ⟨name, hname⟩ := hg.rest
  rw [Function.edgesFrom_perm hlayout, Function.edgesFrom_perm hperm, Function.edgesFrom_append,
    Function.edgesFrom_cons hname, Function.edgesFrom_cons hg.home, hsame,
    Function.edgesFrom_cons hs.spot_in.block_eq, hchain _ fun _ => id, decisions,
    Probe.length_chain]
  show s.spot.block.successors.length + (1 + _) + _ = _
  omega

end Insertion.Makes

namespace Inserts

variable {t : Threshold} {ids : List InstId} {f g : Function} {sites : List CheckSite}

/-- The pass adds as much for each of its sites. -/
theorem blockCount_eq (h : Inserts t ids f sites g) :
    g.blockCount = f.blockCount + (sites.map fun s => 1 + s.checks.length).sum := by
  induction h with
  | done f => rfl
  | skip _ ih => exact ih
  | insert id _ _ _ hg _ ih =>
    rw [ih, hg.blockCount_eq, List.map_cons, List.sum_cons, Insertion.length_checks_site,
      Nat.add_assoc]

/-- A site adds the jump into the chain and two edges for each check. -/
theorem edgesFrom_eq (h : Inserts t ids f sites g) (hf : f.Regular) :
    g.edgesFrom g.layout =
      f.edgesFrom f.layout + (sites.map fun s => 1 + 2 * s.checks.length).sum := by
  induction h with
  | done f => rfl
  | skip _ ih => exact ih hf
  | insert id hs _ _ hg _ ih =>
    rw [ih (hg.regular hf hs), hg.edgesFrom_eq hf hs, List.map_cons, List.sum_cons,
      Insertion.length_checks_site, Nat.add_assoc]

end Inserts

/-! ### The whole pass -/

/-- **Shape.** Instrumenting a verified function never fails.  In the new function every site of the
    report has its shape, no new block belongs to two sites or to one of them twice, and blocks and
    edges are as many more as the checks of the sites ask for. -/
theorem instrument_shape (t : Threshold) (options : InstrumentOptions) (f : Function)
    (hverify : f.verify = .ok ()) :
    ∃ report f' preds edges, Edit.instrument t options f = .ok report f' ∧
      f'.predecessors = .ok preds ∧ f.edgeCount = .ok edges ∧
      (∀ s ∈ report.sites, s.Shaped f f' preds) ∧
      (report.sites.flatMap (·.newBlocks)).Nodup ∧
      f'.blockCount = f.blockCount + (report.sites.map fun s => 1 + s.checks.length).sum ∧
      f'.edgeCount =
        .ok (edges + (report.sites.map fun s => 1 + 2 * s.checks.length).sum) := by
  have hf := Function.verified_iff_wellFormed.1 hverify
  -- The shape is shown of the function before its metadata is written; the two are alike.
  obtain ⟨report, g, f', hrun, hinserts, halike, -⟩ := Edit.instrument_eq t options hf.toRegular
  have hg := hinserts.regular hf.toRegular
  have hf' := (halike.regular hg).laid
  obtain ⟨preds, hpreds, hfind⟩ := hf'.predecessors_eq
  refine ⟨report, f', preds, _, hrun, hpreds, hf.laid.edgeCount_eq, fun site hsite => ?_,
    hinserts.newBlocks_nodup, ?_, ?_⟩
  · obtain ⟨s, f₀, id, rfl, -, hst, -, hinst⟩ := hinserts.stands hf.toRegular hf.queues site hsite
    exact hst.shaped hg halike (hf.laid.inst_eq_of_find? hinst) hfind id
  · rw [← hinserts.blockCount_eq, halike.frame]
    rfl
  · rw [hf'.edgeCount_eq, halike.edgesFrom_eq, hinserts.edgesFrom_eq hf.toRegular]

/-- A sum is watched with three checks. -/
theorem checks_instrumented_doubling :
    (match Edit.instrument .hundred {} doubling with
      | .ok report _ => report.sites.map (·.checks.length)
      | .error _ _ => []) = [3] := by
  decide +kernel

/-- The example has one site of three checks, so four blocks and seven edges more. -/
theorem instrument_shape_doubling : doubling.verify = .ok () ∧
    ∃ report f' preds site, Edit.instrument .hundred {} doubling = .ok report f' ∧
      f'.predecessors = .ok preds ∧ report.sites = [site] ∧ site.checks.length = 3 ∧
      site.Shaped doubling f' preds ∧ f'.blockCount = 7 ∧ f'.edgeCount = .ok 10 := by
  obtain ⟨report, f', preds, edges, hinstrument, hpreds, hedges, hsites, -, hblocks', hedges'⟩ :=
    instrument_shape .hundred {} doubling verify_doubling
  have hchecks : report.sites.map (·.checks.length) = [3] := by
    have hshown := checks_instrumented_doubling
    rwa [hinstrument] at hshown
  obtain ⟨site, hsite, hlength⟩ := List.map_eq_singleton_iff.1 hchecks
  have hcount : doubling.edgeCount = .ok 3 := rfl
  rw [hcount, Except.ok.injEq] at hedges
  rw [hsite, ← hedges] at hedges'
  rw [hsite] at hblocks'
  simp only [List.map_singleton, List.sum_singleton, hlength] at hblocks' hedges'
  exact ⟨verify_doubling, report, f', preds, site, hinstrument, hpreds, hsite, hlength,
    hsites site (hsite ▸ List.mem_singleton_self site), hblocks', hedges'⟩

end ArithWatch
