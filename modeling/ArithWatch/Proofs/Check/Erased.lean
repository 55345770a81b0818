import ArithWatch.Proofs.Check.Pieces

namespace ArithWatch

/-!
# Instrumentation can be erased

From the sites of a report the old function is won back: the pieces of its blocks are put together,
phis are led back, and what is new is dropped.

* `Block.join` puts pieces together, `Block.mapSources` changes where phis take their inputs from.
* `Function.erase` undoes instrumentation.
* `Inserts.erasedBlock_eq` is the case of one block, by induction on the insertions.
* `erase_instrument` is the whole pass: nothing of the function is lost, doubled or changed.
-/

/-! ### Putting pieces together -/

/-- The first block with the instructions of all of them and the terminator of the last one. -/
def Block.join : List Block → Option Block
  | [] => none
  | b :: rest =>
    match join rest with
    | none => some b
    | some r => some { b with insts := b.insts ++ r.insts, term := r.term }

/-- Joined pieces are joined again, with the last terminator. -/
theorem Block.join_append {front back : List Block} {x y : Block} (hx : join front = some x)
    (hy : join back = some y) :
    join (front ++ back) = some { x with insts := x.insts ++ y.insts, term := y.term } := by
  induction front generalizing x with
  | nil => cases hx
  | cons b rest ih =>
    rw [List.cons_append, join]
    rw [join] at hx
    cases hrest : join rest with
    | none =>
      rw [hrest] at hx
      cases hx
      -- Only the empty list has no join.
      have hnil : rest = [] := by
        cases rest with
        | nil => rfl
        | cons c tail =>
          rw [join] at hrest
          split at hrest <;> cases hrest
      rw [hnil, List.nil_append, hy]
    | some r =>
      rw [hrest] at hx
      cases hx
      rw [ih hrest]
      simp only [List.append_assoc]

/-! ### Leading phis back -/

/-- The kind with the inputs of a phi coming from other blocks. -/
def InstKind.mapSources (σ : BlockId → BlockId) : InstKind → InstKind
  | .phi incoming => .phi (incoming.map fun input => (σ input.1, input.2))
  | kind => kind

/-- The block with the inputs of its phis coming from other blocks. -/
def Block.mapSources (σ : BlockId → BlockId) (b : Block) : Block :=
  { b with insts := b.insts.map fun i => { i with kind := i.kind.mapSources σ } }

namespace Block

variable {σ τ : BlockId → BlockId}

/-- Renaming twice is renaming along the composition. -/
theorem mapSources_mapSources (b : Block) :
    (b.mapSources σ).mapSources τ = b.mapSources (τ ∘ σ) := by
  have hkind : ∀ k : InstKind, (k.mapSources σ).mapSources τ = k.mapSources (τ ∘ σ) := by
    intro k
    cases k with
    | phi incoming => simp [InstKind.mapSources, Function.comp_def]
    | _ => rfl
  simp only [mapSources, List.map_map, Function.comp_def, hkind]

/-- Names that are kept leave the block. -/
theorem mapSources_eq_self {b : Block} (h : ∀ i ∈ b.insts, ∀ incoming, i.kind = .phi incoming →
    ∀ p ∈ incoming.map (·.1), σ p = p) : b.mapSources σ = b := by
  have hinst : ∀ i ∈ b.insts, { i with kind := i.kind.mapSources σ } = i := by
    rintro ⟨number, result, kind, location⟩ hi
    cases kind with
    | phi incoming =>
      have hmap : incoming.map (fun input => (σ input.1, input.2)) =
          incoming.map fun input => input :=
        List.map_congr_left fun input hinput => by
          rw [h _ hi incoming rfl _ (List.mem_map_of_mem hinput)]
      rw [InstKind.mapSources, hmap, List.map_id']
    | _ => rfl
  rw [mapSources, List.map_congr_left hinst, List.map_id']

/-- Repointing one predecessor is a renaming. -/
theorem mapSources_repoint (old new : BlockId) (b : Block) :
    b.repoint old new = b.mapSources fun p => if p = old then new else p := by
  have hkind : ∀ k : InstKind,
      k.repoint old new = k.mapSources fun p => if p = old then new else p := by
    intro k
    cases k <;> rfl
  simp only [repoint, mapSources, Inst.repoint, hkind]

/-- Leading phis back and forth changes nothing where no input comes from the new block. -/
theorem mapSources_back {old new : BlockId} {b : Block} (h : ∀ i ∈ b.insts, ∀ incoming,
    i.kind = .phi incoming → new ∉ incoming.map (·.1)) :
    (b.repoint old new).mapSources (fun p => if p = new then old else p) = b := by
  rw [mapSources_repoint, mapSources_mapSources]
  refine mapSources_eq_self fun i hi incoming hk p hp => ?_
  have hne : p ≠ new := fun e => h i hi incoming hk (e ▸ hp)
  by_cases hold : p = old <;> simp [hold, hne]

end Block

/-! ### Erasing -/

/-- The pieces of a block put together, with its phis led back. -/
def Function.erasedBlock (g : Function) (sites : List CheckSite) (b : BlockId) : Option Block :=
  (Block.join ((pieces sites b).filterMap g.block?)).map (·.mapSources (source sites))

/-- The function without the insertions of some sites, cut down to a number of blocks, a number of
    values and a number of instructions. -/
def Function.erase (g : Function) (sites : List CheckSite) (blocks values insts : Nat) :
    Function :=
  { g with
    blocks := ((List.range blocks).filterMap fun n => g.erasedBlock sites ⟨n⟩).toArray
    layout := g.layout.filter (·.index < blocks)
    valueTypes := (g.valueTypes.toList.take values).toArray
    instCount := insts }

namespace Insertion

variable {s : Insertion} {f g : Function}

/-- No phi of a regular function takes anything from a block that it does not have. -/
theorem not_source_of_regular (hf : f.Regular) {b : BlockId} {block : Block}
    (hblock : f.block? b = some block) {i : Inst} (hi : i ∈ block.insts)
    {incoming : List (BlockId × Operand)} (hk : i.kind = .phi incoming) :
    cont f ∉ incoming.map (·.1) := by
  intro hmem
  obtain ⟨source, hsource, -⟩ := ((hf.inputs b block hblock i hi incoming hk).2 _).1 hmem
  exact Nat.lt_irrefl _ (Function.lt_of_block? hsource)

/-- The two halves of the block that is cut, put together again. -/
theorem Fits.join_halves (hf : f.Regular) (hs : s.Fits f) (name : String) {x y : Block}
    (hx : x = (s.spot.front (cont f) (s.branch f)).mapSources
      fun p => if p = cont f then s.spot.home else p)
    (hy : y = (s.spot.rest (cont f) name).mapSources
      fun p => if p = cont f then s.spot.home else p) :
    { x with insts := x.insts ++ y.insts, term := y.term } = s.spot.block := by
  have hin := hs.spot_in
  have hback : (s.spot.block.repoint s.spot.home (cont f)).mapSources
      (fun p => if p = cont f then s.spot.home else p) = s.spot.block :=
    Block.mapSources_back fun i hi incoming hk =>
      not_source_of_regular hf hin.block_eq hi hk
  -- Behind the watched instruction there are no phis.
  have hafter : s.spot.after.map (·.repoint s.spot.home (cont f)) = s.spot.after :=
    map_repoint_of_not_phi fun i hi => hf.not_phi_of_mem_after hin hs.not_phi hi
  have hinsts : (s.spot.block.repoint s.spot.home (cont f)).insts =
      (s.spot.before ++ [s.spot.inst]).map (·.repoint s.spot.home (cont f)) ++ s.spot.after := by
    conv_rhs => rw [← hafter]
    rw [Block.repoint, hin.insts_eq, List.append_cons, List.map_append]
  conv_rhs => rw [← hback]
  rw [hx, hy, Block.mapSources, Block.mapSources, Block.mapSources, hinsts, List.map_append]
  rfl

end Insertion

namespace Inserts

variable {t : Threshold} {ids : List InstId} {f g : Function} {sites : List CheckSite}

/-- **The pieces of a block make the block.** -/
theorem erasedBlock_eq (h : Inserts t ids f sites g) (hf : f.Regular) {b : BlockId}
    (hb : b.index < f.blocks.size) : g.erasedBlock sites b = f.block? b := by
  induction h generalizing b with
  | done f =>
    obtain ⟨block, hblock⟩ := Function.exists_block? hb
    have hself : block.mapSources (source []) = block :=
      Block.mapSources_eq_self fun _ _ _ _ _ _ => rfl
    rw [Function.erasedBlock, pieces, List.filterMap_cons_some hblock, List.filterMap_nil, hblock]
    exact congrArg some hself
  | skip _ ih => exact ih hf hb
  | @insert ids f g h sites s id hs _ _ hg _ ih =>
    have hreg := hg.regular hf hs
    -- What the later insertions leave of a block, led back across this one as well.
    have hlater : ∀ {c : BlockId} {block : Block}, g.block? c = some block →
        ∃ x, Block.join ((pieces sites c).filterMap h.block?) = some x ∧
          x.mapSources (source (s.site f id :: sites)) =
            block.mapSources fun p => if p = Insertion.cont f then s.spot.home else p := by
      intro c block hblock
      have herased := ih hreg (Function.lt_of_block? hblock)
      rw [hblock] at herased
      obtain ⟨x, hx, hmap⟩ := Option.map_eq_some_iff.1 herased
      refine ⟨x, hx, ?_⟩
      rw [← hmap, Block.mapSources_mapSources]
      rfl
    rw [Function.erasedBlock, pieces]
    by_cases hhome : s.spot.home = b
    -- The block that this insertion cuts is made of the pieces of both halves.
    · subst hhome
      obtain ⟨name, hname⟩ := hg.rest
      obtain ⟨x, hx, hxmap⟩ := hlater hg.home
      obtain ⟨y, (hy : Block.join ((pieces sites (s.site f id).contBlock).filterMap h.block?) =
        some y), hymap⟩ := hlater hname
      have heq : (s.site f id).originBlock = s.spot.home := rfl
      rw [if_pos heq, List.filterMap_append, Block.join_append hx hy, Option.map_some,
        hs.spot_in.block_eq, Option.some.injEq, ← hs.join_halves hf name hxmap hymap,
        Block.mapSources, List.map_append]
      rfl
    -- In any other block only phis were repointed.
    · obtain ⟨old, hold⟩ := Function.exists_block? hb
      have hnew : g.block? b = some (old.repoint s.spot.home (Insertion.cont f)) := by
        rw [hg.other b (Ne.symm hhome) hb, hold]
        rfl
      obtain ⟨x, hx, hxmap⟩ := hlater hnew
      have hne : ¬ (s.site f id).originBlock = b := hhome
      rw [if_neg hne, hx, Option.map_some, hxmap, hold]
      exact congrArg some (Block.mapSources_back fun i hi incoming hk =>
        Insertion.not_source_of_regular hf hold hi hk)

/-- All insertions can be erased. -/
theorem erase_eq (h : Inserts t ids f sites g) (hf : f.Regular) :
    g.erase sites f.blocks.size f.valueTypes.size f.instCount = f := by
  have hblocks : ((List.range f.blocks.size).filterMap fun n => g.erasedBlock sites ⟨n⟩).toArray =
      f.blocks := by
    have hall : ∀ n ∈ List.range f.blocks.size, g.erasedBlock sites ⟨n⟩ = f.blocks[n]? :=
      fun n hn => h.erasedBlock_eq hf (List.mem_range.1 hn)
    rw [List.filterMap_congr hall]
    simp only [← Array.getElem?_toList]
    rw [← Array.length_toList, filterMap_getElem?, Array.toArray_toList]
  have hlayout : g.layout.filter (·.index < f.blocks.size) = f.layout := by
    rw [h.filter_layout (Nat.le_refl _), List.filter_eq_self]
    intro b hb
    exact decide_eq_true ((hf.mem_layout b).1 hb)
  have hvalues : (g.valueTypes.toList.take f.valueTypes.size).toArray = f.valueTypes := by
    obtain ⟨new, hnew⟩ := h.valueTypes_prefix
    rw [← hnew, ← Array.length_toList, List.take_left]
  rw [Function.erase, hblocks, hlayout, hvalues, h.frame]

end Inserts

/-! ### The whole pass -/

namespace Function

variable {f : Function} {m : CheckMap} {sites : List CheckSite}

/-- Without records nothing is tagged. -/
theorem tagged_of_empty (f : Function) (hm : m.entries = []) : f.tagged m = f := by
  rw [tagged, hm]
  rfl

/-- Tags stand on decision blocks, which are not among the pieces of a block. -/
theorem erasedBlock_tagged {b : BlockId} (h : ∀ p ∈ pieces sites b, m.find? p = none) :
    (f.tagged m).erasedBlock sites b = f.erasedBlock sites b := by
  have hpiece : ∀ p ∈ pieces sites b, (f.tagged m).block? p = f.block? p :=
    fun p hp => block?_tagged_of_none (h p hp)
  rw [erasedBlock, erasedBlock, List.filterMap_congr hpiece]

/-- Tags on new blocks are erased with them. -/
theorem erase_tagged {blocks values insts : Nat}
    (h : ∀ b : BlockId, b.index < blocks → ∀ p ∈ pieces sites b, m.find? p = none) :
    (f.tagged m).erase sites blocks values insts = f.erase sites blocks values insts := by
  have hblocks : ∀ n ∈ List.range blocks,
      (f.tagged m).erasedBlock sites ⟨n⟩ = f.erasedBlock sites ⟨n⟩ :=
    fun n hn => erasedBlock_tagged (h ⟨n⟩ (List.mem_range.1 hn))
  rw [erase, erase, List.filterMap_congr hblocks, (f.alike_tagged m).frame]

end Function

/-- **Erasure.** Instrumenting a verified function never fails, and it can be undone: with the
    pieces of every block put together and what is new dropped, the new function is the old one.
    Without a site nothing is changed, and the signature and the entry stay in any case. -/
theorem erase_instrument (t : Threshold) (options : InstrumentOptions) (f : Function)
    (hverify : f.verify = .ok ()) :
    ∃ report f', Edit.instrument t options f = .ok report f' ∧
      f'.erase report.sites f.blocks.size f.valueTypes.size f.instCount = f ∧
      (report.sites = [] → f' = f) ∧
      f'.name = f.name ∧ f'.params = f.params ∧ f'.returnType = f.returnType ∧
      f'.entry = f.entry := by
  have hf := (Function.verified_iff_wellFormed.1 hverify).toRegular
  obtain ⟨report, g, hrun, hinserts, hreport, -, -⟩ := Edit.instrument_tagged t options hf
  have hpieces : ∀ b : BlockId, b.index < f.blocks.size → ∀ p ∈ pieces report.sites b,
      report.checks.find? p = none := fun b hb p hp => hinserts.find?_of_mem_pieces hreport hb hp
  obtain ⟨f', hf'⟩ : ∃ f', f' = if options.emitMetadata then g.tagged report.checks else g :=
    ⟨_, rfl⟩
  have halike : g.Alike f' := hf' ▸ g.alike_ite_tagged report.checks options.emitMetadata
  refine ⟨report, f', hf' ▸ hrun options.emitMetadata, ?_, fun hsites => ?_, ?_⟩
  · rw [hf']
    -- Metadata is written into decision blocks, which are no pieces of the original.
    split
    · rw [Function.erase_tagged hpieces, hinserts.erase_eq hf]
    · exact hinserts.erase_eq hf
  · have hempty : report.checks.entries = [] := by rw [hreport.records, hsites]; rfl
    rw [hf', g.tagged_of_empty hempty, ite_self, hinserts.eq_of_nil hsites]
  · rw [halike.frame, hinserts.frame]
    exact ⟨rfl, rfl, rfl, rfl⟩

/-- The example is recovered from what the pass made of it. -/
theorem erase_instrument_doubling : doubling.verify = .ok () ∧
    ∃ report f', Edit.instrument .hundred {} doubling = .ok report f' ∧
      f'.erase report.sites 3 4 3 = doubling := by
  obtain ⟨report, f', hinstrument, herase, -⟩ :=
    erase_instrument .hundred {} doubling verify_doubling
  exact ⟨verify_doubling, report, f', hinstrument, herase⟩

end ArithWatch
