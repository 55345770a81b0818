import ArithWatch.Proofs.Check.Preservation
import ArithWatch.Proofs.IR.Alike

namespace ArithWatch

/-!
# Records of branches and their tags

* `CheckSite.records` are the records that belong to a site; `FunctionReport.Consistent` says that a
  report has the records of its sites, in their order, and numbers the sites.
* `Function.tagged` is the function with the tags of its records on their branches;
  `Function.block?_tagged` is the effect on a single block.
* `Edit.emitMetadata_eq`: writing the tags makes that function, and counts the records.
-/

/-! ### The records of a site -/

/-- What a report says of the branches of a site, by their blocks. -/
def CheckSite.records (s : CheckSite) : List (BlockId × CheckRecord) :=
  s.checks.map fun c =>
    (c.block, { kind := c.kind, site := s.id, origin := s.inst, location := s.location })

/-- A site has a record for each decision block. -/
theorem CheckSite.keys_records (s : CheckSite) : s.records.map (·.1) = s.decisionBlocks := by
  rw [records, decisionBlocks, List.map_map]
  rfl

namespace Insertion

variable {s : Insertion} {f : Function}

/-- Its records are those of its decisions. -/
theorem records_site (id : SiteId) : (s.site f id).records =
    (s.decisions f).map fun d => (d.block, s.record id d.predicate.kind) := by
  rw [CheckSite.records, site, List.map_map]
  rfl

/-- The records of an insertion stand behind those of older blocks. -/
theorem entries_recordAll {record : CheckKind → CheckRecord} {m : CheckMap}
    (hm : ∀ e ∈ m.entries, e.1.index < f.blocks.size) :
    (recordAll record m (s.decisions f)).entries =
      m.entries ++ (s.decisions f).map fun d => (d.block, record d.predicate.kind) := by
  -- Decision blocks are numbered upwards, so each record is the last of the map.
  have hchain : ∀ (checks : List CheckPredicate) (block inst value : Nat) (m : CheckMap),
      (∀ e ∈ m.entries, e.1.index < block) →
      (recordAll record m (s.probe.chain (cont f) checks block inst value)).entries =
        m.entries ++ (s.probe.chain (cont f) checks block inst value).map fun d =>
          (d.block, record d.predicate.kind) := by
    intro checks
    induction checks with
    | nil =>
      intro block inst value m _
      simp [Probe.chain, recordAll]
    | cons p rest ih =>
      intro block inst value m hm
      have hinsert : (m.insert ⟨block⟩ (record p.kind)).entries =
          m.entries ++ [(⟨block⟩, record p.kind)] := by
        refine SortedMap.insertEntry_eq_append fun e he => ?_
        exact Nat.compare_eq_lt.2 (hm e he)
      have hbelow : ∀ e ∈ (m.insert ⟨block⟩ (record p.kind)).entries, e.1.index < block + 1 := by
        intro e he
        rw [hinsert] at he
        rcases List.mem_append.1 he with he | he
        · exact Nat.lt_succ_of_lt (hm e he)
        · rw [List.mem_singleton.1 he]
          exact Nat.lt_succ_self block
      show (recordAll record (m.insert ⟨block⟩ (record p.kind)) _).entries = _
      rw [ih _ _ _ _ hbelow, hinsert, List.append_assoc]
      rfl
  refine hchain s.checks _ _ _ m fun e he => ?_
  have := hm e he
  omega

end Insertion

/-- The sites are numbered in their order, and the records are those of the sites. -/
structure FunctionReport.Consistent (r : FunctionReport) : Prop where
  ids : r.sites.map (·.id) = (List.range r.sites.length).map SiteId.mk
  records : r.checks.entries = r.sites.flatMap (·.records)

namespace FunctionReport.Consistent

variable {r : FunctionReport}

/-- A new report has no sites and no records. -/
theorem empty (name : String) : Consistent { function := name } := ⟨rfl, rfl⟩

/-- A report stays consistent when a site and its records are added. -/
theorem add (h : r.Consistent) {s : Insertion} {f : Function}
    (hm : ∀ e ∈ r.checks.entries, e.1.index < f.blocks.size) :
    Consistent { r with
      sites := r.sites ++ [s.site f ⟨r.sites.length⟩]
      checks := recordAll (s.record ⟨r.sites.length⟩) r.checks (s.decisions f) } where
  ids := by
    simp only [List.map_append, List.length_append, List.length_singleton, List.range_succ, h.ids]
    rfl
  records := by
    simp only [Insertion.entries_recordAll hm, h.records, List.flatMap_append,
      List.flatMap_singleton, Insertion.records_site]

/-- The blocks that have records are the decision blocks of the sites. -/
theorem keys_checks (h : r.Consistent) :
    r.checks.entries.map (·.1) = r.sites.flatMap (·.decisionBlocks) := by
  rw [h.records, List.map_flatMap]
  simp only [CheckSite.keys_records]

/-- A block has a record if it is a decision block of some site. -/
theorem exists_record_iff (h : r.Consistent) {b : BlockId} :
    (∃ record, r.checks.find? b = some record) ↔ b ∈ r.sites.flatMap (·.decisionBlocks) := by
  rw [← h.keys_checks, List.mem_map]
  constructor
  · rintro ⟨record, hrecord⟩
    exact ⟨_, (SortedMap.find?_eq_some_iff ..).1 hrecord, rfl⟩
  · rintro ⟨⟨b, record⟩, he, rfl⟩
    exact ⟨record, (SortedMap.find?_eq_some_iff ..).2 he⟩

/-- The kinds of the records are those of the checks of the sites. -/
theorem kind?_eq_some_iff (h : r.Consistent) {b : BlockId} {k : CheckKind} :
    r.checks.kind? b = some k ↔ ∃ s ∈ r.sites, ∃ c ∈ s.checks, c.block = b ∧ c.kind = k := by
  rw [CheckMap.kind?, Option.map_eq_some_iff]
  simp only [SortedMap.find?_eq_some_iff, h.records, List.mem_flatMap, CheckSite.records,
    List.mem_map]
  constructor
  · rintro ⟨record, ⟨s, hs, c, hc, he⟩, hk⟩
    cases he
    exact ⟨s, hs, c, hc, rfl, hk⟩
  · rintro ⟨s, hs, c, hc, rfl, rfl⟩
    exact ⟨_, ⟨s, hs, c, hc, rfl⟩, rfl⟩

end FunctionReport.Consistent

/-! ### Tags on branches -/

/-- The block with the tag of a kind on its terminator. -/
def Block.tag (kind : CheckKind) (block : Block) : Block :=
  { block with
    term := block.term.map fun t => { t with metadata := t.metadata.insert checkKey kind.tag } }

/-- A tagged block is like the block. -/
theorem Block.alike_tag (kind : CheckKind) (block : Block) : block.Alike (block.tag kind) := by
  refine ⟨rfl, rfl, rfl, ?_, ?_⟩ <;> rw [tag] <;> cases block.term <;> rfl

/-- The function with the tags of the records on the terminators of their blocks. -/
def Function.tagged (f : Function) (m : CheckMap) : Function :=
  m.entries.foldl (fun f e => f.updateBlock e.1 (·.tag e.2.kind)) f

namespace Function

variable {f : Function} {m : CheckMap} {b : BlockId}

/-- A tagged function is like the function. -/
theorem alike_tagged (f : Function) (m : CheckMap) : f.Alike (f.tagged m) := by
  have hall : ∀ (l : List (BlockId × CheckRecord)) (f : Function),
      f.Alike (l.foldl (fun f e => f.updateBlock e.1 (·.tag e.2.kind)) f) := by
    intro l
    induction l with
    | nil => exact Alike.refl
    | cons e rest ih =>
      intro f
      exact (alike_updateBlock e.1 (Block.alike_tag e.2.kind)).trans (ih _)
  exact hall m.entries f

/-- It plays no part whether the tags are written. -/
theorem alike_ite_tagged (f : Function) (m : CheckMap) (emit : Bool) :
    f.Alike (if emit then f.tagged m else f) := by
  split
  · exact f.alike_tagged m
  · exact .refl f

/-- **The blocks of the tagged function.** A block with a record has its tag, the others are as they
    were. -/
theorem block?_tagged (f : Function) (m : CheckMap) (b : BlockId) :
    (f.tagged m).block? b =
      match m.find? b with
      | some r => (f.block? b).map (·.tag r.kind)
      | none => f.block? b := by
  have hall : ∀ (l : List (BlockId × CheckRecord)) (f : Function),
      l.Pairwise (fun x y => compare x.1 y.1 = .lt) →
      (l.foldl (fun f e => f.updateBlock e.1 (·.tag e.2.kind)) f).block? b =
        match (l.find? fun e => compare e.1 b == .eq).map (·.2) with
        | some r => (f.block? b).map (·.tag r.kind)
        | none => f.block? b := by
    intro l
    induction l with
    | nil => exact fun f _ => rfl
    | cons e rest ih =>
      intro f hl
      obtain ⟨hfirst, hrest⟩ := List.pairwise_cons.1 hl
      rw [List.foldl_cons, ih _ hrest, block?_updateBlock]
      by_cases he : e.1 = b
      · -- The block is tagged now, and no later entry is about it.
        have hnone : rest.find? (fun e => compare e.1 b == .eq) = none := by
          refine List.find?_eq_none.2 fun e' he' heq => ?_
          rw [SortedMap.compare_beq_eq, decide_eq_true_eq] at heq
          exact SortedMap.ne_of_compare_lt (hfirst e' he') (he.trans heq.symm)
        have hfound : (e :: rest).find? (fun e => compare e.1 b == .eq) = some e :=
          List.find?_cons_of_pos (by rw [SortedMap.compare_beq_eq, decide_eq_true he])
        rw [hnone, hfound, if_pos he]
        rfl
      · have hskip : (e :: rest).find? (fun e => compare e.1 b == .eq) =
            rest.find? fun e => compare e.1 b == .eq :=
          List.find?_cons_of_neg (by rw [SortedMap.compare_beq_eq, decide_eq_false he]; decide)
        rw [hskip, if_neg he]
  exact hall m.entries f m.ascending

/-- A block without a record is not tagged. -/
theorem block?_tagged_of_none (h : m.find? b = none) : (f.tagged m).block? b = f.block? b := by
  rw [block?_tagged, h]

/-- A recorded block is tagged with its kind. -/
theorem block?_tagged_of_some {r : CheckRecord} (h : m.find? b = some r) :
    (f.tagged m).block? b = (f.block? b).map (·.tag r.kind) := by
  rw [block?_tagged, h]

end Function

/-! ### Writing the tags -/

namespace Edit

variable {f : Function}

/-- The branch of a closed block takes a tag. -/
theorem attachMetadata_eq {b : BlockId} {block : Block} {t : Terminator}
    (hblock : f.block? b = some block) (ht : block.term = some t) (kind : CheckKind) :
    attachMetadata b checkKey kind.tag f = .ok true (f.updateBlock b (·.tag kind)) := by
  have hsome : block.term.isSome = true := by rw [ht]; rfl
  exact hsome ▸ updateTerminator_eq hblock _

/-- **Writing the tags.** Where every record is about a closed block, each of them gets its tag. -/
theorem emitMetadata_eq {m : CheckMap}
    (hm : ∀ e ∈ m.entries, ∃ block t, f.block? e.1 = some block ∧ block.term = some t) :
    m.emitMetadata f = .ok m.size (f.tagged m) := by
  -- The terminators are there before each step, since tagging one block leaves the others closed.
  have hall : ∀ (l : List (BlockId × CheckRecord)) (f : Function),
      (∀ e ∈ l, ∃ block t, f.block? e.1 = some block ∧ block.term = some t) →
      (l.mapM fun (e : BlockId × CheckRecord) => attachMetadata e.1 checkKey e.2.kind.tag) f =
        .ok (List.replicate l.length true)
          (l.foldl (fun f e => f.updateBlock e.1 (·.tag e.2.kind)) f) := by
    intro l
    induction l with
    | nil => exact fun f _ => rfl
    | cons e rest ih =>
      intro f hl
      obtain ⟨block, t, hblock, ht⟩ := hl e List.mem_cons_self
      have hrest : ∀ e' ∈ rest, ∃ block t,
          (f.updateBlock e.1 (·.tag e.2.kind)).block? e'.1 = some block ∧ block.term = some t := by
        intro e' he'
        obtain ⟨block, t, hblock, ht⟩ := hl e' (List.mem_cons_of_mem _ he')
        rw [Function.block?_updateBlock, hblock]
        split
        · exact ⟨_, _, rfl, congrArg (Option.map _) ht⟩
        · exact ⟨block, t, rfl, ht⟩
      rw [List.mapM_cons, bind_eq (attachMetadata_eq hblock ht e.2.kind), bind_eq (ih _ hrest)]
      rfl
  refine (bind_eq (hall m.entries f hm)).trans ?_
  rw [List.count_replicate_self]
  rfl

end Edit

end ArithWatch
