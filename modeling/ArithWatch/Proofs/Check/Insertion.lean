import ArithWatch.Check.Instrument
import ArithWatch.Proofs.Check.Formula
import ArithWatch.Proofs.IR.Split

namespace ArithWatch

/-!
# Inserting one chain of checks

* `Probe` is what the decision blocks behind an instruction are built from, `Decision` is one of
  them, and `Probe.chain` lists them for a list of conditions.
* `Insertion` is a probe at a spot; `Insertion.Fits` says when it can be made in a function.
* `Insertion.Carves` describes the function that it makes, block by block; `Insertion.Makes` does so
  for regular functions, where the phis of all blocks follow.
* `Edit.insertSite_opens` is the part of it that cuts the block and creates the decision blocks,
  `Edit.fillChain_eq` the part that fills them.
* `Edit.insertSite_eq`: inserting the chain of a watched instruction behind which something follows
  never fails, and makes that function; `Edit.insertSite_eq_none` is where nothing follows.
-/

/-! ### Chains -/

/-- What decision blocks are built from. -/
structure Probe where
  threshold : Threshold
  watched : Watched
  location : Option Location

/-- One decision block: its condition, the numbers of its first instruction and its first value, and
    the block that follows. -/
structure Decision where
  predicate : CheckPredicate
  block : BlockId
  inst : Nat
  value : Nat
  next : BlockId

/-- The first block of a chain that leads to `cont`. -/
def entrance (cont : BlockId) (ds : List Decision) : BlockId :=
  ((ds.head?).map (·.block)).getD cont

/-- The chain is entered at its first block; one without blocks leads on at once. -/
theorem entrance_eq (cont : BlockId) (ds : List Decision) :
    entrance cont ds = ((ds.map (·.block)).head?).getD cont := by
  rw [entrance, List.head?_map]

namespace Probe

variable (k : Probe)

/-- The formula of a condition. -/
def formula (p : CheckPredicate) : Formula := p.formula k.threshold k.watched.ty

/-- The instructions of a decision block. -/
def code (d : Decision) : List Inst :=
  (k.formula d.predicate).code k.watched k.location d.inst d.value

/-- The types of their results. -/
def types (d : Decision) : List Ty := (k.formula d.predicate).types k.watched.ty

/-- The value on which a decision block branches. -/
def outcome (d : Decision) : ValueId := d.predicate.outcome k.threshold k.watched.ty d.value

/-- The branch at the end of a decision block. -/
def branch (d : Decision) : Terminator :=
  { exit := .condBr (k.outcome d) d.next d.next, location := k.location }

/-- A decision block as the report lists it. -/
def check (d : Decision) : Check :=
  { kind := d.predicate.kind, predicate := k.outcome d, block := d.block }

/-- The decision blocks of a list of conditions, with blocks, instructions and values numbered from
    the given ones on, the last one followed by `cont`. -/
def chain (cont : BlockId) : List CheckPredicate → (block inst value : Nat) → List Decision
  | [], _, _, _ => []
  | p :: rest, block, inst, value =>
    let tail := chain cont rest (block + 1) (InstId.advance inst (k.formula p).size)
      (value + (k.formula p).size)
    { predicate := p, block := ⟨block⟩, inst, value, next := entrance cont tail } :: tail

/-- The first decision goes on to the next one, and its instructions and values come first. -/
theorem chain_cons (cont : BlockId) (p : CheckPredicate) (rest : List CheckPredicate)
    (block inst value : Nat) :
    k.chain cont (p :: rest) block inst value =
      { predicate := p, block := ⟨block⟩, inst, value, next := entrance cont
          (k.chain cont rest (block + 1) (InstId.advance inst (k.formula p).size)
            (value + (k.formula p).size)) } ::
        k.chain cont rest (block + 1) (InstId.advance inst (k.formula p).size)
          (value + (k.formula p).size) :=
  rfl

variable {k} {cont : BlockId} {checks : List CheckPredicate} {block inst value : Nat}

@[simp] theorem length_code (d : Decision) : (k.code d).length = (k.formula d.predicate).size :=
  Formula.length_code ..

@[simp] theorem length_types (d : Decision) : (k.types d).length = (k.formula d.predicate).size :=
  Formula.length_types ..

@[simp] theorem length_chain : (k.chain cont checks block inst value).length = checks.length := by
  induction checks generalizing block inst value with
  | nil => rfl
  | cons p rest ih => simp [chain_cons, ih]

/-- The blocks of a chain are numbered one after the other. -/
theorem map_block_chain : (k.chain cont checks block inst value).map (·.block) =
    (List.range' block checks.length).map .mk := by
  induction checks generalizing block inst value with
  | nil => rfl
  | cons p rest ih => simp [chain_cons, ih, List.range'_succ]

/-- The decisions keep the order of the conditions. -/
theorem map_predicate_chain :
    (k.chain cont checks block inst value).map (·.predicate) = checks := by
  induction checks generalizing block inst value with
  | nil => rfl
  | cons p rest ih => simp [chain_cons, ih]

/-- The blocks of a chain are in one range of numbers. -/
theorem mem_chain_block {d : Decision} (hd : d ∈ k.chain cont checks block inst value) :
    block ≤ d.block.index ∧ d.block.index < block + checks.length := by
  have hmem : d.block ∈ (k.chain cont checks block inst value).map (·.block) :=
    List.mem_map_of_mem hd
  rw [map_block_chain] at hmem
  obtain ⟨n, hn, hblock⟩ := List.mem_map.1 hmem
  rw [← hblock]
  simpa [List.mem_range'_1] using hn

/-- The values of a chain are numbered one after the other. -/
theorem map_result_chain : ((k.chain cont checks block inst value).flatMap k.code).map (·.result) =
    (List.range' value ((k.chain cont checks block inst value).flatMap k.code).length).map .mk := by
  induction checks generalizing block inst value with
  | nil => rfl
  | cons p rest ih =>
    simp only [chain_cons, List.flatMap_cons, List.map_append, List.length_append, length_code]
    rw [← List.range'_append_1, List.map_append, ih, code, Formula.map_result_code]

/-- The instruction ids of a chain are drawn one after the other. -/
theorem map_id_chain : ((k.chain cont checks block inst value).flatMap k.code).map (·.id) =
    InstId.drawn inst ((k.chain cont checks block inst value).flatMap k.code).length := by
  induction checks generalizing block inst value with
  | nil => rfl
  | cons p rest ih =>
    simp only [chain_cons, List.flatMap_cons, List.map_append, List.length_append, length_code]
    rw [InstId.drawn_add, ih, code, Formula.map_id_code]

/-- A finished decision block. -/
def close (k : Probe) (d : Decision) (name : String) : Block :=
  { id := d.block, name, insts := k.code d, term := some (k.branch d) }

/-- There are no phis in a decision block. -/
theorem repoint_close (d : Decision) (name : String) (old new : BlockId) :
    (k.close d name).repoint old new = k.close d name := by
  have hcode : (k.code d).map (·.repoint old new) = k.code d :=
    map_repoint_of_not_phi fun i hi => Formula.not_phi_of_mem_code hi
  rw [Block.repoint, close, hcode]

end Probe

/-- The records of decision blocks added to those of a report. -/
def recordAll (record : CheckKind → CheckRecord) (m : CheckMap) (ds : List Decision) : CheckMap :=
  ds.foldl (fun m d => m.insert d.block (record d.predicate.kind)) m

/-- The records of a chain are added to those that were there. -/
theorem contains_recordAll {record : CheckKind → CheckRecord} {m : CheckMap} {ds : List Decision}
    {b : BlockId} :
    (recordAll record m ds).contains b = true ↔ m.contains b = true ∨ b ∈ ds.map (·.block) := by
  induction ds generalizing m with
  | nil => simp [recordAll]
  | cons d rest ih =>
    show (recordAll record (m.insert d.block _) rest).contains b = true ↔ _
    rw [ih, SortedMap.contains, SortedMap.find?_insert]
    by_cases h : d.block = b
    · simp [h]
    · have h' : b ≠ d.block := fun e => h e.symm
      simp [h, h', SortedMap.contains]

/-- Of other blocks nothing new is recorded. -/
theorem find?_recordAll {record : CheckKind → CheckRecord} {m : CheckMap} {ds : List Decision}
    {b : BlockId} (h : b ∉ ds.map (·.block)) : (recordAll record m ds).find? b = m.find? b := by
  induction ds generalizing m with
  | nil => rfl
  | cons d rest ih =>
    rw [List.map_cons, List.mem_cons, not_or] at h
    show (recordAll record (m.insert d.block _) rest).find? b = _
    rw [ih h.2, SortedMap.find?_insert, if_neg (Ne.symm h.1)]

/-- Other blocks keep their records. -/
theorem kind?_recordAll {record : CheckKind → CheckRecord} {m : CheckMap} {ds : List Decision}
    {b : BlockId} (h : b ∉ ds.map (·.block)) : (recordAll record m ds).kind? b = m.kind? b := by
  rw [CheckMap.kind?, CheckMap.kind?, find?_recordAll h]

/-! ### Creating and filling blocks -/

namespace Edit

/-- Creating blocks one after the other. -/
theorem mapM_createBlock_eq {α : Type} (names : α → String) (items : List α) (f : Function) :
    ∃ blocks, (items.mapM fun a => createBlock (names a)) f =
        .ok ((List.range' f.blocks.size items.length).map .mk)
          { f with
            blocks
            layout := f.layout ++ (List.range' f.blocks.size items.length).map .mk } ∧
      blocks.size = f.blocks.size + items.length ∧
      (∀ b : BlockId, b.index < f.blocks.size → blocks[b.index]? = f.block? b) ∧
      ∀ b : BlockId, f.blocks.size ≤ b.index → b.index < blocks.size →
        ∃ name, blocks[b.index]? = some { id := b, name, insts := [], term := none } := by
  induction items generalizing f with
  | nil =>
    refine ⟨f.blocks, ?_, rfl, fun _ _ => rfl, fun b hle hlt => by omega⟩
    show EStateM.Result.ok _ _ = _
    simp
  | cons a rest ih =>
    have hcreate : createBlock (names a) f = .ok ⟨f.blocks.size⟩
        { f with
          blocks := f.blocks.push
            { id := ⟨f.blocks.size⟩, name := f.freshName (names a), insts := [], term := none }
          layout := f.layout ++ [⟨f.blocks.size⟩] } := rfl
    -- The first block is pushed, and the others come behind it.
    obtain ⟨blocks, heq, hsize, hold, hnew⟩ := ih
      { f with
        blocks := f.blocks.push
          { id := ⟨f.blocks.size⟩, name := f.freshName (names a), insts := [], term := none }
        layout := f.layout ++ [⟨f.blocks.size⟩] }
    simp only [Array.size_push] at heq hsize hold hnew
    refine ⟨blocks, ?_, by simp; omega, fun b hb => ?_, fun b hle hlt => ?_⟩
    · rw [List.mapM_cons, bind_eq hcreate, bind_eq heq]
      simp [List.range'_succ]
      rfl
    · rw [hold b (by omega), Function.block?, Array.getElem?_push, if_neg (by omega)]
      rfl
    · by_cases hb : b.index = f.blocks.size
      · refine ⟨f.freshName (names a), ?_⟩
        rw [hold b (by omega), Function.block?, Array.getElem?_push, if_pos hb, ← hb]
      · exact hnew b (by omega) hlt

end Edit

/-- The function with an empty decision block filled. -/
def Function.fill (f : Function) (k : Probe) (d : Decision) : Function :=
  (f.append d.block (k.code d) (k.types d)).updateBlock d.block fun b =>
    { b with term := some (k.branch d) }

section Fill

variable {f : Function} {k : Probe} {d : Decision}

@[simp] theorem Function.size_fill : (f.fill k d).blocks.size = f.blocks.size := by
  simp [fill]

@[simp] theorem Function.valueTypes_fill :
    (f.fill k d).valueTypes = f.valueTypes ++ (k.types d).toArray := rfl

@[simp] theorem Function.instCount_fill :
    (f.fill k d).instCount = InstId.advance f.instCount (k.code d).length := rfl

/-- Watched operands keep their types. -/
theorem Function.typed_fill {w : Watched} (h : w.Typed f) : w.Typed (f.fill k d) :=
  have h' := h.append d.block (k.code d) (k.types d)
  ⟨h'.lhs, h'.rhs, h'.result⟩

/-- Filling one block leaves the others as they are. -/
theorem Function.block?_fill {b : BlockId} (h : b ≠ d.block) :
    (f.fill k d).block? b = f.block? b := by
  rw [fill, block?_updateBlock, if_neg h.symm, block?_append, if_neg h.symm]

theorem Function.block?_fill_self {name : String}
    (h : f.block? d.block = some { id := d.block, name, insts := [], term := none }) :
    (f.fill k d).block? d.block = some (k.close d name) := by
  rw [fill, block?_updateBlock, if_pos rfl, block?_append, if_pos rfl, h]
  rfl

/-- The condition of a decision block and the branch behind it fill it. -/
theorem Edit.fill_eq (hw : k.watched.Typed f) (hinst : d.inst = f.instCount)
    (hvalue : d.value = f.valueTypes.size) {name : String}
    (hd : f.block? d.block = some { id := d.block, name, insts := [], term := none }) :
    ∃ g, d.predicate.build k.threshold ⟨d.block, k.location⟩ k.watched f = .ok (k.outcome d) g ∧
      Cursor.condBr ⟨d.block, k.location⟩ (k.outcome d) d.next d.next g =
        .ok d.block (f.fill k d) := by
  have hbuild := d.predicate.build_eq k.threshold (c := ⟨d.block, k.location⟩)
    (Function.lt_of_block? hd) hw
  rw [← hinst, ← hvalue] at hbuild
  -- The block is still open behind the condition.
  have hopen : (f.append d.block (k.code d) (k.types d)).block? d.block =
      some { id := d.block, name, insts := k.code d, term := none } := by
    rw [Function.block?_append, if_pos rfl, hd]
    rfl
  exact ⟨_, hbuild, terminate_eq hopen rfl _⟩

end Fill

/-- A block without a record gets one. -/
theorem Edit.recordCheck_eq {m : CheckMap} {branch : BlockId} (h : m.contains branch = false)
    (r : CheckRecord) (f : Function) :
    Edit.recordCheck m branch r f = .ok (m.insert branch r) f := by
  rw [Edit.recordCheck, CheckMap.record, h]
  rfl

/-- The first decision block is filled, then the others. -/
theorem Edit.fillChain_cons (t : Threshold) (w : Watched) (location : Option Location)
    (record : CheckKind → CheckRecord) (cont : BlockId) (p : CheckPredicate) (block : BlockId)
    (rest : List (CheckPredicate × BlockId)) (m : CheckMap) :
    fillChain t w location record cont ((p, block) :: rest) m = (do
      let next := ((rest.head?).map (·.2)).getD cont
      let predicate ← p.build t ⟨block, location⟩ w
      let branch ← Cursor.condBr ⟨block, location⟩ predicate next next
      let m ← recordCheck m branch (record p.kind)
      let (checks, m) ← fillChain t w location record cont rest m
      return ({ kind := p.kind, predicate, block := branch } :: checks, m)) := by
  cases rest <;> exact fillChain.eq_def ..

/-- The `count` blocks from `block` on wait to become decision blocks: they are empty, and the
    report says nothing of them. -/
structure Awaits (f : Function) (m : CheckMap) (block count : Nat) : Prop where
  empty : ∀ b : BlockId, block ≤ b.index → b.index < block + count →
    ∃ name, f.block? b = some { id := b, name, insts := [], term := none }
  unrecorded : ∀ b : BlockId, block ≤ b.index → m.contains b = false

namespace Awaits

variable {f : Function} {m : CheckMap} {k : Probe} {d : Decision} {count : Nat}

theorem empty_head (h : Awaits f m d.block.index (count + 1)) :
    ∃ name, f.block? d.block = some { id := d.block, name, insts := [], term := none } :=
  h.empty d.block (Nat.le_refl _) (by omega)

/-- When the first of them is filled and recorded, the others still wait. -/
theorem fill (h : Awaits f m d.block.index (count + 1)) (r : CheckRecord) :
    Awaits (f.fill k d) (m.insert d.block r) (d.block.index + 1) count := by
  have hne : ∀ b : BlockId, d.block.index + 1 ≤ b.index → b ≠ d.block := by
    rintro b hb rfl
    exact Nat.lt_irrefl _ hb
  constructor
  · intro b hle hlt
    rw [Function.block?_fill (hne b hle)]
    exact h.empty b (by omega) (by omega)
  · intro b hle
    rw [SortedMap.contains, SortedMap.find?_insert, if_neg (hne b hle).symm]
    exact h.unrecorded b (by omega)

end Awaits

/-- The first decision block is filled and recorded, and the walk goes on from there. -/
theorem Edit.fillChain_step {f : Function} {m : CheckMap} {k : Probe} {d : Decision} {count : Nat}
    {cont : BlockId} {rest : List (CheckPredicate × BlockId)} (record : CheckKind → CheckRecord)
    (hw : k.watched.Typed f) (hinst : d.inst = f.instCount) (hvalue : d.value = f.valueTypes.size)
    (hwait : Awaits f m d.block.index (count + 1))
    (hnext : d.next = ((rest.head?).map (·.2)).getD cont) :
    fillChain k.threshold k.watched k.location record cont ((d.predicate, d.block) :: rest) m f =
      (do
        let (checks, m) ← fillChain k.threshold k.watched k.location record cont rest
          (m.insert d.block (record d.predicate.kind))
        return (k.check d :: checks, m)) (f.fill k d) := by
  obtain ⟨name, hname⟩ := hwait.empty_head
  obtain ⟨g, hbuild, hbranch⟩ := fill_eq hw hinst hvalue hname
  have hrecord := recordCheck_eq (hwait.unrecorded d.block (Nat.le_refl _))
    (record d.predicate.kind) (f.fill k d)
  rw [fillChain_cons, ← hnext, bind_eq hbuild, bind_eq hbranch, bind_eq hrecord]
  rfl

/-- **Filling a chain.** Every decision block is filled, and nothing else changes. -/
theorem Edit.fillChain_eq {k : Probe} (cont : BlockId) (record : CheckKind → CheckRecord)
    (checks : List CheckPredicate) {f : Function} {m : CheckMap} {block inst value : Nat}
    (hw : k.watched.Typed f) (hinst : inst = f.instCount) (hvalue : value = f.valueTypes.size)
    (hwait : Awaits f m block checks.length) :
    ∃ blocks, fillChain k.threshold k.watched k.location record cont
        (checks.zip ((List.range' block checks.length).map .mk)) m f =
        .ok ((k.chain cont checks block inst value).map k.check,
            recordAll record m (k.chain cont checks block inst value))
          { f with
            blocks
            valueTypes := f.valueTypes ++
              ((k.chain cont checks block inst value).flatMap k.types).toArray
            instCount := InstId.advance f.instCount
              ((k.chain cont checks block inst value).flatMap k.code).length } ∧
      blocks.size = f.blocks.size ∧
      (∀ b : BlockId, b.index < block → blocks[b.index]? = f.block? b) ∧
      ∀ d ∈ k.chain cont checks block inst value, ∃ name,
        blocks[d.block.index]? = some (k.close d name) := by
  -- By induction on the conditions. The blocks still to be filled stay empty, which is what
  -- `Awaits` carries along.
  induction checks generalizing f m block inst value with
  | nil =>
    refine ⟨f.blocks, ?_, rfl, fun _ _ => rfl, fun d hd => by simp [Probe.chain] at hd⟩
    simp [Probe.chain, fillChain, recordAll]
    rfl
  | cons p rest ih =>
    obtain ⟨tail, htail⟩ : ∃ tail, tail = k.chain cont rest (block + 1)
      (InstId.advance inst (k.formula p).size) (value + (k.formula p).size) := ⟨_, rfl⟩
    obtain ⟨d, hd⟩ : ∃ d : Decision, d =
        { predicate := p, block := ⟨block⟩, inst, value, next := entrance cont tail } := ⟨_, rfl⟩
    have hchain : k.chain cont (p :: rest) block inst value = d :: tail := by
      rw [Probe.chain, hd, htail]
    have hp : d.predicate = p := by rw [hd]
    have hblock : d.block = ⟨block⟩ := by rw [hd]
    have hindex : d.block.index = block := by rw [hd]
    have hnext : d.next = (((rest.zip
        ((List.range' (block + 1) rest.length).map BlockId.mk)).head?).map (·.2)).getD cont := by
      rw [hd, htail]
      cases rest <;> rfl
    rw [← hindex] at hwait
    have hstep := fillChain_step record hw (by rw [hd, hinst]) (by rw [hd, hvalue]) hwait hnext
    have hrest := hwait.fill (k := k) (record d.predicate.kind)
    rw [hindex] at hrest
    obtain ⟨blocks, heq, hsize, hold, hdone⟩ := ih (Function.typed_fill hw (d := d))
      (show InstId.advance inst (k.formula p).size = _ by simp [hp, hinst])
      (show value + (k.formula p).size = _ by simp [hp, hvalue]) hrest
    -- The first block is filled by one step, the rest by the induction hypothesis.
    rw [← htail] at heq hdone
    rw [hchain, List.length_cons, List.range'_succ, List.map_cons, List.zip_cons_cons, ← hp,
      ← hblock, hstep]
    refine ⟨blocks, ?_, by simpa using hsize, fun b hb => ?_, fun c hc => ?_⟩
    · rw [bind_eq heq]
      simp only [List.map_cons, List.flatMap_cons, recordAll, List.foldl_cons,
        Function.valueTypes_fill, Function.instCount_fill, List.length_append,
        InstId.advance_advance, ← List.append_toArray, Array.append_assoc]
      rfl
    · rw [hold b (by omega), Function.block?_fill]
      rintro rfl
      omega
    · rcases List.mem_cons.1 hc with rfl | hc
      · obtain ⟨name, hname⟩ := hwait.empty_head
        refine ⟨name, ?_⟩
        rw [hold c.block (by omega)]
        exact Function.block?_fill_self hname
      · exact hdone c hc

/-! ### Insertions -/

/-- A chain of conditions behind an instruction. -/
structure Insertion where
  spot : Spot
  probe : Probe
  checks : List CheckPredicate

namespace Insertion

/-- The block that gets what stands behind the instruction. -/
def cont (f : Function) : BlockId := ⟨f.blocks.size⟩

/-- The decision blocks, which stand behind that block in the arena. -/
def decisions (s : Insertion) (f : Function) : List Decision :=
  s.probe.chain (cont f) s.checks (f.blocks.size + 1) f.instCount f.valueTypes.size

/-- The instructions of all decision blocks. -/
def code (s : Insertion) (f : Function) : List Inst := (s.decisions f).flatMap s.probe.code

/-- The types of their results. -/
def types (s : Insertion) (f : Function) : List Ty := (s.decisions f).flatMap s.probe.types

/-- The branch from the instruction to its chain. -/
def branch (s : Insertion) (f : Function) : Terminator :=
  { exit := .br (entrance (cont f) (s.decisions f)), location := s.probe.location }

/-- The insertion as the report lists it. -/
def site (s : Insertion) (f : Function) (id : SiteId) : CheckSite :=
  { id
    inst := s.spot.inst.id
    op := s.probe.watched.op
    originBlock := s.spot.home
    contBlock := cont f
    location := s.probe.location
    checks := (s.decisions f).map s.probe.check }

/-- What the report says of a branch of the insertion. -/
def record (s : Insertion) (id : SiteId) (kind : CheckKind) : CheckRecord :=
  { kind, site := id, origin := s.spot.inst.id, location := s.probe.location }

variable {s : Insertion} {f : Function}

/-- A site lists one check for each condition. -/
theorem length_checks_site (id : SiteId) : (s.site f id).checks.length = s.checks.length := by
  simp [site, decisions]

/-- The decisions are those of the conditions, in order. -/
theorem map_predicate_decisions : (s.decisions f).map (·.predicate) = s.checks :=
  Probe.map_predicate_chain

/-- A decision block decides on one of the conditions. -/
theorem predicate_mem_checks {d : Decision} (hd : d ∈ s.decisions f) : d.predicate ∈ s.checks := by
  have hmem : d.predicate ∈ (s.decisions f).map (·.predicate) := List.mem_map_of_mem hd
  rwa [map_predicate_decisions] at hmem

/-- Decision blocks come behind the rest of the cut block. -/
theorem mem_decisions_block {d : Decision} (hd : d ∈ s.decisions f) :
    f.blocks.size < d.block.index ∧ d.block.index < f.blocks.size + 1 + s.checks.length :=
  Probe.mem_chain_block hd

/-- Every new block but `cont` is a decision block. -/
theorem exists_decision {b : BlockId} (hlt : f.blocks.size < b.index)
    (hb : b.index < f.blocks.size + 1 + s.checks.length) : ∃ d ∈ s.decisions f, d.block = b := by
  have hmem : b ∈ (s.decisions f).map (·.block) := by
    rw [decisions, Probe.map_block_chain]
    exact List.mem_map.2 ⟨b.index, List.mem_range'_1.2 (by omega), rfl⟩
  exact List.mem_map.1 hmem

/-- The decision blocks are none of the old blocks. -/
theorem not_mem_of_lt {b : BlockId} (hb : b.index < f.blocks.size) :
    b ∉ (s.decisions f).map (·.block) := by
  intro hmem
  obtain ⟨d, hd, rfl⟩ := List.mem_map.1 hmem
  exact Nat.lt_asymm hb (mem_decisions_block hd).1

/-- That rest is no decision block. -/
theorem cont_not_mem : cont f ∉ (s.decisions f).map (·.block) := by
  intro hmem
  obtain ⟨d, hd, heq⟩ := List.mem_map.1 hmem
  have := (mem_decisions_block hd).1
  rw [heq] at this
  exact Nat.lt_irrefl _ this

/-- The probe watches the instruction at the spot, and its checks belong to the operator. -/
structure Fits (s : Insertion) (f : Function) : Prop where
  spot_in : s.spot.In f
  watches : ∃ flags, s.spot.inst.kind =
    .binary s.probe.watched.op s.probe.watched.lhs s.probe.watched.rhs flags
  result_eq : s.probe.watched.result = s.spot.inst.result
  location_eq : s.probe.location = s.spot.inst.location
  typed : s.probe.watched.Typed f
  checks_eq : s.checks = s.probe.watched.op.checks
  checks_ne_nil : s.checks ≠ []
  family : ∀ p ∈ s.checks, p.kind.isFloat = s.probe.watched.ty.isFloat
  int_ty : s.probe.watched.ty.isFloat = false → s.probe.watched.ty = watchedIntTy

/-- A watched instruction is a binary operation. -/
theorem Fits.not_phi {s : Insertion} {f : Function} (h : s.Fits f) :
    s.spot.inst.kind.isPhi = false := by
  obtain ⟨flags, hkind⟩ := h.watches
  rw [hkind]
  rfl

/-- The insertion turns `f` into `g`, whatever the phis of `f` look like. -/
structure Carves (s : Insertion) (f g : Function) : Prop where
  frame : g = { f with
    blocks := g.blocks
    layout := insertBehind s.spot.home (cont f) f.layout ++ (s.decisions f).map (·.block)
    valueTypes := f.valueTypes ++ (s.types f).toArray
    instCount := InstId.advance f.instCount (s.code f).length }
  size : g.blocks.size = f.blocks.size + 1 + s.checks.length
  home : g.block? s.spot.home =
    some (s.spot.follow (cont f) s.spot.home (s.spot.half (s.branch f)))
  rest : ∃ name, g.block? (cont f) =
    some (s.spot.follow (cont f) (cont f) (s.spot.rest (cont f) name))
  decision : ∀ d ∈ s.decisions f, ∃ name, g.block? d.block = some (s.probe.close d name)
  other : ∀ b ≠ s.spot.home, b.index < f.blocks.size →
    g.block? b = (f.block? b).map (s.spot.follow (cont f) b)

/-- The insertion turns the regular function `f` into `g`: all phis follow. -/
structure Makes (s : Insertion) (f g : Function) : Prop where
  frame : g = { f with
    blocks := g.blocks
    layout := insertBehind s.spot.home (cont f) f.layout ++ (s.decisions f).map (·.block)
    valueTypes := f.valueTypes ++ (s.types f).toArray
    instCount := InstId.advance f.instCount (s.code f).length }
  size : g.blocks.size = f.blocks.size + 1 + s.checks.length
  home : g.block? s.spot.home = some (s.spot.front (cont f) (s.branch f))
  rest : ∃ name, g.block? (cont f) = some (s.spot.rest (cont f) name)
  decision : ∀ d ∈ s.decisions f, ∃ name, g.block? d.block = some (s.probe.close d name)
  other : ∀ b ≠ s.spot.home, b.index < f.blocks.size →
    g.block? b = (f.block? b).map (·.repoint s.spot.home (cont f))

/-- **In regular functions** only phis behind the terminator follow, so that the pieces are
    as said. -/
theorem Carves.makes {s : Insertion} {f g : Function} (hg : s.Carves f g) (h : f.Regular)
    (hs : s.spot.In f) : s.Makes f g where
  frame := hg.frame
  size := hg.size
  home := by rw [hg.home, h.follow_half hs]
  rest := by
    obtain ⟨name, hname⟩ := hg.rest
    exact ⟨name, hname.trans (congrArg some (h.follow_rest hs rfl name))⟩
  decision := hg.decision
  other b hne hb := by
    obtain ⟨block, hblock⟩ := Function.exists_block? hb
    rw [hg.other b hne hb, hblock, Option.map_some, h.follow_eq_repoint hs (cont f) hblock]
    rfl

end Insertion

/-- Creating the decision blocks and leading a block to them. -/
theorem Edit.attach_eq {α : Type} {f : Function} {home : BlockId} {front : Block}
    (h : f.block? home = some front) (names : α → String) (items : List α) (t : Terminator)
    (target : BlockId) (ht : t = { exit := .br target, location := t.location }) :
    ∃ g₁ g₂ g, eraseTerminator home f = .ok front.term g₁ ∧
      (items.mapM fun a => createBlock (names a)) g₁ =
        .ok ((List.range' f.blocks.size items.length).map .mk) g₂ ∧
      Cursor.br ⟨home, t.location⟩ target g₂ = .ok home g ∧
      g = { f with
        blocks := g.blocks
        layout := f.layout ++ (List.range' f.blocks.size items.length).map .mk } ∧
      g.blocks.size = f.blocks.size + items.length ∧
      g.block? home = some { front with term := some t } ∧
      (∀ b ≠ home, b.index < f.blocks.size → g.block? b = f.block? b) ∧
      ∀ b : BlockId, f.blocks.size ≤ b.index → b.index < f.blocks.size + items.length →
        ∃ name, g.block? b = some { id := b, name, insts := [], term := none } := by
  have hlt := Function.lt_of_block? h
  obtain ⟨g₁, hg₁⟩ : ∃ g₁, g₁ = f.updateBlock home fun block => { block with term := none } :=
    ⟨_, rfl⟩
  have hsize₁ : g₁.blocks.size = f.blocks.size := by rw [hg₁, Function.size_updateBlock]
  -- Only blocks are appended, so the home is found again behind them.
  obtain ⟨made, hmade, hmadesize, hold, hnew⟩ := mapM_createBlock_eq names items g₁
  rw [hsize₁] at hmade hmadesize hold hnew
  obtain ⟨g₂, hg₂⟩ : ∃ g₂ : Function, g₂ = { g₁ with
    blocks := made
    layout := g₁.layout ++ (List.range' f.blocks.size items.length).map .mk } := ⟨_, rfl⟩
  obtain ⟨g, hg⟩ : ∃ g, g = g₂.updateBlock home fun block => { block with term := some t } :=
    ⟨_, rfl⟩
  have hblock₂ : ∀ b : BlockId, b.index < f.blocks.size → g₂.block? b = g₁.block? b := by
    intro b hb
    rw [hg₂]
    exact hold b hb
  refine ⟨g₁, g₂, g, hg₁ ▸ eraseTerminator_eq h, hg₂ ▸ hmade, ?_, ?_, ?_, ?_, fun b hne hb => ?_,
    fun b hle hb => ?_⟩
  · -- The block can be closed because its terminator was taken off before.
    have hopen : g₂.block? home = some { front with term := none } := by
      rw [hblock₂ home hlt, hg₁, Function.block?_updateBlock, if_pos rfl, h]
      rfl
    rw [hg, ht]
    exact terminate_eq hopen rfl _
  · rw [hg, hg₂, hg₁]
    rfl
  · rw [hg, Function.size_updateBlock, hg₂]
    exact hmadesize
  · rw [hg, Function.block?_updateBlock, if_pos rfl, hblock₂ home hlt, hg₁,
      Function.block?_updateBlock, if_pos rfl, h]
    rfl
  · rw [hg, Function.block?_updateBlock, if_neg hne.symm, hblock₂ b hb, hg₁,
      Function.block?_updateBlock, if_neg hne.symm]
  · have hne : home ≠ b := by
      rintro rfl
      omega
    rw [hg, Function.block?_updateBlock, if_neg hne, hg₂]
    exact hnew b hle (by omega)

/-- The insertion half made in `g`: the block of the instruction is cut and leads to the chain,
    whose blocks are still empty. -/
structure Insertion.Opens (s : Insertion) (f g : Function) : Prop where
  frame : g = { f with
    blocks := g.blocks
    layout := insertBehind s.spot.home (cont f) f.layout ++
      (List.range' (f.blocks.size + 1) s.checks.length).map .mk }
  size : g.blocks.size = f.blocks.size + 1 + s.checks.length
  home : g.block? s.spot.home =
    some (s.spot.follow (cont f) s.spot.home (s.spot.half (s.branch f)))
  rest : ∃ name, g.block? (cont f) =
    some (s.spot.follow (cont f) (cont f) (s.spot.rest (cont f) name))
  empty : ∀ b : BlockId, f.blocks.size + 1 ≤ b.index →
    b.index < f.blocks.size + 1 + s.checks.length →
    ∃ name, g.block? b = some { id := b, name, insts := [], term := none }
  other : ∀ b ≠ s.spot.home, b.index < f.blocks.size →
    g.block? b = (f.block? b).map (s.spot.follow (cont f) b)

/-- Before its chain is filled, an insertion is made up to there. -/
theorem Edit.insertSite_opens {f : Function} {s : Insertion} (hs : s.Fits f)
    (hfollowed : s.spot.Followed) (family : Family) (m : CheckMap) (id : SiteId)
    (hlocate : f.locate s.spot.inst.id = .ok (some (s.spot.home, s.spot.before.length))) :
    ∃ g, s.Opens f g ∧
      Edit.insertSite s.probe.threshold s.spot.inst.id ⟨family, s.probe.watched, s.checks⟩ id m f =
        (do
          let (checks, m) ← fillChain s.probe.threshold s.probe.watched s.probe.location
            (s.record id) (Insertion.cont f)
            (s.checks.zip ((List.range' (f.blocks.size + 1) s.checks.length).map .mk)) m
          return some ({ s.site f id with checks }, m)) g := by
  obtain ⟨cut, hcut, hcutsize, hhome, hrest, hother⟩ :=
    Function.cutBlock_eq hs.spot_in (rfl : Insertion.cont f = ⟨f.blocks.size⟩)
  have hlocation : Edit.query (·.location s.spot.inst.id) f = .ok s.probe.location f :=
    Edit.query_eq (by rw [Function.location_eq_ok hs.spot_in hlocate, hs.location_eq])
  have hsplit : Edit.splitBlockAfter s.spot.inst.id f =
      .ok (some (s.spot.home, Insertion.cont f)) _ :=
    Function.splitBlockAfter_eq hs.spot_in hlocate hfollowed
  rw [hcut] at hsplit
  obtain ⟨g₁, hg₁⟩ : ∃ g₁ : Function, g₁ = { f with
    blocks := cut
    layout := insertBehind s.spot.home (Insertion.cont f) f.layout } := ⟨_, rfl⟩
  rw [← hg₁] at hsplit
  have hsize₁ : g₁.blocks.size = f.blocks.size + 1 := by rw [hg₁, hcutsize]
  -- Then the chain is attached to the first half.
  obtain ⟨g₂, g₃, g, herase, hmade, hbranch, hframe, hsize, hhome', hold, hempty⟩ :=
    Edit.attach_eq (f := g₁) (by rw [hg₁]; exact hhome)
      (fun p : CheckPredicate => p.kind.blockName) s.checks (s.branch f)
      (entrance (Insertion.cont f) (s.decisions f)) rfl
  rw [hsize₁] at hmade hsize hold hempty hframe
  have hhead : (((List.range' (f.blocks.size + 1) s.checks.length).map BlockId.mk).head?).getD
      (Insertion.cont f) = entrance (Insertion.cont f) (s.decisions f) := by
    rw [entrance_eq, Insertion.decisions, Probe.map_block_chain]
  refine ⟨g, ?_, ?_⟩
  · exact {
      frame := by rw [hframe, hg₁]
      size := hsize
      home := by
        rw [hhome', Spot.follow, Spot.follow]
        split <;> rfl
      rest := by
        have hne : Insertion.cont f ≠ s.spot.home := by
          intro e
          exact Nat.lt_irrefl _ (e ▸ hs.spot_in.home_lt)
        refine ⟨f.freshName "origin_cont", ?_⟩
        rw [hold _ hne (Nat.lt_succ_self _), hg₁]
        exact hrest
      empty := hempty
      other := by
        intro b hne hb
        rw [hold b hne (by omega), hg₁]
        exact hother b hne hb }
  · rw [Edit.insertSite, Edit.bind_eq hlocation, Edit.bind_eq hsplit]
    show (Edit.eraseTerminator s.spot.home >>= _) g₁ = _
    rw [Edit.bind_eq herase, Edit.bind_eq hmade, hhead]
    exact Edit.bind_eq hbranch

/-- **Inserting a chain.** It never fails, and it makes what `Insertion.Carves` says. -/
theorem Edit.insertSite_eq {f : Function} {s : Insertion} (hs : s.Fits f)
    (hfollowed : s.spot.Followed) (family : Family) {m : CheckMap} (id : SiteId)
    (hlocate : f.locate s.spot.inst.id = .ok (some (s.spot.home, s.spot.before.length)))
    (hm : ∀ b, m.contains b = true → b.index < f.blocks.size) :
    ∃ g, Edit.insertSite s.probe.threshold s.spot.inst.id ⟨family, s.probe.watched, s.checks⟩ id m f
        = .ok (some (s.site f id, recordAll (s.record id) m (s.decisions f))) g ∧
      s.Carves f g := by
  obtain ⟨o, ho, hrun⟩ := Edit.insertSite_opens hs hfollowed family m id hlocate
  have htyped : s.probe.watched.Typed o := by
    rw [ho.frame]
    exact ⟨hs.typed.lhs, hs.typed.rhs, hs.typed.result⟩
  have hinst : f.instCount = o.instCount := by rw [ho.frame]
  have hvalue : f.valueTypes.size = o.valueTypes.size := by rw [ho.frame]
  have hnew : ∀ b : BlockId, f.blocks.size + 1 ≤ b.index → m.contains b = false := by
    intro b hb
    refine Bool.eq_false_iff.2 fun hmem => ?_
    have := hm b hmem
    omega
  -- The chain is filled where it has been laid out empty.
  obtain ⟨blocks, hfill, hsize, hold, hdone⟩ := Edit.fillChain_eq (Insertion.cont f) (s.record id)
    s.checks htyped hinst hvalue ⟨ho.empty, hnew⟩
  refine ⟨_, hrun.trans (Edit.bind_eq hfill), ?_⟩
  have hlt := hs.spot_in.home_lt
  -- Filling touches decision blocks only, and leaves the two halves and the others alone.
  exact {
    frame := by
      rw [ho.frame, Insertion.decisions, Probe.map_block_chain]
      rfl
    size := hsize.trans ho.size
    home := (hold _ (by omega)).trans ho.home
    rest := by
      obtain ⟨name, hname⟩ := ho.rest
      exact ⟨name, (hold _ (Nat.lt_succ_self _)).trans hname⟩
    decision := hdone
    other := fun b hne hb => (hold b (by omega)).trans (ho.other b hne hb) }

/-- Nothing is inserted where nothing follows. -/
theorem Edit.insertSite_eq_none {f : Function} {p : Spot} {i : InstId} (hp : p.In f)
    (hlocate : f.locate i = .ok (some (p.home, p.before.length))) (hlast : ¬ p.Followed)
    (t : Threshold) (q : Qualified) (id : SiteId) (m : CheckMap) :
    Edit.insertSite t i q id m f = .ok none f := by
  have hlocation : Edit.query (·.location i) f = .ok p.inst.location f :=
    Edit.query_eq (Function.location_eq_ok hp hlocate)
  rw [Edit.insertSite, Edit.bind_eq hlocation,
    Edit.bind_eq (Function.splitBlockAfter_eq_none hp hlocate hlast)]
  rfl

end ArithWatch
