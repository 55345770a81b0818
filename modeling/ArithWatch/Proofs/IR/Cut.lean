import ArithWatch.Proofs.IR.Arranged
import Mathlib.Data.List.Nodup
import Mathlib.Data.List.Pairwise

namespace ArithWatch

/-!
# Finding an instruction and cutting its block

* `Spot` is an instruction with what stands around it.
* `Function.Arranged.locate_cases`: an instruction id is found at its first place in the layout, or
  it occurs nowhere; `Function.Arranged.locate_eq`: where ids are unique, that is its place.
* `Block.repoint` is a block whose phis take what came from one block from another one.
* `Function.cutBlock_eq` says what cutting a block makes of every block, and
  `Function.Regular.follow_eq_repoint` that in a regular function the phis of all blocks follow.
* `Function.Hosts` says of a function that the blocks of another one can stand in it.  With
  `Function.Hosts.repoint`, `front` and `rest` the old blocks and both parts of the cut one keep the
  rules there.
-/

/-! ### Repointing -/

/-- The instruction with what came from `old` coming from `new`. -/
def Inst.repoint (old new : BlockId) (i : Inst) : Inst := { i with kind := i.kind.repoint old new }

/-- The block with what came from `old` coming from `new`. -/
def Block.repoint (old new : BlockId) (b : Block) : Block :=
  { b with insts := b.insts.map (·.repoint old new) }

section Repoint

variable {old new : BlockId}

/-- Repointing keeps ids, results and operands; only sources of phis change. -/
@[simp] theorem Inst.id_repoint (i : Inst) : (i.repoint old new).id = i.id := rfl

@[simp] theorem Inst.result_repoint (i : Inst) : (i.repoint old new).result = i.result := rfl

@[simp] theorem Inst.kind_repoint (i : Inst) :
    (i.repoint old new).kind = i.kind.repoint old new := rfl

@[simp] theorem InstKind.isPhi_repoint (k : InstKind) : (k.repoint old new).isPhi = k.isPhi := by
  cases k <;> rfl

@[simp] theorem InstKind.operands_repoint (k : InstKind) :
    (k.repoint old new).operands = k.operands := by
  cases k with
  | phi incoming => simp [repoint, operands, Function.comp_def]
  | _ => rfl

/-- Only phis that take something from `old` change. -/
theorem InstKind.repoint_eq_self {k : InstKind}
    (h : ∀ incoming, k = .phi incoming → old ∉ incoming.map (·.1)) : k.repoint old new = k := by
  cases k with
  | phi incoming =>
    have hmap : incoming.map (fun input => (if input.1 = old then new else input.1, input.2)) =
        incoming.map id :=
      List.map_congr_left fun input hinput => by
        have : input.1 ≠ old := fun e => h incoming rfl (e ▸ List.mem_map_of_mem hinput)
        simp [this]
    rw [repoint, hmap, List.map_id]
  | _ => rfl

/-- Where no phi comes from the old block there is nothing to repoint. -/
theorem Inst.repoint_eq_self {i : Inst}
    (h : ∀ incoming, i.kind = .phi incoming → old ∉ incoming.map (·.1)) :
    i.repoint old new = i := by
  rw [Inst.repoint, InstKind.repoint_eq_self h]

/-- Only phis are repointed. -/
theorem Inst.repoint_of_not_phi {i : Inst} (h : i.kind.isPhi = false) : i.repoint old new = i :=
  Inst.repoint_eq_self fun incoming hk => by simp [hk, InstKind.isPhi] at h

/-- Instructions behind the phis of a block stay as they are. -/
theorem map_repoint_of_not_phi {l : List Inst} (h : ∀ i ∈ l, i.kind.isPhi = false) :
    l.map (·.repoint old new) = l := by
  conv_rhs => rw [← List.map_id' l]
  exact List.map_congr_left fun i hi => Inst.repoint_of_not_phi (h i hi)

/-- Repointing keeps phis in front. -/
theorem takeWhile_repoint (l : List Inst) :
    (l.map (·.repoint old new)).takeWhile (·.kind.isPhi) =
      (l.takeWhile (·.kind.isPhi)).map (·.repoint old new) := by
  simp only [List.takeWhile_map, Function.comp_def, Inst.kind_repoint, InstKind.isPhi_repoint]

/-- Repointing leaves the phis of a block where they are, in front. -/
theorem dropWhile_repoint (l : List Inst) :
    (l.map (·.repoint old new)).dropWhile (·.kind.isPhi) =
      (l.dropWhile (·.kind.isPhi)).map (·.repoint old new) := by
  simp only [List.dropWhile_map, Function.comp_def, Inst.kind_repoint, InstKind.isPhi_repoint]

/-- A block none of whose phis comes from the old block stays as it is. -/
theorem Block.repoint_eq_self {b : Block}
    (h : ∀ i ∈ b.insts, ∀ incoming, i.kind = .phi incoming → old ∉ incoming.map (·.1)) :
    b.repoint old new = b := by
  have hmap : b.insts.map (·.repoint old new) = b.insts.map fun i => i :=
    List.map_congr_left fun i hi => Inst.repoint_eq_self (h i hi)
  rw [Block.repoint, hmap, List.map_id']

/-- Repointing a second time changes nothing. -/
theorem Block.repoint_repoint (b : Block) :
    (b.repoint old new).repoint old new = b.repoint old new := by
  have hinst : ∀ i : Inst, (i.repoint old new).repoint old new = i.repoint old new := by
    intro i
    cases hk : i.kind with
    | phi incoming =>
      simp only [Inst.repoint, hk, InstKind.repoint, List.map_map]
      congr 2
      refine List.map_congr_left fun input _ => ?_
      by_cases h : input.1 = old <;> by_cases h' : new = old <;> simp [h, h']
    | _ => simp [Inst.repoint, hk, InstKind.repoint]
  simp [Block.repoint, Function.comp_def, hinst]

/-- Repointing keeps different inputs different, and exchanges one block for the other. -/
theorem inputs_repoint (old : BlockId) {new : BlockId} {inputs : List BlockId}
    (hnodup : inputs.Nodup) (hnew : new ∉ inputs) :
    (inputs.map fun p => if p = old then new else p).Nodup ∧
      ∀ p, p ∈ (inputs.map fun p => if p = old then new else p) ↔
        (p ≠ old ∧ p ∈ inputs) ∨ (p = new ∧ old ∈ inputs) := by
  -- Nothing is called `new` yet, so that renaming keeps the inputs apart.
  constructor
  · refine List.pairwise_map.2 (hnodup.imp_of_mem fun {p q} hp hq hne => ?_)
    have hp' : p ≠ new := fun e => hnew (e ▸ hp)
    have hq' : q ≠ new := fun e => hnew (e ▸ hq)
    by_cases h : p = old <;> by_cases h' : q = old <;> simp_all [eq_comm]
  · intro p
    rw [List.mem_map]
    constructor
    · rintro ⟨q, hq, rfl⟩
      split
      · next e => exact .inr ⟨rfl, e ▸ hq⟩
      · next hne => exact .inl ⟨hne, hq⟩
    · rintro (⟨hne, hp⟩ | ⟨rfl, hold⟩)
      · exact ⟨p, hp, if_neg hne⟩
      · exact ⟨old, hold, if_pos rfl⟩

end Repoint

/-! ### Spots -/

/-- An instruction in its block. -/
structure Spot where
  home : BlockId
  block : Block
  before : List Inst
  inst : Inst
  after : List Inst

/-- The spot is in the function. -/
structure Spot.In (p : Spot) (f : Function) : Prop where
  block_eq : f.block? p.home = some p.block
  insts_eq : p.block.insts = p.before ++ p.inst :: p.after

/-- The spot is the first one in the layout with its instruction id. -/
structure Spot.First (p : Spot) (f : Function) : Prop extends p.In f where
  first : ∃ pre post, f.laidOut = pre ++ p.block :: post ∧
    ∀ j ∈ pre.flatMap (·.insts) ++ p.before, j.id ≠ p.inst.id

namespace Spot

/-- The part of the block up to the instruction, closed by a terminator of its own, once what comes
    from the block comes from `cont`. -/
def front (p : Spot) (cont : BlockId) (t : Terminator) : Block :=
  { p.block with insts := (p.before ++ [p.inst]).map (·.repoint p.home cont), term := some t }

/-- That part before its phis follow. -/
def half (p : Spot) (t : Terminator) : Block :=
  { p.block with insts := p.before ++ [p.inst], term := some t }

/-- What cutting its block makes of the others: the phis of those that it branches to follow. -/
def follow (p : Spot) (cont b : BlockId) (block : Block) : Block :=
  if b ∈ p.block.successors then block.repoint p.home cont else block

/-- The part of the block behind the instruction, as the block `cont`. -/
def rest (p : Spot) (cont : BlockId) (name : String) : Block :=
  { id := cont, name, insts := p.after, term := p.block.term }

/-- Something stands behind the instruction in its block, or the block is closed. -/
def Followed (p : Spot) : Prop := p.after ≠ [] ∨ p.block.term ≠ none

variable {p : Spot} {f : Function}

/-- The instruction is one of its block. -/
theorem In.inst_mem (h : p.In f) : p.inst ∈ p.block.insts := by
  rw [h.insts_eq]
  exact List.mem_append_right _ List.mem_cons_self

/-- The first spot in the order of the instructions. -/
theorem First.allInsts_eq (h : p.First f) : ∃ pre post, f.allInsts = pre ++ p.block.insts ++ post ∧
    ∀ j ∈ pre ++ p.before, j.id ≠ p.inst.id := by
  obtain ⟨pre, post, hall, hfirst⟩ := h.first
  refine ⟨pre.flatMap (·.insts), post.flatMap (·.insts), ?_, hfirst⟩
  rw [Function.allInsts, hall, List.flatMap_append, List.flatMap_cons, List.append_assoc]

/-- The block is in the arena. -/
theorem In.home_lt (h : p.In f) : p.home.index < f.blocks.size := Function.lt_of_block? h.block_eq

end Spot

namespace Function

variable {f : Function}

/-- Every block of the layout exists. -/
theorem Laid.blocksInLayout_eq (h : f.Laid) : f.blocksInLayout = .ok f.laidOut :=
  h.arranged.blocksInLayout_eq

/-- Every block has an entry in the table of predecessors. -/
theorem Laid.predecessors_eq (h : f.Laid) : ∃ preds, f.predecessors = .ok preds ∧
    ∀ b : BlockId, b.index < f.blocks.size →
      preds.find? b = some (predecessorsIn f.laidOut b) := by
  refine ⟨_, by rw [predecessors, h.blocksInLayout_eq]; rfl, fun b hb => ?_⟩
  have hvalue : ∀ e ∈ (f.layout ++ f.laidOut.flatMap (·.successors)).map
      fun b => (b, predecessorsIn f.laidOut b), e.2 = predecessorsIn f.laidOut e.1 := by
    intro e he
    obtain ⟨c, -, rfl⟩ := List.mem_map.1 he
    rfl
  have hkey : b ∈ ((f.layout ++ f.laidOut.flatMap (·.successors)).map
      fun b => (b, predecessorsIn f.laidOut b)).map (·.1) := by
    rw [List.map_map]
    exact List.mem_map.2 ⟨b, List.mem_append_left _ ((h.mem_layout b).2 hb), rfl⟩
  rw [SortedMap.find?_ofList hvalue, if_pos hkey]

/-- A search that succeeds stops at the first fitting member. -/
theorem exists_of_findIdx? {α : Type} {test : α → Bool} {l : List α} {n : Nat}
    (h : l.findIdx? test = some n) :
    ∃ before a after, l = before ++ a :: after ∧ before.length = n ∧ test a = true ∧
      ∀ b ∈ before, test b = false := by
  obtain ⟨hn, htest, hbefore⟩ := List.findIdx?_eq_some_iff_getElem.1 h
  refine ⟨l.take n, l[n], l.drop (n + 1), ?_, List.length_take_of_le (Nat.le_of_lt hn), htest,
    fun b hb => ?_⟩
  · rw [← List.drop_eq_getElem_cons hn, List.take_append_drop]
  · obtain ⟨j, hj, rfl⟩ := List.mem_take_iff_getElem.1 hb
    exact Bool.eq_false_iff.2 (hbefore j (by omega))

/-- The search for an instruction in some blocks, which know their ids. -/
theorem locateIn_cases (hids : ∀ b block, f.block? b = some block → block.id = b) (i : InstId)
    (order : List BlockId) (hmem : ∀ b ∈ order, b.index < f.blocks.size) :
    (f.locateIn i order = .ok none ∧
        ∀ j ∈ (order.filterMap f.block?).flatMap (·.insts), j.id ≠ i) ∨
      ∃ p : Spot, p.In f ∧ p.home ∈ order ∧ p.inst.id = i ∧
        f.locateIn i order = .ok (some (p.home, p.before.length)) ∧
        ∃ pre post, order.filterMap f.block? = pre ++ p.block :: post ∧
          ∀ j ∈ pre.flatMap (·.insts) ++ p.before, j.id ≠ i := by
  induction order with
  | nil => exact .inl ⟨rfl, by simp⟩
  | cons b rest ih =>
    obtain ⟨block, hblock⟩ := exists_block? (hmem b List.mem_cons_self)
    rw [List.filterMap_cons_some hblock]
    -- The search goes on behind a block without the id, and stops in the first one that has it.
    cases hfind : block.insts.findIdx? (·.id == i) with
    | none =>
      have hlocate : f.locateIn i (b :: rest) = f.locateIn i rest := by
        simp [locateIn, block_eq_ok hblock, hfind]
      rw [hlocate]
      have hnone : ∀ j ∈ block.insts, j.id ≠ i := fun j hj => by
        simpa using List.findIdx?_eq_none_iff.1 hfind j hj
      rcases ih fun c hc => hmem c (List.mem_cons_of_mem _ hc) with
        ⟨hrest, hne⟩ | ⟨p, hp, hhome, hid, hrest, pre, post, heq, hfirst⟩
      · refine .inl ⟨hrest, fun j hj => ?_⟩
        rw [List.flatMap_cons] at hj
        exact (List.mem_append.1 hj).elim (hnone j) (hne j)
      · refine .inr ⟨p, hp, List.mem_cons_of_mem _ hhome, hid, hrest, block :: pre, post,
          congrArg _ heq, fun j hj => ?_⟩
        rw [List.flatMap_cons, List.append_assoc] at hj
        exact (List.mem_append.1 hj).elim (hnone j) (hfirst j)
    | some n =>
      have hlocate : f.locateIn i (b :: rest) = .ok (some (b, n)) := by
        simp [locateIn, block_eq_ok hblock, hids b block hblock, hfind]
      obtain ⟨before, inst, after, hinsts, hlen, hid, hbefore⟩ := exists_of_findIdx? hfind
      refine .inr ⟨⟨b, block, before, inst, after⟩, ⟨hblock, hinsts⟩, List.mem_cons_self,
        by simpa using hid, ?_, [], _, rfl, fun j hj => ?_⟩
      · rw [hlocate, hlen]
      · simpa using hbefore j hj

/-- **Locating.** An instruction id occurs nowhere, or it is found at its first spot. -/
theorem Arranged.locate_cases (h : f.Arranged) (i : InstId) :
    (f.locate i = .ok none ∧ ∀ j ∈ f.allInsts, j.id ≠ i) ∨
      ∃ p : Spot, p.First f ∧ p.home ∈ f.layout ∧ p.inst.id = i ∧
        f.locate i = .ok (some (p.home, p.before.length)) := by
  rcases locateIn_cases h.ids i f.layout h.layout_lt with
    hnone | ⟨p, hp, hhome, rfl, hlocate, hfirst⟩
  · exact .inl hnone
  · exact .inr ⟨p, ⟨hp, hfirst⟩, hhome, rfl, hlocate⟩

/-- The same for functions whose blocks are all laid out. -/
theorem Laid.locate_cases (h : f.Laid) (i : InstId) :
    (f.locate i = .ok none ∧ ∀ j ∈ f.allInsts, j.id ≠ i) ∨
      ∃ p : Spot, p.First f ∧ p.inst.id = i ∧
        f.locate i = .ok (some (p.home, p.before.length)) := by
  rcases h.arranged.locate_cases i with hnone | ⟨p, hp, -, hid, hlocate⟩
  · exact .inl hnone
  · exact .inr ⟨p, hp, hid, hlocate⟩

/-- Where no instruction id is used twice in a block, it tells the spots of the block apart. -/
theorem spot_eq_of_home_eq {p q : Spot} (hp : p.In f) (hq : q.In f)
    (hnodup : (p.block.insts.map (·.id)).Nodup) (hhome : p.home = q.home)
    (hid : p.inst.id = q.inst.id) : p = q := by
  have hsame : p.block = q.block :=
    Option.some.inj (hp.block_eq.symm.trans (hhome ▸ hq.block_eq))
  have hsplit : p.before ++ p.inst :: p.after = q.before ++ q.inst :: q.after := by
    rw [← hp.insts_eq, ← hq.insts_eq, hsame]
  -- The id occurs once, which fixes the instructions before and behind it.
  rw [hp.insts_eq, List.map_append, List.map_cons, List.nodup_middle, List.nodup_cons,
    List.mem_append, not_or, hid] at hnodup
  obtain ⟨⟨hbefore, hafter⟩, -⟩ := hnodup
  obtain ⟨hbefore, hinst, hafter⟩ := (List.append_cons_inj_of_notMem
    (mt List.mem_map_of_mem hbefore) (mt List.mem_map_of_mem hafter)).1 hsplit
  cases p
  cases q
  simp_all only

/-- Where no instruction id is used twice, it tells the spots of the layout apart. -/
theorem spot_eq_of_id_eq (hnodup : (f.allInsts.map (·.id)).Nodup) {p q : Spot} (hp : p.In f)
    (hq : q.In f) (hphome : p.home ∈ f.layout) (hqhome : q.home ∈ f.layout)
    (hid : p.inst.id = q.inst.id) : p = q := by
  rw [allInsts, List.map_flatMap, flatMap_laidOut_eq, List.nodup_flatMap] at hnodup
  obtain ⟨hblock, hdisjoint⟩ := hnodup
  have hread : ∀ {r : Spot}, r.In f →
      f.readAt (fun block => block.insts.map (·.id)) r.home = r.block.insts.map (·.id) :=
    fun hr => readAt_eq hr.block_eq
  have hhome : p.home = q.home := by
    by_contra hne
    -- Two blocks of the layout share no ids, so that both spots are in the same one.
    have hsymm : Std.Symm (Function.onFun List.Disjoint
        (f.readAt fun block => block.insts.map (·.id))) := ⟨fun _ _ hd _ hb ha => hd ha hb⟩
    have hdis : List.Disjoint (f.readAt (fun block => block.insts.map (·.id)) p.home)
        (f.readAt (fun block => block.insts.map (·.id)) q.home) :=
      hdisjoint.forall hphome hqhome hne
    rw [hread hp, hread hq] at hdis
    exact hdis (List.mem_map_of_mem hp.inst_mem) (hid ▸ List.mem_map_of_mem hq.inst_mem)
  exact spot_eq_of_home_eq hp hq (hread hp ▸ hblock p.home hphome) hhome hid

/-- What stands in a block of the layout is among the instructions. -/
theorem Arranged.inst_mem_allInsts (h : f.Arranged) {p : Spot} (hp : p.In f)
    (hhome : p.home ∈ f.layout) : p.inst ∈ f.allInsts := by
  have hid := h.ids _ _ hp.block_eq
  exact List.mem_flatMap.2
    ⟨p.block, h.mem_laidOut.2 ⟨hid.symm ▸ hhome, hid.symm ▸ hp.block_eq⟩, hp.inst_mem⟩

/-- What is located is found. -/
theorem inst_eq_of_getElem? {i : InstId} {place : BlockId × Nat} {block : Block} {j : Inst}
    (hlocate : f.locate i = .ok (some place)) (hblock : f.block place.1 = .ok block)
    (hj : block.insts[place.2]? = some j) : f.inst i = .ok (some j) := by
  simp only [inst, hlocate, bind, Except.bind, hblock, hj, pure, Except.pure]

section Located

variable {p : Spot} {i : InstId} (hp : p.In f)
  (hlocate : f.locate i = .ok (some (p.home, p.before.length)))

include hp hlocate

/-- The instruction that is located is the one at the spot. -/
theorem inst_eq_ok : f.inst i = .ok (some p.inst) := by
  have hinst : p.block.insts[p.before.length]? = some p.inst := by
    rw [hp.insts_eq, List.getElem?_append_right (Nat.le_refl _), Nat.sub_self]
    rfl
  exact inst_eq_of_getElem? hlocate (block_eq_ok hp.block_eq) hinst

/-- So its source location is the one that is found. -/
theorem location_eq_ok : f.location i = .ok p.inst.location := by
  rw [location, inst_eq_ok hp hlocate]
  rfl

end Located

/-! ### Cutting -/

/-- Repointing the phis of some blocks. -/
theorem foldl_repointPhis (g : Function) (bs : List BlockId) (old new : BlockId) :
    ∃ blocks, bs.foldl (fun g b => g.repointPhis old new b) g = { g with blocks } ∧
      blocks.size = g.blocks.size ∧
      ∀ b : BlockId, blocks[b.index]? =
        if b ∈ bs then (g.block? b).map (·.repoint old new) else g.block? b := by
  induction bs generalizing g with
  | nil => exact ⟨g.blocks, rfl, rfl, fun b => by simp [block?]⟩
  | cons c rest ih =>
    obtain ⟨blocks, heq, hsize, hblocks⟩ := ih (g.repointPhis old new c)
    refine ⟨blocks, heq, by rw [hsize, repointPhis, size_updateBlock], fun b => ?_⟩
    rw [hblocks b, repointPhis, block?_updateBlock]
    show (if b ∈ rest then Option.map (·.repoint old new)
      (if c = b then Option.map (·.repoint old new) (g.block? b) else g.block? b) else
        if c = b then Option.map (·.repoint old new) (g.block? b) else g.block? b) = _
    -- Repointing a block a second time changes nothing, so that repetitions do not matter.
    by_cases hc : c = b
    · by_cases hb : b ∈ rest <;>
        simp [hc, hb, Function.comp_def, Block.repoint_repoint]
    · have hc' : b ≠ c := fun e => hc e.symm
      by_cases hb : b ∈ rest <;> simp [hc, hc', hb]

/-- Where no edge comes from `old`, no phi takes anything from it. -/
theorem Regular.inst_repoint_eq_self (h : f.Regular) {b old new : BlockId} {block : Block}
    (hblock : f.block? b = some block) (hedge : ¬ f.Edge old b) {i : Inst} (hi : i ∈ block.insts) :
    i.repoint old new = i :=
  Inst.repoint_eq_self fun incoming hk hold =>
    hedge (((h.inputs b block hblock i hi incoming hk).2 old).1 hold)

/-- A block without an edge from the old one stays as it is. -/
theorem Regular.repoint_eq_self (h : f.Regular) {b old new : BlockId} {block : Block}
    (hblock : f.block? b = some block) (hedge : ¬ f.Edge old b) : block.repoint old new = block :=
  Block.repoint_eq_self fun i hi incoming hk hold =>
    hedge (((h.inputs b block hblock i hi incoming hk).2 old).1 hold)

/-- An instruction behind one that is no phi is no phi. -/
theorem Regular.not_phi_of_mem_after (h : f.Regular) {p : Spot} (hp : p.In f)
    (hphi : p.inst.kind.isPhi = false) {i : Inst} (hi : i ∈ p.after) : i.kind.isPhi = false := by
  refine h.phis_lead p.home p.block hp.block_eq i ?_
  rw [hp.insts_eq, List.dropWhile_append]
  split
  · rw [List.dropWhile_cons_of_neg (by simp [hphi])]
    exact List.mem_cons_of_mem _ hi
  · exact List.mem_append_right _ (List.mem_cons_of_mem _ hi)

/-- In the front, too, phis stand before all other instructions. -/
theorem Regular.phis_lead_front (h : f.Regular) {p : Spot} (hp : p.In f) :
    ∀ i ∈ (p.before ++ [p.inst]).dropWhile (·.kind.isPhi), i.kind.isPhi = false := by
  intro i hi
  refine h.phis_lead p.home p.block hp.block_eq i ?_
  rw [hp.insts_eq, List.append_cons, List.dropWhile_append, if_neg]
  · exact List.mem_append_left _ hi
  · intro hempty
    rw [List.isEmpty_iff.1 hempty] at hi
    cases hi

/-- The function with a block cut, before the phis follow. -/
def halve (f : Function) (origin : BlockId) (block : Block) (count : Nat) : Function :=
  let cont : BlockId := ⟨f.blocks.size⟩
  let cut := f.updateBlock origin fun block =>
    { block with insts := block.insts.take count, term := some { exit := .br cont } }
  { cut with
    blocks := cut.blocks.push
      { id := cont
        name := f.freshName "origin_cont"
        insts := block.insts.drop count
        term := block.term }
    layout := insertBehind origin cont f.layout }

/-- A cut halves the block and repoints the phis of its successors, one block after the other. -/
theorem cutBlock_eq_foldl (f : Function) (origin : BlockId) (block : Block) (count : Nat) :
    f.cutBlock origin block count =
      block.successors.foldl (fun g b => g.repointPhis origin ⟨f.blocks.size⟩ b)
        (f.halve origin block count) := rfl

/-- Of the old blocks only the one that is cut has changed. -/
theorem block?_halve {p : Spot} (hp : p.In f) {b : BlockId} (hb : b.index < f.blocks.size) :
    (f.halve p.home p.block (p.before.length + 1)).block? b =
      if p.home = b then some (p.half { exit := .br ⟨f.blocks.size⟩ }) else f.block? b := by
  have htake : p.block.insts.take (p.before.length + 1) = p.before ++ [p.inst] := by
    rw [hp.insts_eq, List.take_append, List.take_of_length_le (Nat.le_succ _)]
    simp
  have hne : b.index ≠ f.blocks.size := Nat.ne_of_lt hb
  rw [halve, block?, Array.getElem?_push, size_updateBlock, if_neg hne]
  show (f.updateBlock _ _).block? b = _
  rw [block?_updateBlock]
  split
  · next e =>
    rw [← e, hp.block_eq, Option.map_some, htake]
    rfl
  · rfl

/-- The new block is the rest of the one that is cut. -/
theorem block?_halve_rest {p : Spot} (hp : p.In f) :
    (f.halve p.home p.block (p.before.length + 1)).block? ⟨f.blocks.size⟩ =
      some (p.rest ⟨f.blocks.size⟩ (f.freshName "origin_cont")) := by
  have hdrop : p.block.insts.drop (p.before.length + 1) = p.after := by
    rw [hp.insts_eq, List.drop_append, List.drop_of_length_le (Nat.le_succ _)]
    simp
  rw [halve, block?, Array.getElem?_push, size_updateBlock, if_pos rfl, hdrop]
  rfl

/-- **Cutting a block.** The front stays, the rest moves to the new block `cont`, and the phis of
    the blocks behind the terminator follow. -/
theorem cutBlock_eq {p : Spot} (hp : p.In f) {cont : BlockId} (hcont : cont = ⟨f.blocks.size⟩) :
    ∃ blocks, f.cutBlock p.home p.block (p.before.length + 1) =
        { f with blocks, layout := insertBehind p.home cont f.layout } ∧
      blocks.size = f.blocks.size + 1 ∧
      blocks[p.home.index]? = some (p.follow cont p.home (p.half { exit := .br cont })) ∧
      blocks[cont.index]? = some (p.follow cont cont (p.rest cont (f.freshName "origin_cont"))) ∧
      ∀ b : BlockId, b ≠ p.home → b.index < f.blocks.size →
        blocks[b.index]? = (f.block? b).map (p.follow cont b) := by
  subst hcont
  obtain ⟨blocks, heq, hsize, hblocks⟩ := foldl_repointPhis
    (f.halve p.home p.block (p.before.length + 1)) p.block.successors p.home ⟨f.blocks.size⟩
  -- Every block is what the halves make of it, once its phis have followed.
  have hfollow : ∀ b : BlockId, blocks[b.index]? =
      ((f.halve p.home p.block (p.before.length + 1)).block? b).map
        (p.follow ⟨f.blocks.size⟩ b) := by
    intro b
    rw [hblocks]
    split
    · next hb =>
      refine congrArg (Option.map · _) (funext fun block => ?_)
      rw [Spot.follow, if_pos hb]
    · next hb =>
      rw [show p.follow ⟨f.blocks.size⟩ b = id from funext fun block => if_neg hb, Option.map_id]
      rfl
  rw [cutBlock_eq_foldl]
  refine ⟨blocks, heq, ?_, ?_, ?_, fun b hne hb => ?_⟩
  · rw [hsize, halve]
    simp
  · rw [hfollow, block?_halve hp hp.home_lt, if_pos rfl]
    rfl
  · rw [hfollow, block?_halve_rest hp]
    rfl
  · rw [hfollow, block?_halve hp hb, if_neg (Ne.symm hne)]

/-- The edges from a block are the branches at its end. -/
theorem edge_iff_of_in {p : Spot} (hp : p.In f) {b : BlockId} :
    f.Edge p.home b ↔ b ∈ p.block.successors := by
  refine ⟨fun ⟨block, hblock, hb⟩ => ?_, fun hb => ⟨p.block, hp.block_eq, hb⟩⟩
  rw [hp.block_eq] at hblock
  exact Option.some.inj hblock ▸ hb

section Follow

variable {p : Spot} (h : f.Regular) (hp : p.In f)

include h hp

/-- In a regular function a phi takes something from a block only where that block branches to its
    own, so that it makes no difference which phis follow. -/
theorem Regular.follow_eq_repoint (cont : BlockId) {b : BlockId} {block : Block}
    (hblock : f.block? b = some block) : p.follow cont b block = block.repoint p.home cont := by
  rw [Spot.follow]
  split
  · rfl
  · next hb => rw [h.repoint_eq_self hblock (mt (edge_iff_of_in hp).1 hb)]

/-- The first half branches to the rest, so that its own phis follow only if it is its own
    successor. -/
theorem Regular.follow_half (cont : BlockId) (t : Terminator) :
    p.follow cont p.home (p.half t) = p.front cont t := by
  rw [Spot.follow]
  split
  · rfl
  · next hb =>
    have hinst : ∀ i ∈ p.before ++ [p.inst], i.repoint p.home cont = i := by
      intro i hi
      refine h.inst_repoint_eq_self hp.block_eq (mt (edge_iff_of_in hp).1 hb) ?_
      rw [hp.insts_eq, List.append_cons]
      exact List.mem_append_left _ hi
    rw [Spot.front, List.map_congr_left hinst, List.map_id', Spot.half]

/-- The rest begins behind an instruction that is no phi, and has no phi to follow. -/
theorem Regular.follow_rest {cont : BlockId} (hcont : cont = ⟨f.blocks.size⟩) (name : String) :
    p.follow cont cont (p.rest cont name) = p.rest cont name := by
  subst hcont
  refine if_neg fun hmem => ?_
  exact Nat.lt_irrefl _ (h.targets p.home _ ((edge_iff_of_in hp).2 hmem))

end Follow

/-! ### Old instructions in a function that has grown -/

section Grown

variable (h : f.Regular) {g : Function}
  (htypes : ∀ op ty, f.operandType? op = some ty → g.operandType? op = some ty)
  {b : BlockId} {block : Block} (hblock : f.block? b = some block)

include h hblock

/-- The inputs of phis follow where the edges do. -/
theorem Regular.inputs_of_repoint {i : Inst} (hi : i ∈ block.insts) {old new : BlockId}
    (hnew : f.blocks.size ≤ new.index) {incoming : List (BlockId × Operand)}
    (hk : (i.repoint old new).kind = .phi incoming) :
    (incoming.map (·.1)).Nodup ∧ ∀ p, p ∈ incoming.map (·.1) ↔
      (p ≠ old ∧ f.Edge p b) ∨ (p = new ∧ f.Edge old b) := by
  cases hold : i.kind with
  | phi inputs =>
    obtain ⟨hnodup, hmem⟩ := h.inputs b block hblock i hi inputs hold
    -- The new id names no block yet, and so no source.
    have hfresh : new ∉ inputs.map (·.1) := by
      intro hc
      obtain ⟨block, hblock, -⟩ := (hmem _).1 hc
      exact Nat.not_lt_of_le hnew (lt_of_block? hblock)
    have hincoming : incoming.map (·.1) =
        (inputs.map (·.1)).map fun p => if p = old then new else p := by
      rw [Inst.kind_repoint, hold, InstKind.repoint, InstKind.phi.injEq] at hk
      rw [← hk, List.map_map, List.map_map]
      rfl
    obtain ⟨hnodup', hmem'⟩ := inputs_repoint old hnodup hfresh
    rw [hincoming]
    exact ⟨hnodup', fun p => by rw [hmem', hmem, hmem]⟩
  | _ => simp [hold, InstKind.repoint] at hk

include htypes

/-- Old instructions keep their types. -/
theorem Regular.instFits_repoint {i : Inst} (hi : i ∈ block.insts) (old new : BlockId) :
    g.InstFits (i.repoint old new) := by
  have hfits := h.types b block hblock i hi
  unfold InstFits at hfits ⊢
  simp only [Inst.kind_repoint, Inst.result_repoint]
  have hvalue : ∀ {v ty}, f.valueType? v = some ty → g.valueType? v = some ty :=
    fun {v ty} hv => htypes (.value v) ty hv
  cases hk : i.kind with
  | binary op lhs rhs flags =>
    rw [hk] at hfits
    obtain ⟨ty, hlhs, hrhs, hresult, hop⟩ := hfits
    exact ⟨ty, htypes _ _ hlhs, htypes _ _ hrhs, hvalue hresult, hop⟩
  | icmp pred lhs rhs =>
    rw [hk] at hfits
    obtain ⟨ty, hlhs, hrhs, hresult, hty⟩ := hfits
    exact ⟨ty, htypes _ _ hlhs, htypes _ _ hrhs, hvalue hresult, hty⟩
  | fcmp pred lhs rhs =>
    rw [hk] at hfits
    obtain ⟨ty, hlhs, hrhs, hresult, hty⟩ := hfits
    exact ⟨ty, htypes _ _ hlhs, htypes _ _ hrhs, hvalue hresult, hty⟩
  | phi incoming =>
    rw [hk] at hfits
    -- the result of a phi has a type, as it is defined
    have hdefined : i.result ∈ f.defined :=
      List.mem_append_right _ (List.mem_map_of_mem (h.laid.mem_allInsts.2 ⟨b, block, hblock, hi⟩))
    obtain ⟨ty, hresult⟩ := h.exists_valueType? hdefined
    intro input hinput
    obtain ⟨old, hold, rfl⟩ := List.mem_map.1 hinput
    have htype := hfits old hold
    rw [hresult] at htype
    rw [hvalue hresult]
    exact htypes _ _ htype

/-- Old terminators keep their types. -/
theorem Regular.exitFits (hreturn : g.returnType = f.returnType) {t : Terminator}
    (ht : block.term = some t) : g.ExitFits t.exit := by
  obtain ⟨t', ht', hfits⟩ := h.closed b block hblock
  rw [ht] at ht'
  cases ht'
  unfold ExitFits at hfits ⊢
  -- Only conditions and returned values have types to fit.
  cases he : t.exit with
  | condBr cond thenTarget elseTarget =>
    rw [he] at hfits
    exact htypes _ _ hfits
  | ret value =>
    rw [he] at hfits
    rw [hreturn]
    show value.bind g.operandType? = f.returnType
    replace hfits : value.bind f.operandType? = f.returnType := hfits
    rw [← hfits]
    cases value with
    | none => rfl
    | some op =>
      cases op with
      | const c => rfl
      | value v =>
        obtain ⟨ty, htype⟩ := h.exists_valueType? (h.exits b block hblock t ht v (by rw [he]; rfl))
        show g.valueType? v = f.valueType? v
        rw [htype]
        exact htypes (.value v) ty htype
  | br target => trivial
  | unreachable => trivial

end Grown

/-- The blocks of `f` can stand in `g`, with what comes from `old` there coming from `new`. -/
structure Hosts (f g : Function) (old new : BlockId) : Prop where
  operandType?_eq : ∀ op ty, f.operandType? op = some ty → g.operandType? op = some ty
  returnType_eq : g.returnType = f.returnType
  defined : ∀ v ∈ f.defined, v ∈ g.defined
  le_new : f.blocks.size ≤ new.index
  edge_iff : ∀ {b c : BlockId}, c.index < f.blocks.size →
    (g.Edge b c ↔ (b ≠ old ∧ f.Edge b c) ∨ (b = new ∧ f.Edge old c))

namespace Hosts

variable {g : Function} {old new b : BlockId} {block : Block}

/-- The instructions of a hosted block are regular again. -/
theorem inst (hg : f.Hosts g old new) (h : f.Regular) (hblock : f.block? b = some block) {i : Inst}
    (hi : i ∈ block.insts) : g.InstRegular b (i.repoint old new) where
  operands v hv := by
    rw [Inst.kind_repoint, InstKind.operands_repoint] at hv
    exact hg.defined v (h.operands b block hblock i hi v hv)
  fits := h.instFits_repoint hg.operandType?_eq hblock hi old new
  inputs incoming hk := by
    obtain ⟨hnodup, hmem⟩ := h.inputs_of_repoint hblock hi hg.le_new hk
    exact ⟨hnodup, fun p => by rw [hmem, hg.edge_iff (lt_of_block? hblock)]⟩

/-- So are its exits. -/
theorem closed (hg : f.Hosts g old new) (h : f.Regular) (hblock : f.block? b = some block) :
    ∃ t, block.term = some t ∧ g.ExitRegular t.exit := by
  obtain ⟨t, ht, -⟩ := h.closed b block hblock
  exact ⟨t, ht, h.exitFits hg.operandType?_eq hblock hg.returnType_eq ht,
    fun v hv => hg.defined v (h.exits b block hblock t ht v hv)⟩

/-- An old block. -/
theorem repoint (hg : f.Hosts g old new) (h : f.Regular) (hblock : f.block? b = some block) :
    g.BlockRegular b (block.repoint old new) where
  id_eq := h.ids b block hblock
  closed := by
    obtain ⟨t, ht, hexit⟩ := hg.closed h hblock
    exact ⟨t, ht, hexit⟩
  insts := List.forall_mem_map.2 fun _ hi => hg.inst h hblock hi
  phis_lead := by
    rw [Block.repoint, dropWhile_repoint]
    refine List.forall_mem_map.2 fun i hi => ?_
    rw [Inst.kind_repoint, InstKind.isPhi_repoint]
    exact h.phis_lead b block hblock i hi

variable {p : Spot} (hp : p.In f)

include hp

/-- The front of a block, whatever closes it. -/
theorem front (hg : f.Hosts g p.home new) (h : f.Regular) {t : Terminator}
    (ht : g.ExitRegular t.exit) : g.BlockRegular p.home (p.front new t) where
  id_eq := h.ids p.home p.block hp.block_eq
  closed := ⟨t, rfl, ht⟩
  insts := by
    refine List.forall_mem_map.2 fun i hi => hg.inst h hp.block_eq ?_
    rw [hp.insts_eq, List.append_cons]
    exact List.mem_append_left _ hi
  phis_lead := by
    rw [Spot.front, dropWhile_repoint]
    refine List.forall_mem_map.2 fun i hi => ?_
    rw [Inst.kind_repoint, InstKind.isPhi_repoint]
    exact h.phis_lead_front hp i hi

/-- The rest of a block, as a block of its own.  No phi stands in it. -/
theorem rest (hg : f.Hosts g p.home new) (h : f.Regular) (hphi : p.inst.kind.isPhi = false)
    (name : String) : g.BlockRegular new (p.rest new name) where
  id_eq := rfl
  closed := by
    obtain ⟨t, ht, hexit⟩ := hg.closed h hp.block_eq
    exact ⟨t, ht, hexit⟩
  insts i hi := by
    have hmem : i ∈ p.block.insts := by
      rw [hp.insts_eq]
      exact List.mem_append_right _ (List.mem_cons_of_mem _ hi)
    have hnot := h.not_phi_of_mem_after hp hphi hi
    have hinst := hg.inst h hp.block_eq hmem
    rw [Inst.repoint_of_not_phi hnot] at hinst
    exact hinst.of_not_phi hnot
  phis_lead i hi := h.not_phi_of_mem_after hp hphi ((List.dropWhile_suffix _).mem hi)

end Hosts

end Function

end ArithWatch
