import ArithWatch.Proofs.IR.Cut
import ArithWatch.Proofs.Outcome

namespace ArithWatch

/-!
# Splitting a block

* `Function.splitBlockAfter_eq` and `Function.splitBlockAfter_eq_none` are what the edit does where
  an instruction has been found.
* `Function.NothingBehind` says where there is nothing to split, and
  `Function.splitBlockAfter_decides` that the edit finds that out.
* `Spot.Cuts` describes the function with the block cut, block by block.  `Spot.Cuts.edge_iff` are
  its edges and `Spot.Cuts.allInsts_eq` its instructions.
* `Spot.Cuts.wellFormed`: a well-formed function stays well-formed.
-/

/-! ### What follows -/

namespace Spot

section Follow

variable (p : Spot) (cont b : BlockId) (block : Block)

@[simp] theorem id_follow : (p.follow cont b block).id = block.id := by
  rw [follow]
  split <;> rfl

@[simp] theorem term_follow : (p.follow cont b block).term = block.term := by
  rw [follow]
  split <;> rfl

@[simp] theorem successors_follow : (p.follow cont b block).successors = block.successors := by
  rw [Block.successors, term_follow, Block.successors]

end Follow

/-- A reading that phis do not matter to is the same wherever the phis follow. -/
theorem read_follow {α : Type} (read : Block → List α)
    (hrepoint : ∀ (block : Block) (old new : BlockId), read (block.repoint old new) = read block)
    (p : Spot) (cont b : BlockId) (block : Block) : read (p.follow cont b block) = read block := by
  rw [follow]
  split
  · exact hrepoint ..
  · rfl

end Spot

/-! ### The edit -/

section Split

variable {f : Function} {p : Spot} {i : InstId} (hp : p.In f)
  (hlocate : f.locate i = .ok (some (p.home, p.before.length)))

include hp hlocate

/-- Splitting behind an instruction cuts its block, unless nothing follows there. -/
theorem Function.splitBlockAfter_eq (hfollowed : p.Followed) :
    Edit.splitBlockAfter i f = .ok (some (p.home, ⟨f.blocks.size⟩))
      (f.cutBlock p.home p.block (p.before.length + 1)) := by
  have hlength : p.block.insts.length = p.before.length + (p.after.length + 1) := by
    rw [hp.insts_eq, List.length_append, List.length_cons]
  have hopen : ¬ (p.before.length + 1 = p.block.insts.length ∧ p.block.term = none) := by
    rintro ⟨hlast, hterm⟩
    exact hfollowed.elim (fun h => h (List.length_eq_zero_iff.1 (by omega))) fun h => h hterm
  have hsplit : f.splitBlockAfter i = .ok (some (f.cutBlock p.home p.block (p.before.length + 1),
      p.home, ⟨f.blocks.size⟩)) := by
    rw [Function.splitBlockAfter, hlocate]
    show (f.block p.home >>= _) = _
    rw [block_eq_ok hp.block_eq]
    show (if p.before.length + 1 = p.block.insts.length ∧ p.block.term = none then _ else
      if p.block.insts.length < p.before.length + 1 then _ else _) = _
    rw [if_neg hopen, if_neg (by omega)]
    rfl
  rw [Edit.splitBlockAfter, Edit.bind_eq (Edit.query_eq hsplit)]
  rfl

/-- Nothing follows the instruction, and the function is left as it is. -/
theorem Function.splitBlockAfter_eq_none (hlast : ¬ p.Followed) :
    Edit.splitBlockAfter i f = .ok none f := by
  simp only [Spot.Followed, not_or, Classical.not_not] at hlast
  have hlength : p.before.length + 1 = p.block.insts.length := by
    rw [hp.insts_eq, hlast.1, List.length_append]
    rfl
  have hsplit : f.splitBlockAfter i = .ok none := by
    rw [Function.splitBlockAfter, hlocate]
    show (f.block p.home >>= _) = _
    rw [block_eq_ok hp.block_eq]
    exact if_pos ⟨hlength, hlast.2⟩
  rw [Edit.splitBlockAfter, Edit.bind_eq (Edit.query_eq hsplit)]
  rfl

end Split

/-- Where the search for an instruction finds nothing, there is nothing to split. -/
theorem Function.splitBlockAfter_eq_none_of_locate {f : Function} {i : InstId}
    (h : f.locate i = .ok none) : Edit.splitBlockAfter i f = .ok none f := by
  have hsplit : f.splitBlockAfter i = .ok none := by
    rw [splitBlockAfter, h]
    rfl
  rw [Edit.splitBlockAfter, Edit.bind_eq (Edit.query_eq hsplit)]
  rfl

/-! ### Where there is nothing to split -/

namespace Function

/-- No two instructions of the layout have the same id. -/
def IdsDistinct (f : Function) : Prop :=
  ∀ p q : Spot, p.In f → q.In f → p.home ∈ f.layout → q.home ∈ f.layout →
    p.inst.id = q.inst.id → p = q

/-- Nothing follows the instruction: it is not laid out, or it is the last one of a block that is
    not closed. -/
def NothingBehind (f : Function) (i : InstId) : Prop :=
  (∀ j ∈ f.allInsts, j.id ≠ i) ∨
    ∃ b block, b ∈ f.layout ∧ f.block? b = some block ∧
      block.insts.getLast?.map (·.id) = some i ∧ block.term = none

variable {f : Function}

/-- Ids that are distinct along the layout are distinct. -/
theorem idsDistinct_of_allInsts (h : (f.allInsts.map (·.id)).Nodup) : f.IdsDistinct :=
  fun _ _ hp hq hphome hqhome hid => spot_eq_of_id_eq h hp hq hphome hqhome hid

/-- Ids that are distinct in the arena are distinct, however often the layout lists a block. -/
theorem idsDistinct_of_blocks
    (h : (f.blocks.toList.flatMap fun block => block.insts.map (·.id)).Nodup) : f.IdsDistinct := by
  intro p q hp hq _ _ hid
  rw [List.nodup_flatMap] at h
  obtain ⟨hblock, hdisjoint⟩ := h
  have hplace : ∀ {r : Spot}, r.In f → f.blocks.toList[r.home.index]? = some r.block :=
    fun hr => Array.getElem?_toList.trans hr.block_eq
  have hhome : p.home = q.home := by
    by_contra hne
    have hindex : p.home.index ≠ q.home.index := fun e => hne (congrArg BlockId.mk e)
    -- Blocks at different places share no ids.
    have hdis := List.pairwise_iff_getElem.1 hdisjoint
    have hmem : ∀ {r : Spot}, r.In f → r.inst.id ∈ r.block.insts.map (·.id) :=
      fun hr => List.mem_map_of_mem hr.inst_mem
    obtain ⟨hplt, hpeq⟩ := List.getElem?_eq_some_iff.1 (hplace hp)
    obtain ⟨hqlt, hqeq⟩ := List.getElem?_eq_some_iff.1 (hplace hq)
    rcases Nat.lt_or_gt_of_ne hindex with hlt | hlt
    · have hshare := hdis _ _ hplt hqlt hlt
      rw [hpeq, hqeq] at hshare
      exact hshare (hmem hp) (hid ▸ hmem hq)
    · have hshare := hdis _ _ hqlt hplt hlt
      rw [hpeq, hqeq] at hshare
      exact hshare (hmem hq) (hid ▸ hmem hp)
  exact spot_eq_of_home_eq hp hq (hblock _ (List.mem_of_getElem? (hplace hp))) hhome hid

/-- **What there is to split.** Whatever the function looks like otherwise, the edit splits a block
    exactly where something follows the instruction, and leaves the function as it is elsewhere. -/
theorem splitBlockAfter_decides (hids : ∀ b block, f.block? b = some block → block.id = b)
    (hlayout : ∀ b ∈ f.layout, b.index < f.blocks.size) (hdistinct : f.IdsDistinct) (i : InstId) :
    (f.NothingBehind i → Edit.splitBlockAfter i f = .ok none f) ∧
      (¬ f.NothingBehind i →
        ∃ halves g, Edit.splitBlockAfter i f = .ok (some halves) g) := by
  -- Either the search finds nothing, or it finds the one instruction with the id.
  rcases locateIn_cases hids i f.layout hlayout with
    ⟨hlocate, hnone⟩ | ⟨p, hp, hhome, hid, hlocate, -⟩
  · exact ⟨fun _ => splitBlockAfter_eq_none_of_locate hlocate, fun h => absurd (.inl hnone) h⟩
  · refine ⟨fun h => splitBlockAfter_eq_none hp hlocate ?_, fun h => ?_⟩
    · rcases h with hnone | ⟨b, block, hb, hblock, hlast, hterm⟩
      · refine absurd hid (hnone _ (List.mem_flatMap.2 ⟨p.block, ?_, hp.inst_mem⟩))
        exact List.mem_filterMap.2 ⟨p.home, hhome, hp.block_eq⟩
      · -- The last instruction of that block is the one that the search has found.
        obtain ⟨j, hj, hjid⟩ := Option.map_eq_some_iff.1 hlast
        obtain ⟨before, hbefore⟩ := List.getLast?_eq_some_iff.1 hj
        have hq : Spot.In ⟨b, block, before, j, []⟩ f := ⟨hblock, hbefore⟩
        obtain rfl := hdistinct p _ hp hq hhome hb (hid.trans hjid.symm)
        exact fun hfollowed => hfollowed.elim (fun h => h rfl) fun h => h hterm
    · refine ⟨_, _, splitBlockAfter_eq hp hlocate ?_⟩
      by_contra hfollowed
      simp only [Spot.Followed, not_or, Classical.not_not] at hfollowed
      refine h (.inr ⟨p.home, p.block, hhome, hp.block_eq, ?_, hfollowed.2⟩)
      rw [hp.insts_eq, hfollowed.1, List.getLast?_concat, Option.map_some, hid]

end Function

/-! ### The function with a block cut -/

/-- The function `g` is `f` with the block of the spot cut behind the instruction.  The rest of the
    block is `cont`, the next block of `f`. -/
structure Spot.Cuts (p : Spot) (cont : BlockId) (f g : Function) : Prop where
  cont_eq : cont = ⟨f.blocks.size⟩
  frame : g = { f with blocks := g.blocks, layout := insertBehind p.home cont f.layout }
  size : g.blocks.size = f.blocks.size + 1
  home : g.block? p.home = some (p.follow cont p.home (p.half { exit := .br cont }))
  rest : ∃ name, g.block? cont = some (p.follow cont cont (p.rest cont name))
  other : ∀ b ≠ p.home, b.index < f.blocks.size →
    g.block? b = (f.block? b).map (p.follow cont b)

/-- Cutting a block makes that function. -/
theorem Function.cuts_cutBlock {f : Function} {p : Spot} (hp : p.In f) :
    p.Cuts ⟨f.blocks.size⟩ f (f.cutBlock p.home p.block (p.before.length + 1)) := by
  obtain ⟨blocks, heq, hsize, hhome, hrest, hother⟩ := cutBlock_eq hp rfl
  rw [heq]
  exact ⟨rfl, rfl, hsize, hhome, ⟨_, hrest⟩, hother⟩

namespace Spot.Cuts

variable {p : Spot} {cont : BlockId} {f g : Function} (hg : p.Cuts cont f g)

include hg

/-- The continuation stands right behind the home of the instruction. -/
theorem layout_eq : g.layout = insertBehind p.home cont f.layout := by
  rw [hg.frame]

theorem valueTypes_eq : g.valueTypes = f.valueTypes := by
  rw [hg.frame]

theorem params_eq : g.params = f.params := by
  rw [hg.frame]

theorem entry_eq : g.entry = f.entry := by
  rw [hg.frame]

/-- The continuation takes the first free number. -/
theorem cont_index : cont.index = f.blocks.size := congrArg BlockId.index hg.cont_eq

/-- A block of the old function is not the new one. -/
theorem ne_cont {b : BlockId} (hb : b.index < f.blocks.size) : b ≠ cont := by
  rintro rfl
  exact Nat.lt_irrefl _ (hg.cont_index ▸ hb)

/-- **The blocks of the new function**: the front, the rest and the old blocks. -/
theorem block_cases {b : BlockId} {block : Block} (h : g.block? b = some block) :
    (b = p.home ∧ block = p.follow cont p.home (p.half { exit := .br cont })) ∨
      (b = cont ∧ ∃ name, block = p.follow cont cont (p.rest cont name)) ∨
      b ≠ p.home ∧ ∃ old, f.block? b = some old ∧ block = p.follow cont b old := by
  have hlt := Function.lt_of_block? h
  rw [hg.size] at hlt
  -- The home, a block before the new one, or the new one.
  by_cases hhome : b = p.home
  · subst hhome
    rw [hg.home] at h
    exact .inl ⟨rfl, (Option.some.inj h).symm⟩
  · by_cases hb : b.index < f.blocks.size
    · obtain ⟨old, hold⟩ := Function.exists_block? hb
      rw [hg.other b hhome hb, hold] at h
      exact .inr (.inr ⟨hhome, old, hold, (Option.some.inj h).symm⟩)
    · obtain ⟨name, hname⟩ := hg.rest
      obtain rfl : b = cont := by
        rw [hg.cont_eq]
        exact congrArg BlockId.mk (show b.index = f.blocks.size by omega)
      rw [hname] at h
      exact .inr (.inl ⟨rfl, name, (Option.some.inj h).symm⟩)

/-- **The edges of the new function.**  Those of the cut block start at its rest. -/
theorem edge_iff (hp : p.In f) {b c : BlockId} :
    g.Edge b c ↔
      (b ≠ p.home ∧ f.Edge b c) ∨ (b = p.home ∧ c = cont) ∨ (b = cont ∧ f.Edge p.home c) := by
  constructor
  · rintro ⟨block, hblock, hc⟩
    -- Renaming phis leaves terminators alone, so edges only change at the two halves.
    rcases hg.block_cases hblock with ⟨rfl, rfl⟩ | ⟨rfl, name, rfl⟩ | ⟨hne, old, hold, rfl⟩
    · rw [Spot.successors_follow] at hc
      refine .inr (.inl ⟨rfl, ?_⟩)
      simpa [Spot.half, Block.successors, Exit.successors] using hc
    · rw [Spot.successors_follow] at hc
      exact .inr (.inr ⟨rfl, p.block, hp.block_eq, hc⟩)
    · rw [Spot.successors_follow] at hc
      exact .inl ⟨hne, old, hold, hc⟩
  · rintro (⟨hne, old, hold, hc⟩ | ⟨rfl, rfl⟩ | ⟨rfl, block, hblock, hc⟩)
    · refine ⟨p.follow cont b old, ?_, by rwa [Spot.successors_follow]⟩
      rw [hg.other b hne (Function.lt_of_block? hold), hold]
      rfl
    · refine ⟨_, hg.home, ?_⟩
      rw [Spot.successors_follow]
      simp [Spot.half, Block.successors, Exit.successors]
    · obtain ⟨name, hname⟩ := hg.rest
      obtain rfl : p.block = block := Option.some.inj (hp.block_eq.symm.trans hblock)
      exact ⟨_, hname, by rwa [Spot.successors_follow]⟩

/-- The edges to old blocks come from old blocks, but from the rest in place of the cut one. -/
theorem edge_old_iff (hp : p.In f) {b c : BlockId} (hc : c.index < f.blocks.size) :
    g.Edge b c ↔ (b ≠ p.home ∧ f.Edge b c) ∨ (b = cont ∧ f.Edge p.home c) := by
  have hne := hg.ne_cont hc
  rw [hg.edge_iff hp]
  simp [hne]

/-- **Cutting keeps functions arranged.** -/
theorem arranged (h : f.Arranged) (hp : p.In f) : g.Arranged where
  ids := by
    intro b block hblock
    rcases hg.block_cases hblock with ⟨rfl, rfl⟩ | ⟨rfl, name, rfl⟩ | ⟨-, old, hold, rfl⟩
    · rw [Spot.id_follow]
      exact h.ids p.home p.block hp.block_eq
    · rw [Spot.id_follow]
      rfl
    · rw [Spot.id_follow]
      exact h.ids b old hold
  layout_nodup := by
    have hcont : cont ∉ f.layout := fun hmem => hg.ne_cont (h.layout_lt cont hmem) rfl
    rw [hg.layout_eq, (perm_insertBehind ..).nodup_iff]
    exact List.nodup_cons.2 ⟨hcont, h.layout_nodup⟩
  layout_lt := by
    intro b hb
    rw [hg.layout_eq, mem_insertBehind] at hb
    rw [hg.size]
    rcases hb with rfl | hb
    · exact hg.cont_index ▸ Nat.lt_succ_self _
    · exact Nat.lt_succ_of_lt (h.layout_lt b hb)

/-- **The instructions of the new function** are those of the old one in their order, as far as
    their phis do not matter. -/
theorem map_allInsts_eq (h : f.Arranged) (hp : p.In f) (hhome : p.home ∈ f.layout) {α : Type}
    {read : Inst → α} (hread : ∀ (i : Inst) (old new : BlockId),
      read (i.repoint old new) = read i) :
    g.allInsts.map read = f.allInsts.map read := by
  have hrepoint : ∀ (block : Block) (old new : BlockId),
      (block.repoint old new).insts.map read = block.insts.map read := by
    intro block old new
    rw [Block.repoint, List.map_map]
    exact List.map_congr_left fun i _ => hread i old new
  obtain ⟨name, hname⟩ := hg.rest
  rw [Function.allInsts, Function.allInsts, List.map_flatMap, List.map_flatMap,
    Function.flatMap_laidOut_eq, Function.flatMap_laidOut_eq, hg.layout_eq]
  -- The halves stand next to each other in the layout, and together they read as the block did.
  refine flatMap_insertBehind hhome h.layout_nodup ?_ fun b hb hne => ?_
  · rw [Function.readAt_eq hg.home, Function.readAt_eq hname, Function.readAt_eq hp.block_eq,
      Spot.read_follow (fun block => block.insts.map read) hrepoint,
      Spot.read_follow (fun block => block.insts.map read) hrepoint, hp.insts_eq]
    simp [Spot.half, Spot.rest]
  · obtain ⟨block, hblock⟩ := Function.exists_block? (h.layout_lt b hb)
    rw [Function.readAt, hg.other b hne (h.layout_lt b hb), hblock, Function.readAt_eq hblock]
    exact Spot.read_follow (fun block => block.insts.map read) hrepoint p cont b block

/-- Instruction ids stay where they are in the walk. -/
theorem instIds_eq (h : f.Arranged) (hp : p.In f) (hhome : p.home ∈ f.layout) :
    g.instIds = f.instIds := by
  rw [(hg.arranged h hp).instIds_eq, h.instIds_eq,
    hg.map_allInsts_eq h hp hhome fun i old new => rfl]

/-! ### Well-formed functions -/

/-- Operands keep their types. -/
theorem operandType?_eq (op : Operand) : g.operandType? op = f.operandType? op := by
  rw [hg.frame]
  rfl

section Regular

variable (h : f.Regular) (hp : p.In f)

include h hp

/-- The home ends in a jump to the continuation. -/
theorem regular_home : g.block? p.home = some (p.front cont { exit := .br cont }) := by
  rw [hg.home, h.follow_half hp]

/-- The continuation holds the rest of the home. -/
theorem regular_rest : ∃ name, g.block? cont = some (p.rest cont name) := by
  obtain ⟨name, hname⟩ := hg.rest
  exact ⟨name, hname.trans (congrArg some (h.follow_rest hp hg.cont_eq name))⟩

/-- In every other block, phis from the home come from the continuation instead. -/
theorem regular_other {b : BlockId} {block : Block} (hne : b ≠ p.home)
    (hblock : f.block? b = some block) : g.block? b = some (block.repoint p.home cont) := by
  rw [hg.other b hne (Function.lt_of_block? hblock), hblock, Option.map_some,
    h.follow_eq_repoint hp cont hblock]

/-- In a regular function the phis of all blocks follow. -/
theorem regular_block_cases {b : BlockId} {block : Block} (hblock : g.block? b = some block) :
    (b = p.home ∧ block = p.front cont { exit := .br cont }) ∨
      (b = cont ∧ ∃ name, block = p.rest cont name) ∨
      b ≠ p.home ∧ ∃ old, f.block? b = some old ∧ block = old.repoint p.home cont := by
  rcases hg.block_cases hblock with ⟨hb, rfl⟩ | ⟨hb, name, rfl⟩ | ⟨hb, old, hold, rfl⟩
  · exact .inl ⟨hb, h.follow_half hp cont _⟩
  · exact .inr (.inl ⟨hb, name, h.follow_rest hp hg.cont_eq name⟩)
  · exact .inr (.inr ⟨hb, old, hold, h.follow_eq_repoint hp cont hold⟩)

/-- The same values are defined, in the same order. -/
theorem defined_eq : g.defined = f.defined := by
  rw [Function.defined, hg.params_eq, hg.map_allInsts_eq h.laid.arranged hp
    ((h.mem_layout _).2 hp.home_lt) fun i old new => rfl]
  rfl

/-- Every block is reached: the old ones by the old paths, which now pass through the rest. -/
theorem reachable {b : BlockId} (hb : b.index < g.blocks.size) : g.Reachable b := by
  have hjoin : g.Edge p.home cont := (hg.edge_iff hp).2 (.inr (.inl ⟨rfl, rfl⟩))
  have hold : ∀ c, f.Reachable c → g.Reachable c := by
    intro c hc
    induction hc with
    | refl => exact hg.entry_eq ▸ .refl
    | @tail c d _ hedge ih =>
      by_cases hc : c = p.home
      · subst hc
        exact (ih.tail hjoin).tail ((hg.edge_iff hp).2 (.inr (.inr ⟨rfl, hedge⟩)))
      · exact ih.tail ((hg.edge_iff hp).2 (.inl ⟨hc, hedge⟩))
  rw [hg.size] at hb
  by_cases hlt : b.index < f.blocks.size
  · exact hold b (h.reachable b hlt)
  · obtain rfl : b = cont := by
      rw [hg.cont_eq]
      exact congrArg BlockId.mk (show b.index = f.blocks.size by omega)
    exact (hold _ (h.reachable _ hp.home_lt)).tail hjoin

/-- The old blocks can stand in the new function. -/
theorem hosts : f.Hosts g p.home cont where
  operandType?_eq op ty htype := (hg.operandType?_eq op).trans htype
  returnType_eq := by rw [hg.frame]
  defined v hv := by rwa [hg.defined_eq h hp]
  le_new := Nat.le_of_eq hg.cont_index.symm
  edge_iff hc := hg.edge_old_iff hp hc

/-- What regularity asks of everything but the single blocks holds after the split. -/
theorem frame_regular : g.FrameRegular where
  widths := by
    rw [hg.valueTypes_eq]
    exact h.widths
  layout_nodup := (hg.arranged h.laid.arranged hp).layout_nodup
  mem_layout := by
    intro b
    rw [hg.layout_eq, mem_insertBehind, h.mem_layout, hg.size, hg.cont_eq]
    refine ⟨?_, fun hb => ?_⟩
    · rintro (rfl | hb)
      · exact Nat.lt_succ_self _
      · exact Nat.lt_succ_of_lt hb
    · exact (Nat.lt_succ_iff_lt_or_eq.1 hb).elim .inr fun e => .inl (congrArg BlockId.mk e)
  entry_mem := by
    rw [hg.entry_eq, hg.layout_eq, mem_insertBehind]
    exact .inr h.entry_mem
  targets := by
    intro b c hedge
    rw [hg.size]
    -- An edge is an old one, the new jump, or an old one that leaves the continuation.
    rcases (hg.edge_iff hp).1 hedge with ⟨-, hold⟩ | ⟨-, rfl⟩ | ⟨-, hold⟩
    · exact Nat.lt_succ_of_lt (h.targets b c hold)
    · exact hg.cont_index ▸ Nat.lt_succ_self _
    · exact Nat.lt_succ_of_lt (h.targets _ c hold)
  entry_source := by
    intro b hedge
    rw [hg.entry_eq, hg.edge_old_iff hp ((h.mem_layout _).1 h.entry_mem)] at hedge
    -- No edge enters the entry from the home or the continuation, since none did before.
    rcases hedge with ⟨-, hedge⟩ | ⟨-, hedge⟩
    · exact h.entry_source _ hedge
    · exact h.entry_source _ hedge
  reachable := fun b hb => hg.reachable h hp hb
  defined_nodup := hg.defined_eq h hp ▸ h.defined_nodup
  defined_lt := by
    rw [hg.defined_eq h hp, hg.valueTypes_eq]
    exact h.defined_lt

/-- **Cutting a block behind an instruction that is no phi keeps a function regular.** -/
theorem regular (hphi : p.inst.kind.isPhi = false) : g.Regular := by
  refine (hg.frame_regular h hp).regular fun b block hblock => ?_
  have hosts := hg.hosts h hp
  rcases hg.regular_block_cases h hp hblock with
    ⟨rfl, rfl⟩ | ⟨rfl, name, rfl⟩ | ⟨-, old, hold, rfl⟩
  · exact hosts.front hp h ⟨trivial, nofun⟩
  · exact hosts.rest hp h hphi name
  · exact hosts.repoint h hold

end Regular

/-- **Cutting keeps a function well-formed.** -/
theorem wellFormed (h : f.WellFormed) (hp : p.In f) (hphi : p.inst.kind.isPhi = false) :
    g.WellFormed where
  toRegular := hg.regular h.toRegular hp hphi
  instIds_nodup := by
    rw [hg.map_allInsts_eq h.laid.arranged hp ((h.mem_layout _).2 hp.home_lt) fun i old new => rfl]
    exact h.instIds_nodup

end Spot.Cuts

end ArithWatch
