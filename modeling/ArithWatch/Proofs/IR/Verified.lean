import ArithWatch.Proofs.IR.Reachability
import ArithWatch.Proofs.Outcome
import Mathlib.Data.List.Nodup
import Mathlib.Data.List.Pairwise
import Mathlib.Data.List.Perm.Subperm

namespace ArithWatch

/-!
# The verifier decides well-formedness

Each section of the verifier is matched with the rules that it checks; `verified_iff_wellFormed`
puts them together.
-/

namespace Verdict

/-- A requirement is met if its condition holds. -/
theorem require_eq_ok {condition : Bool} {defect : Defect} :
    require condition defect = .ok () ↔ condition = true := by
  cases condition <;> simp [require]

/-- A check of many items succeeds if it does so on each of them. -/
theorem all_eq_ok {α : Type} {items : List α} {check : α → Verdict} :
    all items check = .ok () ↔ ∀ a ∈ items, check a = .ok () :=
  except_forM_eq_ok

end Verdict

namespace Function

open Verdict (require_eq_ok all_eq_ok)

variable {f : Function}

/-! ### Types, arena and layout -/

/-- **Types.** The widths of all values are from 1 to 64. -/
theorem verifyTypes_eq_ok :
    f.verifyTypes = .ok () ↔ ∀ width, Ty.int width ∈ f.valueTypes → 1 ≤ width ∧ width ≤ 64 := by
  rw [verifyTypes, all_eq_ok]
  constructor
  · intro h width hw
    simpa [require_eq_ok] using h _ (Array.mem_toList_iff.2 hw)
  · intro h ty hty
    cases ty with
    | int width => simpa [require_eq_ok] using h width (Array.mem_toList_iff.1 hty)
    | f32 => rfl
    | f64 => rfl

/-- Every block of the rest of the arena has its place as its id. -/
theorem verifyArena_eq_ok {index : Nat} {blocks : List Block} :
    verifyArena index blocks = .ok () ↔
      ∀ j block, blocks[j]? = some block → block.id.index = index + j := by
  induction blocks generalizing index with
  | nil => simp [verifyArena]
  | cons b rest ih =>
    rw [verifyArena]
    -- Both directions peel the first block off and move the index by one.
    constructor
    · intro h j block hj
      split at h
      · next hb =>
        cases j with
        | zero => cases hj; exact hb
        | succ j =>
          have := ih.1 h j block hj
          omega
      · cases h
    · intro h
      have hb : b.id.index = index := h 0 b rfl
      rw [if_pos hb, ih]
      intro j block hj
      have := h (j + 1) block hj
      omega

/-- The entries of the layout name blocks, and each of them another one. -/
theorem verifyEntries_eq_ok {seen layout : List BlockId} :
    f.verifyEntries seen layout = .ok () ↔
      (∀ b ∈ layout, b.index < f.blocks.size ∧ b ∉ seen) ∧ layout.Nodup := by
  induction layout generalizing seen with
  | nil => simp [verifyEntries]
  | cons b rest ih =>
    rw [verifyEntries]
    -- The first guard asks for a block, the second one for a new one.
    split
    · next hb =>
      refine ⟨nofun, fun h => ?_⟩
      have := (h.1 b List.mem_cons_self).1
      omega
    · next hb =>
      split
      · next hs =>
        refine ⟨nofun, fun h => ?_⟩
        exact absurd (List.contains_iff_mem.1 hs) (h.1 b List.mem_cons_self).2
      · next hs =>
        have hs' : b ∉ seen := fun h => hs (List.contains_iff_mem.2 h)
        rw [ih, List.forall_mem_cons, List.nodup_cons]
        constructor
        · rintro ⟨hall, hnodup⟩
          refine ⟨⟨⟨by omega, hs'⟩, fun c hc => ?_⟩, fun h => ?_, hnodup⟩
          · exact ⟨(hall c hc).1, fun h => (hall c hc).2 (List.mem_cons_of_mem _ h)⟩
          · exact (hall b h).2 List.mem_cons_self
        · rintro ⟨⟨-, hall⟩, hb', hnodup⟩
          refine ⟨fun c hc => ⟨(hall c hc).1, fun h => ?_⟩, hnodup⟩
          rcases List.mem_cons.1 h with rfl | h
          · exact hb' hc
          · exact (hall c hc).2 h

/-- Arena and layout hold the same blocks, the entry among them. -/
structure Laid (f : Function) : Prop where
  ids : ∀ b block, f.block? b = some block → block.id = b
  layout_nodup : f.layout.Nodup
  mem_layout : ∀ b : BlockId, b ∈ f.layout ↔ b.index < f.blocks.size
  entry_mem : f.entry ∈ f.layout

/-- The layout of a regular function is in order. -/
theorem Regular.laid (h : f.Regular) : f.Laid := ⟨h.ids, h.layout_nodup, h.mem_layout, h.entry_mem⟩

/-- **Layout.** The four checks together say that the layout is in order. -/
theorem verifyLayout_eq_ok : f.verifyLayout = .ok () ↔ f.Laid := by
  rw [verifyLayout, except_seq_eq_ok, except_seq_eq_ok, except_seq_eq_ok, verifyArena_eq_ok,
    verifyEntries_eq_ok, require_eq_ok, all_eq_ok]
  constructor
  · rintro ⟨hids, ⟨hlt, hnodup⟩, hentry, horphan⟩
    -- The arena check speaks of places, and the rest of ids that are places.
    have hid : ∀ b block, f.block? b = some block → block.id = b := by
      intro b block hb
      have := hids b.index block (by simpa [block?] using hb)
      cases b; cases hk : block.id; simp_all
    refine ⟨hid, hnodup, fun b => ⟨fun hb => (hlt b hb).1, fun hb => ?_⟩, ?_⟩
    · obtain ⟨block, hblock⟩ := exists_block? hb
      have hmem : block ∈ f.blocks.toList :=
        Array.mem_toList_iff.2 (Array.mem_of_getElem? hblock)
      have := require_eq_ok.1 (horphan block hmem)
      rw [hid b block hblock] at this
      exact List.contains_iff_mem.1 this
    · exact List.contains_iff_mem.1 hentry
  · intro h
    refine ⟨fun j block hj => ?_, ⟨fun b hb => ⟨(h.mem_layout b).1 hb, List.not_mem_nil⟩,
      h.layout_nodup⟩, List.contains_iff_mem.2 h.entry_mem, fun block hmem => ?_⟩
    · have := h.ids ⟨j⟩ block (by simpa [block?] using hj)
      simp [this]
    · obtain ⟨j, hj⟩ := List.mem_iff_getElem?.1 hmem
      have hblock : f.block? ⟨j⟩ = some block := by simpa [block?] using hj
      rw [require_eq_ok, List.contains_iff_mem, h.mem_layout, h.ids _ _ hblock]
      exact lt_of_block? hblock

/-- The blocks of the layout are the blocks of the arena. -/
theorem Laid.mem_laidOut (h : f.Laid) {block : Block} :
    block ∈ f.laidOut ↔ ∃ b, f.block? b = some block := by
  rw [laidOut, List.mem_filterMap]
  constructor
  · rintro ⟨b, -, hb⟩
    exact ⟨b, hb⟩
  · rintro ⟨b, hb⟩
    exact ⟨b, (h.mem_layout b).2 (lt_of_block? hb), hb⟩

/-- As all blocks are laid out, every instruction of a block is among the instructions. -/
theorem Laid.mem_allInsts (h : f.Laid) {i : Inst} :
    i ∈ f.allInsts ↔ ∃ b block, f.block? b = some block ∧ i ∈ block.insts := by
  rw [allInsts, List.mem_flatMap]
  constructor
  · rintro ⟨block, hblock, hi⟩
    obtain ⟨b, hb⟩ := h.mem_laidOut.1 hblock
    exact ⟨b, block, hb, hi⟩
  · rintro ⟨b, block, hb, hi⟩
    exact ⟨block, h.mem_laidOut.2 ⟨b, hb⟩, hi⟩

/-- The result of an instruction has a type. -/
theorem Regular.result_lt (h : f.Regular) {b : BlockId} {block : Block}
    (hblock : f.block? b = some block) {i : Inst} (hi : i ∈ block.insts) :
    i.result.index < f.valueTypes.size := by
  refine h.defined_lt _ (List.mem_append_right _ (List.mem_map_of_mem ?_))
  exact h.laid.mem_allInsts.2 ⟨b, block, hblock, hi⟩

/-! ### Instructions and their blocks -/

namespace Regular

variable (h : f.Regular) {i j : Inst}

include h

theorem results_nodup : (f.allInsts.map (·.result)).Nodup :=
  (List.nodup_append.1 h.defined_nodup).2.1

/-- Different instructions have different results. -/
theorem eq_of_result_eq (hi : i ∈ f.allInsts) (hj : j ∈ f.allInsts) (e : i.result = j.result) :
    i = j :=
  List.inj_on_of_nodup_map h.results_nodup hi hj e

theorem allInsts_nodup : f.allInsts.Nodup := List.Nodup.of_map _ h.results_nodup

/-- An instruction is in its block once. -/
theorem insts_nodup {b : BlockId} {block : Block} (hb : f.block? b = some block) :
    block.insts.Nodup :=
  (List.nodup_flatMap.1 h.allInsts_nodup).1 block (h.laid.mem_laidOut.2 ⟨b, hb⟩)

/-- An instruction is in one block only. -/
theorem block_unique {b c : BlockId} {block block' : Block} (hb : f.block? b = some block)
    (hc : f.block? c = some block') (hi : i ∈ block.insts) (hi' : i ∈ block'.insts) : b = c := by
  have hdisjoint := (List.nodup_flatMap.1 h.allInsts_nodup).2
  have hsymm : Std.Symm (Function.onFun List.Disjoint fun block : Block => block.insts) :=
    ⟨fun _ _ hd _ hb ha => hd ha hb⟩
  by_contra hne
  have hblocks : block ≠ block' := by
    rintro rfl
    exact hne ((h.ids b _ hb).symm.trans (h.ids c _ hc))
  have hbmem := h.laid.mem_laidOut.2 ⟨b, hb⟩
  have hcmem := h.laid.mem_laidOut.2 ⟨c, hc⟩
  exact hdisjoint.forall hbmem hcmem hblocks hi hi'

end Regular

/-! ### Terminators -/

/-- The operand of an exit has the type that is asked for. -/
theorem verifyExit_eq_ok {b : BlockId} {e : Exit} :
    f.verifyExit b e = .ok () ↔ f.ExitFits e := by
  cases e with
  | br target => simp [verifyExit, ExitFits]
  | condBr cond t e => simp [verifyExit, ExitFits, require_eq_ok]
  | ret value => simp [verifyExit, ExitFits, require_eq_ok]
  | unreachable => simp [verifyExit, ExitFits]

/-- A terminator is there, leads to blocks and fits. -/
theorem verifyTerminator_eq_ok {b : Block} :
    f.verifyTerminator b = .ok () ↔
      ∃ t, b.term = some t ∧ (∀ c ∈ t.exit.successors, c.index < f.blocks.size) ∧
        f.ExitFits t.exit := by
  rw [verifyTerminator]
  cases b.term with
  | none => simp
  | some t =>
    simp only [except_seq_eq_ok, all_eq_ok, require_eq_ok, decide_eq_true_eq, verifyExit_eq_ok,
      Option.some.injEq, exists_eq_left']

/-- **Terminators.** Every block is closed by an exit that fits, and no edge leads nowhere. -/
theorem verifyTerminators_eq_ok (h : f.Laid) :
    f.verifyTerminators = .ok () ↔
      (∀ b block, f.block? b = some block → ∃ t, block.term = some t ∧ f.ExitFits t.exit) ∧
        ∀ b c, f.Edge b c → c.index < f.blocks.size := by
  simp only [verifyTerminators, all_eq_ok, verifyTerminator_eq_ok, h.mem_laidOut]
  constructor
  · intro hall
    refine ⟨fun b block hb => ?_, ?_⟩
    · obtain ⟨t, ht, -, hfits⟩ := hall block ⟨b, hb⟩
      exact ⟨t, ht, hfits⟩
    · rintro b c ⟨block, hb, hc⟩
      obtain ⟨t, ht, htargets, -⟩ := hall block ⟨b, hb⟩
      rw [Block.successors, ht] at hc
      exact htargets c hc
  · rintro ⟨hclosed, htargets⟩ block ⟨b, hb⟩
    obtain ⟨t, ht, hfits⟩ := hclosed b block hb
    refine ⟨t, ht, fun c hc => htargets b c ⟨block, hb, ?_⟩, hfits⟩
    rw [Block.successors, ht]
    exact hc

/-! ### Definitions -/

/-- Marks with those of some values set. -/
def note (marks : Array Bool) (vs : List ValueId) : Array Bool :=
  vs.foldl (fun marks v => marks.setIfInBounds v.index true) marks

/-- Marks are only added. -/
theorem getElem?_note (marks : Array Bool) (vs : List ValueId) (w : ValueId) :
    (note marks vs)[w.index]? = some true ↔
      marks[w.index]? = some true ∨ w ∈ vs ∧ w.index < marks.size := by
  induction vs generalizing marks with
  | nil => simp [note]
  | cons v rest ih =>
    have hv : v.index = w.index ↔ w = v := by
      cases v; cases w; simp [eq_comm]
    show (note (marks.setIfInBounds v.index true) rest)[w.index]? = some true ↔ _
    rw [ih, Array.getElem?_setIfInBounds, Array.size_setIfInBounds, List.mem_cons]
    by_cases h : w = v
    · by_cases hlt : w.index < marks.size <;> simp [h, h ▸ hlt]
    · simp [mt hv.1 h, h]

/-- Values can be defined one after the other if they are different and not defined yet. -/
theorem foldlM_define_eq_ok {vs : List ValueId} {marks marks' : Array Bool} :
    vs.foldlM define marks = .ok marks' ↔
      (∀ v ∈ vs, marks[v.index]? = some false) ∧ vs.Nodup ∧ note marks vs = marks' := by
  induction vs generalizing marks with
  | nil => simp [note, pure, Except.pure]
  | cons v rest ih =>
    rw [List.foldlM_cons, except_bind_eq_ok, List.forall_mem_cons, List.nodup_cons]
    constructor
    · rintro ⟨next, hv, hrest⟩
      rw [define] at hv
      split at hv
      · next hfree =>
        cases hv
        obtain ⟨hall, hnodup, hnote⟩ := ih.1 hrest
        -- A value that came up again would find its mark set.
        have hne : ∀ w ∈ rest, w ≠ v := by
          rintro w hw rfl
          have := hall w hw
          rw [Array.getElem?_setIfInBounds, if_pos rfl] at this
          split at this <;> simp at this
        refine ⟨⟨hfree, fun w hw => ?_⟩, ⟨fun hv => hne v hv rfl, hnodup⟩, hnote⟩
        have := hall w hw
        rwa [Array.getElem?_setIfInBounds, if_neg] at this
        intro e
        exact hne w hw (by cases v; cases w; simp_all)
      · cases hv
    · rintro ⟨⟨hfree, hall⟩, ⟨hv, hnodup⟩, hnote⟩
      refine ⟨_, by rw [define, if_pos hfree], ih.2 ⟨fun w hw => ?_, hnodup, hnote⟩⟩
      rw [Array.getElem?_setIfInBounds, if_neg]
      · exact hall w hw
      · intro e
        have : v = w := by cases v; cases w; simp_all
        exact hv (this ▸ hw)

/-- Instructions can be noted one after the other if their ids are different and new, and if their
    results can be defined. -/
theorem foldlM_defineInst_eq_ok {is : List Inst} {ids : List InstId} {marks : Array Bool}
    {state : List InstId × Array Bool} :
    is.foldlM defineInst (ids, marks) = .ok state ↔
      ((∀ i ∈ is, i.id ∉ ids) ∧ (is.map (·.id)).Nodup) ∧
        (is.map (·.result)).foldlM define marks = .ok state.2 ∧
          (is.map (·.id)).reverse ++ ids = state.1 := by
  induction is generalizing ids marks with
  | nil =>
    obtain ⟨ids', marks'⟩ := state
    simp [pure, Except.pure, and_comm]
  | cons i rest ih =>
    rw [List.foldlM_cons, except_bind_eq_ok]
    simp only [List.map_cons, List.foldlM_cons, List.forall_mem_cons, List.nodup_cons,
      except_bind_eq_ok, List.reverse_cons, List.append_assoc, List.singleton_append]
    -- Ids are collected next to the marks, and a repeated one is an error of its own.
    constructor
    · rintro ⟨next, hi, hrest⟩
      rw [defineInst] at hi
      split at hi
      · cases hi
      · next hid =>
        obtain ⟨marks', hmarks, hnext⟩ := except_bind_eq_ok.1 hi
        cases hnext
        obtain ⟨⟨hall, hnodup⟩, hdefine, hids⟩ := ih.1 hrest
        refine ⟨⟨⟨fun h => hid (List.contains_iff_mem.2 h), fun j hj h => ?_⟩, fun h => ?_, hnodup⟩,
          ⟨marks', hmarks, hdefine⟩, hids⟩
        · exact hall j hj (List.mem_cons_of_mem _ h)
        · obtain ⟨j, hj, e⟩ := List.mem_map.1 h
          exact hall j hj (e ▸ List.mem_cons_self)
    · rintro ⟨⟨⟨hid, hall⟩, hnot, hnodup⟩, ⟨marks', hmarks, hdefine⟩, hids⟩
      refine ⟨(i.id :: ids, marks'), ?_, ih.2 ⟨⟨fun j hj h => ?_, hnodup⟩, hdefine, hids⟩⟩
      · show (if ids.contains i.id then _ else _) = _
        rw [if_neg (fun h => hid (List.contains_iff_mem.1 h))]
        exact except_bind_eq_ok.2 ⟨marks', hmarks, rfl⟩
      · rcases List.mem_cons.1 h with h | h
        · exact hnot (h ▸ List.mem_map_of_mem hj)
        · exact hall j hj h

/-- **Definitions.** Instruction ids differ, and every value is defined at most once and exists;
    these are the values that are marked in the end. -/
theorem definitions_eq_ok {marks : Array Bool} :
    f.definitions = .ok marks ↔
      (f.allInsts.map (·.id)).Nodup ∧ f.defined.Nodup ∧
        (∀ v ∈ f.defined, v.index < f.valueTypes.size) ∧
          note (Array.replicate f.valueTypes.size false) f.defined = marks := by
  -- Parameters come first, and the results of instructions go on with their marks.
  have hfold : f.definitions = .ok marks ↔
      (f.allInsts.map (·.id)).Nodup ∧
        f.defined.foldlM define (Array.replicate f.valueTypes.size false) = .ok marks := by
    rw [definitions, except_bind_eq_ok, defined, List.foldlM_append, except_bind_eq_ok]
    constructor
    · rintro ⟨params, hparams, h⟩
      obtain ⟨state, hstate, h⟩ := except_bind_eq_ok.1 h
      cases h
      obtain ⟨⟨-, hids⟩, hresults, -⟩ := foldlM_defineInst_eq_ok.1 hstate
      exact ⟨hids, params, hparams, hresults⟩
    · rintro ⟨hids, params, hparams, hresults⟩
      refine ⟨params, hparams, except_bind_eq_ok.2
        ⟨(_, marks), foldlM_defineInst_eq_ok.2 ⟨⟨by simp, hids⟩, hresults, rfl⟩, rfl⟩⟩
  have hfree : ∀ v : ValueId, (Array.replicate f.valueTypes.size false)[v.index]? = some false ↔
      v.index < f.valueTypes.size := by
    intro v
    simp [Array.getElem?_replicate]
  rw [hfold, foldlM_define_eq_ok]
  simp only [hfree]
  exact and_congr_right fun _ => and_left_comm

/-- An operand may be used if it is a constant or a marked value. -/
theorem verifyUse_eq_ok {marks : Array Bool} {b : BlockId} {op : Operand} :
    verifyUse marks b op = .ok () ↔ ∀ v, op = .value v → marks[v.index]? = some true := by
  cases op with
  | value v => simp [verifyUse, require_eq_ok]
  | const c => simp [verifyUse]

/-- **Uses.** Besides, the operands of instructions and exits are constants or defined values. -/
theorem verifyDefinitions_eq_ok (h : f.Laid) :
    f.verifyDefinitions = .ok () ↔
      ((f.allInsts.map (·.id)).Nodup ∧ f.defined.Nodup ∧
        ∀ v ∈ f.defined, v.index < f.valueTypes.size) ∧
      (∀ b block, f.block? b = some block → ∀ i ∈ block.insts, ∀ v,
        .value v ∈ i.kind.operands → v ∈ f.defined) ∧
      ∀ b block, f.block? b = some block → ∀ t, block.term = some t → ∀ v,
        t.exit.operand? = some (.value v) → v ∈ f.defined := by
  -- At first nothing is marked, so that in the end the defined values are, and no others.
  have hmark : (∀ v ∈ f.defined, v.index < f.valueTypes.size) → ∀ v : ValueId,
      (note (Array.replicate f.valueTypes.size false) f.defined)[v.index]? = some true ↔
        v ∈ f.defined := by
    intro hlt v
    have hnone : (Array.replicate f.valueTypes.size false)[v.index]? ≠ some true := by
      simp [Array.getElem?_replicate]
    rw [getElem?_note, Array.size_replicate]
    exact ⟨fun hv => (hv.resolve_left hnone).1, fun hv => .inr ⟨hv, hlt v hv⟩⟩
  rw [verifyDefinitions, except_bind_eq_ok]
  simp only [definitions_eq_ok, all_eq_ok, except_seq_eq_ok, h.mem_laidOut, verifyUse_eq_ok]
  constructor
  · rintro ⟨marks, ⟨hids, hnodup, hlt, rfl⟩, huses⟩
    refine ⟨⟨hids, hnodup, hlt⟩, fun b block hb i hi v hv => ?_, fun b block hb t ht v hv => ?_⟩
    · have hmem : Operand.value v ∈ block.insts.flatMap (·.kind.operands) :=
        List.mem_flatMap.2 ⟨i, hi, hv⟩
      exact (hmark hlt v).1 ((huses block ⟨b, hb⟩).1 _ hmem v rfl)
    · exact (hmark hlt v).1 ((huses block ⟨b, hb⟩).2 _ (by simp [ht, hv]) v rfl)
  · rintro ⟨⟨hids, hnodup, hlt⟩, hinsts, hexits⟩
    refine ⟨_, ⟨hids, hnodup, hlt, rfl⟩, ?_⟩
    rintro block ⟨b, hb⟩
    constructor
    · rintro op hop v rfl
      -- Operands of instructions and of exits are used in the same way.
      obtain ⟨i, hi, hv⟩ := List.mem_flatMap.1 hop
      exact (hmark hlt v).2 (hinsts b block hb i hi v hv)
    · rintro op hop v rfl
      obtain ⟨t, ht, hv⟩ := Option.bind_eq_some_iff.1 (Option.mem_toList.1 hop)
      exact (hmark hlt v).2 (hexits b block hb t ht v hv)

/-! ### Reachability -/

/-- What repeats is dropped. -/
theorem eraseDups_nodup (l : List BlockId) : l.eraseDups.Nodup := by
  induction h : l.length using Nat.strongRecOn generalizing l with
  | ind n ih =>
    cases l with
    | nil => simp
    | cons a rest =>
      rw [List.eraseDups_cons, List.nodup_cons, List.mem_eraseDups]
      have hlen : (rest.filter fun b => !b == a).length < n := by
        have := List.length_filter_le (fun b => !b == a) rest
        simp only [List.length_cons] at h
        omega
      exact ⟨by simp, ih _ hlen _ rfl⟩

/-- The predecessors among the blocks of the layout are the sources of the edges. -/
theorem Laid.mem_predecessorsIn (h : f.Laid) {p b : BlockId} :
    p ∈ predecessorsIn f.laidOut b ↔ f.Edge p b := by
  simp only [predecessorsIn, List.mem_eraseDups, List.mem_map, List.mem_filter, h.mem_laidOut,
    List.contains_iff_mem]
  constructor
  · rintro ⟨block, ⟨⟨q, hq⟩, hsucc⟩, rfl⟩
    rw [h.ids q block hq]
    exact ⟨block, hq, hsucc⟩
  · rintro ⟨block, hp, hsucc⟩
    exact ⟨block, ⟨⟨p, hp⟩, hsucc⟩, h.ids p block hp⟩

/-- **Reachability.** No edge leads to the entry, and every block can be reached from there. -/
theorem verifyReachability_eq_ok (h : f.Laid) :
    f.verifyReachability = .ok () ↔
      (∀ b, ¬ f.Edge b f.entry) ∧ ∀ b : BlockId, b.index < f.blocks.size → f.Reachable b := by
  rw [verifyReachability, except_seq_eq_ok, require_eq_ok, all_eq_ok]
  refine and_congr ?_ ⟨fun hall b hb => ?_, fun hall b hb => ?_⟩
  · rw [List.isEmpty_iff, List.eq_nil_iff_forall_not_mem]
    exact forall_congr' fun b => not_congr h.mem_predecessorsIn
  · have := require_eq_ok.1 (hall b ((h.mem_layout b).2 hb))
    exact (reached_iff hb).1 (by simpa using this)
  · have hb := (h.mem_layout b).1 hb
    rw [require_eq_ok, beq_iff_eq]
    exact (reached_iff hb).2 (hall b hb)

/-! ### Instructions -/

/-- Both sides of a comparison have one type of the right family, and the result is a truth
    value. -/
theorem comparison_fits_iff {lhs rhs result : Option Ty} {family : Ty → Bool} :
    (lhs.any family && lhs == rhs && result == some .i1) = true ↔
      ∃ ty, lhs = some ty ∧ rhs = some ty ∧ result = some .i1 ∧ family ty = true := by
  cases lhs with
  | none => simp
  | some ty =>
    simp only [Option.any_some, Bool.and_eq_true, beq_iff_eq, Option.some.injEq]
    constructor
    · rintro ⟨⟨hfamily, hrhs⟩, hresult⟩
      exact ⟨ty, rfl, hrhs.symm, hresult, hfamily⟩
    · rintro ⟨_, rfl, hrhs, hresult, hfamily⟩
      exact ⟨⟨hfamily, hrhs.symm⟩, hresult⟩

/-- The types of an instruction agree if the specification of its kind says so. -/
theorem typesAgree_iff {i : Inst} : f.typesAgree i = true ↔ f.InstFits i := by
  unfold typesAgree InstFits
  cases i.kind with
  | binary op lhs rhs flags =>
    cases hl : f.operandType? lhs with
    | none => simp [hl]
    | some l =>
      cases hr : f.operandType? rhs with
      | none => simp [hl, hr]
      | some r =>
        simp only [hl, hr, Bool.and_eq_true, beq_iff_eq, Option.some.injEq]
        constructor
        · rintro ⟨⟨rfl, hresult⟩, hop⟩
          exact ⟨l, rfl, rfl, hresult, hop⟩
        · rintro ⟨ty, rfl, rfl, hresult, hop⟩
          exact ⟨⟨rfl, hresult⟩, hop⟩
  | icmp pred lhs rhs => exact comparison_fits_iff
  | fcmp pred lhs rhs => exact comparison_fits_iff
  | phi incoming => simp

/-- Inputs match a list without repetition if they have its members, each once. -/
theorem inputsMatch_iff {preds inputs : List BlockId} (h : preds.Nodup) :
    inputsMatch preds inputs = true ↔ inputs.Nodup ∧ ∀ p, p ∈ inputs ↔ p ∈ preds := by
  simp only [inputsMatch, Bool.and_eq_true, List.all_eq_true, List.contains_iff_mem, beq_iff_eq]
  constructor
  · rintro ⟨⟨hin, hpre⟩, hlen⟩
    have hperm : preds.Perm inputs :=
      (List.subperm_of_subset h hpre).perm_of_length_le (Nat.le_of_eq hlen)
    exact ⟨hperm.nodup_iff.1 h, fun p => ⟨hin p, hpre p⟩⟩
  · rintro ⟨hnodup, hiff⟩
    have hperm : inputs.Perm preds := (List.perm_ext_iff_of_nodup hnodup h).2 hiff
    exact ⟨⟨fun p => (hiff p).1, fun p => (hiff p).2⟩, hperm.length_eq⟩

/-- The instructions of a block fit, phis come first, and the inputs of each match the
    predecessors. -/
theorem verifyInsts_eq_ok {preds : List BlockId} {b : BlockId} {started : Bool} {is : List Inst} :
    f.verifyInsts preds b started is = .ok () ↔
      (∀ i ∈ is, f.InstFits i) ∧
      (∀ i ∈ (if started then is else is.dropWhile (·.kind.isPhi)), i.kind.isPhi = false) ∧
      ∀ i ∈ is, ∀ incoming, i.kind = .phi incoming →
        inputsMatch preds (incoming.map (·.1)) = true := by
  induction is generalizing started with
  | nil => simp [verifyInsts]
  | cons i rest ih =>
    rw [verifyInsts, except_seq_eq_ok, require_eq_ok, typesAgree_iff]
    -- Only a phi is asked for its inputs, and none may follow another instruction.
    cases hk : i.kind with
    | phi incoming =>
      simp only [except_seq_eq_ok, require_eq_ok, ih, List.forall_mem_cons]
      cases started <;> simp [hk, InstKind.isPhi, and_assoc, and_left_comm]
    | binary op lhs rhs flags =>
      simp only [ih, List.forall_mem_cons]
      cases started <;> simp [hk, InstKind.isPhi, and_assoc]
    | icmp pred lhs rhs =>
      simp only [ih, List.forall_mem_cons]
      cases started <;> simp [hk, InstKind.isPhi, and_assoc]
    | fcmp pred lhs rhs =>
      simp only [ih, List.forall_mem_cons]
      cases started <;> simp [hk, InstKind.isPhi, and_assoc]

/-- **Instructions.** So it is in every block, and the predecessors are the blocks with an edge to
    it. -/
theorem verifyInstructions_eq_ok (h : f.Laid) :
    f.verifyInstructions = .ok () ↔
      ∀ b block, f.block? b = some block →
        (∀ i ∈ block.insts, f.InstFits i) ∧
        (∀ i ∈ block.insts.dropWhile (·.kind.isPhi), i.kind.isPhi = false) ∧
        ∀ i ∈ block.insts, ∀ incoming, i.kind = .phi incoming →
          (incoming.map (·.1)).Nodup ∧ ∀ p, p ∈ incoming.map (·.1) ↔ f.Edge p b := by
  -- The recorded predecessors are compared without regard to order.
  have hinputs : ∀ b (inputs : List BlockId), inputsMatch (predecessorsIn f.laidOut b) inputs =
      true ↔ inputs.Nodup ∧ ∀ p, p ∈ inputs ↔ f.Edge p b := by
    intro b inputs
    rw [predecessorsIn, inputsMatch_iff (eraseDups_nodup _), ← predecessorsIn]
    exact and_congr_right fun _ => forall_congr' fun p => iff_congr Iff.rfl h.mem_predecessorsIn
  simp only [verifyInstructions, all_eq_ok, h.mem_laidOut, verifyInsts_eq_ok, hinputs]
  constructor
  · intro hall b block hb
    simpa [h.ids b block hb] using hall block ⟨b, hb⟩
  · rintro hall block ⟨b, hb⟩
    simpa [h.ids b block hb] using hall b block hb

/-! ### The whole function -/

/-- **The verifier accepts exactly the well-formed functions.** -/
theorem verified_iff_wellFormed : f.verify = .ok () ↔ f.WellFormed := by
  rw [verify, except_mapError_eq_ok]
  simp only [except_seq_eq_ok, verifyTypes_eq_ok, verifyLayout_eq_ok]
  constructor
  -- Each check speaks of well-formedness once the layout is in order, which is checked before it.
  · rintro ⟨hwidths, hlaid, hterms, hreach, hdefs, hinsts⟩
    rw [verifyTerminators_eq_ok hlaid] at hterms
    rw [verifyReachability_eq_ok hlaid] at hreach
    rw [verifyDefinitions_eq_ok hlaid] at hdefs
    rw [verifyInstructions_eq_ok hlaid] at hinsts
    obtain ⟨⟨hids, hnodup, hlt⟩, hoperands, hexits⟩ := hdefs
    exact {
      widths := hwidths
      ids := hlaid.ids
      layout_nodup := hlaid.layout_nodup
      mem_layout := hlaid.mem_layout
      entry_mem := hlaid.entry_mem
      closed := hterms.1
      targets := hterms.2
      entry_source := hreach.1
      reachable := hreach.2
      defined_nodup := hnodup
      defined_lt := hlt
      operands := hoperands
      exits := hexits
      types := fun b block hb => (hinsts b block hb).1
      phis_lead := fun b block hb => (hinsts b block hb).2.1
      inputs := fun b block hb => (hinsts b block hb).2.2
      instIds_nodup := hids }
  · intro h
    have hlaid := h.laid
    refine ⟨h.widths, hlaid, (verifyTerminators_eq_ok hlaid).2 ⟨h.closed, h.targets⟩,
      (verifyReachability_eq_ok hlaid).2 ⟨h.entry_source, h.reachable⟩,
      (verifyDefinitions_eq_ok hlaid).2
        ⟨⟨h.instIds_nodup, h.defined_nodup, h.defined_lt⟩, h.operands, h.exits⟩,
      (verifyInstructions_eq_ok hlaid).2 fun b block hb =>
        ⟨h.types b block hb, h.phis_lead b block hb, h.inputs b block hb⟩⟩

end Function

/-- A module is accepted if all its functions are. -/
theorem Module.verify_eq_ok {m : Module} :
    m.verify = .ok () ↔ ∀ f ∈ m.functions, f.verify = .ok () :=
  except_forM_eq_ok

/-! ### Functions with a single block -/

/-- A single block that leads nowhere is reached, and it has no predecessor. -/
theorem Function.verifyReachability_of_alone {f : Function} {block : Block}
    (hblocks : f.blocks = #[block]) (hlayout : f.layout = [⟨0⟩]) (hentry : f.entry = ⟨0⟩)
    (hexit : block.successors = []) : f.verifyReachability = .ok () := by
  have hblock : f.block? ⟨0⟩ = some block := by simp [block?, hblocks]
  have hreached : f.reached = #[true] := by
    unfold reached
    rw [hblocks, hentry]
    show f.flood #[false] [⟨0⟩] = _
    rw [flood, if_pos (by rfl), hblock]
    simp only [Option.map_some, Option.getD_some, hexit]
    show f.flood #[true] [] = _
    rw [flood]
  have hpreds : predecessorsIn f.laidOut f.entry = [] := by
    simp [predecessorsIn, laidOut, hlayout, hblock, hexit]
  rw [verifyReachability, hpreds, hreached, hlayout]
  rfl

/-! ### A function with a loop -/

/-- A loop that doubles its counter until the double is below the argument.  Its block comes back to
    itself through a phi. -/
def doubling : Function where
  name := "doubling"
  params := [⟨0⟩]
  returnType := some (.int 32)
  valueTypes := #[.int 32, .int 32, .int 32, .i1]
  blocks := #[
    { id := ⟨0⟩, name := "entry", insts := [], term := some { exit := .br ⟨1⟩ } },
    { id := ⟨1⟩
      name := "loop"
      insts := [
        { id := ⟨0⟩, result := ⟨1⟩, kind := .phi [(⟨0⟩, .value ⟨0⟩), (⟨1⟩, .value ⟨2⟩)] },
        { id := ⟨1⟩, result := ⟨2⟩, kind := .binary .add (.value ⟨1⟩) (.value ⟨1⟩) .empty },
        { id := ⟨2⟩, result := ⟨3⟩, kind := .icmp .slt (.value ⟨2⟩) (.value ⟨0⟩) }]
      term := some { exit := .condBr (.value ⟨3⟩) ⟨2⟩ ⟨1⟩ } },
    { id := ⟨2⟩, name := "exit", insts := [], term := some { exit := .ret (some (.value ⟨2⟩)) } }]
  layout := [⟨0⟩, ⟨1⟩, ⟨2⟩]
  entry := ⟨0⟩
  instCount := 3

/-- All blocks of the loop are reached. -/
theorem reached_doubling : doubling.reached = #[true, true, true] := by
  show doubling.flood #[false, false, false] [⟨0⟩] = _
  rw [Function.flood, if_pos (by decide)]
  show doubling.flood #[true, false, false] [⟨1⟩] = _
  rw [Function.flood, if_pos (by decide)]
  show doubling.flood #[true, true, false] [⟨2⟩, ⟨1⟩] = _
  rw [Function.flood, if_pos (by decide)]
  show doubling.flood #[true, true, true] [⟨1⟩] = _
  rw [Function.flood, if_neg (by decide), Function.flood]

theorem verify_doubling : doubling.verify = .ok () := by
  have hreach : doubling.verifyReachability = .ok () := by
    rw [Function.verifyReachability, reached_doubling]
    rfl
  rw [Function.verify, hreach]
  rfl

theorem freshIds_doubling : doubling.FreshIds := by
  show ∀ i ∈ doubling.allInsts, i.id.index < doubling.instCount
  decide

/-! ### A function with both kinds of arithmetic -/

/-- A sum of integers and a quotient of floats. -/
def mixture : Function where
  name := "mixture"
  params := [⟨0⟩, ⟨1⟩]
  returnType := some .f32
  valueTypes := #[.int 32, .f32, .int 32, .f32]
  blocks := #[
    { id := ⟨0⟩
      name := "entry"
      insts := [
        { id := ⟨0⟩, result := ⟨2⟩, kind := .binary .add (.value ⟨0⟩) (.value ⟨0⟩) .empty },
        { id := ⟨1⟩, result := ⟨3⟩, kind := .binary .fdiv (.value ⟨1⟩) (.value ⟨1⟩) .empty }]
      term := some { exit := .ret (some (.value ⟨3⟩)) } }]
  layout := [⟨0⟩]
  entry := ⟨0⟩
  instCount := 2

theorem verify_mixture : mixture.verify = .ok () := by
  rw [Function.verify, Function.verifyReachability_of_alone rfl rfl rfl rfl]
  rfl

end ArithWatch
