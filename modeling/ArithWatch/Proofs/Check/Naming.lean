import ArithWatch.Proofs.Check.Stability
import ArithWatch.Proofs.IR.Sound

namespace ArithWatch

/-!
# Names of new blocks

New blocks take names that no block has, so that a new block is the only one of its name, however
often the old names repeat.

* `Function.NamedApart`: all blocks but the first ones have names of their own.
* `Function.stable_namedApart`: no edit of the pass breaks that.
* `Function.NamedApart.findBlock?_eq`: a new block is found by its name.
-/

namespace Function

/-- The names of the blocks, in the order of the arena. -/
def names (f : Function) : List String := f.blocks.toList.map (·.name)

/-- The first blocks have the given names; every other block has a name that no block has but it. -/
def NamedApart (old : List String) (f : Function) : Prop :=
  ∃ new, f.names = old ++ new ∧ new.Nodup ∧ ∀ name ∈ new, name ∉ old

variable {f g : Function} {old : List String}

/-! ### What the edits do to names -/

/-- A change of one block that leaves its name as it is. -/
theorem names_updateBlock {b : BlockId} {change : Block → Block}
    (h : ∀ block, (change block).name = block.name) : (f.updateBlock b change).names = f.names :=
  map_updateBlock fun block _ => h block

/-- A cut adds one block, under a fresh name. -/
theorem names_cutBlock (f : Function) (origin : BlockId) (block : Block) (count : Nat) :
    (f.cutBlock origin block count).names = f.names ++ [f.freshName "origin_cont"] := by
  -- The phis follow afterwards, block by block, and keep the names.
  have hphis : ∀ (bs : List BlockId) (g : Function),
      (bs.foldl (fun g b => g.repointPhis origin ⟨f.blocks.size⟩ b) g).names = g.names := by
    intro bs
    induction bs with
    | nil => exact fun g => rfl
    | cons b rest ih => exact fun g => (ih _).trans (names_updateBlock fun _ => rfl)
  have hfront : (f.updateBlock origin fun block => { block with
      insts := block.insts.take count
      term := some { exit := .br ⟨f.blocks.size⟩ } }).names = f.names :=
    names_updateBlock fun _ => rfl
  rw [cutBlock_eq_foldl, hphis, names, halve, Array.toList_push, List.map_append, ← hfront]
  rfl

/-! ### The invariant -/

namespace NamedApart

theorem refl (f : Function) : NamedApart f.names f :=
  ⟨[], (List.append_nil _).symm, .nil, nofun⟩

/-- An edit that changes no name. -/
theorem of_names_eq (h : NamedApart old f) (hnames : g.names = f.names) : NamedApart old g := by
  rwa [NamedApart, hnames]

/-- An edit that adds a block under a fresh name. -/
theorem push (h : NamedApart old f) (base : String)
    (hnames : g.names = f.names ++ [f.freshName base]) : NamedApart old g := by
  obtain ⟨new, heq, hnodup, hapart⟩ := h
  have hfresh : f.freshName base ∉ f.names := by
    intro hmem
    have htaken := not_isFree_iff.2 hmem
    rw [isFree_freshName] at htaken
    cases htaken
  -- So it is neither an old name nor one of the names taken since.
  rw [heq, List.mem_append, not_or] at hfresh
  refine ⟨new ++ [f.freshName base], by rw [hnames, heq, List.append_assoc], ?_, ?_⟩
  · rw [← List.concat_eq_append, List.nodup_concat]
    exact ⟨hfresh.2, hnodup⟩
  · rw [List.forall_mem_append]
    exact ⟨hapart, by simpa using hfresh.1⟩

/-- Two blocks of one name, one of them new, are the same. -/
theorem eq_of_name_eq (h : NamedApart old f) {b c : BlockId} {block other : Block}
    (hb : f.block? b = some block) (hc : f.block? c = some other)
    (hnew : old.length ≤ b.index) (hname : other.name = block.name) : c = b := by
  obtain ⟨new, heq, hnodup, hapart⟩ := h
  have hread : ∀ {d : BlockId} {x : Block}, f.block? d = some x →
      (old ++ new)[d.index]? = some x.name := by
    intro d x hd
    rw [← heq, names, List.getElem?_map, Array.getElem?_toList]
    exact congrArg (Option.map (·.name)) hd
  have hatb := hread hb
  have hatc := hname ▸ hread hc
  rw [List.getElem?_append_right hnew] at hatb
  by_cases hold : c.index < old.length
  · -- The name of a new block is none of the old ones.
    rw [List.getElem?_append_left hold] at hatc
    exact absurd (List.mem_of_getElem? hatc) (hapart _ (List.mem_of_getElem? hatb))
  · -- Both are new, and new names do not repeat.
    rw [List.getElem?_append_right (Nat.not_lt.1 hold)] at hatc
    have hplace := (List.getElem?_inj (List.getElem?_eq_some_iff.1 hatb).1 hnodup).1
      (hatb.trans hatc.symm)
    exact congrArg BlockId.mk (show c.index = b.index by omega)

/-- **A new block is found by its name**, as it is the only one that has it. -/
theorem findBlock?_eq (h : NamedApart old f) {b : BlockId} {block : Block}
    (hb : f.block? b = some block) (hnew : old.length ≤ b.index) :
    f.findBlock? block.name = some block.id := by
  obtain ⟨hlt, hat⟩ := Array.getElem?_eq_some_iff.1 hb
  have hfind : f.blocks.find? (·.name == block.name) = some block := by
    rw [Array.find?_eq_some_iff_getElem]
    refine ⟨beq_self_eq_true _, b.index, hlt, hat, fun j hj => ?_⟩
    -- An earlier block of the name would be this one.
    rw [Bool.not_eq_true', beq_eq_false_iff_ne]
    intro hname
    have hother : f.block? ⟨j⟩ = some f.blocks[j] := Array.getElem?_eq_getElem _
    have hsame := congrArg BlockId.index (h.eq_of_name_eq hb hother hnew hname)
    exact absurd hsame (Nat.ne_of_lt hj)
  rw [findBlock?, hfind]
  rfl

end NamedApart

/-- **No edit takes the name of a new block**, or gives one to it that is taken. -/
theorem stable_namedApart (old : List String) : Stable (NamedApart old) where
  newValue _ _ h := h.of_names_eq rfl
  createBlock f name h := h.push name (by
    rw [names, Array.toList_push, List.map_append]
    rfl)
  setTerm _ _ _ h := h.of_names_eq (names_updateBlock fun _ => rfl)
  append _ _ _ _ _ h _ := h.of_names_eq (names_updateBlock fun _ => rfl)
  cutBlock f origin block count h _ := h.push _ (f.names_cutBlock origin block count)

end Function

end ArithWatch
