import ArithWatch.Proofs.IR.Verified

namespace ArithWatch

/-!
# Functions that differ block by block

Two functions may differ in their blocks only, and each block from its counterpart in a way that is
known.

* `Function.Blockwise` lifts a relation of blocks to functions.
* `Block.Kin`: blocks that lead to the same blocks and have the same instructions, but for the order
  of their leading phis.
* `Function.Blockwise.regular`: of two functions with kindred blocks one is regular if the other is.
-/

/-! ### Blocks in pairs -/

/-- The functions differ in their blocks only, and the blocks in the same place are related. -/
structure Function.Blockwise (r : Block → Block → Prop) (f g : Function) : Prop where
  frame : g = { f with blocks := g.blocks }
  size_eq : g.blocks.size = f.blocks.size
  exists_old : ∀ b block, g.block? b = some block → ∃ old, f.block? b = some old ∧ r old block

namespace Function.Blockwise

variable {r : Block → Block → Prop} {f g : Function}

/-- Each block of the first function is met by one of the second. -/
theorem exists_new (h : f.Blockwise r g) {b : BlockId} {old : Block} (hb : f.block? b = some old) :
    ∃ block, g.block? b = some block ∧ r old block := by
  obtain ⟨block, hblock⟩ := exists_block? (h.size_eq ▸ lt_of_block? hb)
  obtain ⟨old', hold', hr⟩ := h.exists_old b block hblock
  rw [hb] at hold'
  cases hold'
  exact ⟨block, hblock, hr⟩

/-- A block is missing in both. -/
theorem block?_eq_none (h : f.Blockwise r g) {b : BlockId} (hb : f.block? b = none) :
    g.block? b = none := by
  rw [block?_eq_none_iff] at hb ⊢
  rwa [h.size_eq]

theorem mono {r' : Block → Block → Prop} (h : f.Blockwise r g) (hr : ∀ a b, r a b → r' a b) :
    f.Blockwise r' g where
  frame := h.frame
  size_eq := h.size_eq
  exists_old b block hb := by
    obtain ⟨old, hold, hrel⟩ := h.exists_old b block hb
    exact ⟨old, hold, hr _ _ hrel⟩

theorem symm (h : f.Blockwise r g) : g.Blockwise (fun a b => r b a) f where
  frame := by rw [h.frame]
  size_eq := h.size_eq.symm
  exists_old _ _ hb := h.exists_new hb

/-- The layouts list related blocks. -/
theorem laidOut (h : f.Blockwise r g) : List.Forall₂ r f.laidOut g.laidOut := by
  rw [Function.laidOut, Function.laidOut, show g.layout = f.layout by rw [h.frame]]
  induction f.layout with
  | nil => exact .nil
  | cons b rest ih =>
    cases hb : f.block? b with
    | none => rwa [List.filterMap_cons_none hb, List.filterMap_cons_none (h.block?_eq_none hb)]
    | some old =>
      obtain ⟨block, hblock, hr⟩ := h.exists_new hb
      rw [List.filterMap_cons_some hb, List.filterMap_cons_some hblock]
      exact .cons hr ih

/-- What is read off related blocks is read off the functions. -/
theorem flatMap_laidOut {α : Type} {read : Block → List α} (h : f.Blockwise r g)
    (hread : ∀ a b, r a b → read b = read a) :
    g.laidOut.flatMap read = f.laidOut.flatMap read := by
  generalize f.laidOut = xs, g.laidOut = ys, h.laidOut = hwalk
  induction hwalk with
  | nil => rfl
  | cons hr _ ih => rw [List.flatMap_cons, List.flatMap_cons, hread _ _ hr, ih]

/-- The types of instructions fit in both or in neither. -/
theorem instFits_iff (h : f.Blockwise r g) {i : Inst} : g.InstFits i ↔ f.InstFits i := by
  rw [h.frame]
  rfl

theorem exitFits_iff (h : f.Blockwise r g) {e : Exit} : g.ExitFits e ↔ f.ExitFits e := by
  rw [h.frame]
  rfl

/-- A change of one block. -/
theorem updateBlock (hrefl : ∀ block, r block block) (b : BlockId) {change : Block → Block}
    (h : ∀ block, f.block? b = some block → r block (change block)) :
    f.Blockwise r (f.updateBlock b change) where
  frame := rfl
  size_eq := f.size_updateBlock b change
  exists_old c block hc := by
    rw [block?_updateBlock] at hc
    split at hc
    · next e =>
      subst e
      obtain ⟨old, hold, rfl⟩ := Option.map_eq_some_iff.1 hc
      exact ⟨old, hold, h old hold⟩
    · exact ⟨block, hc, hrefl block⟩

end Function.Blockwise

/-! ### Kindred blocks -/

/-- The blocks have one id and one exit, and the same instructions, which stand in the same order
    behind the leading phis. -/
structure Block.Kin (a b : Block) : Prop where
  id_eq : a.id = b.id
  exit_eq : a.term.map (·.exit) = b.term.map (·.exit)
  insts_perm : a.insts.Perm b.insts
  rest_eq : a.insts.dropWhile (·.kind.isPhi) = b.insts.dropWhile (·.kind.isPhi)

namespace Block.Kin

variable {a b : Block}

theorem symm (h : a.Kin b) : b.Kin a :=
  ⟨h.id_eq.symm, h.exit_eq.symm, h.insts_perm.symm, h.rest_eq.symm⟩

/-- Kin blocks have the same successors. -/
theorem successors_eq (h : a.Kin b) : a.successors = b.successors := by
  have hexit := h.exit_eq
  unfold Block.successors
  cases ha : a.term <;> cases hb : b.term <;> simp_all

/-- Where one block has a terminator the other one has a terminator with the same exit. -/
theorem exists_term (h : a.Kin b) {t : Terminator} (ht : b.term = some t) :
    ∃ t', a.term = some t' ∧ t'.exit = t.exit := by
  have hexit := h.exit_eq
  rw [ht] at hexit
  exact Option.map_eq_some_iff.1 hexit

end Block.Kin

namespace Function.Blockwise

variable {f g : Function}

/-- Kin functions have the same edges. -/
theorem edge_iff (h : f.Blockwise Block.Kin g) {b c : BlockId} : g.Edge b c ↔ f.Edge b c := by
  constructor
  · rintro ⟨block, hb, hc⟩
    obtain ⟨old, hold, hkin⟩ := h.exists_old b block hb
    exact ⟨old, hold, hkin.successors_eq ▸ hc⟩
  · rintro ⟨old, hold, hc⟩
    obtain ⟨block, hb, hkin⟩ := h.exists_new hold
    exact ⟨block, hb, hkin.successors_eq ▸ hc⟩

/-- Kin functions hold the same instructions up to order. -/
theorem allInsts_perm (h : f.Blockwise Block.Kin g) : f.allInsts.Perm g.allInsts := by
  rw [allInsts, allInsts]
  generalize f.laidOut = xs, g.laidOut = ys, h.laidOut = hwalk
  induction hwalk with
  | nil => exact .refl _
  | cons hkin _ ih =>
    rw [List.flatMap_cons, List.flatMap_cons]
    exact hkin.insts_perm.append ih

theorem defined_perm (h : f.Blockwise Block.Kin g) : f.defined.Perm g.defined := by
  rw [defined, defined, show g.params = f.params by rw [h.frame]]
  exact (h.allInsts_perm.map _).append_left _

/-- **A function with kindred blocks is regular too.** -/
theorem regular (h : f.Blockwise Block.Kin g) (hf : f.Regular) : g.Regular where
  widths := by
    rw [h.frame]
    exact hf.widths
  ids b block hb := by
    obtain ⟨old, hold, hkin⟩ := h.exists_old b block hb
    exact hkin.id_eq ▸ hf.ids b old hold
  layout_nodup := by
    rw [h.frame]
    exact hf.layout_nodup
  mem_layout b := by
    rw [h.size_eq, ← hf.mem_layout, h.frame]
  entry_mem := by
    rw [h.frame]
    exact hf.entry_mem
  closed b block hb := by
    obtain ⟨old, hold, hkin⟩ := h.exists_old b block hb
    obtain ⟨t, ht, hfits⟩ := hf.closed b old hold
    obtain ⟨t', ht', he⟩ := hkin.symm.exists_term ht
    exact ⟨t', ht', h.exitFits_iff.2 (he ▸ hfits)⟩
  targets b c hedge := h.size_eq ▸ hf.targets b c (h.edge_iff.1 hedge)
  entry_source b hedge := by
    rw [h.edge_iff, h.frame] at hedge
    exact hf.entry_source b hedge
  reachable b hb := by
    have hreach := hf.reachable b (h.size_eq ▸ hb)
    have hentry : g.entry = f.entry := by rw [h.frame]
    rw [Reachable, hentry]
    exact Relation.ReflTransGen.mono (fun c d hedge => h.edge_iff.2 hedge) _ _ hreach
  defined_nodup := h.defined_perm.nodup_iff.1 hf.defined_nodup
  defined_lt v hv := by
    have hlt := hf.defined_lt v (h.defined_perm.mem_iff.2 hv)
    rw [h.frame]
    exact hlt
  -- Values defined anywhere may be used anywhere, so a permutation of the definitions is as good.
  operands b block hb i hi v hv := by
    obtain ⟨old, hold, hkin⟩ := h.exists_old b block hb
    exact h.defined_perm.mem_iff.1 (hf.operands b old hold i (hkin.insts_perm.mem_iff.2 hi) v hv)
  exits b block hb t ht v hv := by
    obtain ⟨old, hold, hkin⟩ := h.exists_old b block hb
    obtain ⟨t', ht', he⟩ := hkin.exists_term ht
    exact h.defined_perm.mem_iff.1 (hf.exits b old hold t' ht' v (he ▸ hv))
  types b block hb i hi := by
    obtain ⟨old, hold, hkin⟩ := h.exists_old b block hb
    exact h.instFits_iff.2 (hf.types b old hold i (hkin.insts_perm.mem_iff.2 hi))
  phis_lead b block hb := by
    obtain ⟨old, hold, hkin⟩ := h.exists_old b block hb
    exact hkin.rest_eq ▸ hf.phis_lead b old hold
  inputs b block hb i hi incoming hk := by
    obtain ⟨old, hold, hkin⟩ := h.exists_old b block hb
    obtain ⟨hnodup, hmem⟩ := hf.inputs b old hold i (hkin.insts_perm.mem_iff.2 hi) incoming hk
    exact ⟨hnodup, fun p => (hmem p).trans h.edge_iff.symm⟩

/-- Kinship keeps well-formedness. -/
theorem wellFormed (h : f.Blockwise Block.Kin g) (hf : f.WellFormed) : g.WellFormed :=
  ⟨h.regular hf.toRegular, (h.allInsts_perm.map _).nodup_iff.1 hf.instIds_nodup⟩

end Function.Blockwise

end ArithWatch
