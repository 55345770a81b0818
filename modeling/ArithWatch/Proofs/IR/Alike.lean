import ArithWatch.Proofs.IR.Blockwise
import ArithWatch.Proofs.IR.Supply

namespace ArithWatch

/-!
# Functions that differ in metadata only

The metadata of terminators plays no part in what a function does.

* `Block.Alike` and `Function.Alike` say that nothing else differs.
* `Function.Alike.regular`: of two such functions one is regular if the other is.
-/

/-- The blocks differ at most in the metadata of their terminators. -/
structure Block.Alike (a b : Block) : Prop where
  id_eq : a.id = b.id
  name_eq : a.name = b.name
  insts_eq : a.insts = b.insts
  exit_eq : a.term.map (·.exit) = b.term.map (·.exit)
  location_eq : a.term.map (·.location) = b.term.map (·.location)

namespace Block.Alike

variable {a b c : Block}

theorem refl (a : Block) : a.Alike a := ⟨rfl, rfl, rfl, rfl, rfl⟩

theorem symm (h : a.Alike b) : b.Alike a :=
  ⟨h.id_eq.symm, h.name_eq.symm, h.insts_eq.symm, h.exit_eq.symm, h.location_eq.symm⟩

theorem trans (h : a.Alike b) (h' : b.Alike c) : a.Alike c :=
  ⟨h.id_eq.trans h'.id_eq, h.name_eq.trans h'.name_eq, h.insts_eq.trans h'.insts_eq,
    h.exit_eq.trans h'.exit_eq, h.location_eq.trans h'.location_eq⟩

theorem kin (h : a.Alike b) : a.Kin b :=
  ⟨h.id_eq, h.exit_eq, .of_eq h.insts_eq, by rw [h.insts_eq]⟩

end Block.Alike

/-- The functions differ at most in the metadata of terminators. -/
structure Function.Alike (f g : Function) : Prop where
  frame : g = { f with blocks := g.blocks }
  size_eq : g.blocks.size = f.blocks.size
  exists_old : ∀ b block, g.block? b = some block → ∃ old, f.block? b = some old ∧ old.Alike block

namespace Function.Alike

variable {f g h : Function}

theorem refl (f : Function) : f.Alike f := ⟨rfl, rfl, fun _ block hb => ⟨block, hb, .refl block⟩⟩

theorem trans (hfg : f.Alike g) (hgh : g.Alike h) : f.Alike h where
  frame := by rw [hgh.frame, hfg.frame]
  size_eq := hgh.size_eq.trans hfg.size_eq
  exists_old b block hb := by
    obtain ⟨mid, hmid, halike⟩ := hgh.exists_old b block hb
    obtain ⟨old, hold, halike'⟩ := hfg.exists_old b mid hmid
    exact ⟨old, hold, halike'.trans halike⟩

theorem blockwise (hfg : f.Alike g) : f.Blockwise Block.Alike g :=
  ⟨hfg.frame, hfg.size_eq, hfg.exists_old⟩

theorem kin (hfg : f.Alike g) : f.Blockwise Block.Kin g := hfg.blockwise.mono fun _ _ h => h.kin

/-- Each block is met by one like it. -/
theorem exists_new (hfg : f.Alike g) {b : BlockId} {old : Block} (hb : f.block? b = some old) :
    ∃ block, g.block? b = some block ∧ old.Alike block :=
  hfg.blockwise.exists_new hb

theorem symm (hfg : f.Alike g) : g.Alike f where
  frame := hfg.blockwise.symm.frame
  size_eq := hfg.size_eq.symm
  exists_old _ old hb := by
    obtain ⟨block, hblock, halike⟩ := hfg.exists_new hb
    exact ⟨block, hblock, halike.symm⟩

/-- Alike functions have the same edges. -/
theorem edge_iff (hfg : f.Alike g) {b c : BlockId} : g.Edge b c ↔ f.Edge b c := hfg.kin.edge_iff

theorem exitFits_iff (hfg : f.Alike g) {e : Exit} : g.ExitFits e ↔ f.ExitFits e :=
  hfg.blockwise.exitFits_iff

theorem allInsts_eq (hfg : f.Alike g) : g.allInsts = f.allInsts :=
  hfg.blockwise.flatMap_laidOut fun _ _ h => h.insts_eq.symm

/-- Metadata plays no part in what ids were drawn. -/
theorem draws {e : Function} {n : Nat} (hfg : f.Alike g) (h : e.Draws n f) : e.Draws n g where
  instIds_eq := by
    rw [hfg.allInsts_eq]
    exact h.instIds_eq
  instCount_eq := by
    rw [hfg.frame]
    exact h.instCount_eq

/-- **A function that differs in metadata only is regular too.** -/
theorem regular (hfg : f.Alike g) (h : f.Regular) : g.Regular := hfg.kin.regular h

theorem wellFormed (hfg : f.Alike g) (h : f.WellFormed) : g.WellFormed := hfg.kin.wellFormed h

end Function.Alike

/-- A change of the metadata of one terminator. -/
theorem Function.alike_updateBlock {f : Function} (b : BlockId) {change : Block → Block}
    (h : ∀ block, Block.Alike block (change block)) : f.Alike (f.updateBlock b change) :=
  have hblockwise := Blockwise.updateBlock Block.Alike.refl b fun block _ => h block
  ⟨hblockwise.frame, hblockwise.size_eq, hblockwise.exists_old⟩

end ArithWatch
