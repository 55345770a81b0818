import ArithWatch.Proofs.Check.Pass
import ArithWatch.Proofs.IR.Format

namespace ArithWatch

/-!
# The numbers of an instrumented function

An instrumented function can be written where its counts fit 32 bits: every number in it is one of
the old function or below a count.

* `Function.CountsFit` says that the counts of a function fit.
* `Formula.fits32_of_mem_code` is the code of one condition.
* `Insertion.Makes.fits32` is one insertion, `Inserts.fits32` all of them.
* `Edit.fits32_of_instrument` is the whole pass.
-/

/-- The numbers of values and blocks fit 32 bits.  Those of instructions always do. -/
structure Function.CountsFit (f : Function) : Prop where
  values : f.valueTypes.size ≤ UInt32.size
  blocks : f.blocks.size ≤ UInt32.size

/-- The blocks of a function are those its ids find. -/
theorem mem_blocks_iff {f : Function} {block : Block} :
    block ∈ f.blocks.toList ↔ ∃ b, f.block? b = some block := by
  rw [Array.mem_toList_iff, Array.mem_iff_getElem?]
  exact ⟨fun ⟨i, hi⟩ => ⟨⟨i⟩, hi⟩, fun ⟨b, hb⟩ => ⟨b.index, hb⟩⟩

/-- A block of a file has numbers of 32 bits. -/
theorem Function.Fits32.block {f : Function} (h : f.Fits32) {b : BlockId} {block : Block}
    (hb : f.block? b = some block) : block.Fits32 :=
  h.blocks block (mem_blocks_iff.2 ⟨b, hb⟩)

/-! ### The code of a condition -/

/-- The constants of the formula fit 32 bits. -/
def Formula.ConstantsFit32 : Formula → Prop
  | .lhs | .rhs | .result => True
  | .const c => c.Fits32
  | .node _ x y => x.ConstantsFit32 ∧ y.ConstantsFit32

/-- The operands and the result of the watched instruction fit 32 bits. -/
structure Watched.Fits32 (w : Watched) : Prop where
  lhs : w.lhs.Fits32
  rhs : w.rhs.Fits32
  result : w.result.index < UInt32.size

namespace Formula

variable {w : Watched} {location : Option Location} {φ : Formula} {inst value : Nat}

/-- The operand a formula leaves fits, if the values it draws do. -/
theorem fits32_operand (hw : w.Fits32) (hφ : φ.ConstantsFit32)
    (hvalue : value + φ.size ≤ UInt32.size) : (φ.operand w value).Fits32 := by
  cases φ with
  | lhs => exact hw.lhs
  | rhs => exact hw.rhs
  | result => exact hw.result
  | const c => exact hφ
  | node o x y =>
    show value + x.size + y.size < UInt32.size
    simp only [size] at hvalue
    omega

/-- The numbers of the code are its own or those of the watched instruction. -/
theorem fits32_of_mem_code (hw : w.Fits32) (hlocation : ∀ l ∈ location, l.Fits32)
    (hφ : φ.ConstantsFit32) (hinst : inst < UInt32.size)
    (hvalue : value + φ.size ≤ UInt32.size) {i : Inst} (hi : i ∈ φ.code w location inst value) :
    i.Fits32 := by
  induction φ generalizing inst value with
  | node o x y ihx ihy =>
    simp only [size] at hvalue
    simp only [code, List.mem_append, List.mem_singleton] at hi
    rcases hi with (hi | hi) | rfl
    · exact ihx hφ.1 hinst (by omega) hi
    · exact ihy hφ.2 (InstId.advance_lt hinst) (by omega) hi
    · have hx : (x.operand w value).Fits32 := fits32_operand hw hφ.1 (by omega)
      have hy : (y.operand w (value + x.size)).Fits32 := fits32_operand hw hφ.2 (by omega)
      refine ⟨?_, ?_, ?_, hlocation⟩
      · exact InstId.advance_lt hinst
      · show value + x.size + y.size < UInt32.size
        omega
      · cases o <;> exact ⟨hx, hy⟩
  | _ => simp [code] at hi

end Formula

/-- The constants of a condition have the type of the watched instruction. -/
theorem CheckPredicate.constantsFit32_formula (p : CheckPredicate) (t : Threshold) {ty : Ty}
    (h : ty.Fits32) : (p.formula t ty).ConstantsFit32 := by
  cases p <;>
    simp [formula, Formula.ConstantsFit32, Constant.Fits32, Constant.zero, Constant.signedMax,
      Constant.signedMin, Constant.unsignedMax, Constant.int, Constant.infinity, Constant.float,
      Threshold.intBound, Threshold.floatBound, h]

/-- The ids of a decision block are drawn from a count of 32 bits. -/
theorem Probe.inst_lt_of_mem_chain {k : Probe} {cont : BlockId} {checks : List CheckPredicate}
    {block inst value : Nat} {d : Decision} (hinst : inst < UInt32.size)
    (hd : d ∈ k.chain cont checks block inst value) : d.inst < UInt32.size := by
  induction checks generalizing block inst value with
  | nil => exact absurd hd List.not_mem_nil
  | cons p rest ih =>
    rw [chain_cons] at hd
    rcases List.mem_cons.1 hd with rfl | hd
    · exact hinst
    · exact ih (InstId.advance_lt hinst) hd

/-! ### Insertions -/

/-- Renaming predecessors to a number that fits is harmless. -/
theorem Inst.Fits32.repoint {i : Inst} (h : i.Fits32) (old : BlockId) {new : BlockId}
    (hnew : new.index < UInt32.size) : (i.repoint old new).Fits32 := by
  obtain ⟨id, result, kind, location⟩ := i
  obtain ⟨hid, hresult, hkind, hlocation⟩ := h
  refine ⟨hid, hresult, ?_, hlocation⟩
  cases kind with
  | phi incoming =>
    intro input hinput
    obtain ⟨old', hold, rfl⟩ := List.mem_map.1 hinput
    refine ⟨?_, (hkind old' hold).2⟩
    show (if old'.1 = old then new else old'.1).index < UInt32.size
    split
    · exact hnew
    · exact (hkind old' hold).1
  | _ => exact hkind

namespace Insertion

variable {s : Insertion} {f g : Function}

/-- The watched instruction is one of the function. -/
theorem Fits.watched_fits32 (hs : s.Fits f) (hf : f.Fits32) :
    s.probe.watched.Fits32 ∧ ∀ l ∈ s.probe.location, l.Fits32 := by
  have hinst := (hf.block hs.spot_in.block_eq).insts _ hs.spot_in.inst_mem
  obtain ⟨flags, hkind⟩ := hs.watches
  have hsides := hinst.kind
  rw [hkind] at hsides
  exact ⟨⟨hsides.1, hsides.2, hs.result_eq ▸ hinst.result⟩, hs.location_eq ▸ hinst.location⟩

namespace Makes

/-- A watched instruction has a type of the function. -/
theorem watched_ty_fits32 (hs : s.Fits f) (hf : f.Fits32) : s.probe.watched.ty.Fits32 := by
  refine hf.valueTypes _ (Array.mem_toList_iff.2 ?_)
  exact Array.mem_of_getElem? hs.typed.result

/-- A decision block fits, if the numbers of the grown function do. -/
theorem decision_fits32 (hg : s.Makes f g) (hs : s.Fits f) (hf : f.Fits32) (hcounts : g.CountsFit)
    {d : Decision} (hd : d ∈ s.decisions f) (name : String) : (s.probe.close d name).Fits32 := by
  obtain ⟨hw, hlocation⟩ := hs.watched_fits32 hf
  have hblocks := hcounts.blocks
  have hvalues := hcounts.values
  have hsize : g.valueTypes.size = f.valueTypes.size + (s.code f).length := by
    simp [hg.valueTypes_eq, Makes.length_types]
  rw [hg.size] at hblocks
  rw [hsize] at hvalues
  have hvalue := Probe.values_of_mem_chain hd
  change _ ∧ _ ≤ _ + (s.code f).length at hvalue
  have hdblock := (mem_decisions_block hd).2
  have hnext : d.next.index < UInt32.size := Nat.lt_of_lt_of_le (next_lt hd) hblocks
  have houtcome := (d.predicate.outcome_range s.probe.threshold s.probe.watched.ty d.value).2
  -- The block, its instructions and its terminator name only numbers of the grown function.
  refine ⟨Nat.lt_of_lt_of_le hdblock hblocks, fun i hi => ?_, ?_⟩
  · exact Formula.fits32_of_mem_code hw hlocation
      (d.predicate.constantsFit32_formula s.probe.threshold (watched_ty_fits32 hs hf))
      (Probe.inst_lt_of_mem_chain hf.instCount hd) (by rw [Probe.formula] at hvalue; omega) hi
  · rintro _ ⟨⟩
    refine ⟨⟨?_, hnext, hnext⟩, hlocation⟩
    show (s.probe.outcome d).index < UInt32.size
    rw [Probe.formula] at hvalue
    rw [Probe.outcome]
    omega

/-- **An insertion keeps the numbers within 32 bits** where its counts fit. -/
theorem fits32 (hg : s.Makes f g) (h : f.Regular) (hs : s.Fits f) (hf : f.Fits32)
    (hcounts : g.CountsFit) : g.Fits32 := by
  have hreg := hg.regular h hs
  have hcont : (cont f).index < UInt32.size := by
    have := hcounts.blocks
    rw [hg.size] at this
    show f.blocks.size < _
    omega
  have hentrance : (entrance (cont f) (s.decisions f)).index < UInt32.size := by
    have := hcounts.blocks
    rw [hg.size] at this
    exact Nat.lt_of_lt_of_le entrance_lt this
  have hhome := hf.block hs.spot_in.block_eq
  refine ⟨?_, ?_, fun ty hty => ?_, fun block hblock => ?_, fun b hb => ?_, ?_, ?_⟩
  · rw [hg.params_eq]
    exact hf.params
  · rw [hg.returnType_eq]
    exact hf.returnType
  · cases ty with
    | int width =>
      have := (hreg.widths width (Array.mem_toList_iff.1 hty)).2
      show width < UInt32.size
      exact Nat.lt_of_le_of_lt this (by decide)
    | f32 => trivial
    | f64 => trivial
  · obtain ⟨b, hb⟩ := mem_blocks_iff.1 hblock
    -- The home, the continuation, a decision block or another block.
    rcases hg.block_cases hb with ⟨-, rfl⟩ | ⟨-, name, rfl⟩ | ⟨d, hd, -, name, rfl⟩ |
      ⟨-, old, hold, rfl⟩
    · refine ⟨hhome.id, fun i hi => ?_, ?_⟩
      · obtain ⟨j, hj, rfl⟩ := List.mem_map.1 hi
        refine (hhome.insts j ?_).repoint _ hcont
        rw [hs.spot_in.insts_eq]
        rcases List.mem_append.1 hj with hj | hj
        · exact List.mem_append_left _ hj
        · exact List.mem_append_right _ (List.mem_singleton.1 hj ▸ List.mem_cons_self)
      · rintro _ ⟨⟩
        exact ⟨hentrance, (hs.watched_fits32 hf).2⟩
    · refine ⟨hcont, fun i hi => hhome.insts i ?_, hhome.term⟩
      rw [hs.spot_in.insts_eq]
      exact List.mem_append_right _ (List.mem_cons_of_mem _ hi)
    · exact hg.decision_fits32 hs hf hcounts hd name
    · have hfits := hf.block hold
      refine ⟨hfits.id, fun i hi => ?_, hfits.term⟩
      obtain ⟨j, hj, rfl⟩ := List.mem_map.1 hi
      exact (hfits.insts j hj).repoint _ hcont
  · exact Nat.lt_of_lt_of_le ((hreg.mem_layout b).1 hb) hcounts.blocks
  · rw [hg.frame]
    exact hf.entry
  · rw [hg.frame]
    exact InstId.advance_lt hf.instCount

end Makes

end Insertion

/-! ### The whole pass -/

namespace Inserts

variable {t : Threshold} {ids : List InstId} {f g : Function} {sites : List CheckSite}

/-- The counts only grow. -/
theorem countsFit (h : Inserts t ids f sites g) (hcounts : g.CountsFit) : f.CountsFit := by
  induction h with
  | done f => exact hcounts
  | skip _ ih => exact ih hcounts
  | @insert ids f g h sites s id hs _ _ hg _ ih =>
    have hmid := ih hcounts
    refine ⟨?_, ?_⟩
    · have := hmid.values
      rw [hg.valueTypes_eq, Array.size_append] at this
      omega
    · have := hmid.blocks
      rw [hg.size] at this
      omega

/-- The whole pass leaves numbers that fit, if the counts at its end do. -/
theorem fits32 (h : Inserts t ids f sites g) (hreg : f.Regular) (hf : f.Fits32)
    (hcounts : g.CountsFit) : g.Fits32 := by
  induction h with
  | done f => exact hf
  | skip _ ih => exact ih hreg hf hcounts
  | insert id hs _ _ hg hrest ih =>
    exact ih (hg.regular hreg hs) (hg.fits32 hreg hs hf (hrest.countsFit hcounts)) hcounts

end Inserts

namespace Function.Alike

variable {f g : Function}

/-- Alike functions have the same counts. -/
theorem countsFit (h : f.Alike g) (hcounts : g.CountsFit) : f.CountsFit := by
  refine ⟨?_, h.size_eq ▸ hcounts.blocks⟩
  have := hcounts.values
  rwa [h.frame] at this

/-- Alike functions fit together. -/
theorem fits32 (h : f.Alike g) (hf : f.Fits32) : g.Fits32 := by
  have hblocks : ∀ block ∈ g.blocks.toList, block.Fits32 := by
    intro block hblock
    obtain ⟨b, hb⟩ := mem_blocks_iff.1 hblock
    obtain ⟨old, hold, halike⟩ := h.exists_old b block hb
    have hfits := hf.block hold
    refine ⟨halike.id_eq ▸ hfits.id, halike.insts_eq ▸ hfits.insts, fun t ht => ?_⟩
    have hexit := halike.exit_eq
    have hlocation := halike.location_eq
    rw [Option.mem_def.1 ht] at hexit hlocation
    obtain ⟨t', ht', hexit⟩ := Option.map_eq_some_iff.1 hexit
    rw [ht'] at hlocation
    obtain ⟨hfits, hlocation'⟩ := hfits.term t' ht'
    rw [show t'.location = t.location from Option.some.inj hlocation] at hlocation'
    rw [show t'.exit = t.exit from hexit] at hfits
    exact ⟨hfits, hlocation'⟩
  rw [h.frame] at hblocks ⊢
  exact ⟨hf.params, hf.returnType, hf.valueTypes, hblocks, hf.layout, hf.entry, hf.instCount⟩

end Function.Alike

/-- **The pass keeps the numbers within 32 bits** where the counts of its outcome fit. -/
theorem Edit.fits32_of_instrument {t : Threshold} {options : InstrumentOptions} {f f' : Function}
    {report : FunctionReport} (h : f.Regular) (hf : f.Fits32)
    (hrun : instrument t options f = .ok report f') (hcounts : f'.CountsFit) : f'.Fits32 := by
  obtain ⟨report', g, f'', hrun', hinserts, halike, -⟩ := instrument_eq t options h
  rw [hrun] at hrun'
  cases hrun'
  have hg : g.Fits32 := hinserts.fits32 h hf (halike.countsFit hcounts)
  exact halike.fits32 hg

end ArithWatch
