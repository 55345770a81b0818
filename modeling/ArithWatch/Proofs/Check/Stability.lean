import ArithWatch.Proofs.Check.Insertion

namespace ArithWatch

/-!
# What the edits of the pass keep

The pass changes a function by a handful of edits.  What none of them breaks is not broken by the
pass, wherever it does not fault.

* `Function.Stable` properties survive every single edit.
* `Function.cutBlock_of_splitBlockAfter`: a block is split by cutting it.
* The lemmas `Edit.keeps_*` and `Cursor.keeps_*` follow the definitions up to
  `Edit.keeps_instrument`.
-/

namespace Function

/-- The property survives a new value, a new block, another terminator, one more instruction, and a
    cut. -/
structure Stable (P : Function → Prop) : Prop where
  newValue : ∀ (f : Function) (ty : Ty), P f → P { f with valueTypes := f.valueTypes.push ty }
  createBlock : ∀ (f : Function) (name : String), P f → P { f with
    blocks := f.blocks.push
      { id := ⟨f.blocks.size⟩, name := f.freshName name, insts := [], term := none }
    layout := f.layout ++ [⟨f.blocks.size⟩] }
  setTerm : ∀ (f : Function) (b : BlockId) (change : Block → Option Terminator), P f →
    P (f.updateBlock b fun block => { block with term := change block })
  append : ∀ (f : Function) (b : BlockId) (kind : InstKind) (location : Option Location) (ty : Ty),
    P f → b.index < f.blocks.size →
      P (f.append b [⟨⟨f.instCount⟩, ⟨f.valueTypes.size⟩, kind, location⟩] [ty])
  cutBlock : ∀ (f : Function) (origin : BlockId) (block : Block) (count : Nat), P f →
    f.block? origin = some block → P (f.cutBlock origin block count)

/-- A split is a cut. -/
theorem cutBlock_of_splitBlockAfter {f g : Function} {i : InstId} {halves : BlockId × BlockId}
    (h : f.splitBlockAfter i = .ok (some (g, halves))) :
    ∃ origin block count, f.block? origin = some block ∧ g = f.cutBlock origin block count := by
  obtain ⟨found, -, h⟩ := except_bind_eq_ok.1 h
  cases found with
  | none => cases h
  | some place =>
    -- Two guards stand before the cut.
    obtain ⟨block, hblock, h⟩ := except_bind_eq_ok.1 h
    split at h
    · cases h
    split at h
    · cases h
    cases h
    exact ⟨place.1, block, place.2 + 1, block?_eq_some hblock, rfl⟩

end Function

section Stable

variable {P : Function → Prop} (hP : Function.Stable P)

include hP

/-! ### Single edits -/

namespace Edit

/-- A drawn value only appends its type. -/
theorem keeps_newValue (ty : Ty) : Keeps P (newValue ty) := by
  intro f v g h hf
  cases h
  exact hP.newValue f ty hf

/-- A new block is appended, empty and open. -/
theorem keeps_createBlock (name : String) : Keeps P (createBlock name) := by
  intro f b g h hf
  cases h
  exact hP.createBlock f name hf

/-- A change of nothing but a terminator. -/
theorem keeps_updateTerm (b : BlockId) (change : Block → Option Terminator) :
    Keeps P (updateBlock b fun block => { block with term := change block }) := by
  refine (Keeps.query _).bind fun _ f _ g h hf => ?_
  cases h
  exact hP.setTerm f b change hf

/-- Taking a terminator away is a change of one block's terminator. -/
theorem keeps_eraseTerminator (b : BlockId) : Keeps P (eraseTerminator b) :=
  (Keeps.query _).bind fun _ => (keeps_updateTerm hP b fun _ => none).bind fun _ => .pure _

/-- So is changing it in place. -/
theorem keeps_updateTerminator (b : BlockId) (change : Terminator → Terminator) :
    Keeps P (updateTerminator b change) :=
  (Keeps.query _).bind fun _ =>
    (keeps_updateTerm hP b fun block => block.term.map change).bind fun _ => .pure _

theorem keeps_setExit (c : Cursor) (exit : Exit) : Keeps P (c.setExit exit) :=
  (keeps_updateTerm hP c.block fun _ => some { exit, location := c.location }).bind fun _ => .pure _

/-- Closing a block through its cursor reads the function first, and writes at most the exit. -/
theorem keeps_terminate (c : Cursor) (exit : Exit) : Keeps P (c.terminate exit) := by
  refine (Keeps.query _).bind fun block => ?_
  split
  · exact .throw _
  · exact keeps_setExit hP c exit

/-- A split is a new block, a cut, and branches and phis renamed; each step keeps the property. -/
theorem keeps_splitBlockAfter (i : InstId) : Keeps P (splitBlockAfter i) := by
  intro f halves g h hf
  obtain ⟨found, f', hquery, h⟩ := bind_eq_ok h
  obtain ⟨hfound, rfl⟩ := query_eq_ok hquery
  cases found with
  | none =>
    cases h
    exact hf
  | some found =>
    cases h
    obtain ⟨origin, block, count, hblock, heq⟩ := Function.cutBlock_of_splitBlockAfter hfound
    rw [heq]
    exact hP.cutBlock f' origin block count hf hblock

end Edit

namespace Cursor

/-- An emitted instruction is a drawn value followed by one append. -/
theorem keeps_push (c : Cursor) (kind : InstKind) (ty : Ty) : Edit.Keeps P (c.push kind ty) := by
  intro f a g h hf
  have hc := lt_of_push h
  rw [push_eq hc] at h
  cases h
  exact hP.append f c.block kind c.location ty hf hc

/-- Binary instructions are pushed. -/
theorem keeps_binary (c : Cursor) (op : BinOp) (lhs rhs : Operand) (flags : WrapFlags) :
    Edit.Keeps P (c.binary op lhs rhs flags) :=
  (Edit.Keeps.query _).bind fun ty => c.keeps_push hP _ ty

/-- Arithmetic without wrap flags is a binary instruction. -/
theorem keeps_arith (c : Cursor) (op : BinOp) (lhs rhs : Operand) :
    Edit.Keeps P (c.arith op lhs rhs) :=
  (c.keeps_binary hP op lhs rhs .empty).bind fun _ => .pure _

/-- Integer comparisons are pushed. -/
theorem keeps_icmp (c : Cursor) (pred : IntPredicate) (lhs rhs : Operand) :
    Edit.Keeps P (c.icmp pred lhs rhs) :=
  (c.keeps_push hP _ _).bind fun _ => .pure _

/-- Floating-point comparisons are pushed. -/
theorem keeps_fcmp (c : Cursor) (pred : FloatPredicate) (lhs rhs : Operand) :
    Edit.Keeps P (c.fcmp pred lhs rhs) :=
  (c.keeps_push hP _ _).bind fun _ => .pure _

/-- Phis are pushed. -/
theorem keeps_phi (c : Cursor) (ty : Ty) (incoming : List (BlockId × Operand)) :
    Edit.Keeps P (c.phi ty incoming) :=
  (c.keeps_push hP _ _).bind fun _ => .pure _

end Cursor

/-! ### The pass -/

namespace Edit

/-- The code of a formula is a sequence of pushes. -/
theorem keeps_compile (c : Cursor) (w : Watched) (φ : Formula) : Keeps P (φ.compile c w) := by
  induction φ with
  | lhs | rhs | result | const k => exact .pure _
  | node o x y ihx ihy =>
    -- Every operation is one push.
    have hpush : ∀ lhs rhs, Keeps P (o.push c lhs rhs) := by
      cases o with
      | arith op => exact c.keeps_arith hP op
      | icmp pred => exact c.keeps_icmp hP pred
      | fcmp pred => exact c.keeps_fcmp hP pred
    exact ihx.bind fun _ => ihy.bind fun _ => (hpush _ _).bind fun _ => .pure _

/-- A condition is built by pushing, as its formula is compiled. -/
theorem keeps_build (p : CheckPredicate) (t : Threshold) (c : Cursor) (w : Watched) :
    Keeps P (p.build t c w) :=
  Keeps.of_map (c := Operand.value) (p.build_eq_compile t c w ▸ keeps_compile hP c w _)

omit hP in
/-- A record appends a metadata entry, which the property does not read. -/
theorem keeps_recordCheck (m : CheckMap) (branch : BlockId) (r : CheckRecord) :
    Keeps P (recordCheck m branch r) := by
  rw [recordCheck]
  split
  · exact .pure _
  · exact .throw _

/-- A chain is filled check by check: code, a terminator, a record. -/
theorem keeps_fillChain (t : Threshold) (w : Watched) (location : Option Location)
    (record : CheckKind → CheckRecord) (cont : BlockId) (chain : List (CheckPredicate × BlockId))
    (m : CheckMap) : Keeps P (fillChain t w location record cont chain m) := by
  induction chain generalizing m with
  | nil => exact .pure _
  | cons head rest ih =>
    obtain ⟨p, block⟩ := head
    rw [fillChain_cons]
    exact (keeps_build hP p t _ w).bind fun _ => (keeps_terminate hP _ _).bind fun _ =>
      (keeps_recordCheck _ _ _).bind fun m => (ih m).bind fun _ => .pure _

/-- A whole site is inserted by edits that keep the property, whether or not the split succeeds. -/
theorem keeps_insertSite (t : Threshold) (i : InstId) (q : Qualified) (site : SiteId)
    (m : CheckMap) : Keeps P (insertSite t i q site m) := by
  refine (Keeps.query _).bind fun location => (keeps_splitBlockAfter hP i).bind fun halves => ?_
  cases halves with
  | none => exact .pure _
  | some halves =>
    exact (keeps_eraseTerminator hP _).bind fun _ =>
      (Keeps.mapM fun _ _ => keeps_createBlock hP _).bind fun _ =>
        (keeps_terminate hP _ _).bind fun _ =>
          (keeps_fillChain hP _ _ _ _ _ _ _).bind fun _ => .pure _

/-- One turn of the pass keeps the property: an operation that is refused changes nothing, and one
    that qualifies gets a site. -/
theorem keeps_instrumentInst (t : Threshold) (options : InstrumentOptions)
    (report : FunctionReport) (id : InstId) : Keeps P (instrumentInst t options report id) := by
  refine (Keeps.query _).bind fun found => ?_
  cases found with
  | none => exact .pure _
  | some i =>
    -- Only a binary instruction can change the function.
    cases hk : i.kind with
    | binary op lhs rhs flags =>
      simp only [hk]
      refine Keeps.get.bind fun f => ?_
      cases f.qualify options i with
      | error reason => exact .pure _
      | ok q =>
        refine (keeps_insertSite hP _ _ _ _ _).bind fun inserted => ?_
        cases inserted with
        | none => exact .pure _
        | some inserted => exact .pure _
    | icmp pred lhs rhs =>
      simp only [hk]
      exact .pure _
    | fcmp pred lhs rhs =>
      simp only [hk]
      exact .pure _
    | phi incoming =>
      simp only [hk]
      exact .pure _

/-- Writing the whole map as metadata keeps it too. -/
theorem keeps_emitMetadata (m : CheckMap) : Keeps P m.emitMetadata :=
  (Keeps.mapM fun _ _ => keeps_updateTerminator hP _ _).bind fun _ => .pure _

/-- **The pass keeps what its edits keep.** -/
theorem keeps_instrument (t : Threshold) (options : InstrumentOptions) :
    Keeps P (instrument t options) := by
  refine (Keeps.query _).bind fun ids => Keeps.get.bind fun f =>
    (Keeps.foldlM (fun report id _ => keeps_instrumentInst hP t options report id) _).bind
      fun report => ?_
  cases options.emitMetadata with
  | false => exact .pure _
  | true => exact (keeps_emitMetadata hP _).bind fun _ => .pure _

end Edit

end Stable

end ArithWatch
