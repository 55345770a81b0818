import ArithWatch.Proofs.Check.Pass

namespace ArithWatch

/-!
# Which instructions are instrumented

The pass looks every binary operation up again in a function that it has cut and extended before.
It still finds it where it was, with the operands, the types and the followers that it had at first.

* `Function.binaries` are the binary operations of a function, and `Function.verdict` says what the
  specification makes of one of them.  `Function.entries` lists them among all instructions.
* `Function.Numbered` is what is asked of a function at first.
* `Function.Grown` is what the pass keeps: whatever it has inserted, the instructions of the
  function at first come first.  `Function.Grown.spot`: there they are found, also where an inserted
  instruction has been given one of their ids, and `Function.Numbered.verdict_eq`: their verdicts
  are the same.
* `instrument_verdicts`: every binary operation is a site or is left alone for the reason that the
  specification gives, in layout order and once.
-/

/-! ### Binary operations -/

/-- A binary operation as it stands in its block. -/
structure BinaryInst where
  id : InstId
  result : ValueId
  op : BinOp
  lhs : Operand
  rhs : Operand
  flags : WrapFlags
  location : Option Location
  /-- Does another instruction follow, or a terminator? -/
  followed : Bool
  deriving DecidableEq, Repr

/-- The instruction as a binary operation, if it is one. -/
def Inst.binary? (followed : Bool) (i : Inst) : Option BinaryInst :=
  match i.kind with
  | .binary op lhs rhs flags =>
    some { id := i.id, result := i.result, op, lhs, rhs, flags, location := i.location, followed }
  | _ => none

/-- The binary operations among the last instructions of a block. -/
def binariesIn (term : Option Terminator) : List Inst → List BinaryInst
  | [] => []
  | i :: rest => (i.binary? (!rest.isEmpty || term.isSome)).toList ++ binariesIn term rest

/-- The binary operations of a block. -/
def Block.binaries (b : Block) : List BinaryInst := binariesIn b.term b.insts

/-- The binary operations of a function, in layout order. -/
def Function.binaries (f : Function) : List BinaryInst := f.laidOut.flatMap Block.binaries

/-- The last instructions of a block with their ids, each as a binary operation if it is one. -/
def entriesIn (term : Option Terminator) : List Inst → List (InstId × Option BinaryInst)
  | [] => []
  | i :: rest => (i.id, i.binary? (!rest.isEmpty || term.isSome)) :: entriesIn term rest

/-- The instructions of a block. -/
def Block.entries (b : Block) : List (InstId × Option BinaryInst) := entriesIn b.term b.insts

/-- The instructions of a function, in layout order. -/
def Function.entries (f : Function) : List (InstId × Option BinaryInst) :=
  f.laidOut.flatMap Block.entries

/-- An operation is what it says of its instruction, field by field. -/
theorem Inst.binary?_eq_some {followed : Bool} {i : Inst} {o : BinaryInst} :
    i.binary? followed = some o ↔ i.kind = .binary o.op o.lhs o.rhs o.flags ∧ i.id = o.id ∧
      i.result = o.result ∧ i.location = o.location ∧ followed = o.followed := by
  cases hk : i.kind <;> cases o <;> simp [binary?, hk, and_comm, and_left_comm, and_assoc]

@[simp] theorem Inst.binary?_repoint (followed : Bool) (i : Inst) (old new : BlockId) :
    (i.repoint old new).binary? followed = i.binary? followed := by
  cases hk : i.kind <;> simp [binary?, repoint, hk, InstKind.repoint]

/-- The ids of the binary operations are those of the binary instructions. -/
theorem map_id_binariesIn (term : Option Terminator) (insts : List Inst) :
    (binariesIn term insts).map (·.id) = (insts.filter (·.kind.isBinary)).map (·.id) := by
  induction insts with
  | nil => rfl
  | cons i rest ih =>
    rw [binariesIn, List.map_append, ih, List.filter_cons]
    cases hk : i.kind <;> simp [Inst.binary?, hk, InstKind.isBinary]

/-- The entries list all instructions. -/
@[simp] theorem map_fst_entriesIn (term : Option Terminator) (insts : List Inst) :
    (entriesIn term insts).map (·.1) = insts.map (·.id) := by
  induction insts with
  | nil => rfl
  | cons i rest ih => rw [entriesIn, List.map_cons, ih, List.map_cons]

/-- The binary operations among the entries. -/
@[simp] theorem filterMap_entriesIn (term : Option Terminator) (insts : List Inst) :
    (entriesIn term insts).filterMap (·.2) = binariesIn term insts := by
  induction insts with
  | nil => rfl
  | cons i rest ih =>
    rw [entriesIn, List.filterMap_cons, ih, binariesIn]
    cases i.binary? (!rest.isEmpty || term.isSome) <;> rfl

/-- An entry has the id of its operation. -/
theorem fst_eq_of_mem_entriesIn {term : Option Terminator} {insts : List Inst}
    {e : InstId × Option BinaryInst} (he : e ∈ entriesIn term insts) {o : BinaryInst}
    (ho : e.2 = some o) : e.1 = o.id := by
  induction insts with
  | nil => cases he
  | cons i rest ih =>
    rcases List.mem_cons.1 he with rfl | he
    · exact (Inst.binary?_eq_some.1 ho).2.1
    · exact ih he

/-- What phis mention is no matter. -/
theorem entriesIn_repoint (term : Option Terminator) (old new : BlockId) (insts : List Inst) :
    entriesIn term (insts.map (·.repoint old new)) = entriesIn term insts := by
  induction insts with
  | nil => rfl
  | cons i rest ih =>
    rw [List.map_cons, entriesIn, ih, Inst.binary?_repoint, List.isEmpty_map]
    rfl

/-- A block may be cut behind an instruction that something follows. -/
theorem entriesIn_cut {term : Option Terminator} {before after : List Inst} {i : Inst}
    (h : after ≠ [] ∨ term ≠ none) (t : Terminator) :
    entriesIn (some t) (before ++ [i]) ++ entriesIn term after =
      entriesIn term (before ++ i :: after) := by
  induction before with
  | nil =>
    -- What follows the instruction is the new terminator now, and something did before.
    have hfollowed : (!after.isEmpty || term.isSome) = true := by
      rw [Bool.or_eq_true, Bool.not_eq_true', List.isEmpty_eq_false_iff, Option.isSome_iff_ne_none]
      exact h
    simp [entriesIn, hfollowed]
  | cons j rest ih =>
    rw [List.cons_append, List.cons_append, entriesIn, entriesIn, List.cons_append, ih]
    have hrest : (rest ++ [i]).isEmpty = false ∧ (rest ++ i :: after).isEmpty = false := by simp
    rw [hrest.1, hrest.2]
    rfl

/-- The search for an id ends at the first instruction that has it. -/
theorem find?_entriesIn {term : Option Terminator} {before after : List Inst} {i : Inst}
    (h : ∀ j ∈ before, j.id ≠ i.id) :
    (entriesIn term (before ++ i :: after)).find? (·.1 == i.id) =
      some (i.id, i.binary? (!after.isEmpty || term.isSome)) := by
  induction before with
  | nil => exact List.find?_cons_of_pos (beq_self_eq_true i.id)
  | cons j rest ih =>
    obtain ⟨hj, hrest⟩ := List.forall_mem_cons.1 h
    rw [List.cons_append, entriesIn, List.find?_cons_of_neg (by simpa using hj), ih hrest]

/-- The operations of a list are those read at its positions, each with whether anything follows. -/
theorem mem_binariesIn {term : Option Terminator} {insts : List Inst} {o : BinaryInst} :
    o ∈ binariesIn term insts ↔ ∃ before i after, insts = before ++ i :: after ∧
      i.binary? (!after.isEmpty || term.isSome) = some o := by
  induction insts with
  | nil => simp [binariesIn]
  | cons j rest ih =>
    -- The head is followed by the rest of the list, which is why the split is made at the head.
    rw [binariesIn, List.mem_append, Option.mem_toList, ih]
    constructor
    · rintro (hj | ⟨before, i, after, rfl, hi⟩)
      · exact ⟨[], j, rest, rfl, hj⟩
      · exact ⟨j :: before, i, after, rfl, hi⟩
    · rintro ⟨_ | ⟨j', before⟩, i, after, heq, hi⟩
      · obtain ⟨rfl, rfl⟩ := List.cons.inj heq
        exact .inl hi
      · obtain ⟨rfl, rfl⟩ := List.cons.inj heq
        exact .inr ⟨before, i, after, rfl, hi⟩

namespace Function

variable {f g : Function}

/-- The operations are numbered as the binary instructions are, in the order of the layout. -/
theorem map_id_binaries (f : Function) :
    f.binaries.map (·.id) = (f.allInsts.filter (·.kind.isBinary)).map (·.id) := by
  rw [binaries, allInsts, List.map_flatMap, List.filter_flatMap, List.map_flatMap]
  exact List.flatMap_congr fun block _ => map_id_binariesIn block.term block.insts

@[simp] theorem map_fst_entries (f : Function) : f.entries.map (·.1) = f.allInsts.map (·.id) := by
  rw [entries, allInsts, List.map_flatMap, List.map_flatMap]
  exact List.flatMap_congr fun block _ => map_fst_entriesIn block.term block.insts

@[simp] theorem filterMap_entries (f : Function) : f.entries.filterMap (·.2) = f.binaries := by
  rw [entries, binaries, List.filterMap_flatMap]
  exact List.flatMap_congr fun block _ => filterMap_entriesIn block.term block.insts

/-- An entry is keyed by the id of the operation it carries. -/
theorem fst_eq_of_mem_entries {e : InstId × Option BinaryInst} (he : e ∈ f.entries)
    {o : BinaryInst} (ho : e.2 = some o) : e.1 = o.id := by
  obtain ⟨block, -, hblock⟩ := List.mem_flatMap.1 he
  exact fst_eq_of_mem_entriesIn hblock ho

/-- Each operation stands in the entries, under its own id. -/
theorem mem_entries {o : BinaryInst} (ho : o ∈ f.binaries) : (o.id, some o) ∈ f.entries := by
  rw [← filterMap_entries, List.mem_filterMap] at ho
  obtain ⟨e, he, ho⟩ := ho
  have heq : e = (o.id, some o) := Prod.ext (fst_eq_of_mem_entries he ho) ho
  exact heq ▸ he

/-- Where an id is found, the first entry with the id is read. -/
theorem find?_entries {p : Spot} (hp : p.First f) :
    f.entries.find? (·.1 == p.inst.id) =
      some (p.inst.id, p.inst.binary? (!p.after.isEmpty || p.block.term.isSome)) := by
  obtain ⟨pre, post, hall, hfirst⟩ := hp.first
  rw [List.forall_mem_append] at hfirst
  obtain ⟨hpre, hbefore⟩ := hfirst
  -- No block before the home of the spot holds the id.
  have hnone : (pre.flatMap Block.entries).find? (·.1 == p.inst.id) = none := by
    rw [List.find?_eq_none]
    intro e he
    obtain ⟨block, hblock, he⟩ := List.mem_flatMap.1 he
    have hid : e.1 ∈ block.insts.map (·.id) :=
      map_fst_entriesIn block.term block.insts ▸ List.mem_map_of_mem he
    obtain ⟨j, hj, hid⟩ := List.mem_map.1 hid
    simpa [← hid] using hpre j (List.mem_flatMap.2 ⟨block, hblock, hj⟩)
  -- Inside the home, the instructions before the spot do not hold it either.
  rw [entries, hall, List.flatMap_append, List.flatMap_cons, List.find?_append, hnone,
    List.find?_append, Block.entries, hp.insts_eq, find?_entriesIn hbefore]
  rfl

/-- A binary operation stands somewhere in the layout. -/
theorem Arranged.spot_of_mem_binaries (h : f.Arranged) {o : BinaryInst} (ho : o ∈ f.binaries) :
    ∃ p : Spot, p.In f ∧ p.home ∈ f.layout ∧ (p.Followed ↔ o.followed = true) ∧
      p.inst.binary? o.followed = some o := by
  obtain ⟨block, hblock, hmem⟩ := List.mem_flatMap.1 ho
  obtain ⟨hhome, hblock⟩ := h.mem_laidOut.1 hblock
  obtain ⟨before, i, after, hinsts, hi⟩ := mem_binariesIn.1 hmem
  have hfollowed := (Inst.binary?_eq_some.1 hi).2.2.2.2
  refine ⟨⟨block.id, block, before, i, after⟩, ⟨hblock, hinsts⟩, hhome, ?_, hfollowed ▸ hi⟩
  rw [← hfollowed, Bool.or_eq_true, Bool.not_eq_true', List.isEmpty_eq_false_iff,
    Option.isSome_iff_ne_none]
  exact Iff.rfl

end Function

/-! ### The specification -/

/-- What the specification makes of a binary operation: the reason for which it is left alone, if
    there is one. -/
def Function.verdict (f : Function) (options : InstrumentOptions) (o : BinaryInst) :
    Option SkipReason :=
  let lhsTy := f.operandType? o.lhs
  let rhsTy := f.operandType? o.rhs
  let resultTy := f.valueType? o.result
  let placed := if o.followed then none else some .noSplitPoint
  if o.op.isFloat ∨ resultTy.any (·.isFloat) then
    if ¬ options.fpChecks then some .familyDisabled
    else if ¬ (o.op.isFloat ∧ resultTy.any (·.isFloat) ∧ lhsTy = resultTy ∧ rhsTy = resultTy) then
      some .operandType
    else placed
  else if ¬ options.intChecks then some .familyDisabled
  else if ¬ (lhsTy = some (.int 32) ∧ rhsTy = some (.int 32)) then some .unsupportedType
  else if o.flags.bits &&& 3 ≠ 0 then some .noWrapFlags
  else if o.op ∉ [.add, .sub, .mul, .sdiv, .udiv] then some .unsupportedOp
  else if resultTy ≠ some (.int 32) then some .operandType
  else placed

namespace Function

variable {f g : Function} {options : InstrumentOptions} {i : Inst} {o : BinaryInst}

/-- Only the types of the operands and of the result matter. -/
theorem verdict_congr (hlhs : g.operandType? o.lhs = f.operandType? o.lhs)
    (hrhs : g.operandType? o.rhs = f.operandType? o.rhs)
    (hresult : g.valueType? o.result = f.valueType? o.result) :
    g.verdict options o = f.verdict options o := by
  simp only [verdict, hlhs, hrhs, hresult]

/-- The reason that a qualification gives; one that succeeds depends on the place. -/
def reasonOf (placed : Option SkipReason) : Except SkipReason Qualified → Option SkipReason
  | .error reason => some reason
  | .ok _ => placed

@[simp] theorem reasonOf_error (placed : Option SkipReason) (reason : SkipReason) :
    reasonOf placed (.error reason) = some reason := rfl

@[simp] theorem reasonOf_ok (placed : Option SkipReason) (q : Qualified) :
    reasonOf placed (.ok q) = placed := rfl

variable {op : BinOp} {lhs rhs : Operand} {flags : WrapFlags} {result : ValueId}
  {lhsTy rhsTy resultTy : Option Ty} {placed : Option SkipReason}

/-- The reasons against a floating-point operation, in the order they are tried. -/
theorem reasonOf_qualifyFloat :
    reasonOf placed (qualifyFloat options op lhs rhs result lhsTy rhsTy resultTy) =
      if ¬ options.fpChecks then some .familyDisabled
      else if ¬ (op.isFloat ∧ resultTy.any (·.isFloat) ∧ lhsTy = resultTy ∧ rhsTy = resultTy) then
        some .operandType
      else placed := by
  unfold qualifyFloat
  -- The option is asked first; the tests of types are one conjunction, whatever their order.
  by_cases hoption : options.fpChecks = true
  · cases resultTy with
    | none => simp [hoption]
    | some ty =>
      by_cases hfits : op.isFloat = true ∧ ty.isFloat = true ∧ lhsTy = some ty ∧ rhsTy = some ty
      · obtain ⟨hop, hfloat, rfl, rfl⟩ := hfits
        simp [hoption, hop, hfloat]
      · have hfits' : (ty.isFloat && op.isFloat && lhsTy == some ty && rhsTy == lhsTy) = false := by
          rw [Bool.eq_false_iff]
          intro hall
          simp only [Bool.and_eq_true, beq_iff_eq] at hall
          obtain ⟨⟨⟨hfloat, hop⟩, hlhs⟩, hrhs⟩ := hall
          exact hfits ⟨hop, hfloat, hlhs, hrhs.trans hlhs⟩
        simp [hoption, hfits', hfits]
  · simp [hoption]

/-- The watched integer operators are those with checks that are no float operators. -/
theorem checks_eq_nil_iff (h : op.isFloat = false) :
    op.checks = [] ↔ op ∉ [.add, .sub, .mul, .sdiv, .udiv] := by
  cases op <;> simp_all [BinOp.checks, BinOp.isFloat]

/-- The reasons against an integer operation, in the order they are tried. -/
theorem reasonOf_qualifyInt (hop : op.isFloat = false) :
    reasonOf placed (qualifyInt options op lhs rhs flags result lhsTy rhsTy resultTy) =
      if ¬ options.intChecks then some .familyDisabled
      else if ¬ (lhsTy = some (.int 32) ∧ rhsTy = some (.int 32)) then some .unsupportedType
      else if flags.bits &&& 3 ≠ 0 then some .noWrapFlags
      else if op ∉ [.add, .sub, .mul, .sdiv, .udiv] then some .unsupportedOp
      else if resultTy ≠ some (.int 32) then some .operandType
      else placed := by
  have hflags : flags.intersects (.union .nsw .nuw) = true ↔ flags.bits &&& 3 ≠ 0 := bne_iff_ne
  simp only [qualifyInt, apply_ite (reasonOf placed), reasonOf_error, reasonOf_ok]
  simp only [checks_eq_nil_iff hop, hflags, watchedIntTy, not_and_or, Bool.not_eq_true,
    Bool.not_eq_true', ne_eq]
  rfl

/-- **Qualification follows the specification**, as far as the place of the instruction goes. -/
theorem reasonOf_qualify (f : Function) (options : InstrumentOptions)
    (hi : i.binary? o.followed = some o) :
    reasonOf (if o.followed then none else some .noSplitPoint) (f.qualify options i) =
      f.verdict options o := by
  obtain ⟨hkind, -, hresult, -, -⟩ := Inst.binary?_eq_some.1 hi
  unfold qualify verdict
  -- The specification asks for the operator first, the program for the result.
  simp only [hkind, hresult, Bool.or_eq_true, or_comm (a := o.op.isFloat = true),
    apply_ite (reasonOf _), reasonOf_qualifyFloat]
  split
  · rfl
  · next hint =>
    have hop : o.op.isFloat = false := by
      simp only [not_or, Bool.not_eq_true] at hint
      exact hint.2
    rw [reasonOf_qualifyInt hop]

end Function

/-! ### What the pass keeps -/

namespace Function

/-- What is asked of a function: its layout can be walked, its instruction ids are distinct and
    below the next free one, and its instructions mention no values but its own. -/
structure Numbered (f : Function) : Prop extends Arranged f where
  instIds_nodup : (f.allInsts.map (·.id)).Nodup
  freshIds : f.FreshIds
  results_lt : ∀ i ∈ f.allInsts, i.result.index < f.valueTypes.size
  operands_lt : ∀ i ∈ f.allInsts, ∀ v, .value v ∈ i.kind.operands → v.index < f.valueTypes.size

/-- `g` is `f` with insertions: the instructions of `f` come first, and its values keep their types.
    Nothing is said about the ids of the other instructions. -/
structure Grown (f g : Function) : Prop extends Arranged g where
  entries_eq : ∃ new, g.entries = f.entries ++ new
  valueTypes_eq : ∃ more, g.valueTypes = f.valueTypes ++ more

variable {f g h : Function}

/-- At the start no site is inserted, and the function is grown from itself. -/
theorem Numbered.grown (hf : f.Numbered) : f.Grown f where
  toArranged := hf.toArranged
  entries_eq := ⟨[], (List.append_nil _).symm⟩
  valueTypes_eq := ⟨#[], Array.append_empty.symm⟩

/-- **An operation is found where it was**, at the first place with its id. -/
theorem Grown.spot (hg : f.Grown g) (hf : f.Numbered) {o : BinaryInst}
    (ho : o ∈ f.binaries) :
    ∃ p : Spot, p.In g ∧ p.home ∈ g.layout ∧ (p.Followed ↔ o.followed = true) ∧
      p.inst.binary? o.followed = some o ∧
      g.locate o.id = .ok (some (p.home, p.before.length)) := by
  obtain ⟨new, hnew⟩ := hg.entries_eq
  have hmem := mem_entries ho
  -- The entries of `f` come first, and among them the id leads to the operation only.
  have hfind : g.entries.find? (·.1 == o.id) = some (o.id, some o) := by
    obtain ⟨before, after, hsplit⟩ := List.append_of_mem hmem
    have hnodup := hf.instIds_nodup
    rw [← map_fst_entries, hsplit, List.map_append, List.map_cons, List.nodup_middle,
      List.nodup_cons, List.mem_append, not_or] at hnodup
    have hnone : before.find? (·.1 == o.id) = none := by
      refine List.find?_eq_none.2 fun e he hid => hnodup.1.1 ?_
      have hfst : e.1 ∈ before.map (·.1) := List.mem_map_of_mem he
      rwa [eq_of_beq hid] at hfst
    rw [hnew, hsplit, List.append_assoc, List.find?_append, hnone]
    simp
  have hid : o.id ∈ g.allInsts.map (·.id) := by
    rw [← map_fst_entries, hnew, List.map_append]
    exact List.mem_append_left _ (List.mem_map_of_mem hmem)
  rcases hg.locate_cases o.id with ⟨-, hnone⟩ | ⟨p, hp, hhome, hpid, hlocate⟩
  · obtain ⟨j, hj, hjid⟩ := List.mem_map.1 hid
    exact absurd hjid (hnone j hj)
  · rw [← hpid, find?_entries hp, hpid] at hfind
    have hbinary := (Prod.mk.inj (Option.some.inj hfind)).2
    have hfollowed := (Inst.binary?_eq_some.1 hbinary).2.2.2.2
    refine ⟨p, hp.toIn, hhome, ?_, hfollowed ▸ hbinary, hlocate⟩
    rw [← hfollowed, Bool.or_eq_true, Bool.not_eq_true', List.isEmpty_eq_false_iff,
      Option.isSome_iff_ne_none]
    exact Iff.rfl

end Function

/-- An insertion adds the instructions of its decision blocks. -/
theorem Insertion.Carves.entries_eq {s : Insertion} {g h : Function} (hc : s.Carves g h)
    (hg : g.Arranged) (hs : s.spot.In g) (hhome : s.spot.home ∈ g.layout)
    (hfollowed : s.spot.Followed) : h.entries = g.entries ++
      (s.decisions g).flatMap fun d => (s.probe.close d "").entries := by
  refine hc.flatMap_laidOut hg hs hhome
    (fun block old new => entriesIn_repoint block.term old new block.insts) (fun t name => ?_)
    fun d name => rfl
  rw [Block.entries, Block.entries, Block.entries, hs.insts_eq]
  exact entriesIn_cut hfollowed t

/-- Among them are the binary operations of these. -/
theorem Insertion.Carves.binaries_eq {s : Insertion} {g h : Function} (hc : s.Carves g h)
    (hg : g.Arranged) (hs : s.spot.In g) (hhome : s.spot.home ∈ g.layout)
    (hfollowed : s.spot.Followed) : h.binaries = g.binaries ++
      (s.decisions g).flatMap fun d => (s.probe.close d "").binaries := by
  rw [← Function.filterMap_entries, hc.entries_eq hg hs hhome hfollowed, List.filterMap_append,
    Function.filterMap_entries, List.filterMap_flatMap]
  exact congrArg _ (List.flatMap_congr fun d _ => filterMap_entriesIn ..)

namespace Function

variable {f g h : Function}

/-- A site at an operation of the original leaves the function grown from the original. -/
theorem Grown.carve {s : Insertion} (hg : f.Grown g) (hc : s.Carves g h) (hs : s.spot.In g)
    (hhome : s.spot.home ∈ g.layout) (hfollowed : s.spot.Followed) : f.Grown h where
  toArranged := hc.arranged hg.toArranged hs
  entries_eq := by
    obtain ⟨new, hnew⟩ := hg.entries_eq
    rw [hc.entries_eq hg.toArranged hs hhome hfollowed, hnew, List.append_assoc]
    exact ⟨_, rfl⟩
  valueTypes_eq := by
    obtain ⟨more, hmore⟩ := hg.valueTypes_eq
    exact ⟨_, by rw [hc.valueTypes_eq, hmore, Array.append_assoc]⟩

/-- **Verdicts last**: whatever was inserted, they are those of the function at first. -/
theorem Numbered.verdict_eq (hf : f.Numbered) (hg : f.Grown g) {o : BinaryInst}
    (ho : o ∈ f.binaries) (options : InstrumentOptions) :
    g.verdict options o = f.verdict options o := by
  obtain ⟨p, hp, hhome, -, hbinary⟩ := hf.spot_of_mem_binaries ho
  obtain ⟨hkind, -, hresult, -⟩ := Inst.binary?_eq_some.1 hbinary
  have hmem := hf.inst_mem_allInsts hp hhome
  -- The types of the original are a prefix of those of the grown function, and a numbered function
  -- reads no further.
  obtain ⟨more, hmore⟩ := hg.valueTypes_eq
  have hvalue : ∀ v : ValueId, v.index < f.valueTypes.size → g.valueType? v = f.valueType? v := by
    intro v hv
    rw [valueType?, valueType?, hmore, Array.getElem?_append_left hv]
  have hoperand : ∀ op ∈ p.inst.kind.operands, g.operandType? op = f.operandType? op := by
    intro op hop
    cases op with
    | value v => exact hvalue v (hf.operands_lt p.inst hmem v hop)
    | const c => rfl
  rw [hkind] at hoperand
  exact verdict_congr (hoperand _ List.mem_cons_self)
    (hoperand _ (List.mem_cons_of_mem _ List.mem_cons_self))
    (hvalue _ (hresult ▸ hf.results_lt p.inst hmem))

end Function

/-! ### One instruction -/

/-- What a report says of an instrumented operation: the instruction and what is checked. -/
def CheckSite.summary (s : CheckSite) : InstId × BinOp × Option Location × List CheckKind :=
  (s.inst, s.op, s.location, s.kinds)

/-- What it has to say of one. -/
def BinaryInst.summary (o : BinaryInst) : InstId × BinOp × Option Location × List CheckKind :=
  (o.id, o.op, o.location, o.op.checks.map (·.kind))

/-- What a report has to say of an operation that is left alone. -/
def BinaryInst.skipped (o : BinaryInst) (reason : SkipReason) : SkippedInst :=
  { inst := o.id, op := o.op, reason, location := o.location }

/-- The site reports the operation it stands behind, whatever its number. -/
theorem Insertion.summary_site {s : Insertion} {f : Function} (hs : s.Fits f) {followed : Bool}
    {o : BinaryInst} (ho : s.spot.inst.binary? followed = some o) (id : SiteId) :
    (s.site f id).summary = o.summary := by
  obtain ⟨hkind, hid, -, hlocation, -⟩ := Inst.binary?_eq_some.1 ho
  obtain ⟨flags, hwatches⟩ := hs.watches
  have hop : s.probe.watched.op = o.op := by
    rw [hkind] at hwatches
    injection hwatches with hop
    exact hop.symm
  have hkinds : (s.site f id).kinds = o.op.checks.map (·.kind) := by
    rw [← hop, ← hs.checks_eq, ← map_predicate_decisions (f := f), List.map_map, CheckSite.kinds,
      site, List.map_map]
    rfl
  rw [CheckSite.summary, BinaryInst.summary, hkinds, ← hid, ← hop, ← hlocation, ← hs.location_eq]
  rfl

/-- The insertion of the checks of `o` leads from `g` to `h`. -/
structure Insertion.Behind (s : Insertion) (o : BinaryInst) (g h : Function) : Prop where
  fits : s.Fits g
  home_mem : s.spot.home ∈ g.layout
  followed : s.spot.Followed
  carves : s.Carves g h
  op_eq : s.probe.watched.op = o.op

theorem Function.Grown.behind {f g h : Function} {s : Insertion} {o : BinaryInst} (hg : f.Grown g)
    (hs : s.Behind o g h) : f.Grown h :=
  hg.carve hs.carves hs.fits.spot_in hs.home_mem hs.followed

namespace Edit

variable {f g : Function} {report : FunctionReport} (t : Threshold) (options : InstrumentOptions)

/-- **One id of the work list.** The operation is left alone for the reason that the specification
    gives, or becomes a site if it gives none. -/
theorem instrumentInst_verdict (hf : f.Numbered) (hg : f.Grown g)
    (hm : RecordsIn g report.checks) {o : BinaryInst} (ho : o ∈ f.binaries) :
    (∃ reason, f.verdict options o = some reason ∧
      instrumentInst t options report o.id g =
        .ok { report with skipped := report.skipped ++ [o.skipped reason] } g) ∨
    ∃ site checks h, f.verdict options o = none ∧ site.summary = o.summary ∧
      instrumentInst t options report o.id g =
        .ok { report with sites := report.sites ++ [site], checks } h ∧
      (∃ s : Insertion, s.Behind o g h) ∧ RecordsIn h checks := by
  -- The operation is found where the original has it, however many sites precede.
  obtain ⟨p, hp, hhome, hfollowed, hbinary, hlocate⟩ := hg.spot hf ho
  obtain ⟨hkind, hid, -, hlocation, -⟩ := Inst.binary?_eq_some.1 hbinary
  rw [← hid] at hlocate
  have hinst : query (·.inst p.inst.id) g = .ok (some p.inst) g :=
    query_eq (Function.inst_eq_ok hp hlocate)
  have hreason := Function.reasonOf_qualify g options hbinary
  -- The verdict read in the grown function is that of the original.
  rw [hf.verdict_eq hg ho] at hreason
  rw [← hreason, ← hid, instrumentInst, bind_eq hinst]
  simp only [hkind]
  rw [bind_eq (show (get : Edit Function) g = .ok g g from rfl)]
  cases hq : g.qualify options p.inst with
  | error reason =>
    refine .inl ⟨reason, rfl, ?_⟩
    rw [hid, hlocation]
    rfl
  | ok q =>
    have hs := Function.fits_of_qualify hp hq t
    -- A qualified operation at the open end of its block has nothing to be split from.
    by_cases hplaced : o.followed = true
    · obtain ⟨h, hinsert, hc⟩ := insertSite_eq hs (hfollowed.2 hplaced) q.family
        ⟨report.sites.length⟩ hlocate hm
      obtain ⟨hqualified, -⟩ := Function.qualify_eq_ok hq
      have hop : q.watched.op = o.op := by
        obtain ⟨flags, hqualified⟩ := hqualified
        exact (InstKind.binary.inj (hqualified.symm.trans hkind)).1
      exact .inr ⟨_, _, h, if_pos hplaced, Insertion.summary_site hs hbinary _, bind_eq hinsert,
        ⟨_, hs, hhome, hfollowed.2 hplaced, hc, hop⟩, hm.recordAll hc.size _⟩
    · have hnone := insertSite_eq_none hp hlocate (mt hfollowed.1 hplaced) t q
        ⟨report.sites.length⟩ report.checks
      refine .inl ⟨.noSplitPoint, if_neg hplaced, (bind_eq hnone).trans ?_⟩
      rw [hid, hlocation]
      rfl

/-! ### The whole pass -/

/-- **The work list.** Each of its operations is added to the one list of the report or to the
    other, behind those that are there.  What the insertions behind them keep holds at the end. -/
theorem foldlM_instrumentInst_keeps {P : Function → Prop} (hf : f.Numbered)
    (hkeeps : ∀ (g h : Function) (s : Insertion) (o : BinaryInst), f.Grown g →
      f.verdict options o = none → s.Behind o g h → P g → P h)
    (hg : f.Grown g) (hP : P g) (report : FunctionReport) (hm : RecordsIn g report.checks)
    (os : List BinaryInst) (hos : ∀ o ∈ os, o ∈ f.binaries) :
    ∃ report' h, (os.map (·.id)).foldlM (instrumentInst t options) report g = .ok report' h ∧
      RecordsIn h report'.checks ∧
      report'.sites.map (·.summary) = report.sites.map (·.summary) ++
        (os.filter fun o => f.verdict options o = none).map (·.summary) ∧
      report'.skipped = report.skipped ++
        os.filterMap (fun o => (f.verdict options o).map o.skipped) ∧ f.Grown h ∧ P h := by
  -- By induction on the operations left; the function stays grown from the original.
  induction os generalizing g report with
  | nil =>
    exact ⟨report, g, rfl, hm, (List.append_nil _).symm, (List.append_nil _).symm, hg, hP⟩
  | cons o rest ih =>
    obtain ⟨ho, hrest⟩ := List.forall_mem_cons.1 hos
    rw [List.map_cons, List.foldlM_cons]
    rcases instrumentInst_verdict t options hf hg hm ho with
      ⟨reason, hverdict, hstep⟩ | ⟨site, checks, h, hverdict, hsummary, hstep, ⟨s, hs⟩, hm'⟩
    · obtain ⟨report', h', hrun, hm', hsites, hskipped, hkept⟩ := ih hg hP
        { report with skipped := report.skipped ++ [o.skipped reason] } hm hrest
      refine ⟨report', h', (bind_eq hstep).trans hrun, hm', ?_, ?_, hkept⟩
      · simp [hsites, hverdict]
      · simp [hskipped, hverdict]
    · obtain ⟨report', h', hrun, hm', hsites, hskipped, hkept⟩ :=
        ih (hg.behind hs) (hkeeps g h s o hg hverdict hs hP)
          { report with sites := report.sites ++ [site], checks } hm' hrest
      refine ⟨report', h', (bind_eq hstep).trans hrun, hm', ?_, ?_, hkept⟩
      · simp [hsites, hverdict, hsummary]
      · simp [hskipped, hverdict]

/-- The loop alone: each operation gets its verdict, in order. -/
theorem foldlM_instrumentInst_verdict (hf : f.Numbered) (hg : f.Grown g)
    (report : FunctionReport) (hm : RecordsIn g report.checks) (os : List BinaryInst)
    (hos : ∀ o ∈ os, o ∈ f.binaries) :
    ∃ report' h, (os.map (·.id)).foldlM (instrumentInst t options) report g = .ok report' h ∧
      RecordsIn h report'.checks ∧
      report'.sites.map (·.summary) = report.sites.map (·.summary) ++
        (os.filter fun o => f.verdict options o = none).map (·.summary) ∧
      report'.skipped = report.skipped ++
        os.filterMap fun o => (f.verdict options o).map o.skipped := by
  obtain ⟨report', h, hrun, hm', hsites, hskipped, -⟩ := foldlM_instrumentInst_keeps
    (P := fun _ => True) t options hf (fun _ _ _ _ _ _ _ _ => trivial) hg trivial report hm os hos
  exact ⟨report', h, hrun, hm', hsites, hskipped⟩

end Edit

/-- The operations that are left alone are those that are no sites. -/
theorem Function.map_inst_skipped (f : Function) (options : InstrumentOptions)
    (os : List BinaryInst) :
    (os.filterMap fun o => (f.verdict options o).map o.skipped).map (·.inst) =
      (os.filter fun o => !decide (f.verdict options o = none)).map (·.id) := by
  induction os with
  | nil => rfl
  | cons o rest ih =>
    cases hverdict : f.verdict options o <;> simp [hverdict, ih, BinaryInst.skipped]

/-- **Exactly the specified instructions are instrumented, each once.** Take any function whose
    layout can be walked, whose instruction ids are distinct and below the next free one, and whose
    instructions mention no values but its own.  The pass succeeds, and its report has a site for
    every binary operation that the specification gives no reason to leave alone, and an entry with
    the reason for every other one; both lists are in layout order, and together they name every
    binary operation of the layout once and nothing else. -/
theorem instrument_verdicts (f : Function) (hf : f.Numbered) (t : Threshold)
    (options : InstrumentOptions) :
    ∃ report g, Edit.instrument t options f = .ok report g ∧
      report.sites.map (·.summary) =
        (f.binaries.filter fun o => f.verdict options o = none).map (·.summary) ∧
      report.skipped = (f.binaries.filterMap fun o => (f.verdict options o).map o.skipped) ∧
      (report.sites.map (·.inst) ++ report.skipped.map (·.inst)).Perm
        ((f.allInsts.filter (·.kind.isBinary)).map (·.id)) ∧
      (report.sites.map (·.inst) ++ report.skipped.map (·.inst)).Nodup := by
  have hwork : Edit.workList f = .ok (f.binaries.map (·.id)) := by
    rw [Edit.workList, hf.blocksInLayout_eq, f.map_id_binaries]
    rfl
  obtain ⟨report, g, hfold, hm, hsites, hskipped⟩ := Edit.foldlM_instrumentInst_verdict t
    options hf hf.grown { function := f.name } (fun b hb => by cases hb) f.binaries fun o ho => ho
  obtain ⟨h, hinstrument⟩ := Edit.instrument_of_foldlM t options hwork hfold hm
  rw [List.map_nil, List.nil_append] at hsites
  rw [List.nil_append] at hskipped
  -- Sites and skipped operations are the two halves of the work list.
  have hinsts : report.sites.map (·.inst) =
      (f.binaries.filter fun o => f.verdict options o = none).map (·.id) := by
    have hfst := congrArg (List.map Prod.fst) hsites
    rwa [List.map_map, List.map_map] at hfst
  have hperm : (report.sites.map (·.inst) ++ report.skipped.map (·.inst)).Perm
      ((f.allInsts.filter (·.kind.isBinary)).map (·.id)) := by
    rw [hinsts, hskipped, f.map_inst_skipped, ← List.map_append, ← f.map_id_binaries]
    exact (List.filter_append_perm _ _).map _
  refine ⟨report, h, hinstrument, hsites, hskipped, hperm, hperm.nodup_iff.2 ?_⟩
  exact hf.instIds_nodup.sublist (List.filter_sublist.map _)

/-- A function under construction: its first block is open, its second one branches to nowhere, and
    its third one is not in the layout. -/
def unfinished : Function where
  name := "unfinished"
  params := [⟨0⟩, ⟨1⟩]
  returnType := none
  valueTypes := #[.int 32, .int 32, .int 32, .int 32, .i1, .int 32, .int 8, .f64, .int 32]
  blocks := #[
    { id := ⟨0⟩
      name := "open"
      insts := [
        { id := ⟨8⟩, result := ⟨8⟩, kind := .binary .mul (.value ⟨0⟩) (.value ⟨1⟩) .empty }]
      term := none },
    { id := ⟨1⟩
      name := "closed"
      insts := [
        { id := ⟨0⟩, result := ⟨2⟩, kind := .binary .add (.value ⟨0⟩) (.value ⟨1⟩) .empty },
        { id := ⟨3⟩, result := ⟨3⟩, kind := .binary .sub (.value ⟨2⟩) (.value ⟨1⟩) .nsw },
        { id := ⟨2⟩, result := ⟨4⟩, kind := .icmp .eq (.value ⟨2⟩) (.value ⟨3⟩) },
        { id := ⟨5⟩, result := ⟨5⟩, kind := .binary .srem (.value ⟨0⟩) (.value ⟨1⟩) .empty },
        { id := ⟨6⟩, result := ⟨6⟩, kind := .binary .add (.value ⟨6⟩) (.value ⟨6⟩) .empty },
        { id := ⟨7⟩, result := ⟨7⟩, kind := .binary .fadd (.value ⟨7⟩) (.value ⟨0⟩) .empty }]
      term := some { exit := .br ⟨99⟩ } },
    { id := ⟨2⟩
      name := "orphan"
      insts := [
        { id := ⟨0⟩, result := ⟨50⟩, kind := .binary .add (.value ⟨0⟩) (.value ⟨1⟩) .empty }]
      term := none }]
  layout := [⟨1⟩, ⟨0⟩]
  entry := ⟨0⟩
  instCount := 9

/-- The ids of the example are numbered as the pass expects. -/
theorem numbered_unfinished : unfinished.Numbered where
  ids := by
    rintro ⟨n⟩ block hblock
    have hn : n < 3 := Function.lt_of_block? hblock
    -- The three blocks are looked up one by one.
    rcases n with _ | _ | _ | n
    · cases hblock; rfl
    · cases hblock; rfl
    · cases hblock; rfl
    · omega
  layout_nodup := by decide
  layout_lt := by decide
  instIds_nodup := by decide
  freshIds := by unfold Function.FreshIds; decide
  results_lt := by decide
  operands_lt := by
    have hall : ∀ i ∈ unfinished.allInsts, ∀ op ∈ i.kind.operands,
        ∃ n < unfinished.valueTypes.size, op = .value ⟨n⟩ := by decide
    intro i hi v hv
    obtain ⟨n, hn, e⟩ := hall i hi _ hv
    cases e
    exact hn

/-- The example has one site and reasons of three different stages. -/
theorem instrument_verdicts_unfinished :
    ∃ report g, Edit.instrument .hundred {} unfinished = .ok report g ∧
      report.sites.map (·.summary) = [(⟨0⟩, .add, none,
        [.intOverflow, .intExceptionalSignedValue, .intExceptionalUnsignedValue])] ∧
      report.skipped = [
        { inst := ⟨3⟩, op := .sub, reason := .noWrapFlags },
        { inst := ⟨5⟩, op := .srem, reason := .unsupportedOp },
        { inst := ⟨6⟩, op := .add, reason := .unsupportedType },
        { inst := ⟨7⟩, op := .fadd, reason := .operandType },
        { inst := ⟨8⟩, op := .mul, reason := .noSplitPoint }] := by
  obtain ⟨report, g, hrun, hsites, hskipped, -⟩ :=
    instrument_verdicts unfinished numbered_unfinished .hundred {}
  exact ⟨report, g, hrun, hsites.trans (by decide), hskipped.trans (by decide)⟩

end ArithWatch
