import ArithWatch.Proofs.Check.Formula
import ArithWatch.Proofs.IR.Cut

namespace ArithWatch

/-!
# Functions with another threshold

The threshold shows only in the constants of bound checks.

* `CheckKind.isBound` are the kinds of checks that compare with the threshold, and
  `CheckKind.bound?` is what they compare with.
* `Function.retune` exchanges these constants for those of another threshold.
* `Function.retune_append`, `Function.retune_cutBlock` and the lemmas beside them: changes of
  functions and retuning can be made in either order.
* `Function.locate_retune` and the lemmas behind it: questions have the same answers.
-/

/-! ### The constants of bound checks -/

namespace CheckKind

/-- Does a check of this kind compare with the threshold? -/
def isBound : CheckKind → Bool
  | .fpExceptionalValue | .intExceptionalSignedValue | .intExceptionalUnsignedValue => true
  | .fpOverflow | .fpDividedByZero | .intOverflow | .intDividedByZero => false

/-- What a check of this kind compares a result of type `ty` with by an operation. -/
def bound? (k : CheckKind) (t : Threshold) (ty : Ty) (o : Operation) : Option Constant :=
  match k, o with
  | .intExceptionalSignedValue, .icmp .slt => some (.int ty (-(t.intBound ty).signed))
  | .intExceptionalSignedValue, .icmp .sgt => some (t.intBound ty)
  | .intExceptionalUnsignedValue, .icmp .ugt => some (t.intBound ty)
  | .fpExceptionalValue, .fcmp .olt =>
    some (.float ty (BinaryFormat.double.neg (t.floatBound ty).double))
  | .fpExceptionalValue, .fcmp .ogt => some (t.floatBound ty)
  | _, _ => none

/-- Only bound checks compare with the threshold. -/
theorem bound?_of_not_isBound {k : CheckKind} (h : k.isBound = false) (t : Threshold) (ty : Ty)
    (o : Operation) : k.bound? t ty o = none := by
  cases k <;> first | rfl | cases h

/-- Only comparisons have such constants. -/
theorem bound?_arith (k : CheckKind) (t : Threshold) (ty : Ty) (op : BinOp) :
    k.bound? t ty (.arith op) = none := by
  cases k <;> rfl

/-- The constants have the type of what they are compared with. -/
theorem ty_of_bound? {k : CheckKind} {t : Threshold} {ty : Ty} {o : Operation} {c : Constant}
    (h : k.bound? t ty o = some c) : c.ty = ty := by
  unfold bound? at h
  split at h <;> cases h <;> rfl

end CheckKind

/-! ### Retuning -/

/-- The instruction of a check with the constant of a threshold. -/
def InstKind.retune (k : CheckKind) (t : Threshold) : InstKind → InstKind
  | .icmp pred lhs (.const c) => .icmp pred lhs (.const ((k.bound? t c.ty (.icmp pred)).getD c))
  | .fcmp pred lhs (.const c) => .fcmp pred lhs (.const ((k.bound? t c.ty (.fcmp pred)).getD c))
  | kind => kind

/-- The instruction of a check with the constant of a threshold. -/
def Inst.retune (k : CheckKind) (t : Threshold) (i : Inst) : Inst :=
  { i with kind := i.kind.retune k t }

/-- The block with the constants of a threshold, if it is the decision block of a check. -/
def Block.retune (k : Option CheckKind) (t : Threshold) (b : Block) : Block :=
  match k with
  | some k => { b with insts := b.insts.map (·.retune k t) }
  | none => b

/-- The function with the constants of a threshold in the decision blocks of its checks. -/
def Function.retune (t : Threshold) (m : CheckMap) (f : Function) : Function :=
  { f with blocks := f.blocks.mapIdx fun n b => b.retune (m.kind? ⟨n⟩) t }

section Instructions

variable {k : CheckKind} {t : Threshold}

@[simp] theorem Inst.id_retune (i : Inst) : (i.retune k t).id = i.id := rfl

namespace InstKind

@[simp] theorem isBinary_retune (kind : InstKind) : (kind.retune k t).isBinary = kind.isBinary := by
  unfold retune
  split <;> rfl

/-- Only comparisons hold limits, so a binary instruction is not touched. -/
theorem retune_of_isBinary {kind : InstKind} (h : kind.isBinary = true) :
    kind.retune k t = kind := by
  cases kind <;> first | rfl | cases h

/-- Only bound checks are retuned. -/
theorem retune_of_not_isBound (h : k.isBound = false) (kind : InstKind) :
    kind.retune k t = kind := by
  unfold retune
  split <;> simp [CheckKind.bound?_of_not_isBound h]

end InstKind

/-- The checks that read no threshold are not touched at all. -/
theorem Inst.retune_of_not_isBound (h : k.isBound = false) (i : Inst) : i.retune k t = i := by
  rw [retune, InstKind.retune_of_not_isBound h]

end Instructions

section Blocks

variable {k : Option CheckKind} {t : Threshold}

@[simp] theorem Block.id_retune (b : Block) : (b.retune k t).id = b.id := by
  cases k <;> rfl

@[simp] theorem Block.name_retune (b : Block) : (b.retune k t).name = b.name := by
  cases k <;> rfl

@[simp] theorem Block.term_retune (b : Block) : (b.retune k t).term = b.term := by
  cases k <;> rfl

/-- Only decision blocks of bound checks are retuned. -/
theorem Block.retune_of_not_isBound (h : ∀ k', k = some k' → k'.isBound = false) (b : Block) :
    b.retune k t = b := by
  cases k with
  | none => rfl
  | some k =>
    rw [retune, List.map_id'' fun i => i.retune_of_not_isBound (h k rfl)]

/-- Code appended to a check block is retuned with it. -/
theorem Block.retune_extend (k : CheckKind) (b : Block) (code : List Inst) :
    (b.extend code).retune (some k) t =
      (b.retune (some k) t).extend (code.map (·.retune k t)) := by
  simp [retune, extend]

/-- Retuning and repointing have nothing to do with each other. -/
theorem Inst.retune_repoint (k : CheckKind) (i : Inst) (old new : BlockId) :
    (i.repoint old new).retune k t = (i.retune k t).repoint old new := by
  cases hk : i.kind with
  | phi incoming => simp [retune, repoint, hk, InstKind.retune, InstKind.repoint]
  | binary op lhs rhs flags => simp [retune, repoint, hk, InstKind.retune, InstKind.repoint]
  | icmp pred lhs rhs =>
    cases rhs <;> simp [retune, repoint, hk, InstKind.retune, InstKind.repoint]
  | fcmp pred lhs rhs =>
    cases rhs <;> simp [retune, repoint, hk, InstKind.retune, InstKind.repoint]

/-- Retuning and renaming predecessors do not meet: limits stand in comparisons. -/
theorem Block.retune_repoint (b : Block) (old new : BlockId) :
    (b.repoint old new).retune k t = (b.retune k t).repoint old new := by
  cases k with
  | none => rfl
  | some k =>
    simp only [retune, repoint, List.map_map, Function.comp_def, Inst.retune_repoint]

end Blocks

namespace Function

variable {f g : Function} {t : Threshold} {m m' : CheckMap}

@[simp] theorem size_retune : (f.retune t m).blocks.size = f.blocks.size := by
  simp [retune]

/-- The blocks of the retuned function. -/
theorem block?_retune (b : BlockId) :
    (f.retune t m).block? b = (f.block? b).map (·.retune (m.kind? b) t) := by
  simp [retune, block?]

/-- What the map says of blocks that are not there plays no part. -/
theorem retune_congr (h : ∀ b : BlockId, b.index < f.blocks.size → m.kind? b = m'.kind? b) :
    f.retune t m = f.retune t m' := by
  have hblocks : (f.blocks.mapIdx fun n b => b.retune (m.kind? ⟨n⟩) t) =
      f.blocks.mapIdx fun n b => b.retune (m'.kind? ⟨n⟩) t := by
    refine Array.ext (by simp) fun n hn _ => ?_
    simp only [Array.getElem_mapIdx, h ⟨n⟩ (by simpa using hn)]
  rw [retune, retune, hblocks]

/-- Without checks there is nothing to retune. -/
theorem retune_eq_self (h : ∀ b : BlockId, b.index < f.blocks.size → m.kind? b = none) :
    f.retune t m = f := by
  have hblocks : (f.blocks.mapIdx fun n b => b.retune (m.kind? ⟨n⟩) t) = f.blocks := by
    refine Array.ext (by simp) fun n hn _ => ?_
    simp only [Array.getElem_mapIdx, h ⟨n⟩ (by simpa using hn)]
    rfl
  rw [retune, hblocks]

/-! ### Retuning and changes -/

/-- A change of one block is retuned with the kind the map gives to that block. -/
theorem retune_updateBlock {b : BlockId} {change change' : Block → Block}
    (h : ∀ block, (change block).retune (m.kind? b) t = change' (block.retune (m.kind? b) t)) :
    (f.updateBlock b change).retune t m = (f.retune t m).updateBlock b change' := by
  have hblocks : ((f.blocks.modify b.index change).mapIdx fun n b => b.retune (m.kind? ⟨n⟩) t) =
      (f.blocks.mapIdx fun n b => b.retune (m.kind? ⟨n⟩) t).modify b.index change' := by
    refine Array.ext_getElem? fun n => ?_
    simp only [Array.getElem?_mapIdx, Array.getElem?_modify]
    split
    · next hn =>
      subst hn
      simp only [Option.map_map, Function.comp_def, h]
    · rfl
  simp only [retune, updateBlock, hblocks]

/-- A change of nothing but a terminator. -/
theorem retune_setTerm (b : BlockId) (change : Option Terminator → Option Terminator) :
    (f.updateBlock b fun block => { block with term := change block.term }).retune t m =
      (f.retune t m).updateBlock b fun block => { block with term := change block.term } :=
  retune_updateBlock fun block => by cases m.kind? b <;> rfl

/-- A new block at the end. -/
theorem retune_push (block : Block) (layout : List BlockId)
    (h : block.retune (m.kind? ⟨f.blocks.size⟩) t = block) :
    ({ f with blocks := f.blocks.push block, layout } : Function).retune t m =
      { f.retune t m with blocks := (f.retune t m).blocks.push block, layout } := by
  simp only [retune, Array.mapIdx_push, h]

/-- Code appended to a check block is retuned with the kind of the check. -/
theorem retune_append {b : BlockId} {k : CheckKind} (hk : m.kind? b = some k) (code : List Inst)
    (types : List Ty) : (f.append b code types).retune t m =
      (f.retune t m).append b (code.map (·.retune k t)) types := by
  have hupdate : (f.updateBlock b (·.extend code)).retune t m =
      (f.retune t m).updateBlock b (·.extend (code.map (·.retune k t))) :=
    retune_updateBlock fun block => by rw [hk, Block.retune_extend]
  simp only [append, List.length_map]
  rw [← hupdate]
  rfl

/-- Names are kept, and so new names are the same. -/
theorem freshName_retune (base : String) : (f.retune t m).freshName base = f.freshName base := by
  have hfree : (f.retune t m).isFree = f.isFree := by
    funext name
    have hmem : (∀ b ∈ (f.retune t m).blocks, b.name ≠ name) ↔ ∀ b ∈ f.blocks, b.name ≠ name := by
      simp only [retune, Array.mem_mapIdx]
      constructor
      · intro h b hb
        obtain ⟨n, hn, rfl⟩ := Array.mem_iff_getElem.1 hb
        simpa using h _ ⟨n, hn, rfl⟩
      · rintro h _ ⟨n, hn, rfl⟩
        simpa using h _ (Array.getElem_mem hn)
    rw [Bool.eq_iff_iff, isFree_iff, isFree_iff, hmem]
  rw [freshName, freshName, numberedName, numberedName, size_retune, hfree]

/-- A cut of a block that belongs to no check. -/
theorem retune_cutBlock {origin : BlockId} (block : Block) (count : Nat)
    (horigin : m.kind? origin = none) (hcont : m.kind? ⟨f.blocks.size⟩ = none) :
    (f.cutBlock origin block count).retune t m =
      (f.retune t m).cutBlock origin block count := by
  have hhalve : (f.halve origin block count).retune t m =
      (f.retune t m).halve origin block count := by
    have hfront : (f.updateBlock origin fun block => { block with
          insts := block.insts.take count
          term := some { exit := .br ⟨f.blocks.size⟩ } }).retune t m =
        (f.retune t m).updateBlock origin fun block => { block with
          insts := block.insts.take count, term := some { exit := .br ⟨f.blocks.size⟩ } } :=
      retune_updateBlock fun block => by rw [horigin]; rfl
    rw [halve, halve, freshName_retune, size_retune, ← hfront]
    refine retune_push _ _ ?_
    rw [size_updateBlock, hcont]
    rfl
  rw [cutBlock_eq_foldl, cutBlock_eq_foldl, size_retune, ← hhalve]
  -- the phis follow block by block
  generalize f.halve origin block count = g
  induction block.successors generalizing g with
  | nil => rfl
  | cons b rest ih =>
    have hstep : (g.repointPhis origin ⟨f.blocks.size⟩ b).retune t m =
        (g.retune t m).repointPhis origin ⟨f.blocks.size⟩ b :=
      retune_updateBlock fun block => block.retune_repoint _ _
    rw [List.foldl_cons, List.foldl_cons, ih, hstep]

/-! ### Retuning and questions -/

/-- A block is found retuned, by the kind recorded for it. -/
theorem block_retune (b : BlockId) :
    (f.retune t m).block b = (f.block b).map (·.retune (m.kind? b) t) := by
  rw [block, block, block?_retune]
  cases f.block? b <;> rfl

/-- Instructions are found where they were. -/
theorem locate_retune (i : InstId) : (f.retune t m).locate i = f.locate i := by
  show (f.retune t m).locateIn i f.layout = f.locateIn i f.layout
  induction f.layout with
  | nil => rfl
  | cons b rest ih =>
    rw [locateIn, locateIn, block_retune, ih]
    cases f.block b with
    | error fault => rfl
    | ok block =>
      have hfind : (block.retune (m.kind? b) t).insts.findIdx? (·.id == i) =
          block.insts.findIdx? (·.id == i) := by
        cases m.kind? b with
        | none => rfl
        | some k => simp [Block.retune, List.findIdx?_map, Function.comp_def]
      simp only [Except.map, hfind, Block.id_retune]

/-- A question about an instruction has the same answer where the instruction is not retuned. -/
theorem inst_retune {i : InstId} {j : Inst} (h : f.inst i = .ok (some j)) :
    ∃ j', (f.retune t m).inst i = .ok (some j') ∧ j'.location = j.location ∧
      (j.kind.isBinary = true → j' = j) ∧ j'.kind.isBinary = j.kind.isBinary := by
  obtain ⟨found, hlocate, h⟩ := except_bind_eq_ok.1 h
  cases found with
  | none => cases h
  | some found =>
    obtain ⟨block, hblock, h⟩ := except_bind_eq_ok.1 h
    have hblock' : (f.retune t m).block found.1 =
        .ok (block.retune (m.kind? found.1) t) := by
      rw [block_retune, hblock]
      rfl
    split at h
    · next j₀ hj =>
      cases h
      have hinst := fun j' => inst_eq_of_getElem? (j := j')
        ((locate_retune (t := t) (m := m) i).trans hlocate) hblock'
      -- A block outside the map is the same; in a check block the instruction is the retuned one.
      cases hk : m.kind? found.1 with
      | none =>
        rw [hk] at hinst
        exact ⟨j, hinst j hj, rfl, fun _ => rfl, rfl⟩
      | some k =>
        have hj' : (block.retune (some k) t).insts[found.2]? = some (j.retune k t) := by
          simp only [Block.retune, List.getElem?_map, hj, Option.map_some]
        rw [hk] at hinst
        refine ⟨j.retune k t, hinst _ hj', rfl, fun hbinary => ?_, j.kind.isBinary_retune⟩
        rw [Inst.retune, InstKind.retune_of_isBinary hbinary]
    · cases h

/-- An instruction that is missing stays missing. -/
theorem inst_retune_of_none {i : InstId} (h : f.inst i = .ok none) :
    (f.retune t m).inst i = .ok none := by
  obtain ⟨found, hlocate, h⟩ := except_bind_eq_ok.1 h
  cases found with
  | none => rw [inst, locate_retune, hlocate]; rfl
  | some found =>
    obtain ⟨block, -, h⟩ := except_bind_eq_ok.1 h
    split at h <;> cases h

/-- The location of an instruction is read the same. -/
theorem location_retune {i : InstId} {location : Option Location}
    (h : f.location i = .ok location) : (f.retune t m).location i = .ok location := by
  obtain ⟨found, hinst, h⟩ := except_bind_eq_ok.1 h
  cases h
  cases found with
  | none => rw [Function.location, inst_retune_of_none hinst]; rfl
  | some j =>
    obtain ⟨j', hinst', hlocation, -⟩ := inst_retune (t := t) (m := m) hinst
    rw [Function.location, hinst']
    exact congrArg Except.ok hlocation

/-- A split of a block that belongs to no check. -/
theorem splitBlockAfter_retune {i : InstId} {r : Option (Function × BlockId × BlockId)}
    (h : f.splitBlockAfter i = .ok r)
    (horigin : ∀ place, f.locate i = .ok (some place) → m.kind? place.1 = none)
    (hcont : m.kind? ⟨f.blocks.size⟩ = none) :
    (f.retune t m).splitBlockAfter i = .ok (r.map fun (g, halves) => (g.retune t m, halves)) := by
  obtain ⟨found, hlocate, h⟩ := except_bind_eq_ok.1 h
  cases found with
  | none =>
    cases h
    rw [splitBlockAfter, locate_retune, hlocate]
    rfl
  | some place =>
    obtain ⟨block, hblock, h⟩ := except_bind_eq_ok.1 h
    have hquiet := horigin place hlocate
    have hblock' : (f.retune t m).block place.1 = .ok block := by
      rw [block_retune, hblock, hquiet]
      rfl
    rw [splitBlockAfter, locate_retune, hlocate]
    show ((f.retune t m).block place.1 >>= _) = _
    rw [hblock']
    -- the same two guards stand before the cut
    show (if place.2 + 1 = block.insts.length ∧ block.term = none then _ else _) = _
    split at h
    · next hlast =>
      cases h
      rw [if_pos hlast]
      rfl
    next hlast =>
    split at h
    · cases h
    next hlen =>
    cases h
    rw [if_neg hlast, if_neg hlen, size_retune, ← retune_cutBlock block _ hquiet hcont]
    rfl

end Function

end ArithWatch
