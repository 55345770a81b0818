import ArithWatch.Proofs.IR.Cut

namespace ArithWatch

/-!
# Verifying with blocks fetched by their ids

The verifier looks only at blocks that exist.  Here every block is fetched by its id, and an id that
names no block is a fault.  A section of the verifier relies on the sections before it for the ids
that it follows: the layout lists blocks of the arena only, and so do the branches once the
terminators have been checked.

* `Inspection` is a check that may fault, and `Function.inspected` the verifier with such checks.
* `Function.floodIndexed_eq`: as long as branches lead to blocks, a flood does not fault.
* `Function.inspected_eq`: the verifier faults on no function, and finds what it finds without
  fetching.
* `Function.verify_decides` adds which functions it accepts.
-/

/-- A check that fetches blocks by their ids: it may fault, or else find a defect or nothing. -/
abbrev Inspection := ExceptT Defect (Except Fault)

namespace Inspection

/-- A check that fetches nothing. -/
def check (v : Verdict) : Inspection Unit := ExceptT.mk (.ok v)

/-- What is fetched. -/
def fetch {α : Type} (x : Except Fault α) : Inspection α := ExceptT.lift x

variable {α β : Type} {m : Inspection Unit} {v : Verdict} {a : α}

@[simp] theorem run_check (v : Verdict) : (check v).run = .ok v := rfl

/-- What is there is fetched without a fault. -/
theorem run_fetch {x : Except Fault α} (hx : x = .ok a) (k : α → Inspection β) :
    (fetch x >>= k).run = (k a).run := by
  rw [hx]
  rfl

/-- The second check is made if the first one finds nothing. -/
theorem run_seq {k : Unit → Inspection Unit} {rest : Verdict} (hm : m.run = .ok v)
    (hk : v = .ok () → (k ()).run = .ok rest) : (m >>= k).run = .ok (v >>= fun _ => rest) := by
  show m.run >>= ExceptT.bindCont k = _
  rw [hm]
  cases v with
  | error defect => rfl
  | ok u => exact hk rfl

end Inspection

/-- Equal checks on each item give equal verdicts on all. -/
theorem Verdict.all_congr {α : Type} {items : List α} {c c' : α → Verdict}
    (h : ∀ a ∈ items, c a = c' a) : all items c = all items c' := by
  induction items with
  | nil => rfl
  | cons a rest ih =>
    show (c a >>= fun _ => all rest c) = (c' a >>= fun _ => all rest c')
    rw [h a List.mem_cons_self, ih fun b hb => h b (List.mem_cons_of_mem _ hb)]

namespace Function

open Inspection (check fetch run_fetch run_seq)
open Verdict (require all)

/-! ### The sections -/

/-- A flood that fetches every block which it marks. -/
def floodIndexed (f : Function) (marks : Array Bool) : List BlockId → Except Fault (Array Bool)
  | [] => .ok marks
  | b :: queue =>
    match _h : marks[b.index]? with
    | none => .error .missing
    | some true => f.floodIndexed marks queue
    | some false =>
      match f.block b with
      | .error fault => .error fault
      | .ok block =>
        f.floodIndexed (marks.setIfInBounds b.index true) (block.successors ++ queue)
termination_by queue => (marks.count false, queue.length)
decreasing_by
  · exact Prod.Lex.right _ (Nat.lt_succ_self _)
  · exact Prod.Lex.left _ _ (count_false_setIfInBounds_lt ‹_›)

/-- The terminators of the blocks that the layout lists. -/
def inspectTerminators (f : Function) : Inspection Unit := do
  let walk ← fetch f.blocksInLayout
  check (all walk f.verifyTerminator)

/-- The table of predecessors at the entry, and a flood from there. -/
def inspectReachability (f : Function) : Inspection Unit := do
  let preds ← fetch f.predecessors
  check (require ((preds.find? f.entry).getD []).isEmpty (.entryHasPredecessors f.entry))
  let reached ← fetch (f.floodIndexed (Array.replicate f.blocks.size false) [f.entry])
  check (all f.layout fun b => require (reached[b.index]? == some true) (.unreachableBlock b))

/-- The definitions in the blocks that the layout lists, and the uses there. -/
def inspectDefinitions (f : Function) : Inspection Unit := do
  let walk ← fetch f.blocksInLayout
  check do
    let params ← f.params.foldlM define (Array.replicate f.valueTypes.size false)
    let state ← (walk.flatMap (·.insts)).foldlM defineInst ([], params)
    all walk fun b => do
      all (b.insts.flatMap (·.kind.operands)) (verifyUse state.2 b.id)
      all ((b.term.bind (·.exit.operand?)).toList) (verifyUse state.2 b.id)

/-- The instructions of the blocks that the layout lists, against the table of predecessors. -/
def inspectInstructions (f : Function) : Inspection Unit := do
  let preds ← fetch f.predecessors
  let walk ← fetch f.blocksInLayout
  check (all walk fun b => f.verifyInsts ((preds.find? b.id).getD []) b.id false b.insts)

/-- The verifier with every block fetched by its id. -/
def inspected (f : Function) : Except Fault (Except VerifyError Unit) :=
  Except.map (Except.mapError (VerifyError.mk f.name)) <| ExceptT.run do
    check f.verifyTypes
    check f.verifyLayout
    f.inspectTerminators
    f.inspectReachability
    f.inspectDefinitions
    f.inspectInstructions

variable {f : Function}

/-! ### No faults -/

/-- **Floods do not fault** where branches lead to blocks. -/
theorem floodIndexed_eq (htargets : ∀ b c, f.Edge b c → c.index < f.blocks.size)
    (marks : Array Bool) (queue : List BlockId) (hsize : marks.size = f.blocks.size)
    (hqueue : ∀ b ∈ queue, b.index < f.blocks.size) :
    f.floodIndexed marks queue = .ok (f.flood marks queue) := by
  -- Whatever waits in the queue is in the arena: it was there from the start, or a branch leads to
  -- it.
  induction marks, queue using flood.induct f with
  | case1 marks => rw [floodIndexed, flood]
  | case2 marks b queue hfalse ih =>
    obtain ⟨block, hblock⟩ := exists_block? (hqueue b List.mem_cons_self)
    have hsucc : ((f.block? b).map (·.successors)).getD [] = block.successors := by rw [hblock]; rfl
    rw [hsucc] at ih
    rw [flood, if_pos hfalse, hsucc, floodIndexed]
    split
    · next hnone => simp [hfalse] at hnone
    · next htrue => simp [hfalse] at htrue
    · rw [block_eq_ok hblock]
      refine ih ((Array.size_setIfInBounds ..).trans hsize) fun c hc => ?_
      rcases List.mem_append.1 hc with hc | hc
      · exact htargets b c ⟨block, hblock, hc⟩
      · exact hqueue c (List.mem_cons_of_mem _ hc)
  | case3 marks b queue hmarked ih =>
    have hb : b.index < marks.size := hsize ▸ hqueue b List.mem_cons_self
    rw [flood, if_neg hmarked, floodIndexed]
    split
    · next hnone => exact absurd (Array.getElem?_eq_none_iff.1 hnone) (Nat.not_le.2 hb)
    · exact ih hsize fun c hc => hqueue c (List.mem_cons_of_mem _ hc)
    · next hfalse => exact absurd hfalse hmarked

/-- In a laid function the terminators are inspected without a fault. -/
theorem Laid.run_inspectTerminators (h : f.Laid) :
    f.inspectTerminators.run = .ok f.verifyTerminators := by
  rw [inspectTerminators, run_fetch h.blocksInLayout_eq]
  rfl

/-- So is reachability, if all targets exist. -/
theorem Laid.run_inspectReachability (h : f.Laid)
    (htargets : ∀ b c, f.Edge b c → c.index < f.blocks.size) :
    f.inspectReachability.run = .ok f.verifyReachability := by
  obtain ⟨preds, hpreds, hfind⟩ := h.predecessors_eq
  have hentry : f.entry.index < f.blocks.size := (h.mem_layout f.entry).1 h.entry_mem
  have hflood : f.floodIndexed (Array.replicate f.blocks.size false) [f.entry] = .ok f.reached :=
    floodIndexed_eq htargets _ _ Array.size_replicate fun b hb => by
      rwa [List.mem_singleton.1 hb]
  rw [inspectReachability, run_fetch hpreds, hfind f.entry hentry]
  refine run_seq rfl fun _ => ?_
  rw [run_fetch hflood]
  rfl

/-- So are the definitions. -/
theorem Laid.run_inspectDefinitions (h : f.Laid) :
    f.inspectDefinitions.run = .ok f.verifyDefinitions := by
  rw [inspectDefinitions, run_fetch h.blocksInLayout_eq, verifyDefinitions, definitions]
  simp only [Inspection.run_check, bind_assoc, pure_bind]

/-- So are the instructions. -/
theorem Laid.run_inspectInstructions (h : f.Laid) :
    f.inspectInstructions.run = .ok f.verifyInstructions := by
  obtain ⟨preds, hpreds, hfind⟩ := h.predecessors_eq
  rw [inspectInstructions, run_fetch hpreds, run_fetch h.blocksInLayout_eq, Inspection.run_check,
    verifyInstructions]
  congr 1
  refine Verdict.all_congr fun block hmem => ?_
  obtain ⟨b, hblock⟩ := h.mem_laidOut.1 hmem
  rw [h.ids b block hblock, hfind b (lt_of_block? hblock)]
  rfl

/-- **The verifier faults on no function.** -/
theorem inspected_eq (f : Function) : f.inspected = .ok f.verify := by
  refine congrArg (Except.map (Except.mapError (VerifyError.mk f.name)))
    (run_seq rfl fun _ => run_seq rfl fun hlayout => ?_)
  -- From here on the layout lists the blocks of the arena.
  have hlaid : f.Laid := verifyLayout_eq_ok.1 hlayout
  refine run_seq hlaid.run_inspectTerminators fun hterm => ?_
  -- From here on every branch leads to one of them.
  have htargets := ((verifyTerminators_eq_ok hlaid).1 hterm).2
  refine run_seq (hlaid.run_inspectReachability htargets) fun _ => ?_
  exact run_seq hlaid.run_inspectDefinitions fun _ => hlaid.run_inspectInstructions

/-- **The verifier decides well-formedness.** On every function it comes to an end without following
    an id that names no block, and it accepts exactly the well-formed functions. -/
theorem verify_decides (f : Function) :
    f.inspected = .ok f.verify ∧ (f.verify = .ok () ↔ f.WellFormed) :=
  ⟨f.inspected_eq, verified_iff_wellFormed⟩

end Function

end ArithWatch
