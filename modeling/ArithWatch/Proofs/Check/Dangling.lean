import Mathlib
import ArithWatch.Proofs.Check.Pass

namespace ArithWatch

/-!
# Branches to blocks that do not exist

The ids of new blocks are the next numbers of the arena.  A branch to a number behind the blocks of
a function leads nowhere, but once the arena has grown up to that number it leads to a new block.

* `Function.Dangles`: some branch leads to a block that does not exist.  The verifier rejects such a
  function (`Function.Dangles.rejected`), and it says so of such functions only
  (`Function.dangles_of_verify`).
* `Spot.Cuts.target` and `Insertion.Carves.target`: targets of branches stay targets.
* `dangles_after_iff` says which branches still lead nowhere once a block is split or a function is
  instrumented, and `captured_stray` is a function that is rejected before and accepted afterwards.
-/

namespace Function

/-- Some branch leads to the block, whether it exists or not. -/
def Target (f : Function) (c : BlockId) : Prop := ∃ b, f.Edge b c

/-- Some branch leads to the block, which does not exist. -/
def Dangles (f : Function) (c : BlockId) : Prop := f.Target c ∧ f.block? c = none

variable {f g : Function} {b c : BlockId}

/-- A target dangles if its number is behind the arena. -/
theorem dangles_iff (h : f.Target c) : f.Dangles c ↔ f.blocks.size ≤ c.index := by
  rw [Dangles, block?_eq_none_iff]
  exact and_iff_right h

/-! ### The verdict on dangling branches -/

/-- The verifier rejects a function with a dangling branch. -/
theorem Dangles.rejected (h : f.Dangles c) : ∃ e, f.verify = .error e := by
  cases hverify : f.verify with
  | error e => exact ⟨e, rfl⟩
  | ok u =>
    obtain ⟨⟨b, hedge⟩, hnone⟩ := h
    have hlt := (verified_iff_wellFormed.1 hverify).targets b c hedge
    exact absurd hlt (Nat.not_lt_of_le (block?_eq_none_iff.1 hnone))

end Function

/-- The check does not find the defect. -/
def Avoids {α : Type} (d : Defect) (x : Except Defect α) : Prop := x ≠ .error d

namespace Avoids

variable {α β : Type} {d d' : Defect}

theorem ok (a : α) : Avoids d (.ok a) := nofun

theorem error (h : d' ≠ d) : Avoids d (.error d' : Except Defect α) := by
  rintro ⟨⟩
  exact h rfl

protected theorem bind {x : Except Defect α} {k : α → Except Defect β} (hx : Avoids d x)
    (hk : ∀ a, Avoids d (k a)) : Avoids d (x >>= k) := by
  cases x with
  | error d' => exact fun h => hx (congrArg Except.error (Except.error.inj h))
  | ok a => exact hk a

/-- A requirement can only fail with its own defect. -/
theorem require (condition : Bool) (h : d' ≠ d) : Avoids d (Verdict.require condition d') := by
  rw [Verdict.require]
  split
  · exact ok ()
  · exact error h

/-- A check of many items has the defects of the single ones. -/
theorem all {items : List α} {check : α → Verdict} (h : ∀ a ∈ items, Avoids d (check a)) :
    Avoids d (Verdict.all items check) := by
  induction items with
  | nil => exact ok ()
  | cons a rest ih =>
    exact (h a List.mem_cons_self).bind fun _ => ih fun c hc => h c (List.mem_cons_of_mem _ hc)

/-- So has a walk. -/
theorem foldlM {items : List α} {step : β → α → Except Defect β}
    (h : ∀ b a, Avoids d (step b a)) (b : β) : Avoids d (items.foldlM step b) := by
  induction items generalizing b with
  | nil => exact ok b
  | cons a rest ih =>
    rw [List.foldlM_cons]
    exact (h b a).bind ih

end Avoids

namespace Function

variable {f g : Function} {b c : BlockId}

/-! Only the terminators are asked for their targets. -/

/-- The check of types is about widths. -/
theorem avoids_verifyTypes : Avoids (.unknownTarget b c) f.verifyTypes := by
  refine .all fun ty _ => ?_
  cases ty with
  | int width => exact .require _ (by simp)
  | f32 => exact .ok ()
  | f64 => exact .ok ()

theorem avoids_verifyArena (index : Nat) (blocks : List Block) :
    Avoids (.unknownTarget b c) (verifyArena index blocks) := by
  induction blocks generalizing index with
  | nil => exact .ok ()
  | cons block rest ih =>
    rw [verifyArena]
    split
    · exact ih (index + 1)
    · exact .error (by simp)

theorem avoids_verifyEntries (seen order : List BlockId) :
    Avoids (.unknownTarget b c) (f.verifyEntries seen order) := by
  induction order generalizing seen with
  | nil => exact .ok ()
  | cons entry rest ih =>
    rw [verifyEntries]
    split
    · exact .error (by simp)
    · split
      · exact .error (by simp)
      · exact ih (entry :: seen)

/-- The check of the layout is about ids, repeated entries, the entry and what is left out. -/
theorem avoids_verifyLayout : Avoids (.unknownTarget b c) f.verifyLayout :=
  (avoids_verifyArena 0 _).bind fun _ => (avoids_verifyEntries [] _).bind fun _ =>
    (Avoids.require _ (by simp)).bind fun _ => .all fun _ _ => .require _ (by simp)

/-- That of reachability is about the entry and unreached blocks. -/
theorem avoids_verifyReachability : Avoids (.unknownTarget b c) f.verifyReachability :=
  (Avoids.require _ (by simp)).bind fun _ => .all fun _ _ => .require _ (by simp)

/-- A value is unknown or defined twice. -/
theorem avoids_define (defined : Array Bool) (v : ValueId) :
    Avoids (.unknownTarget b c) (define defined v) := by
  rw [define]
  split
  · exact .ok _
  · exact .error (by simp)

/-- Besides, ids may repeat. -/
theorem avoids_definitions : Avoids (.unknownTarget b c) f.definitions := by
  have hinst : ∀ state i, Avoids (.unknownTarget b c) (defineInst state i) := by
    intro state i
    rw [defineInst]
    split
    · exact .error (by simp)
    · exact (avoids_define _ _).bind fun _ => .ok _
  exact (Avoids.foldlM avoids_define _).bind fun _ => (Avoids.foldlM hinst _).bind fun _ => .ok _

/-- Uses are of values that are not defined. -/
theorem avoids_verifyDefinitions : Avoids (.unknownTarget b c) f.verifyDefinitions := by
  have huse : ∀ defined block op, Avoids (.unknownTarget b c) (verifyUse defined block op) := by
    intro defined block op
    cases op with
    | value v => exact .require _ (by simp)
    | const k => exact .ok ()
  exact avoids_definitions.bind fun defined => .all fun block _ =>
    (Avoids.all fun op _ => huse defined block.id op).bind fun _ =>
      .all fun op _ => huse defined _ op

/-- Instructions are about types, phis and their inputs. -/
theorem avoids_verifyInsts (preds : List BlockId) (block : BlockId) (started : Bool)
    (insts : List Inst) :
    Avoids (.unknownTarget b c) (f.verifyInsts preds block started insts) := by
  induction insts generalizing started with
  | nil => exact .ok ()
  | cons i rest ih =>
    rw [verifyInsts]
    refine (Avoids.require _ (by simp)).bind fun _ => ?_
    split
    · exact (Avoids.require _ (by simp)).bind fun _ => (Avoids.require _ (by simp)).bind fun _ =>
        ih started
    · exact ih true

/-- A function that is rejected for a branch to an unknown block has such a branch. -/
theorem dangles_of_verify {name : String} (h : f.verify = .error ⟨name, .unknownTarget b c⟩) :
    f.Dangles c := by
  have hterms : ¬ Avoids (.unknownTarget b c) f.verifyTerminators := by
    intro hterms
    have hall : Avoids (.unknownTarget b c) (do
        f.verifyTypes
        f.verifyLayout
        f.verifyTerminators
        f.verifyReachability
        f.verifyDefinitions
        f.verifyInstructions) :=
      avoids_verifyTypes.bind fun _ => avoids_verifyLayout.bind fun _ => hterms.bind fun _ =>
        avoids_verifyReachability.bind fun _ => avoids_verifyDefinitions.bind fun _ =>
          .all fun block _ => avoids_verifyInsts _ _ _ _
    obtain ⟨d, hfound, hd⟩ := except_mapError_eq_error.1 h
    obtain rfl : d = .unknownTarget b c := congrArg VerifyError.defect hd
    exact hall hfound
  -- If the target existed, the check of terminators would not object to it either.
  by_contra hdangles
  refine hterms (.all fun block hblock => ?_)
  obtain ⟨b', hb'⟩ : ∃ b', f.block? b' = some block := by
    obtain ⟨b', -, hb'⟩ := List.mem_filterMap.1 hblock
    exact ⟨b', hb'⟩
  rw [verifyTerminator]
  cases ht : block.term with
  | none => exact .error (by simp)
  | some t =>
    refine (Avoids.all fun target htarget => ?_).bind fun _ => ?_
    · have hedge : f.Edge b' target := ⟨block, hb', by simp [Block.successors, ht, htarget]⟩
      by_cases hsame : target = c
      · -- The block would dangle if it did not exist.
        subst hsame
        have hlt : target.index < f.blocks.size := by
          by_contra hle
          exact hdangles ((dangles_iff ⟨b', hedge⟩).2 (Nat.not_lt.1 hle))
        rw [Verdict.require, if_pos (by simpa using hlt)]
        exact .ok ()
      · exact .require _ (by simp [hsame])
    · cases t.exit with
      | condBr cond thenTarget elseTarget => exact .require _ (by simp)
      | ret value => exact .require _ (by simp)
      | br target => exact .ok ()
      | unreachable => exact .ok ()

end Function

/-! ### Targets stay targets -/

section Target

variable {f g : Function} {c : BlockId}

/-- A cut keeps targets: the terminator has only moved to the rest. -/
theorem Spot.Cuts.target {p : Spot} {cont : BlockId} (hg : p.Cuts cont f g) (hp : p.In f)
    (h : f.Target c) : g.Target c := by
  obtain ⟨b, hedge⟩ := h
  by_cases hb : b = p.home
  · subst hb
    exact ⟨cont, (hg.edge_iff hp).2 (.inr (.inr ⟨rfl, hedge⟩))⟩
  · exact ⟨b, (hg.edge_iff hp).2 (.inl ⟨hb, hedge⟩)⟩

theorem Insertion.Carves.target {s : Insertion} (hg : s.Carves f g) (hs : s.spot.In f)
    (h : f.Target c) : g.Target c := by
  obtain ⟨b, block, hblock, hc⟩ := h
  by_cases hb : b = s.spot.home
  · subst hb
    obtain ⟨name, hname⟩ := hg.rest
    obtain rfl : s.spot.block = block := Option.some.inj (hs.block_eq.symm.trans hblock)
    exact ⟨cont f, _, hname, by rwa [Spot.successors_follow]⟩
  · refine ⟨b, s.spot.follow (cont f) b block, ?_, by rwa [Spot.successors_follow]⟩
    rw [hg.other b hb (Function.lt_of_block? hblock), hblock]
    rfl

theorem Function.Alike.target (hfg : f.Alike g) (h : f.Target c) : g.Target c := by
  obtain ⟨b, hedge⟩ := h
  exact ⟨b, hfg.edge_iff.2 hedge⟩

end Target

/-! ### Splitting and instrumenting -/

namespace Function

variable {f : Function}

/-- Splitting a block adds one block, or nothing, and keeps the targets. -/
theorem Arranged.splitBlockAfter_target (h : f.Arranged) (i : InstId) :
    ∃ halves g, Edit.splitBlockAfter i f = .ok halves g ∧
      g.blocks.size = f.blocks.size + (if halves = none then 0 else 1) ∧
      ∀ c, f.Target c → g.Target c := by
  rcases h.locate_cases i with ⟨hlocate, -⟩ | ⟨p, hp, -, -, hlocate⟩
  · exact ⟨none, f, splitBlockAfter_eq_none_of_locate hlocate, rfl, fun c hc => hc⟩
  · by_cases hfollowed : p.Followed
    · have hg := cuts_cutBlock hp.toIn
      exact ⟨_, _, splitBlockAfter_eq hp.toIn hlocate hfollowed, hg.size,
        fun c hc => hg.target hp.toIn hc⟩
    · exact ⟨none, f, splitBlockAfter_eq_none hp.toIn hlocate hfollowed, rfl, fun c hc => hc⟩

/-- The number of blocks that the sites of a report have added. -/
def newBlockCount (sites : List CheckSite) : Nat := (sites.map fun s => 1 + s.checks.length).sum

/-- The pass adds the blocks of its sites and keeps the targets. -/
theorem Arranged.instrument_target (h : f.Arranged) (t : Threshold) (options : InstrumentOptions) :
    ∃ report g, Edit.instrument t options f = .ok report g ∧
      g.blocks.size = f.blocks.size + newBlockCount report.sites ∧
      ∀ c, f.Target c → g.Target c := by
  refine Edit.instrument_keeps t options
    (P := fun sites g => g.blocks.size = f.blocks.size + newBlockCount sites ∧
      ∀ c, f.Target c → g.Target c)
    (fun sites g s g' id _ hs hg hP => ⟨?_, fun c hc => hg.target hs.spot_in (hP.2 c hc)⟩)
    (fun sites g g' halike hP => ⟨halike.size_eq.trans hP.1, fun c hc => halike.target (hP.2 c hc)⟩)
    h ⟨rfl, fun c hc => hc⟩
  -- An insertion adds the rest of the cut block and a block for each check.
  rw [hg.size, hP.1]
  simp [newBlockCount, Insertion.length_checks_site, Nat.add_assoc]

end Function

/-- **Dangling branches are captured by the ids of new blocks, and by nothing else.**  Splitting and
    instrumenting never fail where the layout can be walked.  A branch that led nowhere leads
    nowhere afterwards exactly if its target is behind the new blocks, too; so a function that is
    rejected for a branch to an unknown block is rejected afterwards unless the ids of the new
    blocks reach up to that block. -/
theorem dangles_after_iff (t : Threshold) (options : InstrumentOptions) (f : Function)
    (h : f.Arranged) :
    (∀ i, ∃ halves g, Edit.splitBlockAfter i f = .ok halves g ∧
      (∀ c, f.Dangles c → (g.Dangles c ↔ halves = none ∨ f.blocks.size + 1 ≤ c.index)) ∧
      ∀ name b c, f.verify = .error ⟨name, .unknownTarget b c⟩ →
        halves = none ∨ f.blocks.size + 1 ≤ c.index → ∃ e, g.verify = .error e) ∧
    ∃ report g, Edit.instrument t options f = .ok report g ∧
      (∀ c, f.Dangles c →
        (g.Dangles c ↔ f.blocks.size + Function.newBlockCount report.sites ≤ c.index)) ∧
      ∀ name b c, f.verify = .error ⟨name, .unknownTarget b c⟩ →
        f.blocks.size + Function.newBlockCount report.sites ≤ c.index →
          ∃ e, g.verify = .error e := by
  constructor
  · intro i
    obtain ⟨halves, g, hsplit, hsize, htarget⟩ := h.splitBlockAfter_target i
    have hiff : ∀ c, f.Dangles c →
        (g.Dangles c ↔ halves = none ∨ f.blocks.size + 1 ≤ c.index) := by
      rintro c ⟨hc, hnone⟩
      have hle := Function.block?_eq_none_iff.1 hnone
      -- The same number is the target, and only the size of the arena has changed.
      rw [Function.dangles_iff (htarget c hc), hsize]
      by_cases hhalves : halves = none
      · simp [hhalves, hle]
      · simp [hhalves]
    exact ⟨halves, g, hsplit, hiff, fun name b c hverify hfar =>
      ((hiff c (Function.dangles_of_verify hverify)).2 hfar).rejected⟩
  · obtain ⟨report, g, hinstrument, hsize, htarget⟩ := h.instrument_target t options
    have hiff : ∀ c, f.Dangles c →
        (g.Dangles c ↔ f.blocks.size + Function.newBlockCount report.sites ≤ c.index) := by
      intro c hc
      rw [Function.dangles_iff (htarget c hc.1), hsize]
    exact ⟨report, g, hinstrument, hiff, fun name b c hverify hfar =>
      ((hiff c (Function.dangles_of_verify hverify)).2 hfar).rejected⟩

/-- A function with one block that branches to a block that does not exist. -/
def stray (target : BlockId) : Function where
  name := "f"
  params := [⟨0⟩]
  returnType := none
  valueTypes := #[.int 32, .int 32]
  blocks := #[
    { id := ⟨0⟩
      name := "entry"
      insts := [
        { id := ⟨0⟩, result := ⟨1⟩, kind := .binary .add (.value ⟨0⟩) (.value ⟨0⟩) .empty }]
      term := some { exit := .br target } }]
  layout := [⟨0⟩]
  entry := ⟨0⟩
  instCount := 1

/-- Its one block is where its id says. -/
theorem arranged_stray (target : BlockId) : (stray target).Arranged := by
  refine ⟨fun b block hblock => ?_, by simp [stray], by simp [stray]⟩
  have hlt : b.index < 1 := Function.lt_of_block? hblock
  obtain rfl : b = ⟨0⟩ := congrArg BlockId.mk (show b.index = 0 by omega)
  cases hblock
  rfl

/-- A branch far behind the new blocks. -/
theorem dangles_after_iff_stray :
    (stray ⟨9⟩).Arranged ∧ (stray ⟨9⟩).Dangles ⟨9⟩ ∧
      (stray ⟨9⟩).verify = .error ⟨"f", .unknownTarget ⟨0⟩ ⟨9⟩⟩ ∧
      (∃ halves g, Edit.splitBlockAfter ⟨0⟩ (stray ⟨9⟩) = .ok halves g ∧ g.Dangles ⟨9⟩ ∧
        ∃ e, g.verify = .error e) ∧
      ∃ report g, Edit.instrument .hundred {} (stray ⟨9⟩) = .ok report g ∧
        (g.Dangles ⟨9⟩ ↔ 1 + Function.newBlockCount report.sites ≤ 9) := by
  have hedge : (stray ⟨9⟩).Edge ⟨0⟩ ⟨9⟩ := ⟨_, rfl, List.mem_cons_self⟩
  have hdangles : (stray ⟨9⟩).Dangles ⟨9⟩ := ⟨⟨⟨0⟩, hedge⟩, rfl⟩
  have hverify : (stray ⟨9⟩).verify = .error ⟨"f", .unknownTarget ⟨0⟩ ⟨9⟩⟩ := rfl
  have hfar : (stray ⟨9⟩).blocks.size + 1 ≤ (⟨9⟩ : BlockId).index := by decide
  obtain ⟨hsplit, report, g, hinstrument, hiff, -⟩ :=
    dangles_after_iff .hundred {} (stray ⟨9⟩) (arranged_stray ⟨9⟩)
  obtain ⟨halves, g', hrun, hiff', hrejected⟩ := hsplit ⟨0⟩
  exact ⟨arranged_stray ⟨9⟩, hdangles, hverify,
    ⟨halves, g', hrun, (hiff' ⟨9⟩ hdangles).2 (.inr hfar), hrejected _ _ _ hverify (.inr hfar)⟩,
    report, g, hinstrument, hiff ⟨9⟩ hdangles⟩

/-- The function that branches to the block 1 with its block split: the branch leads from the new
    block to itself. -/
def strayCut : Function :=
  { stray ⟨1⟩ with
    blocks := #[
      { id := ⟨0⟩
        name := "entry"
        insts := [
          { id := ⟨0⟩, result := ⟨1⟩, kind := .binary .add (.value ⟨0⟩) (.value ⟨0⟩) .empty }]
        term := some { exit := .br ⟨1⟩ } },
      { id := ⟨1⟩, name := "origin_cont", insts := [], term := some { exit := .br ⟨1⟩ } }]
    layout := [⟨0⟩, ⟨1⟩] }

theorem verify_strayCut : strayCut.verify = .ok () := by
  have hreached : strayCut.reached = #[true, true] := by
    show strayCut.flood #[false, false] [⟨0⟩] = _
    rw [Function.flood, if_pos (by decide)]
    show strayCut.flood #[true, false] [⟨1⟩] = _
    rw [Function.flood, if_pos (by decide)]
    show strayCut.flood #[true, true] [⟨1⟩] = _
    rw [Function.flood, if_neg (by decide), Function.flood]
  have hreach : strayCut.verifyReachability = .ok () := by
    rw [Function.verifyReachability, hreached]
    rfl
  rw [Function.verify, hreach]
  rfl

/-- **A dangling branch is captured.**  The function is rejected for its branch to the block 1; once
    its block is split, or the function is instrumented, that block exists, and the split function
    is accepted. -/
theorem captured_stray :
    (stray ⟨1⟩).Arranged ∧ (stray ⟨1⟩).Dangles ⟨1⟩ ∧
      (stray ⟨1⟩).verify = .error ⟨"f", .unknownTarget ⟨0⟩ ⟨1⟩⟩ ∧
      (∃ halves g, Edit.splitBlockAfter ⟨0⟩ (stray ⟨1⟩) = .ok halves g ∧ ¬ g.Dangles ⟨1⟩ ∧
        g.verify = .ok ()) ∧
      ∃ report g, Edit.instrument .hundred {} (stray ⟨1⟩) = .ok report g ∧ ¬ g.Dangles ⟨1⟩ := by
  have hedge : (stray ⟨1⟩).Edge ⟨0⟩ ⟨1⟩ := ⟨_, rfl, List.mem_cons_self⟩
  have hsplit : Edit.splitBlockAfter ⟨0⟩ (stray ⟨1⟩) = .ok (some (⟨0⟩, ⟨1⟩)) strayCut := rfl
  refine ⟨arranged_stray ⟨1⟩, ⟨⟨⟨0⟩, hedge⟩, rfl⟩, rfl, ⟨_, _, hsplit, ?_, verify_strayCut⟩, ?_⟩
  · exact fun hdangles => nomatch hdangles.2
  · have hgrown : (match Edit.instrument .hundred {} (stray ⟨1⟩) with
        | .ok _ g => (g.block? ⟨1⟩).isSome
        | .error _ _ => false) = true := by decide +kernel
    obtain ⟨report, g, hrun⟩ := Edit.instrument_exists .hundred {} (arranged_stray ⟨1⟩)
    rw [hrun] at hgrown
    exact ⟨report, g, hrun, fun hdangles => by simp [hdangles.2] at hgrown⟩

end ArithWatch
