import ArithWatch.Proofs.Execution.Phis

namespace ArithWatch

/-!
# Phis without a predecessor

Control comes to the entry of a function from nowhere, and to every other block along a branch.  So
only a phi of the entry can be left without a predecessor, and the first one there always is.

* `RunState.Underway`: control has come from a block.  `Advances.underway` and `Runs.underway` say
  that a run is under way from its first step on, and `Stops.preceded` that it then has a
  predecessor for its phis.
* `Block.enter_none`: what comes of entering a block from nowhere.
* `Function.run_unpreceded_iff`: which runs of a function fail for want of a predecessor.
* `preceded_iff_of_verify` adds what the verifier checks: a phi of the entry has no inputs.  Such a
  phi it does accept, and `unpreceded_rootless` is a function that is accepted and that no run can
  enter.
-/

/-! ### Blocks that are entered from a block -/

namespace Preceded

/-- Writing a register needs no predecessor. -/
theorem write (regs : Registers) (v : ValueId) (a : Scalar) : Preceded (regs.write v a) := by
  intro i h
  unfold Registers.write at h
  split at h <;> cases h

/-- Nor do several writes. -/
theorem writeAll (regs : Registers) (writes : List (ValueId × Scalar)) :
    Preceded (regs.writeAll writes) := by
  induction writes generalizing regs with
  | nil => nofun
  | cons e rest ih =>
    obtain ⟨v, a⟩ := e
    intro i h
    unfold Registers.writeAll at h
    split at h
    · exact ih _ i h
    · next halt hwrite =>
      apply write regs v a i
      rw [hwrite, h]

/-- A phi has a predecessor where control comes from a block. -/
theorem evalPhi (i : Inst) (incoming : List (BlockId × Operand)) (p : BlockId) (regs : Registers) :
    Preceded (i.evalPhi incoming (some p) regs) := by
  unfold Inst.evalPhi
  dsimp only
  split
  · nofun
  · exact read regs _

/-- With a predecessor, a phi fails for lack of an input, not of a predecessor. -/
theorem evalPhis (p : BlockId) (regs : Registers) (is : List Inst) :
    Preceded (Inst.evalPhis (some p) regs is) := by
  induction is with
  | nil => nofun
  | cons i rest ih =>
    unfold Inst.evalPhis
    split
    · apply (evalPhi i _ p regs).bind
      intro a
      apply ih.bind
      nofun
    · nofun

/-- A block entered from another is not entered without a predecessor. -/
theorem enter (b : Block) (p : BlockId) (regs : Registers) : Preceded (b.enter (some p) regs) := by
  unfold Block.enter
  apply (evalPhis p regs b.insts).bind
  exact fun writes => writeAll regs writes

/-- Binding arguments needs no predecessor. -/
theorem bindArgs (f : Function) (index : Nat) (regs : Registers)
    (args : List (ValueId × Scalar)) : Preceded (f.bindArgs index regs args) := by
  induction args generalizing index regs with
  | nil => nofun
  | cons e rest ih =>
    obtain ⟨v, a⟩ := e
    intro i h
    unfold Function.bindArgs at h
    split at h
    · cases h
    · split at h
      · split at h
        · next halt hwrite =>
          apply write regs v a i
          rw [hwrite, h]
        · exact ih _ _ i h
      · cases h

/-- Nor does the start. -/
theorem start (f : Function) (args : List Scalar) : Preceded (f.start args) := by
  intro i h
  unfold Function.start at h
  split at h
  · cases h
  · cases hbind : f.bindArgs 0 (Array.replicate f.valueTypes.size none) (f.params.zip args) with
    | error halt =>
      rw [hbind] at h
      cases h
      exact bindArgs f _ _ _ i hbind
    | ok regs =>
      rw [hbind] at h
      cases h

end Preceded

/-! ### Runs that are under way -/

/-- Control is inside a block, or it comes from one. -/
def RunState.Underway : RunState → Prop
  | .entering prev _ _ => prev ≠ none
  | .inside .. => True

section Underway

variable {f : Function} {s t : RunState}

/-- **After one step a run is under way.** -/
theorem Advances.underway {events : List Event} (hstep : Advances f s events t) : t.Underway := by
  cases hstep with
  | enter hblock henter => trivial
  | exec heval hwrite => trivial
  | jump hblock hleave => nofun
  | branch hblock hleave => nofun

/-- An execution is at its start or under way. -/
theorem Runs.underway {n : Nat} {log : List Event} (hrun : Runs f s n log t) :
    t = s ∨ t.Underway := by
  induction hrun with
  | refl s => exact .inl rfl
  | head hstep _ ih =>
    rcases ih with rfl | ih
    · exact .inr hstep.underway
    · exact .inr ih

/-- A run that is under way does not fail for want of a predecessor. -/
theorem Stops.preceded (hs : s.Underway) {events : List Event} {r : Except Halt (Option Scalar)}
    (hstop : Stops f s events r) : Preceded r := by
  rintro i rfl
  cases hstop with
  | @enter prev cur block regs halt hblock henter =>
    obtain ⟨p, rfl⟩ := Option.ne_none_iff_exists'.1 hs
    exact Preceded.enter block p regs i henter
  | eval heval => exact Preceded.eval _ _ i heval
  | write heval hwrite => exact Preceded.write _ _ _ i hwrite
  | leave hblock hleave => exact Preceded.leave _ _ _ i hleave

end Underway

/-! ### Blocks that are entered from nowhere -/

/-- Entered from nowhere, a block fails at its first phi; without phis nothing happens. -/
theorem Block.enter_none (b : Block) (regs : Registers) :
    b.enter none regs =
      match b.phis.head? with
      | some phi => .error (.error (.phiWithoutPredecessor phi.id))
      | none => .ok regs := by
  unfold Block.enter Block.phis
  cases b.insts with
  | nil => rfl
  | cons i rest =>
    rw [List.takeWhile_cons]
    unfold Inst.evalPhis
    -- The first instruction decides: a phi fails before the others are looked at.
    cases hk : i.kind <;> simp [InstKind.isPhi] <;> rfl

/-! ### Runs -/

namespace Function

variable {f : Function}

/-- The phi stands in the entry block. -/
def EntryPhi (f : Function) (phi : Inst) : Prop :=
  ∃ block, f.block? f.entry = some block ∧ phi ∈ block.insts ∧ phi.kind.isPhi = true

/-- The phi is the first one of those that the entry block begins with. -/
def FirstPhi (f : Function) (phi : Inst) : Prop :=
  ∃ block, f.block? f.entry = some block ∧ block.phis.head? = some phi

/-- The first phi of the entry is a phi of the entry. -/
theorem FirstPhi.entryPhi {phi : Inst} (h : f.FirstPhi phi) : f.EntryPhi phi := by
  obtain ⟨block, hblock, hhead⟩ := h
  have hmem : phi ∈ block.phis := List.mem_of_head? hhead
  exact ⟨block, hblock, (List.takeWhile_sublist _).mem hmem,
    List.all_eq_true.1 List.all_takeWhile phi hmem⟩

/-- Arguments that were bound have the types of their parameters. -/
theorem types_of_bindArgs {params : List ValueId} {args : List Scalar}
    (hlength : args.length = params.length) {index : Nat} {regs regs' : Registers}
    (h : f.bindArgs index regs (params.zip args) = .ok regs') :
    List.Forall₂ (fun v a => f.valueType? v = some a.ty) params args := by
  -- By induction on the parameters; a wrong type stops the binding.
  induction params generalizing args index regs with
  | nil =>
    obtain rfl := List.length_eq_zero_iff.1 hlength
    exact .nil
  | cons v params ih =>
    cases args with
    | nil => cases hlength
    | cons a args =>
      rw [List.zip_cons_cons] at h
      unfold bindArgs at h
      split at h
      · cases h
      · next expected hty =>
        split at h
        · next hsame =>
          split at h
          · cases h
          · refine .cons ?_ (ih (Nat.succ.inj hlength) h)
            rw [hty, hsame]
        · cases h

/-- A run starts on the arguments that a function accepts, and on no others. -/
theorem start_iff_accepts {args : List Scalar} : (∃ s, f.start args = .ok s) ↔ f.Accepts args := by
  constructor
  · rintro ⟨s, hs⟩
    obtain ⟨hlength, regs, -, hbind⟩ := start_eq_ok hs
    exact types_of_bindArgs hlength hbind
  · intro h
    obtain ⟨s, hs, -⟩ := h.start
    exact ⟨s, hs⟩

/-- **Phis without a predecessor.** A run fails for want of a predecessor exactly if it starts and
    the entry begins with a phi, whatever the limit is; the first phi is the one that is
    reported. -/
theorem run_unpreceded_iff (f : Function) (args : List Scalar) (limit : Nat) (i : InstId) :
    f.run args limit = .error (.error (.phiWithoutPredecessor i)) ↔
      f.Accepts args ∧ ∃ phi, f.FirstPhi phi ∧ phi.id = i := by
  constructor
  · intro herror
    cases hstart : f.start args with
    | error halt =>
      rw [run_of_start_error hstart] at herror
      cases herror
      exact absurd hstart (Preceded.start f args i)
    | ok s =>
      refine ⟨start_iff_accepts.1 ⟨s, hstart⟩, ?_⟩
      obtain ⟨-, regs, rfl, -⟩ := start_eq_ok hstart
      rcases run_cases hstart limit with ⟨n, log, r, hends, -, hrun⟩ | ⟨log, t, -, -, hrun⟩
      · obtain rfl := Trace.result_eq_error (hrun.symm.trans herror)
        obtain ⟨m, first, t, last, hwalk, hstop, -, -⟩ := hends
        rcases hwalk.underway with rfl | hunderway
        · -- The run stops where it starts, as it enters the entry.
          cases hstop with
          | @enter _ _ block _ _ hblock henter =>
            rw [block.enter_none] at henter
            split at henter
            · next phi hhead =>
              cases henter
              exact ⟨phi, ⟨block, hblock, hhead⟩, rfl⟩
            · cases henter
        · -- Later it cannot stop in this way.
          exact absurd rfl (hstop.preceded hunderway i)
      · rw [hrun] at herror
        cases herror
  · rintro ⟨haccepts, phi, ⟨block, hblock, hhead⟩, rfl⟩
    obtain ⟨s, hstart⟩ := start_iff_accepts.2 haccepts
    obtain ⟨-, regs, rfl, -⟩ := start_eq_ok hstart
    have henter : block.enter none regs = .error (.error (.phiWithoutPredecessor phi.id)) := by
      rw [block.enter_none, hhead]
    -- Entering a block is free, so that no limit comes before the failure.
    have hends : Ends f (.entering none f.entry regs) 0 [.enter f.entry] (.error _) :=
      ⟨0, [], _, _, .refl _, .enter hblock henter, rfl, rfl⟩
    rw [run_of_ends hstart hends, if_pos (Nat.zero_le limit)]
    rfl

/-! ### What the verifier checks -/

/-- In the entry, to which no branch leads, a phi has no inputs. -/
theorem Regular.kind_of_entryPhi (h : f.Regular) {phi : Inst} (hphi : f.EntryPhi phi) :
    phi.kind = .phi [] := by
  obtain ⟨block, hblock, hmem, hisphi⟩ := hphi
  cases hk : phi.kind with
  | phi incoming =>
    have hsources := (h.inputs f.entry block hblock phi hmem incoming hk).2
    cases incoming with
    | nil => rfl
    | cons input rest =>
      have hedge : f.Edge input.1 f.entry := (hsources input.1).1 List.mem_cons_self
      exact absurd hedge (h.entry_source input.1)
  | _ => simp [hk, InstKind.isPhi] at hisphi

/-- If there is a phi in the entry, the entry begins with one. -/
theorem Regular.exists_firstPhi (h : f.Regular) {phi : Inst} (hphi : f.EntryPhi phi) :
    ∃ first, f.FirstPhi first := by
  obtain ⟨block, hblock, hmem, hisphi⟩ := hphi
  cases hphis : block.phis with
  | cons first rest => exact ⟨first, block, hblock, by rw [hphis]; rfl⟩
  | nil =>
    -- Then all instructions come behind the phis, where there is none.
    have hbody : block.body = block.insts := by
      have hsplit := List.takeWhile_append_dropWhile (p := fun i : Inst => i.kind.isPhi)
        (l := block.insts)
      rwa [← Block.phis, hphis, List.nil_append] at hsplit
    have hnot := h.not_phi_of_mem_body hblock (hbody.symm ▸ hmem)
    simp [hnot] at hisphi

/-- Some arguments are accepted: a zero for each parameter, as every parameter has a type. -/
theorem Regular.exists_accepts (h : f.Regular) : ∃ args, f.Accepts args := by
  have htypes : ∀ params : List ValueId, params ⊆ f.params →
      ∃ args : List Scalar, List.Forall₂ (fun v a => f.valueType? v = some a.ty) params args := by
    intro params hparams
    induction params with
    | nil => exact ⟨[], .nil⟩
    | cons v rest ih =>
      obtain ⟨hv, hrest⟩ := List.cons_subset.1 hparams
      obtain ⟨ty, hty⟩ := h.exists_valueType? (List.mem_append_left _ hv)
      obtain ⟨args, hargs⟩ := ih hrest
      refine ⟨.ofConstant (.zero ty) :: args, .cons ?_ hargs⟩
      rw [hty, Scalar.ty_ofConstant]
      rfl
  exact htypes f.params (List.Subset.refl _)

end Function

/-- **Verified functions and phis without a predecessor.** The verifier lets no phi into the entry
    that has inputs.  A run fails for want of a predecessor exactly if it starts and the entry
    begins with a phi, one without inputs then; so no run fails in this way exactly if the entry has
    no phi. -/
theorem preceded_iff_of_verify (f : Function) (hverify : f.verify = .ok ()) :
    (∀ phi, f.EntryPhi phi → phi.kind = .phi []) ∧
    (∀ args limit i, f.run args limit = .error (.error (.phiWithoutPredecessor i)) ↔
      f.Accepts args ∧ ∃ phi, f.FirstPhi phi ∧ phi.id = i) ∧
    ((∀ args limit i, f.run args limit ≠ .error (.error (.phiWithoutPredecessor i))) ↔
      ∀ phi, ¬ f.EntryPhi phi) := by
  have h := (Function.verified_iff_wellFormed.1 hverify).toRegular
  refine ⟨fun phi hphi => h.kind_of_entryPhi hphi, f.run_unpreceded_iff, ?_⟩
  constructor
  · intro hnever phi hphi
    obtain ⟨first, hfirst⟩ := h.exists_firstPhi hphi
    obtain ⟨args, hargs⟩ := h.exists_accepts
    apply hnever args 0 first.id
    exact (f.run_unpreceded_iff args 0 first.id).2 ⟨hargs, first, hfirst, rfl⟩
  · intro hnone args limit i herror
    obtain ⟨-, phi, hphi, -⟩ := (f.run_unpreceded_iff args limit i).1 herror
    exact hnone phi hphi.entryPhi

/-- The phis of the loop always have a predecessor. -/
theorem preceded_swapping :
    swapping.verify = .ok () ∧ (∀ phi, ¬ swapping.EntryPhi phi) ∧
      ∀ args limit i, swapping.run args limit ≠ .error (.error (.phiWithoutPredecessor i)) := by
  have hnone : ∀ phi, ¬ swapping.EntryPhi phi := by
    rintro phi ⟨block, hblock, hmem, -⟩
    cases hblock
    cases hmem
  obtain ⟨-, -, hnever⟩ := preceded_iff_of_verify swapping verify_swapping
  exact ⟨verify_swapping, hnone, hnever.2 hnone⟩

/-- A function whose entry has a phi without inputs. -/
def rootless : Function where
  name := "f"
  params := []
  returnType := none
  valueTypes := #[.int 32]
  blocks := #[
    { id := ⟨0⟩
      name := "entry"
      insts := [{ id := ⟨0⟩, result := ⟨0⟩, kind := .phi [] }]
      term := some { exit := .ret none } }]
  layout := [⟨0⟩]
  entry := ⟨0⟩
  instCount := 1

/-- The example verifies, with a phi of no inputs in its entry. -/
theorem verify_rootless : rootless.verify = .ok () := by
  rw [Function.verify, Function.verifyReachability_of_alone rfl rfl rfl rfl]
  rfl

/-- **The verifier accepts a phi that has no predecessor.**  The inputs of the phi match the
    predecessors of its block, as there are none of either; but no run gets past it. -/
theorem unpreceded_rootless :
    rootless.verify = .ok () ∧ (∃ phi, rootless.EntryPhi phi) ∧
      ∀ limit, rootless.run [] limit = .error (.error (.phiWithoutPredecessor ⟨0⟩)) := by
  refine ⟨verify_rootless, ⟨_, _, rfl, List.mem_cons_self, rfl⟩, fun limit => ?_⟩
  rw [rootless.run_unpreceded_iff]
  exact ⟨.nil, _, ⟨_, rfl, rfl⟩, rfl⟩

end ArithWatch
