import ArithWatch.Proofs.Check.Pass
import ArithWatch.Proofs.IR.Repeated
import ArithWatch.Check.Report
import Mathlib.Data.Nat.Find

namespace ArithWatch

/-!
# Instruction ids that are drawn again

The pass draws its instruction ids from the count of the function.  Nothing that the verifier checks
keeps the ids of a function below that count, and nothing keeps the count from overflowing, so that
an id can be drawn that is in use already.

* `Function.Redraws` names the first id to which that happens.
* `Function.FreshIds.not_redraws`: it does not happen to ids below the count if there is room.
* `Function.WellFormed.verify_instrumented` is the verdict on the outcome.
* `Module.instrumentFunctions_outcome` are the two ways in which the functions of a module are dealt
  with, and `Module.instrumentFunctions_cases` is what they are for verified functions.
-/

/-- The function as the pass leaves it. -/
def Function.instrumented (t : Threshold) (options : InstrumentOptions) (f : Function) : Function :=
  match Edit.instrument t options f with
  | .ok _ g => g
  | .error _ g => g

/-- The id that the pass draws behind `k` others is the first one that is in use by then: an
    instruction of the function has it, or the pass has drawn it before. -/
structure Function.RedrawsBehind (t : Threshold) (options : InstrumentOptions) (f : Function)
    (k : Nat) : Prop where
  drawn : f.allInsts.length + k < (f.instrumented t options).allInsts.length
  used : ⟨InstId.advance f.instCount k⟩ ∈ f.allInsts.map (·.id) ++ InstId.drawn f.instCount k
  first : (f.allInsts.map (·.id) ++ InstId.drawn f.instCount k).Nodup

/-- The id is the first one that the pass draws although it is in use. -/
def Function.Redraws (t : Threshold) (options : InstrumentOptions) (f : Function) (i : InstId) :
    Prop :=
  ∃ k, f.RedrawsBehind t options k ∧ i = ⟨InstId.advance f.instCount k⟩

/-- The pass draws an id again in one of the functions. -/
def Module.Redraws (t : Threshold) (options : InstrumentOptions) (m : Module) : Prop :=
  ∃ f ∈ m.functions, ∃ i, f.Redraws t options i

/-! ### One function -/

namespace Function

variable {f : Function} (t : Threshold) (options : InstrumentOptions)

/-- The pass ends in the instrumented function. -/
theorem Regular.instrumented_eq (h : f.Regular) :
    ∃ report g, Edit.instrument t options f = .ok report (f.instrumented t options) ∧
      Inserts t ((f.allInsts.filter (·.kind.isBinary)).map (·.id)) f report.sites g ∧
      g.Alike (f.instrumented t options) ∧
      Edit.RecordsIn (f.instrumented t options) report.checks := by
  obtain ⟨report, g, f', hrun, hinserts, halike, hm⟩ := Edit.instrument_eq t options h
  have houtcome : f.instrumented t options = f' := by rw [instrumented, hrun]
  rw [houtcome]
  exact ⟨report, g, hrun, hinserts, halike, hm⟩

/-- Instrumentation keeps the name. -/
theorem Regular.name_instrumented (h : f.Regular) : (f.instrumented t options).name = f.name := by
  obtain ⟨report, g, -, hinserts, halike, -⟩ := h.instrumented_eq t options
  rw [halike.frame, hinserts.frame]

/-- It keeps all of regularity, which does not look at instruction ids. -/
theorem Regular.regular_instrumented (h : f.Regular) : (f.instrumented t options).Regular := by
  obtain ⟨report, g, -, hinserts, halike, -⟩ := h.instrumented_eq t options
  exact halike.regular (hinserts.regular h)

/-- The pass draws an id for every instruction that it inserts. -/
theorem Regular.draws_instrumented (h : f.Regular) : ∃ n, f.Draws n (f.instrumented t options) := by
  obtain ⟨report, g, -, hinserts, halike, -⟩ := h.instrumented_eq t options
  obtain ⟨n, hn⟩ := hinserts.draws h
  exact ⟨n, halike.draws hn⟩

variable {t options}

/-- Ids below the next free one are not drawn again as long as the count does not overflow. -/
theorem FreshIds.not_redraws (h : f.FreshIds) (hroom : f.RoomFor (f.instrumented t options))
    (i : InstId) : ¬ f.Redraws t options i := by
  rintro ⟨k, hk, rfl⟩
  have hlt := hk.drawn
  rw [RoomFor] at hroom
  have hused := hk.used
  rw [InstId.advance_eq (by omega), List.mem_append] at hused
  rcases hused with hold | hnew
  · obtain ⟨j, hj, hid⟩ := List.mem_map.1 hold
    have hlow := h j hj
    rw [hid] at hlow
    exact absurd hlow (Nat.not_lt.2 (Nat.le_add_right _ _))
  · exact absurd ((InstId.mem_drawn_of_room (by omega)).1 hnew).2 (Nat.lt_irrefl _)

/-- Behind distinct ids, draws either stay distinct or come to a first one that is in use. -/
theorem nodup_or_exists_first {ids : List InstId} (hids : ids.Nodup) (count n : Nat) :
    (ids ++ InstId.drawn count n).Nodup ∨
      ∃ k < n, (⟨InstId.advance count k⟩ : InstId) ∈ ids ++ InstId.drawn count k ∧
        (ids ++ InstId.drawn count k).Nodup := by
  induction n with
  | zero => exact .inl (by rwa [InstId.drawn_zero, List.append_nil])
  | succ n ih =>
    rcases ih with hnodup | ⟨k, hk, hfirst⟩
    · by_cases hused : (⟨InstId.advance count n⟩ : InstId) ∈ ids ++ InstId.drawn count n
      · exact .inr ⟨n, Nat.lt_succ_self n, hused, hnodup⟩
      · refine .inl ?_
        rw [InstId.drawn_succ, ← List.append_assoc, ← List.concat_eq_append, List.nodup_concat]
        exact ⟨hused, hnodup⟩
    · exact .inr ⟨k, Nat.lt_succ_of_lt hk, hfirst⟩

namespace WellFormed

/-- The ids stay free of repetition if none is drawn again. -/
theorem wellFormed_instrumented (h : f.WellFormed) (hnone : ∀ i, ¬ f.Redraws t options i) :
    (f.instrumented t options).WellFormed := by
  refine ⟨h.toRegular.regular_instrumented t options, ?_⟩
  obtain ⟨n, hn⟩ := h.toRegular.draws_instrumented t options
  rw [hn.instIds_eq]
  refine (nodup_or_exists_first h.instIds_nodup f.instCount n).resolve_right ?_
  rintro ⟨k, hk, hused, hfirst⟩
  exact hnone _ ⟨k, ⟨by rw [hn.length_eq]; omega, hused, hfirst⟩, rfl⟩

/-- The instructions in front of the one that repeats an id. -/
theorem exists_repeated (h : f.WellFormed) {i : InstId} (hi : f.Redraws t options i) :
    ∃ front new back, (f.instrumented t options).allInsts = front ++ new :: back ∧ new.id = i ∧
      (front.map (·.id)).Nodup ∧ i ∈ front.map (·.id) := by
  obtain ⟨k, hk, rfl⟩ := hi
  obtain ⟨n, hn⟩ := h.toRegular.draws_instrumented t options
  have hlt := hk.drawn
  rw [hn.length_eq] at hlt
  obtain ⟨m, rfl⟩ : ∃ m, n = k + (1 + m) := ⟨n - k - 1, by omega⟩
  have hids := hn.instIds_eq
  rw [InstId.drawn_add, InstId.drawn_add, InstId.drawn_one, List.singleton_append,
    ← List.append_assoc] at hids
  obtain ⟨front, back', hsplit, hfront, hback⟩ := List.map_eq_append_iff.1 hids
  obtain ⟨new, back, rfl, hnew, -⟩ := List.map_eq_cons_iff.1 hback
  exact ⟨front, new, back, hsplit, hnew, hfront ▸ hk.first, hfront ▸ hk.used⟩

/-- **The verdict on the outcome.** It is accepted if no id is drawn again; otherwise the verifier
    names the first such id. -/
theorem verify_instrumented (h : f.WellFormed) :
    ((f.instrumented t options).verify = .ok () ↔ ∀ i, ¬ f.Redraws t options i) ∧
    ∀ i, f.Redraws t options i →
      (f.instrumented t options).verify = .error ⟨f.name, .duplicateInst i⟩ := by
  have herror : ∀ i, f.Redraws t options i →
      (f.instrumented t options).verify = .error ⟨f.name, .duplicateInst i⟩ := by
    intro i hi
    obtain ⟨front, new, back, hsplit, rfl, hnodup, hmem⟩ := h.exists_repeated hi
    rw [(h.toRegular.regular_instrumented t options).verify_eq_error hsplit hnodup hmem,
      h.toRegular.name_instrumented t options]
  refine ⟨⟨fun hok i hi => ?_, fun hnone => ?_⟩, herror⟩
  · rw [herror i hi] at hok
    cases hok
  · exact verified_iff_wellFormed.2 (h.wellFormed_instrumented hnone)

/-- There is one first id that is drawn again at most, as the verdict names it. -/
theorem redraws_unique (h : f.WellFormed) {i j : InstId} (hi : f.Redraws t options i)
    (hj : f.Redraws t options j) : i = j := by
  have heq := (h.verify_instrumented.2 i hi).symm.trans (h.verify_instrumented.2 j hj)
  cases heq
  rfl

end WellFormed

end Function

/-! ### The functions of a module -/

namespace Module

/-- The branches of a report have names, so that only the verifier can object. -/
theorem finishFunction_eq (options : InstrumentOptions) {f : Function} {report : FunctionReport}
    (hm : Edit.RecordsIn f report.checks) :
    ∃ part, finishFunction options f report =
      (if options.verify then f.verify.mapError .invalidOutput else .ok ()) >>= fun _ =>
        .ok part := by
  obtain ⟨branches, hbranches⟩ :
      ∃ branches, report.checks.entries.mapM f.taggedBranch = .ok branches := by
    refine except_mapM_exists fun e he => ?_
    obtain ⟨block, hblock⟩ := Function.exists_block? (hm.lt_of_mem he)
    exact ⟨_, by rw [Function.taggedBranch, Function.block_eq_ok hblock]; rfl⟩
  refine ⟨(report, branches), ?_⟩
  rw [finishFunction, hbranches]
  cases options.verify <;> rfl

/-- The check accepts the functions before `f` and rejects `f`, with the error `e`. -/
structure FirstRejected (check : Function → Except VerifyError Unit)
    (functions before : List Function) (f : Function) (after : List Function) (e : VerifyError) :
    Prop where
  split : functions = before ++ f :: after
  accepted : ∀ g ∈ before, check g = .ok ()
  rejected : check f = .error e

/-- An accepted function before it leaves the first rejected one. -/
theorem FirstRejected.cons {check : Function → Except VerifyError Unit} {g f : Function}
    {functions before after : List Function} {e : VerifyError} (hg : check g = .ok ())
    (h : FirstRejected check functions before f after e) :
    FirstRejected check (g :: functions) (g :: before) f after e where
  split := congrArg (g :: ·) h.split
  accepted := List.forall_mem_cons.2 ⟨hg, h.accepted⟩
  rejected := h.rejected

section Step

variable {t : Threshold} {options : InstrumentOptions} {f g : Function} {report : FunctionReport}
  (hrun : Edit.instrument t options f = .ok report g) (rest : List Function)

include hrun

/-- One function of a run over a module. -/
theorem instrumentFunctions_cons {part : Part} (h : finishFunction options g report = .ok part) :
    instrumentFunctions t options (f :: rest) =
      (g :: (instrumentFunctions t options rest).1,
        (instrumentFunctions t options rest).2.map (part :: ·)) := by
  rw [instrumentFunctions, hrun]
  simp only [h]

/-- The run stops behind a function that does not pass. -/
theorem instrumentFunctions_cons_of_error {e : InstrumentError}
    (h : finishFunction options g report = .error e) :
    instrumentFunctions t options (f :: rest) = (g :: rest, .error e) := by
  rw [instrumentFunctions, hrun]
  simp only [h]

end Step

/-- **The walk over the functions**, where no pass faults.  It comes to the end, or verification
    stops it at the first function whose outcome is rejected.  That function stays instrumented;
    those behind it are not touched. -/
theorem instrumentFunctions_outcome (t : Threshold) (options : InstrumentOptions)
    {functions : List Function}
    (h : ∀ f ∈ functions, ∃ report, Edit.instrument t options f =
      .ok report (f.instrumented t options) ∧
        Edit.RecordsIn (f.instrumented t options) report.checks) :
    ((options.verify = true → ∀ f ∈ functions, (f.instrumented t options).verify = .ok ()) ∧
      ∃ parts, instrumentFunctions t options functions =
        (functions.map (·.instrumented t options), .ok parts)) ∨
    (options.verify = true ∧ ∃ before f after e,
      FirstRejected (fun f => (f.instrumented t options).verify) functions before f after e ∧
      instrumentFunctions t options functions =
        (before.map (·.instrumented t options) ++ f.instrumented t options :: after,
          .error (.invalidOutput e))) := by
  -- By induction on the functions; the first that is rejected ends the pass.
  induction functions with
  | nil => exact .inl ⟨fun _ => nofun, [], rfl⟩
  | cons f rest ih =>
    obtain ⟨report, hrun, hm⟩ := h f List.mem_cons_self
    obtain ⟨part, hpart⟩ := finishFunction_eq options hm
    by_cases hstop : ∃ e, options.verify = true ∧ (f.instrumented t options).verify = .error e
    · obtain ⟨e, hverify, he⟩ := hstop
      rw [if_pos hverify, he] at hpart
      exact .inr ⟨hverify, [], f, rest, e, ⟨rfl, nofun, he⟩,
        instrumentFunctions_cons_of_error hrun rest hpart⟩
    · have hok : options.verify = true → (f.instrumented t options).verify = .ok () := by
        intro hverify
        cases he : (f.instrumented t options).verify with
        | ok => rfl
        | error e => exact absurd ⟨e, hverify, he⟩ hstop
      have hpart' : finishFunction options (f.instrumented t options) report = .ok part := by
        rw [hpart]
        cases hverify : options.verify with
        | false => rfl
        | true => rw [if_pos rfl, hok hverify]; rfl
      have hstep := instrumentFunctions_cons hrun rest hpart'
      rcases ih fun g hg => h g (List.mem_cons_of_mem _ hg) with
        ⟨hrest, parts, hparts⟩ | ⟨hverify, before, g, after, e, hfirst, herror⟩
      · refine .inl ⟨fun hverify => ?_, part :: parts, ?_⟩
        · exact List.forall_mem_cons.2 ⟨hok hverify, hrest hverify⟩
        · rw [hstep, hparts]
          rfl
      · refine .inr ⟨hverify, f :: before, g, after, e, hfirst.cons (hok hverify), ?_⟩
        rw [hstep, herror]
        rfl

/-- **The functions of a module.** Either all of them are instrumented, where with verification no
    id is drawn again, or verification stops at the first one in which that happens. -/
theorem instrumentFunctions_cases (t : Threshold) (options : InstrumentOptions)
    {functions : List Function} (h : ∀ f ∈ functions, f.WellFormed) :
    ((options.verify = true → ∀ f ∈ functions, ∀ i, ¬ f.Redraws t options i) ∧
      ∃ parts, instrumentFunctions t options functions =
        (functions.map (·.instrumented t options), .ok parts)) ∨
    (options.verify = true ∧ ∃ before f after i, functions = before ++ f :: after ∧
      (∀ g ∈ before, ∀ j, ¬ g.Redraws t options j) ∧ f.Redraws t options i ∧
      (instrumentFunctions t options functions).2 =
        .error (.invalidOutput ⟨f.name, .duplicateInst i⟩)) := by
  have hruns : ∀ f ∈ functions, ∃ report, Edit.instrument t options f =
      .ok report (f.instrumented t options) ∧
        Edit.RecordsIn (f.instrumented t options) report.checks := by
    intro f hf
    obtain ⟨report, -, hrun, -, -, hm⟩ := (h f hf).toRegular.instrumented_eq t options
    exact ⟨report, hrun, hm⟩
  rcases instrumentFunctions_outcome t options hruns with
    ⟨hok, hparts⟩ | ⟨hverify, before, f, after, e, ⟨rfl, hbefore, he⟩, herror⟩
  · exact .inl ⟨fun hverify f hf => (h f hf).verify_instrumented.1.1 (hok hverify f hf), hparts⟩
  · have hf : f.WellFormed := h f (List.mem_append_right _ List.mem_cons_self)
    -- The verifier only objects to an id that is drawn again.
    obtain ⟨i, hi⟩ : ∃ i, f.Redraws t options i := by
      by_contra hnone
      have hok := hf.verify_instrumented.1.2 (not_exists.1 hnone)
      exact absurd (he.symm.trans hok) nofun
    have hei : Except.error e = .error ⟨f.name, .duplicateInst i⟩ :=
      he.symm.trans (hf.verify_instrumented.2 i hi)
    cases hei
    refine .inr ⟨hverify, before, f, after, i, rfl, fun g hg => ?_, hi, ?_⟩
    · exact (h g (List.mem_append_left _ hg)).verify_instrumented.1.1 (hbefore g hg)
    · rw [herror]

end Module

/-! ### Ids that are free, and ids that are in use -/

/-- There is room for the checks of the loop. -/
theorem roomFor_doubling (verify : Bool) :
    doubling.RoomFor (doubling.instrumented .hundred { verify }) := by
  unfold Function.RoomFor
  cases verify <;> decide +kernel

/-- Doubles its argument.  Its next free instruction id is the id of its instruction. -/
def countless : Function where
  name := "double"
  params := [⟨0⟩]
  returnType := some (.int 32)
  valueTypes := #[.int 32, .int 32]
  blocks := #[
    { id := ⟨0⟩
      name := "entry"
      insts := [
        { id := ⟨0⟩, result := ⟨1⟩, kind := .binary .add (.value ⟨0⟩) (.value ⟨0⟩) .empty }]
      term := some { exit := .ret (some (.value ⟨1⟩)) } }]
  layout := [⟨0⟩]
  entry := ⟨0⟩
  instCount := 0

/-- The example whose first free id is in use verifies. -/
theorem verify_countless : countless.verify = .ok () := by
  rw [Function.verify, Function.verifyReachability_of_alone rfl rfl rfl rfl]
  rfl

/-- The first id that is drawn is the one that is in use. -/
theorem redraws_countless : countless.Redraws .hundred { verify := true } ⟨0⟩ :=
  ⟨0, ⟨by decide +kernel, by decide, by decide⟩, rfl⟩

end ArithWatch
