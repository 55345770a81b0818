import ArithWatch.Proofs.Check.Acceptance
import ArithWatch.Proofs.IR.Listing

namespace ArithWatch

/-!
# No fault behind the verifier

A fault is a use of a function that breaks its rules: a block that does not exist, an operand
without a type, a block that is closed twice, a branch that is tagged twice.  On a verified module
the pass runs into none, whatever the instruction ids are, and what it leaves behind has a listing
even where the verifier rejects it.

* `Module.regular_instrument`: every function is regular after the pass, also behind a failure.
* `instrument_faultless` is the outcome of the pass over a verified module.
-/

namespace Module

variable (t : Threshold) (options : InstrumentOptions)

/-- Whatever the outcome is, the functions stay regular: those behind a failure are not touched. -/
theorem regular_instrumentFunctions {functions : List Function}
    (h : ∀ f ∈ functions, f.Regular) :
    ∀ g ∈ (instrumentFunctions t options functions).1, g.Regular := by
  induction functions with
  | nil => exact h
  | cons f rest ih =>
    obtain ⟨hf, hrest⟩ := List.forall_mem_cons.1 h
    have hinstrumented := hf.regular_instrumented t options
    obtain ⟨report, -, hrun, -⟩ := hf.instrumented_eq t options
    cases hfinish : finishFunction options (f.instrumented t options) report with
    | error e =>
      rw [instrumentFunctions_cons_of_error hrun rest hfinish]
      exact List.forall_mem_cons.2 ⟨hinstrumented, hrest⟩
    | ok part =>
      rw [instrumentFunctions_cons hrun rest hfinish]
      exact List.forall_mem_cons.2 ⟨hinstrumented, ih hrest⟩

theorem regular_instrument {m : Module} (hverify : m.verify = .ok ()) :
    ∀ g ∈ (m.instrument t options).1.functions, g.Regular := by
  rw [instrument_eq hverify]
  exact regular_instrumentFunctions t options fun f hf =>
    (wellFormed_of_verify hverify f hf).toRegular

end Module

/-- **Behind the verifier nothing faults.** Instrumenting a verified module gives a report, or, if
    verification is asked for, the verdict that an id was drawn again; it never runs into a fault.
    Either way the module that it leaves has a listing. -/
theorem instrument_faultless (m : Module) (hverify : m.verify = .ok ()) (t : Threshold)
    (options : InstrumentOptions) :
    ((∃ report, (m.instrument t options).2 = .ok report) ∨
      ∃ f ∈ m.functions, ∃ i, options.verify = true ∧ f.Redraws t options i ∧
        (m.instrument t options).2 = .error (.invalidOutput ⟨f.name, .duplicateInst i⟩)) ∧
    ∃ text, (m.instrument t options).1.listing = .ok text := by
  refine ⟨?_, Module.listing_eq_ok (Module.regular_instrument t options hverify)⟩
  rw [Module.instrument_eq hverify]
  rcases Module.instrumentFunctions_cases t options (Module.wellFormed_of_verify hverify) with
    ⟨-, parts, hparts⟩ | ⟨hoption, before, f, after, i, hsplit, -, hi, herror⟩
  · rw [hparts]
    exact .inl ⟨_, rfl⟩
  · have hf : f ∈ m.functions := by simp [hsplit]
    rw [herror]
    exact .inr ⟨f, hf, i, hoption, hi, rfl⟩

/-- A loop, and a function in which an id is drawn again. -/
theorem instrument_faultless_countless :
    Module.verify ⟨"m", [doubling, countless]⟩ = .ok () ∧
      ((∃ report, (Module.instrument .hundred { verify := true }
          ⟨"m", [doubling, countless]⟩).2 = .ok report) ∨
        ∃ f ∈ [doubling, countless], ∃ i, f.Redraws .hundred { verify := true } i ∧
          (Module.instrument .hundred { verify := true } ⟨"m", [doubling, countless]⟩).2 =
            .error (.invalidOutput ⟨f.name, .duplicateInst i⟩)) ∧
      ∃ text, (Module.instrument .hundred { verify := true }
        ⟨"m", [doubling, countless]⟩).1.listing = .ok text := by
  have hverify : Module.verify ⟨"m", [doubling, countless]⟩ = .ok () :=
    Module.verify_eq_ok.2 (List.forall_mem_cons.2
      ⟨verify_doubling, List.forall_mem_singleton.2 verify_countless⟩)
  obtain ⟨houtcome, hlisting⟩ := instrument_faultless _ hverify .hundred { verify := true }
  refine ⟨hverify, houtcome.imp_right ?_, hlisting⟩
  rintro ⟨f, hf, i, -, hi, herror⟩
  exact ⟨f, hf, i, hi, herror⟩

end ArithWatch
