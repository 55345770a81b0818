import ArithWatch.Proofs.Check.Redrawn
import ArithWatch.Proofs.Check.Width
import ArithWatch.CommandLine.Tool

namespace ArithWatch

/-!
# When the tool accepts its own output

The tool verifies the module that it reads and the functions that it has instrumented.  The second
verdict is favourable unless the pass draws an instruction id again (`Module.Redraws`), which the
first one does not rule out.

* `Module.instrument_eq_ok` is the outcome where no id is drawn again.
* `Module.instrument_eq_error` is the outcome where one is.
* `accepted_unless_redrawn` says both of every module that is read and verified, and that the
  emitted text of an accepted outcome reads back.
* `rejected_countless`: a module that the verifier accepts before the pass and not after it.
-/

namespace Module

variable {t : Threshold} {options : InstrumentOptions} {m : Module}

/-- The module with all its functions instrumented. -/
def instrumented (t : Threshold) (options : InstrumentOptions) (m : Module) : Module :=
  { m with functions := m.functions.map (·.instrumented t options) }

/-- The functions of a verified module are well formed. -/
theorem wellFormed_of_verify (hverify : m.verify = .ok ()) : ∀ f ∈ m.functions, f.WellFormed :=
  fun f hf => Function.verified_iff_wellFormed.1 (verify_eq_ok.1 hverify f hf)

/-- A verified module is taken apart into its functions. -/
theorem instrument_eq (hverify : m.verify = .ok ()) :
    m.instrument t options =
      ({ m with functions := (instrumentFunctions t options m.functions).1 },
        (instrumentFunctions t options m.functions).2.map fun parts =>
          { module := m.name
            functions := parts.map (·.1)
            branches := parts.flatMap (·.2) }) := by
  have hcheck : (if options.verify then m.verify else .ok ()) = .ok () := by
    rw [hverify]
    exact ite_self _
  rw [instrument, hcheck]

/-- Without a redrawn id every function is instrumented, and accepted. -/
theorem instrument_eq_ok (hverify : m.verify = .ok ()) (hnone : ¬ m.Redraws t options) :
    (∃ report, m.instrument t options = (m.instrumented t options, .ok report)) ∧
      (m.instrumented t options).verify = .ok () := by
  have hwell := wellFormed_of_verify hverify
  have hnone' : ∀ f ∈ m.functions, ∀ i, ¬ f.Redraws t options i :=
    fun f hf i hi => hnone ⟨f, hf, i, hi⟩
  refine ⟨?_, verify_eq_ok.2 fun g hg => ?_⟩
  · rcases instrumentFunctions_cases t options hwell with
      ⟨-, parts, hparts⟩ | ⟨-, before, f, after, i, hsplit, -, hi, -⟩
    · rw [instrument_eq hverify, hparts]
      exact ⟨_, rfl⟩
    · have hf : f ∈ m.functions := by simp [hsplit]
      exact absurd hi (hnone' f hf i)
  · obtain ⟨f, hf, rfl⟩ := List.mem_map.1 hg
    exact (hwell f hf).verify_instrumented.1.2 (hnone' f hf)

/-- With a redrawn id the first function that has one is not accepted. -/
theorem instrument_eq_error (hverify : m.verify = .ok ()) (hoption : options.verify = true)
    (hredraws : m.Redraws t options) :
    ∃ before f after i, m.functions = before ++ f :: after ∧
      (∀ g ∈ before, ∀ j, ¬ g.Redraws t options j) ∧ f.Redraws t options i ∧
      (m.instrument t options).2 = .error (.invalidOutput ⟨f.name, .duplicateInst i⟩) := by
  obtain ⟨f, hf, i, hi⟩ := hredraws
  rcases instrumentFunctions_cases t options (wellFormed_of_verify hverify) with
    ⟨hnone, -⟩ | ⟨-, before, g, after, j, hsplit, hbefore, hj, herror⟩
  · exact absurd hi (hnone hoption f hf i)
  · refine ⟨before, g, after, j, hsplit, hbefore, hj, ?_⟩
    rw [instrument_eq hverify, herror]
    rfl

/-- The numbers of the instrumented module fit 32 bits where the counts of its functions do. -/
theorem fits32_instrumented (hm : m.Fits32) (hverify : m.verify = .ok ())
    (hcounts : ∀ f ∈ m.functions, (f.instrumented t options).CountsFit) :
    (m.instrumented t options).Fits32 := by
  intro g hg
  obtain ⟨f, hf, rfl⟩ := List.mem_map.1 hg
  have hreg := (wellFormed_of_verify hverify f hf).toRegular
  obtain ⟨report, -, hrun, -⟩ := hreg.instrumented_eq t options
  exact Edit.fits32_of_instrument hreg (hm f hf) hrun (hcounts f hf)

end Module

namespace Tool

/-- What the tool reads fits 32 bits. -/
theorem fits32_of_readModule {path text : String} {m : Module}
    (hread : readModule path text = .ok m) : m.Fits32 := by
  unfold readModule at hread
  split at hread
  · next m' hdecode =>
    obtain ⟨j, -, hj⟩ := Option.bind_eq_some_iff.1 hdecode
    cases hread
    exact Module.codec.of_decode? hj
  · cases hread

/-- What the tool writes as JSON it reads again. -/
theorem readModule_of_moduleText {m : Module} (hm : m.Fits32) (path : String) :
    ∃ text, moduleText m .json = .ok text ∧ readModule path text = .ok m := by
  refine ⟨_, rfl, ?_⟩
  have hspace : ∀ c ∈ ['\n'], JsonToken.isSpace c = true :=
    List.forall_mem_singleton.2 (by decide)
  have htext : (m.toJson.render .pretty ++ "\n").toList =
      (m.toJson.render .pretty).toList ++ ['\n'] := String.toList_append
  rw [readModule, htext, Module.parse?_render hm .pretty hspace]

end Tool

/-- **The tool accepts its own output unless an id is drawn again.** Take a module that is read from
    a text and verified, and instrument it with verification.  Where the pass draws no instruction
    id again, there is a report, the instrumented module is accepted, and, its counts fitting 32
    bits, it is what its emitted text reads back as.  Where the pass does, the first function in
    which that happens is rejected, for the first such id. -/
theorem accepted_unless_redrawn (path text : String) (m : Module)
    (hread : Tool.readModule path text = .ok m) (hverify : m.verify = .ok ()) (t : Threshold)
    (options : InstrumentOptions) (hoption : options.verify = true) :
    (¬ m.Redraws t options →
      (∃ report, m.instrument t options = (m.instrumented t options, .ok report)) ∧
      (m.instrumented t options).verify = .ok () ∧
      ((∀ f ∈ m.functions, (f.instrumented t options).CountsFit) → ∀ path',
        ∃ text', Tool.moduleText (m.instrumented t options) .json = .ok text' ∧
          Tool.readModule path' text' = .ok (m.instrumented t options))) ∧
    (m.Redraws t options →
      ∃ before f after i, m.functions = before ++ f :: after ∧
        (∀ g ∈ before, ∀ j, ¬ g.Redraws t options j) ∧ f.Redraws t options i ∧
        (m.instrument t options).2 = .error (.invalidOutput ⟨f.name, .duplicateInst i⟩)) := by
  have hm : m.Fits32 := Tool.fits32_of_readModule hread
  refine ⟨fun hnone => ?_, Module.instrument_eq_error hverify hoption⟩
  obtain ⟨hreport, haccepted⟩ := Module.instrument_eq_ok hverify hnone
  refine ⟨hreport, haccepted, fun hcounts path' => ?_⟩
  exact Tool.readModule_of_moduleText (Module.fits32_instrumented hm hverify hcounts) path'

/-- A loop whose numbers are those of its instructions: no id is drawn again, and the instrumented
    module is accepted and reads back. -/
theorem accepted_doubling :
    ∃ text, Tool.readModule "" text = .ok ⟨"m", [doubling]⟩ ∧
      Module.verify ⟨"m", [doubling]⟩ = .ok () ∧
      ∃ report m', Module.instrument .hundred { verify := true } ⟨"m", [doubling]⟩ =
          (m', .ok report) ∧ m'.verify = .ok () ∧
        ∃ text', Tool.moduleText m' .json = .ok text' ∧ Tool.readModule "" text' = .ok m' := by
  -- A module that is decoded from its own values fits, and so can be written and read again.
  have hdecode : Module.ofJson? (Module.toJson ⟨"m", [doubling]⟩) = some ⟨"m", [doubling]⟩ := by
    decide +kernel
  have hfits : Module.Fits32 ⟨"m", [doubling]⟩ := Module.codec.of_decode? hdecode
  obtain ⟨text, -, hread⟩ := Tool.readModule_of_moduleText hfits ""
  have hverify : Module.verify ⟨"m", [doubling]⟩ = .ok () :=
    Module.verify_eq_ok.2 (List.forall_mem_singleton.2 verify_doubling)
  have hnone : ¬ Module.Redraws .hundred { verify := true } ⟨"m", [doubling]⟩ := by
    rintro ⟨f, hf, i, hi⟩
    obtain rfl := List.mem_singleton.1 hf
    exact freshIds_doubling.not_redraws (roomFor_doubling true) i hi
  have hcounts : (doubling.instrumented .hundred { verify := true }).CountsFit :=
    ⟨by decide +kernel, by decide +kernel⟩
  obtain ⟨⟨report, hrun⟩, haccepted, hback⟩ :=
    (accepted_unless_redrawn "" text _ hread hverify .hundred { verify := true } rfl).1 hnone
  exact ⟨text, hread, hverify, report, _, hrun, haccepted,
    hback (List.forall_mem_singleton.2 hcounts) ""⟩

/-! ### A next free id that is not free -/

/-- The module is read and accepted, and its instrumented form is not. -/
theorem rejected_countless :
    ∃ text, Tool.readModule "" text = .ok ⟨"m", [countless]⟩ ∧
      Module.verify ⟨"m", [countless]⟩ = .ok () ∧
      (Module.instrument .hundred { verify := true } ⟨"m", [countless]⟩).2 =
        .error (.invalidOutput ⟨"double", .duplicateInst ⟨0⟩⟩) := by
  have hdecode : Module.ofJson? (Module.toJson ⟨"m", [countless]⟩) = some ⟨"m", [countless]⟩ := by
    decide +kernel
  have hfits : Module.Fits32 ⟨"m", [countless]⟩ := Module.codec.of_decode? hdecode
  obtain ⟨text, -, hread⟩ := Tool.readModule_of_moduleText hfits ""
  have hverify : Module.verify ⟨"m", [countless]⟩ = .ok () :=
    Module.verify_eq_ok.2 (List.forall_mem_singleton.2 verify_countless)
  refine ⟨text, hread, hverify, ?_⟩
  obtain ⟨before, f, after, i, hsplit, -, hi, herror⟩ :=
    Module.instrument_eq_error hverify rfl ⟨countless, List.mem_singleton_self _, ⟨0⟩,
      redraws_countless⟩
  -- The module has one function, in which 0 is the first id that is drawn again.
  have hf : f ∈ [countless] := by
    rw [show [countless] = before ++ f :: after from hsplit]
    exact List.mem_append_right _ List.mem_cons_self
  obtain rfl := List.mem_singleton.1 hf
  rw [herror, (Module.wellFormed_of_verify hverify _ hf).redraws_unique hi redraws_countless]
  rfl

end ArithWatch
