import ArithWatch.Proofs.IR.Verified

namespace ArithWatch

/-!
# Repeated instruction ids

The verdict on a function that is regular but uses an instruction id twice: the verifier names the
first instruction, in layout order, whose id stands before it already.

* `Function.definitions_eq_error` is the walk over the instructions.
* `Function.Regular.verify_eq_error` is the verdict.
-/

namespace Function

variable {f : Function} {front back : List Inst} {i : Inst}

/-- The walk over the instructions ends at the first repeated id. -/
theorem definitions_eq_error (hnodup : f.defined.Nodup)
    (hlt : ∀ v ∈ f.defined, v.index < f.valueTypes.size)
    (hinsts : f.allInsts = front ++ i :: back) (hfront : (front.map (·.id)).Nodup)
    (hi : i.id ∈ front.map (·.id)) : f.definitions = .error (.duplicateInst i.id) := by
  have hfree : ∀ v ∈ f.defined,
      (Array.replicate f.valueTypes.size false)[v.index]? = some false := fun v hv => by
    simp [hlt v hv]
  have hall := foldlM_define_eq_ok.2 ⟨hfree, hnodup, rfl⟩
  rw [defined, hinsts, List.map_append, List.foldlM_append, except_bind_eq_ok] at hall
  obtain ⟨params, hparams, hall⟩ := hall
  rw [List.foldlM_append, except_bind_eq_ok] at hall
  obtain ⟨marks, hmarks, -⟩ := hall
  -- The walk reaches the repeated instruction without an error, since the ids before it differ.
  have hwalk : front.foldlM defineInst ([], params) =
      .ok ((front.map (·.id)).reverse ++ [], marks) :=
    foldlM_defineInst_eq_ok.2 ⟨⟨fun _ _ => List.not_mem_nil, hfront⟩, hmarks, rfl⟩
  have hstop : defineInst ((front.map (·.id)).reverse ++ [], marks) i =
      .error (.duplicateInst i.id) := by
    rw [defineInst, if_pos (List.contains_iff_mem.2 (by simpa using hi))]
  have hinsts' : (f.laidOut.flatMap (·.insts)).foldlM defineInst ([], params) =
      .error (.duplicateInst i.id) := by
    show f.allInsts.foldlM defineInst ([], params) = _
    rw [hinsts, List.foldlM_append, hwalk]
    show (i :: back).foldlM defineInst _ = _
    rw [List.foldlM_cons, hstop]
    rfl
  rw [definitions, hparams]
  show (f.laidOut.flatMap (·.insts)).foldlM defineInst ([], params) >>= _ = _
  rw [hinsts']
  rfl

/-- **The verdict on a repeated id.** -/
theorem Regular.verify_eq_error (h : f.Regular) (hinsts : f.allInsts = front ++ i :: back)
    (hfront : (front.map (·.id)).Nodup) (hi : i.id ∈ front.map (·.id)) :
    f.verify = .error ⟨f.name, .duplicateInst i.id⟩ := by
  have hdefinitions : f.verifyDefinitions = .error (.duplicateInst i.id) := by
    rw [verifyDefinitions, definitions_eq_error h.defined_nodup h.defined_lt hinsts hfront hi]
    rfl
  rw [verify, verifyTypes_eq_ok.2 h.widths, verifyLayout_eq_ok.2 h.laid,
    (verifyTerminators_eq_ok h.laid).2 ⟨h.closed, h.targets⟩,
    (verifyReachability_eq_ok h.laid).2 ⟨h.entry_source, h.reachable⟩, hdefinitions]
  rfl

end Function

end ArithWatch
