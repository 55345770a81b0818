import ArithWatch.Proofs.Check.Pass
import ArithWatch.Proofs.Check.Simulation
import ArithWatch.Proofs.Execution.Mirror

namespace ArithWatch

/-!
# The pass does not change what a function does

* `Insertion.mirrors`: the function with one chain does what the function did, with the visits of
  the chain in between.
* `carvedFrom?` leads blocks back through all insertions.
* `instrument_transparent` puts both together for runs under a limit.
-/

/-! ### One insertion -/

namespace Insertion

variable {s : Insertion} {f g : Function} {args : List Scalar}

/-- The parameters take the same arguments, or the same argument is refused. -/
theorem bindArgs_cases (hf : f.Regular) (hg : s.Makes f g) {regs regs' : Registers} (index : Nat)
    {args : List (ValueId × Scalar)} (hargs : ∀ e ∈ args, e.1 ∈ f.params)
    (hw : regs.Widens f g regs') :
    (∃ regs₁ regs₁', f.bindArgs index regs args = .ok regs₁ ∧
      g.bindArgs index regs' args = .ok regs₁' ∧ regs₁.Widens f g regs₁') ∨
    ∃ halt, f.bindArgs index regs args = .error halt ∧ g.bindArgs index regs' args = .error halt ∧
      halt.leadBack? (s.back f) = some halt := by
  -- By induction on the arguments; parameters are old values, so their types are the same.
  induction args generalizing index regs regs' with
  | nil => exact .inl ⟨regs, regs', rfl, rfl, hw⟩
  | cons e rest ih =>
    obtain ⟨v, a⟩ := e
    rw [List.forall_mem_cons] at hargs
    have hdefined : v ∈ f.defined := List.mem_append_left _ hargs.1
    obtain ⟨ty, hty⟩ := hf.exists_valueType? hdefined
    simp only [Function.bindArgs, hty, hg.valueType?_eq hty]
    by_cases hsame : a.ty = ty
    · obtain ⟨regs₁, regs₁', hwrite, hwrite', hw₁⟩ := hw.write (hf.defined_lt v hdefined) a
      simp only [if_pos hsame, hwrite, hwrite']
      exact ih (index + 1) hargs.2 hw₁
    · simp only [if_neg hsame]
      exact .inr ⟨_, rfl, rfl, rfl⟩

/-- The two functions refuse the same arguments, or they start alike. -/
theorem start_cases (hf : f.Regular) (hg : s.Makes f g) (args : List Scalar) :
    (∃ t t', f.start args = .ok t ∧ g.start args = .ok t' ∧ s.Sim f g t t') ∨
    ∃ halt, f.start args = .error halt ∧ g.start args = .error halt ∧
      halt.leadBack? (s.back f) = some halt := by
  have hentry : g.entry = f.entry := by rw [hg.frame]
  rw [Function.start, Function.start, hg.params_eq, hentry]
  by_cases hlen : args.length = f.params.length
  · have hle : f.valueTypes.size ≤ g.valueTypes.size := by
      rw [hg.valueTypes_eq, Array.size_append]
      exact Nat.le_add_right _ _
    -- The grown function has more registers, all empty at the start.
    have hempty : Registers.Widens f g (Array.replicate f.valueTypes.size none)
        (Array.replicate g.valueTypes.size none) :=
      ⟨Array.size_replicate, Array.size_replicate, hle, fun v hv => by
        rw [Registers.read_replicate, Registers.read_replicate]⟩
    rw [if_neg (Classical.not_not.2 hlen), if_neg (Classical.not_not.2 hlen)]
    rcases bindArgs_cases hf hg 0 (fun e he => (List.of_mem_zip he).1) hempty with
      ⟨regs, regs', hregs, hregs', hw⟩ | ⟨halt, hhalt, hhalt', hback⟩
    · have hsim : s.Sim f g (.entering none f.entry regs) (.entering none f.entry regs') :=
        .entering (fun p hp => by cases hp) hw
      rw [hregs, hregs']
      exact .inl ⟨_, _, rfl, rfl, hsim⟩
    · rw [hhalt, hhalt']
      exact .inr ⟨halt, rfl, rfl, hback⟩
  · rw [if_pos hlen, if_pos hlen]
    exact .inr ⟨_, rfl, rfl, rfl⟩

/-- **One insertion.** The new function mirrors the old one. -/
theorem mirrors (hf : f.Regular) (hs : s.Fits f) (hg : s.Makes f g)
    (hargs : ∀ a ∈ args, a.Fits) : Mirrors f.blocks.size (s.back f) f g args := by
  rcases start_cases hf hg args with ⟨t, t', ht, ht', hsim⟩ | ⟨halt, hhalt, hhalt', hback⟩
  · refine ⟨fun halt herror => ?_, fun u hok => ?_⟩
    · rw [ht] at herror
      cases herror
    · rw [ht, Except.ok.injEq] at hok
      subst hok
      have hsound := Function.start_sound hf hargs ht
      refine ⟨t', ht', fun n log r hends => Sim.ends hf hs hg hends hsound hsim,
        fun n log u hrun hu => ?_⟩
      obtain ⟨n', log', u', hrun', hle', hsim', -⟩ := Sim.runs hf hs hg hrun hsound hsim
      exact ⟨n', log', u', hrun', hle', hsim'.cost_eq.trans hu⟩
  · refine ⟨fun halt₁ herror => ?_, fun t hok => ?_⟩
    · rw [hhalt, Except.error.injEq] at herror
      exact herror ▸ ⟨hhalt', hback⟩
    · rw [hhalt] at hok
      cases hok

end Insertion

/-! ### All insertions -/

/-- The block that a block was carved from by the insertions of some sites, the last of which is
    undone first; none for a decision block. -/
def carvedFrom? (sites : List CheckSite) (b : BlockId) : Option BlockId :=
  sites.foldr (fun s found => found.bind s.carvedFrom?) (some b)

/-- **All insertions.** The last function mirrors the first one. -/
theorem Inserts.mirrors {t : Threshold} {ids : List InstId} {f g : Function}
    {sites : List CheckSite} (h : Inserts t ids f sites g) (hf : f.Regular) {args : List Scalar}
    (hargs : ∀ a ∈ args, a.Fits) : Mirrors f.blocks.size (carvedFrom? sites) f g args := by
  induction h with
  | done f => exact .refl hf hargs
  | skip _ ih => exact ih hf
  | @insert ids f g h sites s id hs _ _ hg _ ih =>
    have hone := Insertion.mirrors hf hs hg hargs
    have hrest := ih (hg.regular hf hs)
    rw [← Insertion.carvedFrom?_site id] at hone
    refine hone.trans hrest ?_
    rw [hg.size]
    omega

/-- **Transparency.** Instrumenting a verified function never fails.  What the new function does
    under limits that are high enough is what the old one does, once inserted blocks are dropped
    from the path and blocks are led back to what they were carved from: it returns the same (first
    part), or fails in the same way (second part).  It never needs fewer steps (third part). -/
theorem instrument_transparent (t : Threshold) (options : InstrumentOptions) (f : Function)
    (args : List Scalar) (hverify : f.verify = .ok ()) (hargs : ∀ a ∈ args, a.Fits) :
    ∃ report f', Edit.instrument t options f = .ok report f' ∧
      (∀ limit e, f.run args limit = .ok e →
        ∃ bound e', (∀ limit', bound ≤ limit' → f'.run args limit' = .ok e') ∧ e'.ret = e.ret ∧
          e'.path.filter (·.index < f.blocks.size) = e.path ∧
          e'.branches.filterMap (·.leadBack? (carvedFrom? report.sites)) = e.branches) ∧
      (∀ limit halt, f.run args limit = .error halt →
        (∀ k, halt ≠ .error (.stepLimit k)) →
        ∃ bound halt', (∀ limit', bound ≤ limit' → f'.run args limit' = .error halt') ∧
          halt'.leadBack? (carvedFrom? report.sites) = some halt) ∧
      ∀ limit, (∀ k, f'.run args limit ≠ .error (.error (.stepLimit k))) →
        ∀ k, f.run args limit ≠ .error (.error (.stepLimit k)) := by
  have hf := (Function.verified_iff_wellFormed.1 hverify).toRegular
  obtain ⟨report, g, f', hrun, hinserts, halike, -⟩ := Edit.instrument_eq t options hf
  -- Each site mirrors the function before it, so the last function mirrors the first.
  have hmirrors := hinserts.mirrors hf hargs
  refine ⟨report, f', hrun, fun limit e he => ?_, fun limit halt hhalt hlimit => ?_,
    fun limit hlimit k hk => ?_⟩
  · simp only [halike.run_eq]
    exact hmirrors.run_ok he
  · simp only [halike.run_eq]
    exact hmirrors.run_error hhalt hlimit
  · obtain ⟨k', hk'⟩ := hmirrors.run_limit hk
    exact hlimit k' ((halike.run_eq args limit).trans hk')

/-- The example doubles once and returns. -/
theorem run_doubling : doubling.run [.int 32 0x40000000] 100 =
    .ok { ret := some (.int 32 0x80000000)
          path := #[⟨0⟩, ⟨1⟩, ⟨2⟩]
          branches := #[{ block := ⟨1⟩, cond := true }] } := by
  decide +kernel

/-- Its instrumented run returns the same, along the same blocks. -/
theorem instrument_transparent_doubling :
    doubling.verify = .ok () ∧ (∀ a ∈ [Scalar.int 32 0x40000000], a.Fits) ∧
      ∃ report f', Edit.instrument .hundred {} doubling = .ok report f' ∧
        ∃ bound e', (∀ limit, bound ≤ limit → f'.run [.int 32 0x40000000] limit = .ok e') ∧
          e'.ret = some (.int 32 0x80000000) ∧
          e'.path.filter (·.index < 3) = #[⟨0⟩, ⟨1⟩, ⟨2⟩] ∧
          e'.branches.filterMap (·.leadBack? (carvedFrom? report.sites)) =
            #[{ block := ⟨1⟩, cond := true }] := by
  have hargs : ∀ a ∈ [Scalar.int 32 0x40000000], a.Fits := by decide
  obtain ⟨report, f', hinstrument, hok, -, -⟩ :=
    instrument_transparent .hundred {} doubling [.int 32 0x40000000] verify_doubling hargs
  exact ⟨verify_doubling, hargs, report, f', hinstrument, hok 100 _ run_doubling⟩

end ArithWatch
