import ArithWatch.Proofs.Check.Footprint
import ArithWatch.Proofs.Check.Magnitude
import ArithWatch.Proofs.Check.Retuning
import ArithWatch.Proofs.Execution.Lockstep

namespace ArithWatch

/-!
# Runs with another threshold

What the bound checks of a function find depends on the threshold, and nothing else does.

* `CheckKind.Eases` says what a check may find with two thresholds.
* `CheckKind.tuned_bound?`: so do the comparisons of bound checks, on every value.
* `BranchEvent.Tuned` and `Leeway.tuned` say in which branches and values two runs may differ.
* `Footprint.functions`: an instrumented function and the retuned one keep to that.
-/

/-! ### Comparisons with two thresholds -/

/-- With a higher bound for integers an integer check finds no more. -/
def CheckKind.Eases (t t' : Threshold) (k : CheckKind) (c c' : Bool) : Prop :=
  k.isFloat = false → (t.intBound (.int 32)).signed ≤ (t'.intBound (.int 32)).signed →
    c' = true → c = true

/-- The truth values of a check with two thresholds. -/
inductive CheckKind.Tuned (t t' : Threshold) (k : CheckKind) : Scalar → Scalar → Prop
  | ofBool {c c' : Bool} : k.Eases t t' c c' → Tuned t t' k (.ofBool c) (.ofBool c')

section Compare

variable {R : Scalar → Scalar → Prop}

/-- Comparisons with two integers of one width. -/
theorem Scalar.rel_icmp? {pred : IntPredicate} {w : Nat} {y y' : UInt64}
    (h : ∀ word, R (ofBool (IntOp.compare pred w word y)) (ofBool (IntOp.compare pred w word y')))
    (a : Scalar) : Option.Rel R (icmp? pred a (.int w y)) (icmp? pred a (.int w y')) := by
  cases a with
  | int width word =>
    rw [icmp?, icmp?]
    split
    · next hwidth => exact .some (hwidth ▸ h word)
    · exact .none
  | f32 bits => exact .none
  | f64 bits => exact .none

/-- Comparisons with two floats of one type. -/
theorem Scalar.rel_fcmp? {x x' : Scalar} (pred : FloatPredicate) (hty : x'.ty = x.ty)
    (h : ∀ c c', R (ofBool c) (ofBool c')) (a : Scalar) :
    Option.Rel R (fcmp? pred a x) (fcmp? pred a x') := by
  cases x <;> cases x' <;> cases hty <;> cases a <;> first | exact .none | exact .some (h _ _)

end Compare

namespace CheckKind

variable {t t' : Threshold} {k : CheckKind} {ty : Ty} {o : Operation} {b b' : Constant}

theorem Eases.refl (c : Bool) : k.Eases t t' c c := fun _ _ hc => hc

/-- A disjunction eases as its sides do. -/
theorem Eases.or {c c' d d' : Bool} (h : k.Eases t t' c c') (h' : k.Eases t t' d d') :
    k.Eases t t' (c || d) (c' || d') := by
  intro hint hle hor
  rw [Bool.or_eq_true] at hor ⊢
  exact hor.imp (h hint hle) (h' hint hle)

/-- Where one threshold gives a constant, every threshold does. -/
theorem exists_bound? (h : k.bound? t ty o = some b) (t' : Threshold) :
    ∃ b', k.bound? t' ty o = some b' := by
  unfold bound? at h ⊢
  split at h <;> first | exact ⟨_, rfl⟩ | cases h

/-- **Comparisons with two thresholds** either both fail, or they find what a check may find. -/
theorem tuned_bound? (h : k.bound? t ty o = some b) (h' : k.bound? t' ty o = some b')
    (hty : k.isFloat = false → ty = .int 32) (a : Scalar) :
    Option.Rel (k.Tuned t t') (o.value? a (.ofConstant b)) (o.value? a (.ofConstant b')) := by
  have hpos : 0 < 32 := by decide
  have hw : 32 ≤ 64 := by decide
  -- Greater limits in the code are greater cutoffs.
  have hcutoff : (t.intBound (.int 32)).signed ≤ (t'.intBound (.int 32)).signed →
      t.cutoff 32 ≤ t'.cutoff 32 := fun hle => by
    rwa [Threshold.signed_intBound t hpos hw, Threshold.signed_intBound t' hpos hw] at hle
  have hfloat : ∀ pattern pattern', (Scalar.ofConstant (.float ty pattern')).ty =
      (Scalar.ofConstant (.float ty pattern)).ty := fun _ _ => by
    rw [Scalar.ty_ofConstant, Scalar.ty_ofConstant]
    rfl
  unfold bound? at h h'
  split at h <;> cases h <;> cases h'
  · -- below the lower end
    obtain rfl := hty rfl
    rw [CheckPredicate.ofConstant_neg_intBound hpos hw,
      CheckPredicate.ofConstant_neg_intBound hpos hw]
    refine Scalar.rel_icmp? (fun word => .ofBool fun _ hle hc => ?_) a
    simp only [IntOp.compare, decide_eq_true_eq, Word.signed_ofBits hpos hw,
      Threshold.toInt_neg_intBits _ hpos hw] at hc ⊢
    have := hcutoff hle
    omega
  · -- above the upper end
    obtain rfl := hty rfl
    rw [CheckPredicate.ofConstant_intBound hw, CheckPredicate.ofConstant_intBound hw]
    refine Scalar.rel_icmp? (fun word => .ofBool fun _ hle hc => ?_) a
    simp only [IntOp.compare, decide_eq_true_eq, Word.signed_ofBits hpos hw,
      Threshold.toInt_intBits _ hpos hw] at hc ⊢
    exact Int.lt_of_le_of_lt (hcutoff hle) hc
  · -- above the upper end, unsigned
    obtain rfl := hty rfl
    rw [CheckPredicate.ofConstant_intBound hw, CheckPredicate.ofConstant_intBound hw]
    refine Scalar.rel_icmp? (fun word => .ofBool fun _ hle hc => ?_) a
    simp only [IntOp.compare, decide_eq_true_eq, UInt64.lt_iff_toNat_lt, Word.toNat_ofBits hw,
      ← Int.ofNat_lt, Threshold.toNat_intBits _ hpos hw] at hc ⊢
    exact Int.lt_of_le_of_lt (hcutoff hle) hc
  · exact Scalar.rel_fcmp? .olt (hfloat _ _) (fun _ _ => .ofBool fun hint => by cases hint) a
  · exact Scalar.rel_fcmp? .ogt (hfloat _ _) (fun _ _ => .ofBool fun hint => by cases hint) a

end CheckKind

/-! ### Decision blocks with two thresholds -/

namespace Leeway

variable {w : Leeway} {t t' : Threshold} {k : CheckKind} {ty : Ty} {o : Operation} {b : Constant}
  {location : Option Location} {inst value : Nat}

/-- A comparison of a bound check. -/
theorem insts_bound {lhs : Operand} (hlhs : ∀ v, lhs = .value v → w.Firm v)
    (hb : k.bound? t ty o = some b) (hty : k.isFloat = false → ty = .int 32)
    (hresult : ∀ a a', k.Tuned t t' a a' → w.value ⟨value⟩ a a') :
    w.Insts (o.inst lhs b location inst value)
      ((o.inst lhs b location inst value).retune k t') := by
  obtain ⟨b', hb'⟩ := CheckKind.exists_bound? hb t'
  have hbty := CheckKind.ty_of_bound? hb
  -- Retuning the comparison puts the other limit in it and nothing else.
  have hretune : (o.inst lhs b location inst value).retune k t' =
      o.inst lhs b' location inst value := by
    cases o with
    | arith op => rw [CheckKind.bound?_arith] at hb; cases hb
    | icmp pred => simp [Inst.retune, Operation.inst, Operation.kind, InstKind.retune, hbty, hb']
    | fcmp pred => simp [Inst.retune, Operation.inst, Operation.kind, InstKind.retune, hbty, hb']
  have heval : ∀ (regs : Registers) (b : Constant), (o.inst lhs b location inst value).eval regs =
      regs.read lhs >>= fun a =>
        Inst.expect (o.inst lhs b location inst value) (o.value? a (.ofConstant b)) := by
    intro regs b
    cases o with
    | arith op => rw [CheckKind.bound?_arith] at hb; cases hb
    | icmp pred => rfl
    | fcmp pred => rfl
  rw [hretune]
  refine .plain rfl (o.isPhi_kind _ _) (o.isPhi_kind _ _) fun regs regs' hregs => ?_
  rw [heval, heval, hregs.read_eq hlhs]
  refine (Outcomes.refl (R := Eq) (fun _ => rfl) (regs.read lhs)).bind fun a a' ha => ?_
  subst ha
  exact Inst.outcomes_expect rfl (CheckKind.tuned_bound? hb hb' hty a) hresult

/-- A disjunction of comparisons. -/
theorem insts_or {u v : ValueId} (hu : ∀ a a', w.value u a a' → k.Tuned t t' a a')
    (hv : ∀ a a', w.value v a a' → k.Tuned t t' a a')
    (hresult : ∀ a a', k.Tuned t t' a a' → w.value ⟨value⟩ a a') :
    w.Insts ((Operation.arith .or).inst u v location inst value)
      ((Operation.arith .or).inst u v location inst value) := by
  refine .plain rfl rfl rfl fun regs regs' hregs => ?_
  refine (hregs.read u).bind fun a a' ha => (hregs.read v).bind fun b b' hb => ?_
  obtain ⟨hc⟩ := hu a a' ha
  obtain ⟨hd⟩ := hv b b' hb
  rw [Scalar.binary_or_ofBool, Scalar.binary_or_ofBool]
  exact .ok (hresult _ _ (.ofBool (hc.or hd)))

end Leeway

namespace Probe

variable {k : Probe} {d : Decision}

/-- A bound check consists of comparisons with the threshold and disjunctions. -/
theorem code_cases (h : d.predicate.kind.isBound = true) {i : Inst} (hi : i ∈ k.code d) :
    (∃ o b inst value, d.predicate.kind.bound? k.threshold k.watched.ty o = some b ∧
      i = o.inst k.watched.result b k.location inst value) ∨
    ∃ x ∈ k.code d, ∃ y ∈ k.code d, ∃ inst value,
      i = (Operation.arith .or).inst x.result y.result k.location inst value := by
  obtain ⟨p, block, first, value, next⟩ := d
  -- A bound check compares with one limit or with two, and joins the answers.
  cases p with
  | signedBound =>
    simp only [code, formula, CheckPredicate.formula, Formula.code, List.nil_append,
      List.mem_append, List.mem_singleton] at hi ⊢
    rcases hi with (rfl | rfl) | rfl
    · exact .inl ⟨.icmp .slt, _, _, _, rfl, rfl⟩
    · exact .inl ⟨.icmp .sgt, _, _, _, rfl, rfl⟩
    · exact .inr ⟨_, .inl (.inl rfl), _, .inl (.inr rfl), _, _, rfl⟩
  | unsignedBound =>
    simp only [code, formula, CheckPredicate.formula, Formula.code, List.nil_append,
      List.mem_singleton] at hi
    exact .inl ⟨.icmp .ugt, _, _, _, rfl, hi⟩
  | floatBound =>
    simp only [code, formula, CheckPredicate.formula, Formula.code, List.nil_append,
      List.mem_append, List.mem_singleton] at hi ⊢
    rcases hi with (rfl | rfl) | rfl
    · exact .inl ⟨.fcmp .olt, _, _, _, rfl, rfl⟩
    · exact .inl ⟨.fcmp .ogt, _, _, _, rfl, rfl⟩
    · exact .inr ⟨_, .inl (.inl rfl), _, .inl (.inr rfl), _, _, rfl⟩
  | addOverflow | subOverflow | mulOverflow | zeroDivisor | infinite | floatZeroDivisor => cases h

/-- **The decision block of a bound check** with two thresholds. -/
theorem blocks_close {w : Leeway} {t' : Threshold} (h : d.predicate.kind.isBound = true)
    (hty : d.predicate.kind.isFloat = false → k.watched.ty = .int 32)
    (hfirm : w.Firm k.watched.result)
    (hvalue : ∀ i ∈ k.code d, ∀ a a',
      w.value i.result a a' ↔ d.predicate.kind.Tuned k.threshold t' a a')
    (hbranch : ∀ c c', d.predicate.kind.Eases k.threshold t' c c' → w.branch d.block c c')
    (name : String) :
    w.Blocks d.block (k.close d name) ((k.close d name).retune (some d.predicate.kind) t') where
  insts := by
    refine List.forall₂_map_right_iff.2 (List.forall₂_same.2 fun i hi => ?_)
    have hresult := fun a a' => (hvalue i hi a a').2
    rcases code_cases h hi with ⟨o, b, inst, value, hb, rfl⟩ | ⟨x, hx, y, hy, inst, value, rfl⟩
    · exact Leeway.insts_bound (fun v hv => Operand.value.inj hv ▸ hfirm) hb hty hresult
    · exact Leeway.insts_or (fun a a' => (hvalue x hx a a').1) (fun a a' => (hvalue y hy a a').1)
        hresult
  leave regs regs' hregs := by
    obtain ⟨i, hi, hresult⟩ := k.exists_outcome d
    -- both arms go to the same block
    refine (hregs.read (k.outcome d)).bind fun a a' ha => ?_
    obtain ⟨hc⟩ := (hvalue i hi a a').1 (hresult ▸ ha)
    simp only [Scalar.bool?_ofBool, ite_self]
    exact .ok (.branch d.next (hbranch _ _ hc))

end Probe

/-! ### Functions with two thresholds -/

/-- Two branches of a function with two thresholds: only bound checks depend on the threshold, and a
    bound check for integers finds no more with a higher bound. -/
structure BranchEvent.Tuned (t t' : Threshold) (m : CheckMap) (x y : BranchEvent) : Prop where
  block_eq : y.block = x.block
  cond_eq : (∀ k, m.kind? x.block = some k → k.isBound = false) → y.cond = x.cond
  eases : ∀ k, m.kind? x.block = some k → k.Eases t t' x.cond y.cond

/-- The value is the result of an instruction of a bound check of the kind. -/
def Function.BoundResult (f : Function) (m : CheckMap) (k : CheckKind) (v : ValueId) : Prop :=
  k.isBound = true ∧ ∃ b block, m.kind? b = some k ∧ f.block? b = some block ∧
    ∃ i ∈ block.insts, i.result = v

/-- What may differ between runs with two thresholds: the values of bound checks and their
    branches. -/
def Leeway.tuned (t t' : Threshold) (m : CheckMap) (f : Function) : Leeway where
  value v a a' := (∀ k, f.BoundResult m k v → k.Tuned t t' a a') ∧
    ((∀ k, ¬ f.BoundResult m k v) → a' = a)
  branch b c c' := BranchEvent.Tuned t t' m ⟨b, c⟩ ⟨b, c'⟩

section Tuned

variable {t t' : Threshold} {m : CheckMap} {f : Function} {k : CheckKind} {b : BlockId}
  {block : Block} {i : Inst} {v : ValueId}

/-- Only the results of bound checks have leeway. -/
theorem Leeway.firm_tuned (h : ∀ k, ¬ f.BoundResult m k v) : (tuned t t' m f).Firm v :=
  fun _ _ => ⟨fun ha => ha.2 h, fun ha => ⟨fun k hk => absurd hk (h k), fun _ => ha⟩⟩

/-- Results are of the kind of their block. -/
theorem Function.BoundResult.kind_eq (h : f.BoundResult m k i.result) (hf : f.Regular)
    (hblock : f.block? b = some block) (hi : i ∈ block.insts) : m.kind? b = some k := by
  obtain ⟨-, c, other, hk, hother, j, hj, hresult⟩ := h
  have hsame : j = i := hf.eq_of_result_eq (hf.laid.mem_allInsts.2 ⟨c, other, hother, hj⟩)
    (hf.laid.mem_allInsts.2 ⟨b, block, hblock, hi⟩) hresult
  rwa [hf.block_unique hblock hother hi (hsame ▸ hj)]

/-- The values of other blocks are the same with every threshold. -/
theorem Function.Regular.firm_of_mem (hf : f.Regular) (hblock : f.block? b = some block)
    (hi : i ∈ block.insts) (hb : ∀ k, m.kind? b = some k → k.isBound = false) :
    (Leeway.tuned t t' m f).Firm i.result := by
  refine Leeway.firm_tuned fun k hk => ?_
  have hkind := hb k (hk.kind_eq hf hblock hi)
  rw [hk.1] at hkind
  cases hkind

/-- The values of a bound check are what such a check may find. -/
theorem Function.Regular.value_tuned_iff (hf : f.Regular) (hblock : f.block? b = some block)
    (hi : i ∈ block.insts) (hk : m.kind? b = some k) (hbound : k.isBound = true) (a a' : Scalar) :
    (Leeway.tuned t t' m f).value i.result a a' ↔ k.Tuned t t' a a' := by
  have hresult : f.BoundResult m k i.result := ⟨hbound, b, block, hk, hblock, i, hi, rfl⟩
  refine ⟨fun ha => ha.1 k hresult, fun ha => ⟨fun k' hk' => ?_, fun h => absurd hresult (h k)⟩⟩
  have hsame := hk'.kind_eq hf hblock hi
  rw [hk, Option.some.injEq] at hsame
  exact hsame ▸ ha

end Tuned

namespace Footprint

variable {t : Threshold} {n : Nat} {r : FunctionReport} {g : Function}
  (h : Footprint t n [] (r.sites.flatMap (·.checks)) g) (hr : r.Consistent) (hg : g.Regular)

include h hr

/-- Old values are the same with every threshold. -/
theorem firm_of_lt {t' : Threshold} {v : ValueId} (hv : v.index < n) :
    (Leeway.tuned t t' r.checks g).Firm v := by
  refine Leeway.firm_tuned fun k ⟨_, b, block, hk, hblock, i, hi, hresult⟩ => ?_
  obtain ⟨p, d, -, rfl, -, hsits⟩ := h.exists_sits hr hk
  obtain ⟨name, hname⟩ := hsits.block_eq
  rw [hname, Option.some.injEq] at hblock
  subst hblock
  have hle := Nat.le_trans hsits.le_value (Probe.le_result_of_mem_code hi)
  rw [hresult] at hle
  exact absurd hv (Nat.not_lt.2 hle)

include hg

/-- A block that is not the decision block of a bound check reads no value of one. -/
theorem firm_of_reads {t' : Threshold} {b : BlockId} {block : Block} {v : ValueId}
    (hblock : g.block? b = some block) (hv : block.Reads v)
    (hb : ∀ k, r.checks.kind? b = some k → k.isBound = false) :
    (Leeway.tuned t t' r.checks g).Firm v := by
  cases hk : r.checks.kind? b with
  | none => exact h.firm_of_lt hr (h.reads_lt hr hk hblock hv)
  | some k =>
    obtain ⟨p, d, -, rfl, -, hsits⟩ := h.exists_sits hr hk
    obtain ⟨name, hname⟩ := hsits.block_eq
    rw [hname, Option.some.injEq] at hblock
    subst hblock
    -- the other decision blocks also read values of their own
    rcases hsits.reads hv with hlt | ⟨i, hi, rfl⟩
    · exact h.firm_of_lt hr hlt
    · exact hg.firm_of_mem hname hi hb

/-- **An instrumented function with two thresholds.** Only the values of bound checks and their
    branches differ. -/
theorem functions (t' : Threshold) :
    (Leeway.tuned t t' r.checks g).Functions g (g.retune t' r.checks) where
  frame := rfl
  size_eq := Function.size_retune
  blocks b block hblock := by
    refine ⟨_, by rw [Function.block?_retune, hblock, Option.map_some], ?_⟩
    by_cases hb : ∃ k, r.checks.kind? b = some k ∧ k.isBound = true
    · -- the decision block of a bound check looks at an old value
      obtain ⟨k, hk, hbound⟩ := hb
      obtain ⟨p, d, rfl, rfl, rfl, hsits⟩ := h.exists_sits hr hk
      obtain ⟨name, hname⟩ := hsits.block_eq
      rw [hname, Option.some.injEq] at hblock
      subst hblock
      rw [hk]
      refine Probe.blocks_close hbound (fun hint => hsits.int_ty (hsits.family ▸ hint))
        (h.firm_of_lt hr (hsits.mentions_lt _ (.inr (.inr rfl))))
        (fun i hi a a' => hg.value_tuned_iff hname hi hk hbound a a') (fun c c' hc => ?_) name
      refine ⟨rfl, fun hnone => ?_, fun k' hk' => ?_⟩
      · rw [hnone _ hk] at hbound
        cases hbound
      · rw [hk, Option.some.injEq] at hk'
        exact hk' ▸ hc
    · -- every other block is the same in both functions
      have hother : ∀ k, r.checks.kind? b = some k → k.isBound = false := fun k hk =>
        Bool.eq_false_iff.2 fun hbound => hb ⟨k, hk, hbound⟩
      rw [Block.retune_of_not_isBound hother]
      exact .of_firm (fun v hv => h.firm_of_reads hr hg hblock hv hother)
        (fun i hi => hg.firm_of_mem hblock hi hother)
        fun c => ⟨rfl, fun _ => rfl, fun k _ => .refl c⟩
  params v hv a := (h.firm_of_lt hr (h.params v hv) a a).2 rfl

end Footprint

end ArithWatch
