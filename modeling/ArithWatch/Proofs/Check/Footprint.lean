import ArithWatch.Proofs.Check.Sites
import ArithWatch.Proofs.Execution.Agreement

namespace ArithWatch

/-!
# What the blocks of an instrumented function read

The values of a decision block are for its own use: no other block reads them.

* `Probe.Sits` describes a decision block by the values that were there before the pass.
* `Footprint` says that the decision blocks of some checks sit where they were put, and that all
  other blocks read old values only.
* `Inserts.footprint`: what a pass makes has its footprint.
-/

namespace Block

variable {b : Block} {v : ValueId}

/-- Renaming predecessors changes no operand. -/
theorem reads_repoint {old new : BlockId} : (b.repoint old new).Reads v ↔ b.Reads v := by
  simp [Reads, repoint]

/-- A part of the block with the same exit reads nothing else. -/
theorem Reads.of_subset {c : Block} (hc : c.Reads v) (hinsts : ∀ i ∈ c.insts, i ∈ b.insts)
    (hterm : ∀ t, c.term = some t → b.term = some t ∨ t.exit.operand? = none) : b.Reads v := by
  rcases hc with ⟨i, hi, hv⟩ | ⟨t, ht, hv⟩
  · exact .inl ⟨i, hinsts i hi, hv⟩
  · rcases hterm t ht with hb | hnone
    · exact .inr ⟨t, hb, hv⟩
    · rw [hnone] at hv
      cases hv

end Block

/-- Old blocks read old values. -/
theorem Function.Regular.reads_lt {f : Function} (h : f.Regular) {b : BlockId} {block : Block}
    (hb : f.block? b = some block) {v : ValueId} (hv : block.Reads v) :
    v.index < f.valueTypes.size := by
  rcases hv with ⟨i, hi, hv⟩ | ⟨t, ht, hv⟩
  · exact h.defined_lt v (h.operands b block hb i hi v hv)
  · exact h.defined_lt v (h.exits b block hb t ht v hv)

/-! ### Decision blocks -/

/-- The decision block is in the function.  It looks at values below number `n`, and its own values
    have numbers from `n` on. -/
structure Probe.Sits (k : Probe) (d : Decision) (n : Nat) (f : Function) : Prop where
  block_eq : ∃ name, f.block? d.block = some (k.close d name)
  le_value : n ≤ d.value
  mentions_lt : ∀ v, k.watched.Mentions v → v.index < n
  family : d.predicate.kind.isFloat = k.watched.ty.isFloat
  int_ty : k.watched.ty.isFloat = false → k.watched.ty = watchedIntTy

namespace Probe

variable {k : Probe} {d : Decision}

/-- The values of a decision block come behind its first one. -/
theorem le_result_of_mem_code {i : Inst} (hi : i ∈ k.code d) : d.value ≤ i.result.index := by
  have hmem : i.result ∈ (k.code d).map (·.result) := List.mem_map_of_mem hi
  rw [code, Formula.map_result_code] at hmem
  obtain ⟨n, hn, hresult⟩ := List.mem_map.1 hmem
  rw [← hresult]
  exact (List.mem_range'_1.1 hn).1

/-- The numbers of a decision block are those of its values. -/
theorem exists_mem_code {v : ValueId} (h : d.value ≤ v.index)
    (hlt : v.index < d.value + (k.formula d.predicate).size) : ∃ i ∈ k.code d, i.result = v := by
  have hmem : v ∈ (k.code d).map (·.result) := by
    rw [code, Formula.map_result_code]
    exact List.mem_map.2 ⟨v.index, List.mem_range'_1.2 ⟨h, hlt⟩, rfl⟩
  exact List.mem_map.1 hmem

/-- A decision block branches on one of its values. -/
theorem exists_outcome (k : Probe) (d : Decision) : ∃ i ∈ k.code d, i.result = k.outcome d :=
  have hrange := d.predicate.outcome_range k.threshold k.watched.ty d.value
  exists_mem_code hrange.1 hrange.2

/-- A decision block reads old values and its own. -/
theorem Sits.reads {n : Nat} {f : Function} (h : k.Sits d n f) {name : String} {v : ValueId}
    (hv : (k.close d name).Reads v) : v.index < n ∨ ∃ i ∈ k.code d, i.result = v := by
  rcases hv with ⟨i, hi, hv⟩ | ⟨t, ht, hv⟩
  · exact (Formula.operands_code hi hv).imp (h.mentions_lt v) fun hrange =>
      exists_mem_code hrange.1 hrange.2
  · cases ht
    cases hv
    exact .inr (k.exists_outcome d)

end Probe

/-! ### One insertion, block by block -/

namespace Insertion.Makes

variable {s : Insertion} {f g : Function} {n : Nat}

/-- A decision block stays as it is when another block is cut. -/
theorem sits {k : Probe} {d : Decision} (hg : s.Makes f g) (h : k.Sits d n f)
    (hne : d.block ≠ s.spot.home) : k.Sits d n g := by
  obtain ⟨name, hname⟩ := h.block_eq
  refine { h with block_eq := ⟨name, ?_⟩ }
  rw [hg.other d.block hne (Function.lt_of_block? hname), hname, Option.map_some,
    Probe.repoint_close]

/-- A new decision block looks at what the watched instruction reads and gives. -/
theorem sits_decision (hg : s.Makes f g) (hs : s.Fits f) (hroom : n ≤ f.valueTypes.size)
    (hreads : ∀ v, s.spot.block.Reads v → v.index < n) (hresult : s.spot.inst.result.index < n)
    {d : Decision} (hd : d ∈ s.decisions f) : s.probe.Sits d n g where
  block_eq := hg.decision d hd
  le_value := Nat.le_trans hroom (Probe.values_of_mem_chain hd).1
  mentions_lt v hv := by
    obtain ⟨flags, hkind⟩ := hs.watches
    have hside : ∀ op ∈ [s.probe.watched.lhs, s.probe.watched.rhs], op = .value v → v.index < n :=
      fun op hop hv => hreads v (.inl ⟨s.spot.inst, hs.spot_in.inst_mem, by
        rw [hkind]; exact hv ▸ hop⟩)
    rcases hv with hv | hv | rfl
    · exact hside _ List.mem_cons_self hv
    · exact hside _ (List.mem_cons_of_mem _ List.mem_cons_self) hv
    · rwa [hs.result_eq]
  family := hs.family _ (predicate_mem_checks hd)
  int_ty := hs.int_ty

/-- All other blocks read no more than what they were carved from did. -/
theorem reads_of_not_decision (hg : s.Makes f g) (hs : s.spot.In f) {b : BlockId} {block : Block}
    (hb : b ∉ (s.decisions f).map (·.block)) (hblock : g.block? b = some block) {v : ValueId}
    (hv : block.Reads v) : s.spot.block.Reads v ∨ ∃ old, f.block? b = some old ∧ old.Reads v := by
  rcases hg.block_cases hblock with
    ⟨-, rfl⟩ | ⟨-, name, rfl⟩ | ⟨d, hd, rfl, -⟩ | ⟨-, old, hold, rfl⟩
  · -- the front ends in a branch, which reads nothing
    have hv : (s.spot.half (s.branch f)).Reads v := Block.reads_repoint.1 hv
    refine .inl (hv.of_subset (fun i hi => ?_) fun t ht => .inr ?_)
    · rw [hs.insts_eq, List.append_cons]
      exact List.mem_append_left _ hi
    · cases ht
      rfl
  · refine .inl (hv.of_subset (fun i hi => ?_) fun t ht => .inl ht)
    rw [hs.insts_eq]
    exact List.mem_append_right _ (List.mem_cons_of_mem _ hi)
  · exact absurd (List.mem_map_of_mem hd) hb
  · exact .inr ⟨old, hold, Block.reads_repoint.1 hv⟩

end Insertion.Makes

/-! ### The footprint of a pass -/

/-- The parameters are old values, and so are the results of the watched instructions of the work
    list; the checks sit in decision blocks, which are done with; all other blocks read old values
    only. -/
structure Footprint (t : Threshold) (n : Nat) (ids : List InstId) (checks : List Check)
    (f : Function) : Prop where
  room : n ≤ f.valueTypes.size
  params : ∀ v ∈ f.params, v.index < n
  queued : ∀ i ∈ ids, ∀ j, f.allInsts.find? (·.id == i) = some j → j.result.index < n
  decided : ∀ c ∈ checks, ∃ (k : Probe) (d : Decision), k.threshold = t ∧ k.check d = c ∧
    k.Sits d n f
  settled : ∀ c ∈ checks, f.Settled ids c.block
  others : ∀ b ∉ checks.map (·.block), ∀ block, f.block? b = some block → ∀ v, block.Reads v →
    v.index < n

namespace Footprint

variable {t : Threshold} {n : Nat} {ids : List InstId} {checks : List Check} {f g : Function}

/-- Before the pass there are old values only. -/
theorem initial (h : f.Regular) (t : Threshold) (ids : List InstId) :
    Footprint t f.valueTypes.size ids [] f where
  room := Nat.le_refl _
  params v hv := h.defined_lt v (List.mem_append_left _ hv)
  queued _ _ j hj := h.defined_lt j.result
    (List.mem_append_right _ (List.mem_map_of_mem (List.mem_of_find?_eq_some hj)))
  decided _ hc := nomatch hc
  settled _ hc := nomatch hc
  others _ _ _ hb _ hv := h.reads_lt hb hv

theorem tail {i : InstId} (h : Footprint t n (i :: ids) checks f) :
    Footprint t n ids checks f where
  room := h.room
  params := h.params
  queued j hj := h.queued j (List.mem_cons_of_mem _ hj)
  decided := h.decided
  settled c hc := (h.settled c hc).tail
  others := h.others

/-- **One insertion.** -/
theorem insert {s : Insertion} (h : Footprint s.probe.threshold n (s.spot.inst.id :: ids) checks f)
    (hf : f.Regular) (hq : f.Queues (s.spot.inst.id :: ids)) (hs : s.Fits f)
    (hfirst : s.spot.First f) (hg : s.Makes f g) :
    Footprint s.probe.threshold n ids (checks ++ (s.decisions f).map s.probe.check) g := by
  have hhome : ∀ c ∈ checks, s.spot.home ≠ c.block := fun c hc =>
    (h.settled c hc).home_ne hfirst List.mem_cons_self
  -- the block that is cut is none of the decision blocks
  have hreads : ∀ v, s.spot.block.Reads v → v.index < n := by
    refine h.others s.spot.home (fun hmem => ?_) _ hs.spot_in.block_eq
    obtain ⟨c, hc, heq⟩ := List.mem_map.1 hmem
    exact hhome c hc heq.symm
  have hresult : s.spot.inst.result.index < n := h.queued _ List.mem_cons_self _ hfirst.find?_eq
  refine ⟨?_, hg.params_eq.symm ▸ h.params, fun i hi j hj => ?_, fun c hc => ?_, fun c hc => ?_,
    fun b hb block hblock v hv => ?_⟩
  · rw [hg.valueTypes_eq, Array.size_append]
    exact Nat.le_trans h.room (Nat.le_add_right _ _)
  · obtain ⟨found, hfound⟩ := hq.exists_find? (List.mem_cons_of_mem _ hi)
    rw [hg.find?_eq hf hs hfound, Option.some.injEq] at hj
    subst hj
    exact h.queued i (List.mem_cons_of_mem _ hi) found hfound
  · rcases List.mem_append.1 hc with hc | hc
    · obtain ⟨k, d, ht, rfl, hsits⟩ := h.decided c hc
      exact ⟨k, d, ht, rfl, hg.sits hsits (hhome _ hc).symm⟩
    · obtain ⟨d, hd, rfl⟩ := List.mem_map.1 hc
      exact ⟨s.probe, d, rfl, rfl, hg.sits_decision hs h.room hreads hresult hd⟩
  · rcases List.mem_append.1 hc with hc | hc
    · obtain ⟨k, d, -, rfl, hsits⟩ := h.decided c hc
      obtain ⟨name, hname⟩ := hsits.block_eq
      exact hg.settled hf hs hq hfirst (h.settled _ hc) (Function.lt_of_block? hname)
    · obtain ⟨d, hd, rfl⟩ := List.mem_map.1 hc
      exact hg.settled_decision hf hs hq hd
  · rw [List.map_append, List.mem_append, not_or, List.map_map] at hb
    rcases hg.reads_of_not_decision hs.spot_in hb.2 hblock hv with hv | ⟨old, hold, hv⟩
    · exact hreads v hv
    · exact h.others b hb.1 old hold v hv

/-! ### The footprint and the report -/

variable {r : FunctionReport} {b : BlockId}
  (h : Footprint t n ids (r.sites.flatMap (·.checks)) f) (hr : r.Consistent)

include h hr

/-- A block with a record is the decision block of a check. -/
theorem exists_sits {kind : CheckKind} (hb : r.checks.kind? b = some kind) :
    ∃ (k : Probe) (d : Decision), k.threshold = t ∧ d.block = b ∧ d.predicate.kind = kind ∧
      k.Sits d n f := by
  obtain ⟨s, hs, c, hc, rfl, rfl⟩ := hr.kind?_eq_some_iff.1 hb
  obtain ⟨k, d, ht, rfl, hsits⟩ := h.decided c (List.mem_flatMap.2 ⟨s, hs, hc⟩)
  exact ⟨k, d, ht, rfl, rfl, hsits⟩

/-- A block without a record reads old values. -/
theorem reads_lt (hb : r.checks.kind? b = none) {block : Block} (hblock : f.block? b = some block)
    {v : ValueId} (hv : block.Reads v) : v.index < n := by
  refine h.others b (fun hmem => ?_) block hblock v hv
  obtain ⟨c, hc, hblock⟩ := List.mem_map.1 hmem
  obtain ⟨s, hs, hc⟩ := List.mem_flatMap.1 hc
  rw [hr.kind?_eq_some_iff.2 ⟨s, hs, c, hc, hblock, rfl⟩] at hb
  cases hb

end Footprint

/-- **The whole pass.** -/
theorem Inserts.footprint {t : Threshold} {n : Nat} {ids : List InstId} {checks : List Check}
    {f g : Function} {sites : List CheckSite} (hi : Inserts t ids f sites g) (hf : f.Regular)
    (hq : f.Queues ids) (h : Footprint t n ids checks f) :
    Footprint t n [] (checks ++ sites.flatMap (·.checks)) g := by
  induction hi generalizing checks with
  | done f =>
    rw [List.flatMap_nil, List.append_nil]
    exact h
  | skip _ ih => exact ih hf hq.tail h.tail
  | @insert ids f g h' sites s id hs hfirst ht hm hrest ih =>
    subst ht
    rw [List.flatMap_cons, ← List.append_assoc]
    exact ih (hm.regular hf hs) (hm.queues hf hs hq).tail (h.insert hf hq hs hfirst hm)

end ArithWatch
