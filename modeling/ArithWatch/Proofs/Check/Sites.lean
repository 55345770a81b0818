import ArithWatch.Proofs.Check.Pass

namespace ArithWatch

/-!
# The sites of a pass

What an insertion makes stays in place while the pass goes on, as every later insertion is made
elsewhere.

* `Function.Queues` says where the instructions of the work list are, and `Function.Settled` that
  none of them is in a block.
* `Insertion.Stands` is the shape of an insertion in a later function.
* `Inserts.stands`: in the end every site of the report has its shape.
-/

/-- The first spot with an id is where a search for the id ends. -/
theorem Spot.First.find?_eq {p : Spot} {f : Function} (hp : p.First f) :
    f.allInsts.find? (·.id == p.inst.id) = some p.inst := by
  obtain ⟨pre, post, hall, hfirst⟩ := hp.allInsts_eq
  have hnone : (pre ++ p.before).find? (·.id == p.inst.id) = none :=
    List.find?_eq_none.2 fun j hj => by simpa using hfirst j hj
  rw [hall, hp.insts_eq, ← List.append_assoc, List.append_assoc, List.find?_append, hnone]
  simp

/-! ### The work list -/

/-- The ids of the list are among those with which the instructions begin, in their order. -/
def Function.Queues (f : Function) (ids : List InstId) : Prop :=
  ∃ old new, f.allInsts.map (·.id) = old ++ new ∧ old.Nodup ∧ ids.Sublist old

/-- The work list names each operation once. -/
theorem Function.WellFormed.queues {f : Function} (h : f.WellFormed) :
    f.Queues ((f.allInsts.filter (·.kind.isBinary)).map (·.id)) :=
  ⟨_, [], (List.append_nil _).symm, h.instIds_nodup, List.filter_sublist.map _⟩

namespace Function.Queues

variable {f : Function} {ids : List InstId} {i : InstId}

theorem tail (h : f.Queues (i :: ids)) : f.Queues ids := by
  obtain ⟨old, new, hall, hnodup, hsub⟩ := h
  exact ⟨old, new, hall, hnodup, (List.sublist_cons_self i ids).trans hsub⟩

/-- A search for an id of the list succeeds. -/
theorem exists_find? (h : f.Queues ids) (hi : i ∈ ids) :
    ∃ j, f.allInsts.find? (·.id == i) = some j := by
  obtain ⟨old, new, hall, -, hsub⟩ := h
  have hmem : i ∈ f.allInsts.map (·.id) := hall ▸ List.mem_append_left _ (hsub.subset hi)
  obtain ⟨j, hj, hid⟩ := List.mem_map.1 hmem
  exact Option.isSome_iff_exists.1 (List.find?_isSome.2 ⟨j, hj, by simpa using hid⟩)

/-- The instructions up to the first one on the list are not on the rest of it. -/
theorem not_mem_of_first {p : Spot} (h : f.Queues (p.inst.id :: ids)) (hp : p.First f) {j : Inst}
    (hj : j ∈ p.before ++ [p.inst]) : j.id ∉ ids := by
  obtain ⟨old, new, hall, hnodup, hsub⟩ := h
  obtain ⟨head, rest, rfl, hmem, hrest⟩ := List.cons_sublist_iff.1 hsub
  obtain ⟨pre, post, hinsts, hfirst⟩ := hp.allInsts_eq
  -- The queue is a part of what follows the first occurrence, so nothing up to there is named
  -- again.
  have hhead : (pre ++ p.before).map (·.id) ++ [p.inst.id] <+: head := by
    have hwhole : (pre ++ p.before).map (·.id) ++ [p.inst.id] <+: head ++ (rest ++ new) := by
      refine ⟨(p.after ++ post).map (·.id), ?_⟩
      rw [← List.append_assoc head, ← hall, hinsts, hp.insts_eq]
      simp
    rcases List.prefix_or_prefix_of_prefix hwhole (List.prefix_append head _) with hle | hle
    · exact hle
    · rcases List.prefix_concat_iff.1 hle with heq | hbefore
      · exact heq ▸ List.prefix_refl _
      · obtain ⟨k, hk, hid⟩ := List.mem_map.1 (hbefore.subset hmem)
        exact (hfirst k hk hid).elim
  have hid : j.id ∈ (pre ++ p.before).map (·.id) ++ [p.inst.id] := by
    rcases List.mem_append.1 hj with hj | hj
    · exact List.mem_append_left _ (List.mem_map_of_mem (List.mem_append_right _ hj))
    · exact List.mem_append_right _ (by simpa using congrArg Inst.id (List.mem_singleton.1 hj))
  exact fun hids => (List.nodup_append.1 hnodup).2.2 _ (hhead.subset hid) _ (hrest.subset hids) rfl

end Function.Queues

namespace Insertion.Makes

variable {s : Insertion} {f g : Function} {ids : List InstId}

/-- A site does not touch the operations still in the queue. -/
theorem queues (hg : s.Makes f g) (h : f.Regular) (hs : s.Fits f) (hq : f.Queues ids) :
    g.Queues ids := by
  obtain ⟨old, new, hall, hnodup, hsub⟩ := hq
  refine ⟨old, new ++ InstId.drawn f.instCount (s.code f).length, ?_, hnodup, hsub⟩
  rw [(hg.draws h hs).instIds_eq, hall, List.append_assoc]

/-- A search that succeeded before still finds what it found. -/
theorem find?_eq (hg : s.Makes f g) (h : f.Regular) (hs : s.Fits f) {i : InstId} {j : Inst}
    (hj : f.allInsts.find? (·.id == i) = some j) :
    g.allInsts.find? (·.id == i) = some (j.repoint s.spot.home (cont f)) := by
  rw [hg.allInsts_eq h hs, List.find?_append, List.find?_map]
  simp only [Function.comp_def, Inst.id_repoint, hj, Option.map_some, Option.some_or]

end Insertion.Makes

/-! ### Settled blocks -/

/-- No instruction of the block is the first one with an id of the list. -/
def Function.Settled (f : Function) (ids : List InstId) (b : BlockId) : Prop :=
  ∀ block, f.block? b = some block → ∀ j ∈ block.insts, ∀ i ∈ ids, ∀ first,
    f.allInsts.find? (·.id == i) = some first → first.result ≠ j.result

namespace Function.Settled

variable {f : Function} {ids : List InstId} {b : BlockId}

theorem tail {i : InstId} (h : f.Settled (i :: ids) b) : f.Settled ids b :=
  fun block hblock j hj i hi => h block hblock j hj i (List.mem_cons_of_mem _ hi)

/-- An instruction that is on the list is not in the block. -/
theorem home_ne {p : Spot} (h : f.Settled ids b) (hp : p.First f) (hid : p.inst.id ∈ ids) :
    p.home ≠ b := by
  rintro rfl
  exact h p.block hp.block_eq p.inst hp.inst_mem p.inst.id hid p.inst hp.find?_eq rfl

end Function.Settled

/-- The values of a chain are new. -/
theorem Insertion.le_result_of_mem_code {s : Insertion} {f : Function} {i : Inst}
    (hi : i ∈ s.code f) : f.valueTypes.size ≤ i.result.index := by
  have hmem : i.result ∈ (s.code f).map (·.result) := List.mem_map_of_mem hi
  rw [code, decisions, Probe.map_result_chain] at hmem
  obtain ⟨n, hn, hresult⟩ := List.mem_map.1 hmem
  rw [← hresult]
  exact (List.mem_range'_1.1 hn).1

namespace Insertion.Makes

variable {s : Insertion} {f g : Function} {ids : List InstId} (hg : s.Makes f g) (h : f.Regular)
  (hs : s.Fits f)

include hg h hs

/-- A settled block stays settled when the next id is dealt with. -/
theorem settled (hq : f.Queues (s.spot.inst.id :: ids)) (hfirst : s.spot.First f) {b : BlockId}
    (hb : f.Settled (s.spot.inst.id :: ids) b) (hlt : b.index < f.blocks.size) :
    g.Settled ids b := by
  intro block hblock j hj i hi first hfind
  have hne := (hb.home_ne hfirst List.mem_cons_self).symm
  obtain ⟨old, hold⟩ := Function.exists_block? hlt
  rw [hg.other b hne hlt, hold] at hblock
  cases hblock
  obtain ⟨k, hk, rfl⟩ := List.mem_map.1 hj
  obtain ⟨found, hfound⟩ := hq.exists_find? (List.mem_cons_of_mem _ hi)
  rw [hg.find?_eq h hs hfound, Option.some.injEq] at hfind
  subst hfind
  exact hb old hold k hk i (List.mem_cons_of_mem _ hi) found hfound

/-- The block that was cut is settled: the instructions up to the watched one have had
    their turn. -/
theorem settled_home (hq : f.Queues (s.spot.inst.id :: ids)) (hfirst : s.spot.First f) :
    g.Settled ids s.spot.home := by
  intro block hblock j hj i hi first hfind hresult
  rw [hg.home, Option.some.injEq] at hblock
  subst hblock
  obtain ⟨k, hk, rfl⟩ := List.mem_map.1 hj
  obtain ⟨found, hfound⟩ := hq.exists_find? (List.mem_cons_of_mem _ hi)
  rw [hg.find?_eq h hs hfound, Option.some.injEq] at hfind
  subst hfind
  have hmem : k ∈ f.allInsts := by
    refine h.laid.mem_allInsts.2 ⟨_, _, hs.spot_in.block_eq, ?_⟩
    rw [hs.spot_in.insts_eq, List.append_cons]
    exact List.mem_append_left _ hk
  have hsame : found = k := h.eq_of_result_eq (List.mem_of_find?_eq_some hfound) hmem hresult
  have hid : found.id = i := by simpa using List.find?_some hfound
  exact hq.not_mem_of_first hfirst hk (hsame ▸ hid.symm ▸ hi)

/-- The decision blocks are settled, as their values are new. -/
theorem settled_decision (hq : f.Queues (s.spot.inst.id :: ids)) {d : Decision}
    (hd : d ∈ s.decisions f) : g.Settled ids d.block := by
  intro block hblock j hj i hi first hfind hresult
  obtain ⟨name, hname⟩ := hg.decision d hd
  rw [hname, Option.some.injEq] at hblock
  subst hblock
  obtain ⟨found, hfound⟩ := hq.exists_find? (List.mem_cons_of_mem _ hi)
  rw [hg.find?_eq h hs hfound, Option.some.injEq] at hfind
  subst hfind
  have hold := h.defined_lt found.result
    (List.mem_append_right _ (List.mem_map_of_mem (List.mem_of_find?_eq_some hfound)))
  have hnew : f.valueTypes.size ≤ j.result.index :=
    le_result_of_mem_code (List.mem_flatMap.2 ⟨d, hd, hj⟩)
  rw [← hresult] at hnew
  exact absurd hold (Nat.not_lt.2 hnew)

end Insertion.Makes

/-! ### The shape of a site -/

/-- The shape that an insertion into `f` still has in `h`. -/
structure Insertion.Stands (s : Insertion) (f h : Function) : Prop where
  regular : f.Regular
  fits : s.Fits f
  /-- The watched instruction ends its block, which leads to the chain. -/
  home : ∃ before block, h.block? s.spot.home = some block ∧
    block.insts = before ++ [s.spot.inst] ∧ block.term = some (s.branch f)
  decision : ∀ d ∈ s.decisions f, ∃ name, h.block? d.block = some (s.probe.close d name)
  /-- The decision blocks and the block behind them are entered along the chain only. -/
  entered : ∀ b c, c = cont f ∨ c ∈ (s.decisions f).map (·.block) → h.Edge b c →
    (b = s.spot.home ∧ c = entrance (cont f) (s.decisions f)) ∨
      ∃ d ∈ s.decisions f, b = d.block ∧ c = d.next
  size_le : f.blocks.size + 1 + s.checks.length ≤ h.blocks.size
  entry_eq : h.entry = f.entry
  typed : s.probe.watched.Typed h
  room : f.valueTypes.size + (s.code f).length ≤ h.valueTypes.size

namespace Insertion

variable {s s' : Insertion} {f g h : Function}

/-- The blocks of an insertion are new. -/
theorem new_of_mem {c : BlockId} (hc : c = cont f ∨ c ∈ (s.decisions f).map (·.block)) :
    f.blocks.size ≤ c.index ∧ c.index < f.blocks.size + 1 + s.checks.length := by
  rcases hc with rfl | hc
  · exact ⟨Nat.le_refl _, Nat.lt_of_lt_of_le (Nat.lt_succ_self _) (Nat.le_add_right _ _)⟩
  · obtain ⟨d, hd, rfl⟩ := List.mem_map.1 hc
    exact ⟨Nat.le_of_lt (mem_decisions_block hd).1, (mem_decisions_block hd).2⟩

/-- The watched instruction is not touched by repointing. -/
theorem Fits.repoint_inst (hs : s.Fits f) (old new : BlockId) :
    s.spot.inst.repoint old new = s.spot.inst :=
  Inst.repoint_of_not_phi hs.not_phi

/-- **A new insertion has its shape.** -/
theorem Makes.stands (hg : s.Makes f g) (hf : f.Regular) (hs : s.Fits f) : s.Stands f g where
  regular := hf
  fits := hs
  home := by
    refine ⟨s.spot.before.map (·.repoint s.spot.home (cont f)), _, hg.home, ?_, rfl⟩
    rw [Spot.front, List.map_append, List.map_singleton, hs.repoint_inst]
  decision := hg.decision
  entered b c hc hedge := by
    have hnew : ∀ b, ¬ f.Edge b c := fun b hb =>
      absurd (hf.targets b c hb) (Nat.not_lt.2 (new_of_mem hc).1)
    rcases (hg.edge_iff hs.spot_in).1 hedge with ⟨-, hold⟩ | hhome | ⟨-, hold⟩ | hnext
    · exact (hnew b hold).elim
    · exact .inl hhome
    · exact (hnew _ hold).elim
    · exact .inr hnext
  size_le := Nat.le_of_eq hg.size.symm
  entry_eq := by rw [hg.frame]
  typed := hg.typed hs
  room := by simp [hg.valueTypes_eq, Makes.length_types]

/-- **It keeps it** under an insertion into another block. -/
theorem Stands.insert (hst : s.Stands f g) (hm : s'.Makes g h) (hs' : s'.Fits g)
    (hhome : s'.spot.home ≠ s.spot.home)
    (hdecision : ∀ d ∈ s.decisions f, s'.spot.home ≠ d.block) : s.Stands f h where
  regular := hst.regular
  fits := hst.fits
  home := by
    obtain ⟨before, block, hblock, hinsts, hterm⟩ := hst.home
    refine ⟨before.map (·.repoint s'.spot.home (cont g)), block.repoint s'.spot.home (cont g), ?_,
      ?_, hterm⟩
    · rw [hm.other _ hhome.symm (Function.lt_of_block? hblock), hblock]
      rfl
    · rw [Block.repoint, hinsts, List.map_append, List.map_singleton, hst.fits.repoint_inst]
  decision d hd := by
    obtain ⟨name, hname⟩ := hst.decision d hd
    refine ⟨name, ?_⟩
    rw [hm.other _ (hdecision d hd).symm (Function.lt_of_block? hname), hname]
    rw [Option.map_some, Probe.repoint_close]
  entered b c hc hedge := by
    have hlt : c.index < g.blocks.size := Nat.lt_of_lt_of_le (new_of_mem hc).2 hst.size_le
    -- A later site cuts another block, so no edge into this site is changed or added.
    rcases (hm.edge_iff hs'.spot_in).1 hedge with ⟨-, hold⟩ | ⟨-, rfl⟩ | ⟨-, hold⟩ | ⟨d, hd, -, rfl⟩
    · exact hst.entered b c hc hold
    · exact absurd hlt (Nat.not_lt.2 le_entrance)
    · rcases hst.entered _ c hc hold with ⟨heq, -⟩ | ⟨d, hd, heq, -⟩
      · exact (hhome heq).elim
      · exact (hdecision d hd heq).elim
    · exact absurd hlt (Nat.not_lt.2 (le_next hd))
  size_le := by
    rw [hm.size]
    exact Nat.le_trans hst.size_le (by omega)
  entry_eq := by
    rw [← hst.entry_eq, hm.frame]
  typed :=
    ⟨hm.operandType?_eq hst.typed.lhs, hm.operandType?_eq hst.typed.rhs,
      hm.valueType?_eq hst.typed.result⟩
  room := by
    rw [hm.valueTypes_eq, Array.size_append]
    exact Nat.le_trans hst.room (Nat.le_add_right _ _)

end Insertion

/-! ### All sites -/

/-- The blocks of an insertion that are done with. -/
def Insertion.Closed (s : Insertion) (f g : Function) (ids : List InstId) : Prop :=
  g.Settled ids s.spot.home ∧ ∀ d ∈ s.decisions f, g.Settled ids d.block

namespace Inserts

variable {t : Threshold} {ids : List InstId} {f g h : Function} {sites : List CheckSite}

/-- Further insertions leave the shape of an insertion as it is. -/
theorem stands_of_closed (hi : Inserts t ids g sites h) (hg : g.Regular) (hq : g.Queues ids)
    {s : Insertion} (hst : s.Stands f g) (hclosed : s.Closed f g ids) : s.Stands f h := by
  induction hi with
  | done g => exact hst
  | skip _ ih => exact ih hg hq.tail hst ⟨hclosed.1.tail, fun d hd => (hclosed.2 d hd).tail⟩
  | @insert ids g g' h sites s' id hs hfirst _ hm _ ih =>
    have hhome := hclosed.1.home_ne hfirst List.mem_cons_self
    have hdecision := fun d hd => (hclosed.2 d hd).home_ne hfirst List.mem_cons_self
    obtain ⟨before, block, hblock, -⟩ := hst.home
    refine ih (hm.regular hg hs) (hm.queues hg hs hq).tail (hst.insert hm hs hhome hdecision)
      ⟨hm.settled hg hs hq hfirst hclosed.1 (Function.lt_of_block? hblock), fun d hd => ?_⟩
    obtain ⟨name, hname⟩ := hst.decision d hd
    exact hm.settled hg hs hq hfirst (hclosed.2 d hd) (Function.lt_of_block? hname)

/-- A search that finds what is no phi found it before, if it succeeded then. -/
theorem find?_old {s : Insertion} (hm : s.Makes f g) (hf : f.Regular) (hs : s.Fits f) {i : InstId}
    {j k : Inst} (hj : f.allInsts.find? (·.id == i) = some j)
    (hk : g.allInsts.find? (·.id == i) = some k) (hphi : k.kind.isPhi = false) : j = k := by
  rw [hm.find?_eq hf hs hj, Option.some.injEq] at hk
  rw [← hk] at hphi ⊢
  exact (Inst.repoint_of_not_phi (by simpa using hphi)).symm

/-- **All sites.** In the end every site is an insertion that has its shape, behind the instruction
    that the function had under the id of the site. -/
theorem stands (hi : Inserts t ids f sites g) (hf : f.Regular) (hq : f.Queues ids) :
    ∀ site ∈ sites, ∃ (s : Insertion) (f₀ : Function) (id : SiteId), site = s.site f₀ id ∧
      s.probe.threshold = t ∧ s.Stands f₀ g ∧ s.spot.inst.id ∈ ids ∧
      f.allInsts.find? (·.id == s.spot.inst.id) = some s.spot.inst := by
  -- By induction on the sites; a site stands when it is made, and the later ones leave it alone.
  induction hi with
  | done f => exact fun site hsite => nomatch hsite
  | skip _ ih =>
    intro site hsite
    obtain ⟨s, f₀, id, hsite, ht, hst, hmem, hfind⟩ := ih hf hq.tail site hsite
    exact ⟨s, f₀, id, hsite, ht, hst, List.mem_cons_of_mem _ hmem, hfind⟩
  | @insert ids f g h sites s id hs hfirst ht hm hrest ih =>
    have hg := hm.regular hf hs
    have hqg := (hm.queues hf hs hq).tail
    refine List.forall_mem_cons.2 ⟨⟨s, f, id, rfl, ht, ?_, List.mem_cons_self, hfirst.find?_eq⟩,
      fun site hsite => ?_⟩
    · exact hrest.stands_of_closed hg hqg (hm.stands hf hs)
        ⟨hm.settled_home hf hs hq hfirst, fun d hd => hm.settled_decision hf hs hq hd⟩
    · obtain ⟨s', f₀, id', hsite, ht, hst, hmem, hfind⟩ := ih hg hqg site hsite
      obtain ⟨j, hj⟩ := hq.exists_find? (List.mem_cons_of_mem _ hmem)
      refine ⟨s', f₀, id', hsite, ht, hst, List.mem_cons_of_mem _ hmem, ?_⟩
      rw [hj, find?_old hm hf hs hj hfind hst.fits.not_phi]

end Inserts

end ArithWatch
