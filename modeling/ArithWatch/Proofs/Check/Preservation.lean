import ArithWatch.Proofs.Check.Carved

namespace ArithWatch

/-!
# An insertion keeps functions regular

* `Insertion.Makes.block_cases` tells the blocks of the new function apart, `edge_iff` its edges.
* `Insertion.Makes.allInsts_eq`: the instructions of the old function come first, in their order,
  and behind them those of the chain.
* `Insertion.Makes.regular`: the new function is regular.
* `Insertion.Makes.draws` is about instruction ids.
-/

/-! ### Chains -/

namespace Probe

variable {k : Probe} {cont : BlockId} {checks : List CheckPredicate} {block inst value : Nat}

/-- The values of a decision block are among those of the chain. -/
theorem values_of_mem_chain {d : Decision} (hd : d ∈ k.chain cont checks block inst value) :
    value ≤ d.value ∧ d.value + (k.formula d.predicate).size ≤
      value + ((k.chain cont checks block inst value).flatMap k.code).length := by
  induction checks generalizing block inst value with
  | nil => simp [chain] at hd
  | cons p rest ih =>
    simp only [chain, List.flatMap_cons, List.length_append, length_code]
    rcases List.mem_cons.1 hd with rfl | hd
    · show value ≤ value ∧ value + (k.formula p).size ≤ _
      omega
    · have := ih hd
      omega

/-- Where the values of the chain have their types, those of each decision block have theirs. -/
theorem places_of_mem_chain {f : Function} {d : Decision}
    (h : f.Places value ((k.chain cont checks block inst value).flatMap k.types))
    (hd : d ∈ k.chain cont checks block inst value) : f.Places d.value (k.types d) := by
  induction checks generalizing block inst value with
  | nil => simp [chain] at hd
  | cons p rest ih =>
    obtain ⟨hp, hrest⟩ := Function.Places.append.1 h
    rw [length_types] at hrest
    rcases List.mem_cons.1 hd with rfl | hd
    · exact hp
    · exact ih hrest hd

/-- What follows a decision block is another one or the end of the chain. -/
theorem next_of_mem_chain {d : Decision} (hd : d ∈ k.chain cont checks block inst value) :
    d.next = cont ∨ ∃ c ∈ k.chain cont checks block inst value, d.next = c.block := by
  induction checks generalizing block inst value with
  | nil => simp [chain] at hd
  | cons p rest ih =>
    rcases List.mem_cons.1 hd with rfl | hd
    · cases rest with
      | nil => exact .inl rfl
      | cons p' rest' =>
        exact .inr ⟨_, List.mem_cons_of_mem _ List.mem_cons_self, rfl⟩
    · rcases ih hd with h | ⟨c, hc, h⟩
      · exact .inl h
      · exact .inr ⟨c, List.mem_cons_of_mem _ hc, h⟩

/-- A relation that follows the chain leads from its entrance to every decision block and to its
    end. -/
theorem reach_of_chain {r : BlockId → BlockId → Prop} {ds : List Decision}
    (hds : ds = k.chain cont checks block inst value) (h : ∀ d ∈ ds, r d.block d.next) :
    (∀ d ∈ ds, Relation.ReflTransGen r (entrance cont ds) d.block) ∧
      Relation.ReflTransGen r (entrance cont ds) cont := by
  induction checks generalizing block inst value ds with
  | nil =>
    subst hds
    exact ⟨fun d hd => by simp [chain] at hd, .refl⟩
  | cons p rest ih =>
    rw [chain] at hds
    subst hds
    obtain ⟨htail, hend⟩ := ih rfl fun d hd => h d (List.mem_cons_of_mem _ hd)
    have hfirst := h _ List.mem_cons_self
    refine ⟨fun d hd => ?_, .head hfirst hend⟩
    rcases List.mem_cons.1 hd with rfl | hd
    · exact .refl
    · exact .head hfirst (htail d hd)

end Probe

/-! ### Blocks and edges -/

namespace Insertion

variable {s : Insertion} {f g : Function}

/-- The site lists the blocks of the decisions. -/
theorem decisionBlocks_site (id : SiteId) :
    (s.site f id).decisionBlocks = (s.decisions f).map (·.block) := by
  rw [CheckSite.decisionBlocks, site, List.map_map]
  rfl

/-- The formula of a decision block fits the watched instruction and gives a truth value. -/
theorem Fits.formula_fits (hs : s.Fits f) {d : Decision} (hd : d ∈ s.decisions f) :
    (s.probe.formula d.predicate).Fits s.probe.watched.ty ∧
      (s.probe.formula d.predicate).ty s.probe.watched.ty = .i1 :=
  CheckPredicate.formula_fits s.probe.threshold (hs.family _ (predicate_mem_checks hd))

/-- The chain starts at a new block. -/
theorem le_entrance : f.blocks.size ≤ (entrance (cont f) (s.decisions f)).index := by
  cases h : s.decisions f with
  | nil => exact Nat.le_refl _
  | cons d rest =>
    exact Nat.le_of_lt (mem_decisions_block (h ▸ List.mem_cons_self : d ∈ s.decisions f)).1

/-- The chain is entered at a block of the new arena. -/
theorem entrance_lt :
    (entrance (cont f) (s.decisions f)).index < f.blocks.size + 1 + s.checks.length := by
  cases h : s.decisions f with
  | nil => exact Nat.lt_of_lt_of_le (Nat.lt_succ_self _) (Nat.le_add_right _ _)
  | cons d rest => exact (mem_decisions_block (h ▸ List.mem_cons_self : d ∈ s.decisions f)).2

/-- Every decision goes on to a block of the new arena. -/
theorem next_lt {d : Decision} (hd : d ∈ s.decisions f) :
    d.next.index < f.blocks.size + 1 + s.checks.length := by
  rcases Probe.next_of_mem_chain hd with h | ⟨c, hc, h⟩
  · exact h ▸ Nat.lt_of_lt_of_le (Nat.lt_succ_self _) (Nat.le_add_right _ _)
  · exact h ▸ (mem_decisions_block hc).2

/-- No decision leads back to an old block. -/
theorem le_next {d : Decision} (hd : d ∈ s.decisions f) : f.blocks.size ≤ d.next.index := by
  rcases Probe.next_of_mem_chain hd with h | ⟨c, hc, h⟩
  · exact h ▸ Nat.le_refl _
  · exact h ▸ Nat.le_of_lt (mem_decisions_block hc).1

namespace Makes

/-- **The blocks of the new function**: the front, the rest, the decision blocks and the old
    blocks. -/
theorem block_cases (hg : s.Makes f g) {b : BlockId} {block : Block} (h : g.block? b = some block) :
    (b = s.spot.home ∧ block = s.spot.front (cont f) (s.branch f)) ∨
      (b = cont f ∧ ∃ name, block = s.spot.rest (cont f) name) ∨
      (∃ d ∈ s.decisions f, b = d.block ∧ ∃ name, block = s.probe.close d name) ∨
      b ≠ s.spot.home ∧ ∃ old, f.block? b = some old ∧
        block = old.repoint s.spot.home (cont f) := by
  have hlt := Function.lt_of_block? h
  rw [hg.size] at hlt
  -- The arena holds the old blocks first, then the cut-off rest, then the chain.
  by_cases hhome : b = s.spot.home
  · subst hhome
    rw [hg.home] at h
    exact .inl ⟨rfl, (Option.some.inj h).symm⟩
  rcases Nat.lt_trichotomy b.index f.blocks.size with hb | hb | hb
  · obtain ⟨old, hold⟩ := Function.exists_block? hb
    rw [hg.other b hhome hb, hold] at h
    exact .inr (.inr (.inr ⟨hhome, old, hold, (Option.some.inj h).symm⟩))
  · obtain ⟨name, hname⟩ := hg.rest
    have hcont : b = cont f := by
      cases b
      exact congrArg _ hb
    rw [hcont, hname] at h
    exact .inr (.inl ⟨hcont, name, (Option.some.inj h).symm⟩)
  · obtain ⟨d, hd, rfl⟩ := exists_decision hb hlt
    obtain ⟨name, hname⟩ := hg.decision d hd
    rw [hname] at h
    exact .inr (.inr (.inl ⟨d, hd, rfl, name, (Option.some.inj h).symm⟩))

/-- **The edges of the new function.** -/
theorem edge_iff (hg : s.Makes f g) (hs : s.spot.In f) {b c : BlockId} :
    g.Edge b c ↔
      (b ≠ s.spot.home ∧ f.Edge b c) ∨
      (b = s.spot.home ∧ c = entrance (cont f) (s.decisions f)) ∨
      (b = cont f ∧ f.Edge s.spot.home c) ∨
      ∃ d ∈ s.decisions f, b = d.block ∧ c = d.next := by
  -- An edge starts in one of the four kinds of blocks, and ends as its block does.
  constructor
  · rintro ⟨block, hblock, hc⟩
    rcases hg.block_cases hblock with ⟨rfl, rfl⟩ | ⟨rfl, name, rfl⟩ | ⟨d, hd, rfl, name, rfl⟩ |
      ⟨hne, old, hold, rfl⟩
    · refine .inr (.inl ⟨rfl, ?_⟩)
      simpa [Spot.front, branch, Block.successors, Exit.successors] using hc
    · exact .inr (.inr (.inl ⟨rfl, s.spot.block, hs.block_eq, hc⟩))
    · refine .inr (.inr (.inr ⟨d, hd, rfl, ?_⟩))
      simpa [Probe.close, Probe.branch, Block.successors, Exit.successors] using hc
    · exact .inl ⟨hne, old, hold, hc⟩
  · rintro (⟨hne, old, hold, hc⟩ | ⟨rfl, rfl⟩ | ⟨rfl, block, hblock, hc⟩ | ⟨d, hd, rfl, rfl⟩)
    · refine ⟨old.repoint s.spot.home (cont f), ?_, hc⟩
      rw [hg.other b hne (Function.lt_of_block? hold), hold]
      rfl
    · refine ⟨_, hg.home, ?_⟩
      simp [Spot.front, branch, Block.successors, Exit.successors]
    · obtain ⟨name, hname⟩ := hg.rest
      rw [hs.block_eq] at hblock
      cases hblock
      exact ⟨_, hname, hc⟩
    · obtain ⟨name, hname⟩ := hg.decision d hd
      refine ⟨_, hname, ?_⟩
      simp [Probe.close, Probe.branch, Block.successors, Exit.successors]

/-! ### Layout and instructions -/

/-- A regular function is one case of an arranged one. -/
theorem carves (hg : s.Makes f g) (h : f.Regular) (hs : s.spot.In f) : s.Carves f g where
  frame := hg.frame
  size := hg.size
  home := by rw [hg.home, h.follow_half hs]
  rest := by
    obtain ⟨name, hname⟩ := hg.rest
    exact ⟨name, hname.trans (congrArg some (h.follow_rest hs rfl name).symm)⟩
  decision := hg.decision
  other b hne hb := by
    obtain ⟨block, hblock⟩ := Function.exists_block? hb
    rw [hg.other b hne hb, hblock, Option.map_some, Option.map_some,
      h.follow_eq_repoint hs (cont f) hblock]

/-- The rest of the cut block comes right behind it, and the chain at the end. -/
theorem layout_eq (hg : s.Makes f g) :
    g.layout = insertBehind s.spot.home (cont f) f.layout ++ (s.decisions f).map (·.block) := by
  rw [hg.frame]

/-- **Layout.** All blocks of the new arena are laid out, and nothing else. -/
theorem mem_layout (hg : s.Makes f g) (h : f.Regular) (b : BlockId) :
    b ∈ g.layout ↔ b.index < g.blocks.size := by
  rw [hg.layout_eq, hg.size, List.mem_append, mem_insertBehind, h.mem_layout]
  -- The three ranges of the arena are the three parts of the layout.
  constructor
  · rintro ((rfl | hb) | hb)
    · show f.blocks.size < _
      omega
    · omega
    · obtain ⟨d, hd, rfl⟩ := List.mem_map.1 hb
      exact (mem_decisions_block hd).2
  · intro hb
    rcases Nat.lt_trichotomy b.index f.blocks.size with hlt | heq | hlt
    · exact .inl (.inr hlt)
    · refine .inl (.inl ?_)
      cases b
      exact congrArg _ heq
    · obtain ⟨d, hd, rfl⟩ := exists_decision hlt hb
      exact .inr (List.mem_map_of_mem hd)

theorem layout_nodup (hg : s.Makes f g) (h : f.Regular) (hs : s.spot.In f) : g.layout.Nodup :=
  ((hg.carves h hs).arranged h.laid.arranged hs).layout_nodup

/-- The old blocks but the one that is cut. -/
theorem blocks_of_not_mem (hg : s.Makes f g) {order : List BlockId} (hhome : s.spot.home ∉ order)
    (horder : ∀ b ∈ order, b.index < f.blocks.size) :
    order.filterMap g.block? =
      (order.filterMap f.block?).map (·.repoint s.spot.home (cont f)) := by
  induction order with
  | nil => rfl
  | cons b rest ih =>
    obtain ⟨old, hold⟩ := Function.exists_block? (horder b List.mem_cons_self)
    have hnew : g.block? b = some (old.repoint s.spot.home (cont f)) := by
      rw [hg.other b (List.ne_of_not_mem_cons hhome).symm (horder b List.mem_cons_self), hold]
      rfl
    rw [List.filterMap_cons_some hold, List.filterMap_cons_some hnew, List.map_cons,
      ih (List.not_mem_of_not_mem_cons hhome) fun c hc => horder c (List.mem_cons_of_mem _ hc)]

/-- The instructions of old blocks but the one that is cut. -/
theorem insts_of_not_mem (hg : s.Makes f g) {order : List BlockId} (hhome : s.spot.home ∉ order)
    (horder : ∀ b ∈ order, b.index < f.blocks.size) :
    (order.filterMap g.block?).flatMap (·.insts) =
      ((order.filterMap f.block?).flatMap (·.insts)).map (·.repoint s.spot.home (cont f)) := by
  rw [hg.blocks_of_not_mem hhome horder, List.flatMap_map, List.map_flatMap]
  rfl

/-- The instructions of old blocks, with the rest behind its first half. -/
theorem insts_insertBehind (hg : s.Makes f g) (h : f.Regular) (hs : s.Fits f)
    {order : List BlockId} (hhome : s.spot.home ∈ order) (hnodup : order.Nodup)
    (horder : ∀ b ∈ order, b.index < f.blocks.size) :
    ((insertBehind s.spot.home (cont f) order).filterMap g.block?).flatMap (·.insts) =
      ((order.filterMap f.block?).flatMap (·.insts)).map (·.repoint s.spot.home (cont f)) := by
  induction order with
  | nil => simp at hhome
  | cons b rest ih =>
    obtain ⟨hb, hrest⟩ := List.nodup_cons.1 hnodup
    have horder' : ∀ c ∈ rest, c.index < f.blocks.size :=
      fun c hc => horder c (List.mem_cons_of_mem _ hc)
    rw [insertBehind]
    -- The two halves stand next to each other, and all other blocks follow unchanged but for their
    -- phis.
    split
    · next e =>
      subst e
      obtain ⟨name, hname⟩ := hg.rest
      have hafter : s.spot.after.map (·.repoint s.spot.home (cont f)) = s.spot.after :=
        map_repoint_of_not_phi fun i hi => h.not_phi_of_mem_after hs.spot_in hs.not_phi hi
      rw [List.filterMap_cons_some hg.home, List.filterMap_cons_some hname,
        List.filterMap_cons_some hs.spot_in.block_eq]
      rw [List.flatMap_cons, List.flatMap_cons, List.flatMap_cons, List.map_append,
        hg.insts_of_not_mem hb horder', hs.spot_in.insts_eq, List.append_cons, List.map_append,
        hafter, List.append_assoc]
      rfl
    · next hne =>
      obtain ⟨old, hold⟩ := Function.exists_block? (horder b List.mem_cons_self)
      have hnew : g.block? b = some (old.repoint s.spot.home (cont f)) := by
        rw [hg.other b hne (horder b List.mem_cons_self), hold]
        rfl
      have hhome' : s.spot.home ∈ rest := (List.mem_cons.1 hhome).resolve_left fun e => hne e.symm
      rw [List.filterMap_cons_some hnew, List.filterMap_cons_some hold, List.flatMap_cons,
        List.flatMap_cons, List.map_append, ih hhome' hrest horder']
      rfl

/-- **The instructions of the new function.** -/
theorem allInsts_eq (hg : s.Makes f g) (h : f.Regular) (hs : s.Fits f) :
    g.allInsts = f.allInsts.map (·.repoint s.spot.home (cont f)) ++ s.code f := by
  have hhome : s.spot.home ∈ f.layout := (h.mem_layout _).2 hs.spot_in.home_lt
  have hchain : ∀ ds : List Decision, (∀ d ∈ ds, d ∈ s.decisions f) →
      ((ds.map (·.block)).filterMap g.block?).flatMap (·.insts) = ds.flatMap s.probe.code := by
    intro ds hds
    induction ds with
    | nil => rfl
    | cons d rest ih =>
      obtain ⟨name, hname⟩ := hg.decision d (hds d List.mem_cons_self)
      rw [List.map_cons, List.filterMap_cons_some hname, List.flatMap_cons, List.flatMap_cons,
        ih fun c hc => hds c (List.mem_cons_of_mem _ hc)]
      rfl
  rw [Function.allInsts, Function.laidOut, hg.layout_eq, List.filterMap_append, List.flatMap_append,
    hg.insts_insertBehind h hs hhome h.layout_nodup fun b hb => (h.mem_layout b).1 hb,
    hchain _ fun d hd => hd]
  rfl

/-! ### Values and types -/

/-- The types of the new values come behind those of the old ones. -/
theorem valueTypes_eq (hg : s.Makes f g) : g.valueTypes = f.valueTypes ++ (s.types f).toArray := by
  rw [hg.frame]

theorem params_eq (hg : s.Makes f g) : g.params = f.params := by
  rw [hg.frame]

theorem returnType_eq (hg : s.Makes f g) : g.returnType = f.returnType := by
  rw [hg.frame]

theorem entry_eq (hg : s.Makes f g) : g.entry = f.entry := by
  rw [hg.frame]

/-- Every inserted instruction has a value of its own. -/
theorem length_types : (s.types f).length = (s.code f).length := by
  simp [types, code, List.length_flatMap]

/-- What had a type keeps it. -/
theorem operandType?_eq (hg : s.Makes f g) {op : Operand} {ty : Ty}
    (h : f.operandType? op = some ty) : g.operandType? op = some ty := by
  cases op with
  | const c => exact h
  | value v =>
    show g.valueTypes[v.index]? = _
    rw [hg.valueTypes_eq, Array.getElem?_append_left (Array.getElem?_eq_some_iff.1 h).1]
    exact h

/-- Old values keep their types. -/
theorem valueType?_eq (hg : s.Makes f g) {v : ValueId} {ty : Ty}
    (h : f.valueType? v = some ty) : g.valueType? v = some ty :=
  hg.operandType?_eq (show f.operandType? (.value v) = some ty from h)

/-- The watched operands and the watched result have their types in the new function, too. -/
theorem typed (hg : s.Makes f g) (hs : s.Fits f) : s.probe.watched.Typed g :=
  ⟨hg.operandType?_eq hs.typed.lhs, hg.operandType?_eq hs.typed.rhs,
    hg.valueType?_eq hs.typed.result⟩

/-- The new values have the types of the chain. -/
theorem places (hg : s.Makes f g) {d : Decision} (hd : d ∈ s.decisions f) :
    g.Places d.value (s.probe.types d) := by
  refine Probe.places_of_mem_chain (fun n ty hn => ?_) hd
  show g.valueTypes[f.valueTypes.size + n]? = some ty
  rw [hg.valueTypes_eq, Array.getElem?_append_right (Nat.le_add_right _ _),
    Nat.add_sub_cancel_left, List.getElem?_toArray]
  exact hn

/-- The values with a definition: the old ones, and the new ones. -/
theorem defined_eq (hg : s.Makes f g) (h : f.Regular) (hs : s.Fits f) :
    g.defined = f.defined ++
      (List.range' f.valueTypes.size (s.code f).length).map ValueId.mk := by
  rw [Function.defined, hg.allInsts_eq h hs, hg.params_eq, List.map_append, List.map_map,
    Insertion.code, decisions, Probe.map_result_chain, Function.defined, List.append_assoc]
  rfl

/-- **Definitions.** Defined are the old values and the new ones. -/
theorem mem_defined (hg : s.Makes f g) (h : f.Regular) (hs : s.Fits f) {v : ValueId} :
    v ∈ g.defined ↔ v ∈ f.defined ∨
      f.valueTypes.size ≤ v.index ∧ v.index < f.valueTypes.size + (s.code f).length := by
  rw [hg.defined_eq h hs, List.mem_append]
  refine or_congr_right ⟨fun hv => ?_, fun hv => ?_⟩
  · obtain ⟨n, hn, rfl⟩ := List.mem_map.1 hv
    exact List.mem_range'_1.1 hn
  · exact List.mem_map.2 ⟨v.index, List.mem_range'_1.2 hv, rfl⟩

/-- What the watched instruction mentions is defined. -/
theorem defined_of_mentions (h : f.Regular) (hs : s.Fits f) {v : ValueId}
    (hv : s.probe.watched.Mentions v) : v ∈ f.defined := by
  obtain ⟨flags, hkind⟩ := hs.watches
  have hoperands := h.operands _ _ hs.spot_in.block_eq _ hs.spot_in.inst_mem v
  rw [hkind] at hoperands
  rcases hv with hv | hv | hv
  · exact hoperands (by simp [InstKind.operands, hv])
  · exact hoperands (by simp [InstKind.operands, hv])
  · refine List.mem_append_right _ ?_
    rw [← hv, hs.result_eq]
    exact List.mem_map_of_mem (h.laid.mem_allInsts.2
      ⟨_, _, hs.spot_in.block_eq, hs.spot_in.inst_mem⟩)

/-- New instructions are well-typed. -/
theorem instFits_of_mem_code (hg : s.Makes f g) (hs : s.Fits f) {d : Decision}
    (hd : d ∈ s.decisions f) {i : Inst} (hi : i ∈ s.probe.code d) : g.InstFits i :=
  Formula.instFits_of_mem_code (hg.typed hs) (hs.formula_fits hd).1 (hg.places hd) hi

/-- Every decision block branches on a truth value. -/
theorem outcome_type (hg : s.Makes f g) (hs : s.Fits f) {d : Decision} (hd : d ∈ s.decisions f) :
    g.valueType? (s.probe.outcome d) = some .i1 := by
  have htype := Formula.operandType?_of_places (hg.typed hs) (hg.places hd)
  rw [(hs.formula_fits hd).2, Probe.formula, CheckPredicate.operand_formula] at htype
  exact htype

/-- The new values have definitions. -/
theorem new_value_defined (hg : s.Makes f g) (h : f.Regular) (hs : s.Fits f) {d : Decision}
    (hd : d ∈ s.decisions f) {v : ValueId}
    (hv : d.value ≤ v.index ∧ v.index < d.value + (s.probe.formula d.predicate).size) :
    v ∈ g.defined := by
  have hrange := Probe.values_of_mem_chain hd
  refine (hg.mem_defined h hs).2 (.inr ?_)
  rw [Insertion.code, decisions]
  omega

/-! ### Edges to old blocks -/

/-- The edges to old blocks come from old blocks, but from `cont` in place of the cut one. -/
theorem edge_old_iff (hg : s.Makes f g) (hs : s.spot.In f) {b c : BlockId}
    (hc : c.index < f.blocks.size) :
    g.Edge b c ↔ (b ≠ s.spot.home ∧ f.Edge b c) ∨ (b = cont f ∧ f.Edge s.spot.home c) := by
  rw [hg.edge_iff hs]
  refine or_congr_right ⟨fun h => ?_, fun h => .inr (.inl h)⟩
  rcases h with ⟨-, rfl⟩ | h | ⟨d, hd, -, rfl⟩
  · exact absurd hc (Nat.not_lt.2 le_entrance)
  · exact h
  · exact absurd hc (Nat.not_lt.2 (le_next hd))

/-! ### The rules -/

/-- Every block is reached: the old ones by the old paths, which now pass through the chain. -/
theorem reachable (hg : s.Makes f g) (h : f.Regular) (hs : s.Fits f) {b : BlockId}
    (hb : b.index < g.blocks.size) : g.Reachable b := by
  obtain ⟨hchain, hend⟩ := Probe.reach_of_chain (r := g.Edge)
    (rfl : s.decisions f = s.probe.chain (cont f) s.checks _ _ _)
    fun d hd => (hg.edge_iff hs.spot_in).2 (.inr (.inr (.inr ⟨d, hd, rfl, rfl⟩)))
  have hentrance : g.Edge s.spot.home (entrance (cont f) (s.decisions f)) :=
    (hg.edge_iff hs.spot_in).2 (.inr (.inl ⟨rfl, rfl⟩))
  -- A path of `f` that leaves the cut block goes through the chain first.
  have hold : ∀ c, f.Reachable c → g.Reachable c := by
    intro c hc
    induction hc with
    | refl => rw [Function.Reachable, hg.frame]
    | @tail c d _ hedge ih =>
      by_cases hc : c = s.spot.home
      · subst hc
        exact ((ih.tail hentrance).trans hend).tail
          ((hg.edge_iff hs.spot_in).2 (.inr (.inr (.inl ⟨rfl, hedge⟩))))
      · exact ih.tail ((hg.edge_iff hs.spot_in).2 (.inl ⟨hc, hedge⟩))
  have hhome : g.Reachable s.spot.home := hold _ (h.reachable _ hs.spot_in.home_lt)
  rw [hg.size] at hb
  rcases Nat.lt_trichotomy b.index f.blocks.size with hlt | heq | hlt
  · exact hold b (h.reachable b hlt)
  · have hcont : b = cont f := by
      cases b
      exact congrArg _ heq
    exact hcont ▸ (hhome.tail hentrance).trans hend
  · obtain ⟨d, hd, rfl⟩ := exists_decision hlt hb
    exact (hhome.tail hentrance).trans (hchain d hd)

/-- The old blocks can stand in the new function. -/
theorem hosts (hg : s.Makes f g) (h : f.Regular) (hs : s.Fits f) :
    f.Hosts g s.spot.home (cont f) where
  operandType?_eq _ _ htype := hg.operandType?_eq htype
  returnType_eq := hg.returnType_eq
  defined _ hv := (hg.mem_defined h hs).2 (.inl hv)
  le_new := Nat.le_refl _
  edge_iff hc := hg.edge_old_iff hs.spot_in hc

/-- A decision block keeps the rules. -/
theorem decision_regular (hg : s.Makes f g) (h : f.Regular) (hs : s.Fits f) {d : Decision}
    (hd : d ∈ s.decisions f) (name : String) : g.BlockRegular d.block (s.probe.close d name) where
  id_eq := rfl
  closed := by
    refine ⟨_, rfl, hg.outcome_type hs hd, fun v hv => ?_⟩
    cases hv
    exact hg.new_value_defined h hs hd (CheckPredicate.outcome_range ..)
  insts i hi := by
    refine ⟨fun v hv => ?_, hg.instFits_of_mem_code hs hd hi, fun incoming hk => ?_⟩
    · rcases Formula.operands_code hi hv with hv | hv
      · exact (hg.mem_defined h hs).2 (.inl (defined_of_mentions h hs hv))
      · exact hg.new_value_defined h hs hd hv
    · have hphi := Formula.not_phi_of_mem_code hi
      simp [hk, InstKind.isPhi] at hphi
  phis_lead _ hi := Formula.not_phi_of_mem_code ((List.dropWhile_suffix _).mem hi)

/-- **The frame stays regular.** The widths of new values, the layout, the edges, what can be
    reached from the entry and the definitions are all in order again. -/
theorem frame_regular (hg : s.Makes f g) (h : f.Regular) (hs : s.Fits f) : g.FrameRegular where
  widths := by
    intro width hwidth
    rw [hg.valueTypes_eq, Array.mem_append] at hwidth
    -- New values are integers of the width that is watched, or truth values.
    refine hwidth.elim (h.widths width) fun hnew => ?_
    obtain ⟨d, hd, hty⟩ := List.mem_flatMap.1 (List.mem_toArray.1 hnew)
    rcases CheckPredicate.mem_types_formula s.probe.threshold hty with hty | hty
    · exact h.widths width (hty ▸ Array.mem_of_getElem? hs.typed.result)
    · cases hty
      exact ⟨Nat.le_refl _, by decide⟩
  layout_nodup := hg.layout_nodup h hs.spot_in
  mem_layout := hg.mem_layout h
  entry_mem := by
    have hlt := (h.mem_layout _).1 h.entry_mem
    rw [hg.entry_eq, hg.mem_layout h, hg.size]
    omega
  targets := by
    intro b c hedge
    rw [hg.size]
    -- Old edges stay below the old blocks, and the chain leads on to itself or to the rest.
    rcases (hg.edge_iff hs.spot_in).1 hedge with ⟨-, hold⟩ | ⟨-, rfl⟩ | ⟨-, hold⟩ | ⟨d, hd, -, rfl⟩
    · have := h.targets b c hold
      omega
    · exact entrance_lt
    · have := h.targets _ c hold
      omega
    · exact next_lt hd
  entry_source := by
    intro b hedge
    rw [hg.entry_eq, hg.edge_old_iff hs.spot_in ((h.mem_layout _).1 h.entry_mem)] at hedge
    -- An edge into an old block is an old one, only its source may have become the rest.
    rcases hedge with ⟨-, hedge⟩ | ⟨-, hedge⟩
    · exact h.entry_source _ hedge
    · exact h.entry_source _ hedge
  reachable := fun b hb => hg.reachable h hs hb
  defined_nodup :=
    -- The new values are numbered behind all old ones.
    nodup_of_drawn ValueId.index (.of_eq (hg.defined_eq h hs)) h.defined_nodup h.defined_lt
      (List.Nodup.map (fun _ _ e => congrArg ValueId.index e) List.nodup_range')
      (List.forall_mem_map.2 fun _ hn => (List.mem_range'_1.1 hn).1)
  defined_lt := by
    intro v hv
    simp only [hg.valueTypes_eq, Array.size_append, List.size_toArray, length_types]
    rcases (hg.mem_defined h hs).1 hv with hv | hv
    · have := h.defined_lt v hv
      omega
    · exact hv.2

/-- **An insertion keeps a function regular.** -/
theorem regular (hg : s.Makes f g) (h : f.Regular) (hs : s.Fits f) : g.Regular := by
  refine (hg.frame_regular h hs).regular fun b block hblock => ?_
  have hosts := hg.hosts h hs
  rcases hg.block_cases hblock with ⟨rfl, rfl⟩ | ⟨rfl, name, rfl⟩ | ⟨d, hd, rfl, name, rfl⟩ |
    ⟨-, old, hold, rfl⟩
  · exact hosts.front hs.spot_in h ⟨trivial, nofun⟩
  · exact hosts.rest hs.spot_in h hs.not_phi name
  · exact hg.decision_regular h hs hd name
  · exact hosts.repoint h hold

/-! ### Instruction ids -/

/-- The ids of the new function: the old ones, and as many more as the chain has instructions. -/
theorem draws (hg : s.Makes f g) (h : f.Regular) (hs : s.Fits f) :
    f.Draws (s.code f).length g :=
  (hg.carves h hs.spot_in).draws h.laid.arranged hs.spot_in
    ((h.mem_layout _).2 hs.spot_in.home_lt)

end Makes

end Insertion

end ArithWatch
