import ArithWatch.Proofs.Check.Evaluation
import ArithWatch.Proofs.Check.Preservation
import ArithWatch.Proofs.Execution.Erasure
import ArithWatch.Proofs.Execution.Split

namespace ArithWatch

/-!
# An insertion does not change what a function does

The function with a chain of checks walks as the function without it, but for a detour through the
chain behind the watched instruction.

* `Insertion.back` leads the blocks of the new function back to those of the old one.
* `Insertion.Sim` relates the states of the two functions.
* `Insertion.Sim.advances` and `Insertion.Sim.stops` match one step and the end;
  `Insertion.Sim.runs` and `Insertion.Sim.ends` match walks.
-/

/-! ### Leading blocks back -/

/-- The block that a block was carved from before a chain was inserted; none for a
    decision block. -/
def CheckSite.carvedFrom? (s : CheckSite) (b : BlockId) : Option BlockId :=
  if b ∈ s.decisionBlocks then none else some (if b = s.contBlock then s.originBlock else b)

namespace Insertion

variable {s : Insertion} {f g : Function}

/-- The block that a block was carved from. -/
def back (s : Insertion) (f : Function) (b : BlockId) : Option BlockId :=
  if b ∈ (s.decisions f).map (·.block) then none
  else some (if b = cont f then s.spot.home else b)

/-- The block that control leaves where it left `b` before. -/
def forth (s : Insertion) (f : Function) (b : BlockId) : BlockId :=
  if b = s.spot.home then cont f else b

/-- The report says where the continuation was cut from. -/
theorem carvedFrom?_site (id : SiteId) : (s.site f id).carvedFrom? = s.back f := by
  funext b
  rw [CheckSite.carvedFrom?, back, decisionBlocks_site]
  rfl

/-- Old blocks are led back to themselves. -/
theorem back_old {b : BlockId} (hb : b.index < f.blocks.size) : s.back f b = some b := by
  have hcont : b ≠ cont f := by
    rintro rfl
    exact Nat.lt_irrefl _ hb
  rw [back, if_neg (not_mem_of_lt hb), if_neg hcont]

/-- The continuation is led back to the home of the operation. -/
theorem back_cont : s.back f (cont f) = some s.spot.home := by
  rw [back, if_neg cont_not_mem, if_pos rfl]

/-- Going forth and back changes nothing. -/
theorem back_forth {b : BlockId} (hb : b.index < f.blocks.size) :
    s.back f (s.forth f b) = some b := by
  rw [forth]
  split
  · next h => rw [back_cont, h]
  · exact back_old hb

/-- Nothing of the chain is left. -/
theorem erase_chain {log : List Event} {n : Nat} (hn : n ≤ f.blocks.size)
    (h : ∀ e ∈ log, e.block ∈ (s.decisions f).map (·.block)) :
    log.filterMap (Event.erase? n (s.back f)) = [] := by
  refine List.filterMap_eq_nil_iff.2 fun e he => ?_
  have hback : s.back f e.block = none := if_pos (h e he)
  obtain ⟨d, hd, hblock⟩ := List.mem_map.1 (h e he)
  have hlt := (mem_decisions_block hd).1
  cases e with
  | enter b =>
    rw [show d.block = b from hblock] at hlt
    exact if_neg (by omega)
  | exec b i reads a => rw [Event.erase?, show s.back f b = none from hback, Option.map_none]
  | branch b cond => rw [Event.erase?, show s.back f b = none from hback, Option.map_none]

end Insertion

/-! ### Old instructions -/

namespace Function.Regular

variable {f : Function} (h : f.Regular) {b : BlockId} {block : Block}
  (hblock : f.block? b = some block)

include h hblock

/-- The values an instruction reads are numbered. -/
theorem operand_lt {i : Inst} (hi : i ∈ block.insts) {v : ValueId}
    (hv : .value v ∈ i.kind.operands) : v.index < f.valueTypes.size :=
  h.defined_lt v (h.operands b block hblock i hi v hv)

theorem exit_lt {t : Terminator} (ht : block.term = some t) {v : ValueId}
    (hv : t.exit.operand? = some (.value v)) : v.index < f.valueTypes.size :=
  h.defined_lt v (h.exits b block hblock t ht v hv)

end Function.Regular

namespace Registers.Widens

variable {f g : Function} {regs regs' : Registers} {b : BlockId} {block : Block}

/-- An old instruction gives the same in both functions. -/
theorem exec (hw : Widens f g regs regs') (h : f.Regular) (hblock : f.block? b = some block)
    {i : Inst} (hi : i ∈ block.insts) {a : Scalar} {regs₁ : Registers}
    (heval : i.eval regs = .ok a) (hwrite : regs.write i.result a = .ok regs₁) (cur : BlockId)
    (rest : List Inst) :
    ∃ regs₁', Advances g (.inside cur (i :: rest) regs')
        [.exec cur i (regs.readAll i.kind.operands) a] (.inside cur rest regs₁') ∧
      Widens f g regs₁ regs₁' := by
  have hlt : ∀ v, .value v ∈ i.kind.operands → v.index < f.valueTypes.size :=
    fun v hv => h.operand_lt hblock hi hv
  obtain ⟨regs₂, regs₁', hwrite₂, hwrite', hw₁⟩ := hw.write (h.result_lt hblock hi) a
  rw [hwrite, Except.ok.injEq] at hwrite₂
  subst hwrite₂
  refine ⟨regs₁', ?_, hw₁⟩
  rw [← hw.agree.readAll hlt]
  exact .exec ((hw.agree.eval hlt).trans heval) hwrite'

/-- An old exit leads to the same. -/
theorem leave (hw : Widens f g regs regs') (h : f.Regular) (hblock : f.block? b = some block)
    {block' : Block} (hterm : block'.term = block.term) {back : BlockId → Option BlockId}
    {cur : BlockId} (hback : back cur = some b) :
    LeadsBack back (block'.leave cur regs') (block.leave b regs) := by
  -- The terminator reads a value of the original, which both register files hold.
  have hread : ∀ t, block.term = some t → ∀ op, t.exit.operand? = some op →
      regs'.read op = regs.read op := fun t ht op hop =>
    hw.agree.read fun v hv => h.exit_lt hblock ht (hv ▸ hop)
  unfold Block.leave
  rw [hterm]
  cases ht : block.term with
  | none => exact .error (by simp [Halt.leadBack?, RunError.leadBack?, hback])
  | some t =>
    have hread' := hread t ht
    cases he : t.exit with
    | br target =>
      simp only [he]
      exact .ok _
    | condBr cond thenTarget elseTarget =>
      simp only [he]
      rw [hread' cond (by rw [he]; rfl)]
      refine (LeadsBack.read back regs cond).bind fun x => ?_
      cases x.bool? with
      | some c => exact .ok _
      | none => exact .error (by simp [Halt.leadBack?, RunError.leadBack?, hback])
    | ret value =>
      cases value with
      | none =>
        simp only [he]
        exact .ok _
      | some op =>
        simp only [he]
        rw [hread' op (by rw [he]; rfl)]
        exact (LeadsBack.read back regs op).bind fun x => .ok _
    | unreachable =>
      simp only [he]
      exact .error (by simp [Halt.leadBack?, RunError.leadBack?, hback])

end Registers.Widens

/-! ### Phis -/

namespace Inst

/-- What goes wrong in an instruction names no block. -/
theorem leadBack?_of_eval {i : Inst} {regs : Registers} {halt : Halt}
    {back : BlockId → Option BlockId} (h : i.eval regs = .error halt) :
    halt.leadBack? back = some halt := by
  have hexpect : ∀ found, LeadsBack back (i.expect found) (i.expect found) := by
    intro found
    cases found with
    | none => exact .error rfl
    | some a => exact .ok a
  -- What fails inside an instruction names no block.
  have hsides : ∀ lhs rhs (k : Scalar → Scalar → Except Halt Scalar),
      (∀ x y, LeadsBack back (k x y) (k x y)) →
      LeadsBack back (do let x ← regs.read lhs; let y ← regs.read rhs; k x y)
        (do let x ← regs.read lhs; let y ← regs.read rhs; k x y) :=
    fun lhs rhs k hk => (LeadsBack.read back regs lhs).bind fun x =>
      (LeadsBack.read back regs rhs).bind fun y => hk x y
  have hself : LeadsBack back (i.eval regs) (i.eval regs) := by
    unfold eval
    split
    · refine hsides _ _ _ fun x y => ?_
      split
      · exact hexpect _
      · exact .error rfl
    · exact hsides _ _ _ fun x y => hexpect _
    · exact hsides _ _ _ fun x y => hexpect _
    · exact .error rfl
  rw [h] at hself
  exact hself

end Inst

namespace Insertion

variable {s : Insertion} {f g : Function} {regs regs' : Registers} {prev : Option BlockId}

/-- The input from the block that control left is found at the block that it leaves now. -/
theorem find?_forth {p : BlockId} (hp : p.index < f.blocks.size)
    {incoming : List (BlockId × Operand)} (hincoming : ∀ q ∈ incoming.map (·.1),
      q.index < f.blocks.size) :
    (incoming.map fun (q, v) => (s.forth f q, v)).find? (·.1 == s.forth f p) =
      (incoming.find? (·.1 == p)).map fun (q, v) => (s.forth f q, v) := by
  have hcont : ∀ {q : BlockId}, q.index < f.blocks.size → q ≠ cont f := by
    rintro q hq rfl
    exact Nat.lt_irrefl _ hq
  exact find?_repoint (hcont hp) fun hmem => hcont (hincoming _ hmem) rfl

/-- Repointed phis give what the phis gave. -/
theorem evalPhis_repoint (hw : regs.Widens f g regs') {is : List Inst}
    (hops : ∀ i ∈ is, ∀ v, .value v ∈ i.kind.operands → v.index < f.valueTypes.size)
    (hpreds : ∀ i ∈ is, ∀ incoming, i.kind = .phi incoming →
      ∀ q ∈ incoming.map (·.1), q.index < f.blocks.size)
    (hprev : ∀ p, prev = some p → p.index < f.blocks.size) :
    LeadsBack (s.back f)
      (Inst.evalPhis (prev.map (s.forth f)) regs' (is.map (·.repoint s.spot.home (cont f))))
      (Inst.evalPhis prev regs is) := by
  -- By induction on the phis; an input from the home is now one from the continuation, in both the
  -- phi and the block it is entered from.
  induction is with
  | nil => exact .ok _
  | cons i rest ih =>
    rw [List.forall_mem_cons] at hops hpreds
    cases hk : i.kind with
    | phi incoming =>
      have hphi : LeadsBack (s.back f)
          ((i.repoint s.spot.home (cont f)).evalPhi
            (incoming.map fun (q, v) => (s.forth f q, v)) (prev.map (s.forth f)) regs')
          (i.evalPhi incoming prev regs) := by
        cases prev with
        | none => exact .error rfl
        | some p =>
          have hp := hprev p rfl
          simp only [Inst.evalPhi, Option.map_some, find?_forth hp (hpreds.1 incoming hk)]
          cases hfind : incoming.find? (·.1 == p) with
          | none =>
            exact .error (by simp [Halt.leadBack?, RunError.leadBack?, back_forth hp])
          | some input =>
            have hmem : input.2 ∈ i.kind.operands := by
              rw [hk]
              exact List.mem_map_of_mem (List.mem_of_find?_eq_some hfind)
            show LeadsBack _ (regs'.read input.2) (regs.read input.2)
            rw [hw.agree.read fun v hv => hops.1 v (hv ▸ hmem)]
            exact LeadsBack.read _ regs _
      simp only [List.map_cons, Inst.evalPhis, hk, Inst.kind_repoint, InstKind.repoint]
      refine hphi.bind fun a => ?_
      exact (ih hops.2 hpreds.2).bind fun found => .ok _
    | _ =>
      simp only [List.map_cons, Inst.evalPhis, hk, Inst.kind_repoint, InstKind.repoint]
      exact .ok _

end Insertion

/-! ### Entering blocks -/

namespace Insertion

variable {s : Insertion} {f g : Function} {regs regs' : Registers} {prev : Option BlockId}
  {cur : BlockId} {block block' : Block}

/-- Entering a block whose phis are repointed. -/
theorem enter (hf : f.Regular) (hw : regs.Widens f g regs') (hblock : f.block? cur = some block)
    (hphis : block'.insts.takeWhile (·.kind.isPhi) =
      (block.insts.takeWhile (·.kind.isPhi)).map (·.repoint s.spot.home (cont f)))
    (hprev : ∀ p, prev = some p → p.index < f.blocks.size) :
    (∃ regs₁ regs₁', block.enter prev regs = .ok regs₁ ∧
      block'.enter (prev.map (s.forth f)) regs' = .ok regs₁' ∧ regs₁.Widens f g regs₁') ∨
    ∃ halt halt', block.enter prev regs = .error halt ∧
      block'.enter (prev.map (s.forth f)) regs' = .error halt' ∧
      halt'.leadBack? (s.back f) = some halt := by
  have hmem : ∀ i ∈ block.insts.takeWhile (·.kind.isPhi), i ∈ block.insts :=
    fun i hi => (List.takeWhile_sublist _).mem hi
  have heval := evalPhis_repoint (s := s) hw
    (fun i hi v hv => hf.operand_lt hblock (hmem i hi) hv) (fun i hi incoming hk q hq => by
      obtain ⟨source, hsource, -⟩ :=
        ((hf.inputs cur block hblock i (hmem i hi) incoming hk).2 q).1 hq
      exact Function.lt_of_block? hsource) hprev
  rw [← hphis, Inst.evalPhis_takeWhile, Inst.evalPhis_takeWhile] at heval
  unfold Block.enter
  -- The phis are read before any is written, so they fail on both sides or write the same words.
  cases hwrites : Inst.evalPhis prev regs block.insts with
  | error halt =>
    rw [hwrites] at heval
    obtain ⟨halt', hhalt', hback⟩ := heval.eq_error
    rw [hhalt']
    exact .inr ⟨halt, halt', rfl, rfl, hback⟩
  | ok writes =>
    rw [hwrites] at heval
    rw [heval.eq_ok]
    have hlt : ∀ e ∈ writes, e.1.index < f.valueTypes.size := by
      intro e he
      obtain ⟨i, hi, hresult⟩ := Inst.exists_of_evalPhis hwrites e he
      exact hresult ▸ hf.result_lt hblock hi
    obtain ⟨regs₁, regs₁', hwrite, hwrite', hw₁⟩ := hw.writeAll hlt
    exact .inl ⟨regs₁, regs₁', hwrite, hwrite', hw₁⟩

/-! ### The detour -/

theorem mentions_lt (hf : f.Regular) (hs : s.Fits f) {v : ValueId}
    (hv : s.probe.watched.Mentions v) : v.index < f.valueTypes.size :=
  hf.defined_lt v (Makes.defined_of_mentions hf hs hv)

/-- Behind the watched instruction its sides and its result have values. -/
theorem Fits.exists_holds (hs : s.Fits f) {a : Scalar} {regs₁ : Registers}
    (heval : s.spot.inst.eval regs = .ok a) (hwrite : regs.write s.spot.inst.result a = .ok regs₁)
    (hlegal : regs₁.Legal f) : ∃ x y r, s.probe.watched.Holds regs₁ x y r := by
  obtain ⟨flags, hkind⟩ := hs.watches
  obtain ⟨x, y, hx, hy, -⟩ := Inst.eval_binary_eq_ok hkind heval
  obtain ⟨x', hx'⟩ := Registers.exists_read_of_write hx hwrite
  obtain ⟨y', hy'⟩ := Registers.exists_read_of_write hy hwrite
  have hr : regs₁.read (.value s.probe.watched.result) = .ok a := by
    rw [hs.result_eq, Registers.read_write hwrite, if_pos rfl]
  exact ⟨x', y', a, hs.typed.holds hlegal hx' hy' hr⟩

/-- **The detour.** From the watched instruction control passes through the chain to what stood
    behind it. -/
theorem Makes.detour (hg : s.Makes f g) (hf : f.Regular) (hs : s.Fits f) {x y r : Scalar}
    (hholds : s.probe.watched.Holds regs x y r) (hsize : regs.size = g.valueTypes.size) :
    ∃ n regs' log, Runs g (.inside s.spot.home [] regs) n log
        (.inside (cont f) s.spot.after regs') ∧
      regs'.size = regs.size ∧ regs.Agree f.valueTypes.size regs' ∧
      log.filterMap (Event.erase? f.blocks.size (s.back f)) = [] := by
  have hleave : Advances g (.inside s.spot.home [] regs) []
      (.entering (some s.spot.home) (entrance (cont f) (s.decisions f)) regs) := .jump hg.home rfl
  have hroom : f.valueTypes.size + (s.code f).length ≤ regs.size := by
    rw [hsize, hg.valueTypes_eq]
    simp [length_types]
  -- The chain writes new values only, so the old ones agree behind it.
  obtain ⟨n, last, regs', log, hrun, hsize', hagree, hlog, -⟩ :=
    Probe.runs_chain hg.decision (fun p hp => CheckPredicate.formula_fits _ (hs.family p hp)) hholds
      (fun v hv => mentions_lt hf hs hv) hroom s.spot.home
  obtain ⟨name, hname⟩ := hg.rest
  have hphi : ∀ i ∈ (s.spot.rest (cont f) name).insts, i.kind.isPhi = false :=
    fun i hi => hf.not_phi_of_mem_after hs.spot_in hs.not_phi hi
  have henter : Advances g (.entering (some last) (cont f) regs') [.enter (cont f)]
      (.inside (cont f) s.spot.after regs') := by
    have := Advances.enter hname (Block.enter_of_not_phi hphi (some last) regs')
    rwa [Block.body_of_not_phi hphi] at this
  have hcont : [Event.enter (cont f)].filterMap (Event.erase? f.blocks.size (s.back f)) = [] :=
    List.filterMap_cons_none (if_neg (Nat.lt_irrefl _))
  refine ⟨_, regs', _, (Runs.single hleave).trans (hrun.trans (Runs.single henter)), hsize',
    hagree, ?_⟩
  rw [List.nil_append, List.filterMap_append, erase_chain (Nat.le_refl _) hlog, hcont]
  rfl

end Insertion

/-! ### The simulation -/

namespace Insertion

/-- The states of the two functions.  Behind the watched instruction the new one is in `cont`. -/
inductive Sim (s : Insertion) (f g : Function) : RunState → RunState → Prop
  | entering {prev cur regs regs'} :
    (∀ p, prev = some p → p.index < f.blocks.size) → regs.Widens f g regs' →
    Sim s f g (.entering prev cur regs) (.entering (prev.map (s.forth f)) cur regs')
  | elsewhere {cur rest regs regs'} :
    cur ≠ s.spot.home → regs.Widens f g regs' →
    Sim s f g (.inside cur rest regs) (.inside cur rest regs')
  | front {mid regs regs'} :
    regs.Widens f g regs' →
    Sim s f g (.inside s.spot.home (mid ++ s.spot.inst :: s.spot.after) regs)
      (.inside s.spot.home (mid ++ [s.spot.inst]) regs')
  | rest {rest regs regs'} :
    regs.Widens f g regs' →
    Sim s f g (.inside s.spot.home rest regs) (.inside (cont f) rest regs')

namespace Sim

variable {s : Insertion} {f g : Function} {t t' u : RunState}

theorem cost_eq (h : s.Sim f g t t') : t'.cost = t.cost := by
  cases h <;> rfl

/-- Inside a block the next instruction is the same. -/
theorem exists_inside {cur : BlockId} {i : Inst} {rest : List Inst} {regs : Registers}
    (h : s.Sim f g (.inside cur (i :: rest) regs) t') :
    ∃ cur' rest' regs', t' = .inside cur' (i :: rest') regs' ∧ regs.Widens f g regs' := by
  generalize hrest : i :: rest = all at h
  cases h with
  | elsewhere _ hw =>
    subst hrest
    exact ⟨_, rest, _, rfl, hw⟩
  | @front mid _ _ hw =>
    cases mid with
    | nil =>
      cases hrest
      exact ⟨_, [], _, rfl, hw⟩
    | cons j mid =>
      cases hrest
      exact ⟨_, mid ++ [s.spot.inst], _, rfl, hw⟩
  | rest hw =>
    subst hrest
    exact ⟨_, rest, _, rfl, hw⟩

/-- Control enters an old block: the two functions do the same, or they fail in the same way. -/
theorem enter_cases (hf : f.Regular) (hs : s.Fits f) (hg : s.Makes f g) {prev : Option BlockId}
    {cur : BlockId} {regs regs' : Registers} {block : Block}
    (hblock : f.block? cur = some block) (hprev : ∀ p, prev = some p → p.index < f.blocks.size)
    (hw : regs.Widens f g regs') :
    (∃ regs₁ t', block.enter prev regs = .ok regs₁ ∧
      Advances g (.entering (prev.map (s.forth f)) cur regs') [.enter cur] t' ∧
      s.Sim f g (.inside cur block.body regs₁) t') ∨
    ∃ halt halt', block.enter prev regs = .error halt ∧
      Stops g (.entering (prev.map (s.forth f)) cur regs') [.enter cur] (.error halt') ∧
      halt'.leadBack? (s.back f) = some halt := by
  have hlt := Function.lt_of_block? hblock
  -- The home holds the front half only; the other blocks have their phis renamed.
  by_cases hcur : cur = s.spot.home
  · subst hcur
    have hsame : block = s.spot.block := by
      rw [hs.spot_in.block_eq, Option.some.injEq] at hblock
      exact hblock.symm
    subst hsame
    obtain ⟨hbody, hfront⟩ := s.spot.body_home hf hs.spot_in hs.not_phi (cont f) (s.branch f)
    rcases enter hf hw hblock (s.spot.takeWhile_front hs.spot_in hs.not_phi (s.branch f)) hprev with
      ⟨regs₁, regs₁', henter, henter', hw₁⟩ | ⟨halt, halt', henter, henter', hback⟩
    · have hstep := Advances.enter hg.home henter'
      rw [hfront] at hstep
      rw [hbody]
      exact .inl ⟨regs₁, _, henter, hstep, .front hw₁⟩
    · exact .inr ⟨halt, halt', henter, .enter hg.home henter', hback⟩
  · have hblock' : g.block? cur = some (block.repoint s.spot.home (cont f)) := by
      rw [hg.other cur hcur hlt, hblock]
      rfl
    have hphis : (block.repoint s.spot.home (cont f)).insts.takeWhile (·.kind.isPhi) =
        (block.insts.takeWhile (·.kind.isPhi)).map (·.repoint s.spot.home (cont f)) :=
      takeWhile_repoint block.insts
    rcases enter hf hw hblock hphis hprev with
      ⟨regs₁, regs₁', henter, henter', hw₁⟩ | ⟨halt, halt', henter, henter', hback⟩
    · have hstep := Advances.enter hblock' henter'
      rw [hf.body_repoint hblock] at hstep
      exact .inl ⟨regs₁, _, henter, hstep, .elsewhere hcur hw₁⟩
    · exact .inr ⟨halt, halt', henter, .enter hblock' henter', hback⟩

/-- At the end of a block the two functions leave it in the same way. -/
theorem leave_cases (hf : f.Regular) (hs : s.Fits f) (hg : s.Makes f g) {cur : BlockId}
    {regs : Registers} {block : Block} (hblock : f.block? cur = some block)
    (hsim : s.Sim f g (.inside cur [] regs) t') :
    ∃ cur' regs' block', t' = .inside cur' [] regs' ∧ g.block? cur' = some block' ∧
      cur' = s.forth f cur ∧ regs.Widens f g regs' ∧
      LeadsBack (s.back f) (block'.leave cur' regs') (block.leave cur regs) := by
  have hlt := Function.lt_of_block? hblock
  generalize hrest : ([] : List Inst) = rest at hsim
  -- A block is left by its own terminator, or by that of the home in the continuation.
  cases hsim with
  | @elsewhere _ _ _ regs' hcur hw =>
    refine ⟨cur, regs', block.repoint s.spot.home (cont f), rfl, ?_, (if_neg hcur).symm, hw,
      hw.leave hf hblock rfl (back_old hlt)⟩
    rw [hg.other cur hcur hlt, hblock]
    rfl
  | front hw => simp at hrest
  | @rest _ _ regs' hw =>
    obtain ⟨name, hname⟩ := hg.rest
    rw [hs.spot_in.block_eq, Option.some.injEq] at hblock
    subst hblock
    exact ⟨cont f, regs', _, rfl, hname, (if_pos rfl).symm, hw,
      hw.leave hf hs.spot_in.block_eq rfl back_cont⟩

/-- An event of an old block is kept. -/
theorem filterMap_erase_old {e : Event} (he : e.block.index < f.blocks.size) :
    [e].filterMap (Event.erase? f.blocks.size (s.back f)) = [e] := by
  rw [List.filterMap_cons_some (e.erase?_self he (back_old he)), List.filterMap_nil]

/-- An instruction that gives something does so in both functions.  Behind the watched one the new
    function takes the detour. -/
theorem exec_cases (hf : f.Regular) (hs : s.Fits f) (hg : s.Makes f g) {cur : BlockId} {i : Inst}
    {rest : List Inst} {regs regs₁ : Registers} {a : Scalar} (heval : i.eval regs = .ok a)
    (hwrite : regs.write i.result a = .ok regs₁)
    (hsound : RunState.Sound f (.inside cur (i :: rest) regs)) (hlegal : regs₁.Legal f)
    (hsim : s.Sim f g (.inside cur (i :: rest) regs) t') :
    ∃ n log u', Runs g t' n log u' ∧ 1 ≤ n ∧ s.Sim f g (.inside cur rest regs₁) u' ∧
      log.filterMap (Event.erase? f.blocks.size (s.back f)) =
        [.exec cur i (regs.readAll i.kind.operands) a] := by
  obtain ⟨block, hblock, hmem⟩ := hsound.inst_mem
  have hi := hmem i List.mem_cons_self
  have hold := Function.lt_of_block? hblock
  generalize hrest : i :: rest = all at hsim
  cases hsim with
  | elsewhere hcur hw =>
    subst hrest
    obtain ⟨regs₁', hstep', hw₁⟩ := hw.exec hf hblock hi heval hwrite cur rest
    exact ⟨_, _, _, .single hstep', Nat.le_refl _, .elsewhere hcur hw₁, filterMap_erase_old hold⟩
  | @front mid _ regs' hw =>
    cases mid with
    | cons j mid =>
      cases hrest
      obtain ⟨regs₁', hstep', hw₁⟩ :=
        hw.exec hf hblock hi heval hwrite s.spot.home (mid ++ [s.spot.inst])
      exact ⟨_, _, _, .single hstep', Nat.le_refl _, .front hw₁, filterMap_erase_old hold⟩
    -- The watched instruction itself: it is followed by the detour through the chain, whose events
    -- are erased.
    | nil =>
      cases hrest
      obtain ⟨regs₁', hstep', hw₁⟩ := hw.exec hf hblock hi heval hwrite s.spot.home []
      obtain ⟨x, y, r, hholds⟩ := hs.exists_holds heval hwrite hlegal
      obtain ⟨n, regs₂', log, hrun, hsize, hagree, hlog⟩ := hg.detour hf hs
        (hholds.agree hw₁.agree fun v hv => mentions_lt hf hs hv) hw₁.size_eq'
      refine ⟨_, _, _, (Runs.single hstep').trans hrun, Nat.le_add_right _ _,
        .rest ⟨hw₁.size_eq, hsize.trans hw₁.size_eq', hw₁.le, hw₁.agree.trans hagree⟩, ?_⟩
      rw [List.filterMap_append, hlog, List.append_nil]
      exact filterMap_erase_old hold
  | rest hw =>
    subst hrest
    obtain ⟨regs₁', hstep', hw₁⟩ := hw.exec hf hblock hi heval hwrite (cont f) rest
    refine ⟨_, _, _, .single hstep', Nat.le_refl _, .rest hw₁, ?_⟩
    simp [Event.erase?, back_cont]

/-- **One step.** The new function matches a step of the old one with one step, behind the watched
    instruction with the detour. -/
theorem advances (hf : f.Regular) (hs : s.Fits f) (hg : s.Makes f g) {events : List Event}
    (hstep : Advances f t events u) (hsound : t.Sound f) (hsim : s.Sim f g t t') :
    ∃ n log u', Runs g t' n log u' ∧ t.cost ≤ n ∧ s.Sim f g u u' ∧
      log.filterMap (Event.erase? f.blocks.size (s.back f)) = events := by
  have hsound' := hstep.sound hf hsound
  -- One step of the original is met by one step, or by a step and the detour.
  cases hstep with
  | @enter prev cur block regs regs₁ hblock henter =>
    cases hsim with
    | entering hprev hw =>
      rcases enter_cases hf hs hg hblock hprev hw with
        ⟨regs₂, u', henter', hstep', hsim'⟩ | ⟨halt, halt', herror, -, -⟩
      · rw [henter, Except.ok.injEq] at henter'
        subst henter'
        exact ⟨_, _, u', .single hstep', Nat.le_refl _, hsim',
          filterMap_erase_old (Function.lt_of_block? hblock)⟩
      · rw [henter] at herror
        cases herror
  | exec heval hwrite => exact exec_cases hf hs hg heval hwrite hsound hsound'.1 hsim
  | @jump cur block regs target hblock hleave =>
    obtain ⟨cur', regs', block', rfl, hblock', rfl, hw, hback⟩ := leave_cases hf hs hg hblock hsim
    rw [hleave] at hback
    refine ⟨_, _, _, .single (.jump hblock' hback.eq_ok), Nat.le_refl _,
      .entering (fun p hp => ?_) hw, rfl⟩
    cases hp
    exact Function.lt_of_block? hblock
  | @branch cur block regs cond target hblock hleave =>
    have hold := Function.lt_of_block? hblock
    obtain ⟨cur', regs', block', rfl, hblock', rfl, hw, hback⟩ := leave_cases hf hs hg hblock hsim
    rw [hleave] at hback
    refine ⟨_, _, _, .single (.branch hblock' hback.eq_ok), Nat.le_refl _,
      .entering (fun p hp => ?_) hw, ?_⟩
    · cases hp
      exact hold
    · simp [Event.erase?, back_forth hold]

/-- **The end.** Where the old function stops, the new one stops in the same way. -/
theorem stops (hf : f.Regular) (hs : s.Fits f) (hg : s.Makes f g) {events : List Event}
    {r : Except Halt (Option Scalar)} (hstop : Stops f t events r) (hsound : t.Sound f)
    (hsim : s.Sim f g t t') :
    ∃ log r', Stops g t' log r' ∧ log.filterMap (Event.erase? f.blocks.size (s.back f)) = events ∧
      LeadsBack (s.back f) r' r := by
  cases hstop with
  | @missing prev cur regs hblock =>
    obtain ⟨block, hblock'⟩ := Function.exists_block? hsound.2
    rw [hblock] at hblock'
    cases hblock'
  | @enter prev cur block regs halt hblock henter =>
    cases hsim with
    | entering hprev hw =>
      rcases enter_cases hf hs hg hblock hprev hw with
        ⟨regs₁, u', henter', -, -⟩ | ⟨halt₁, halt', herror, hstop', hback⟩
      · rw [henter] at henter'
        cases henter'
      · rw [henter, Except.error.injEq] at herror
        subst herror
        exact ⟨_, _, hstop', filterMap_erase_old (Function.lt_of_block? hblock), .error hback⟩
  | @eval cur i rest regs halt heval =>
    obtain ⟨block, hblock, hmem⟩ := hsound.inst_mem
    have hi := hmem i List.mem_cons_self
    obtain ⟨cur', rest', regs', rfl, hw⟩ := hsim.exists_inside
    have heval' : i.eval regs' = .error halt :=
      (hw.agree.eval fun v hv => hf.operand_lt hblock hi hv).trans heval
    exact ⟨_, _, .eval heval', rfl, .error (Inst.leadBack?_of_eval heval)⟩
  | @write cur i rest regs a halt heval hwrite =>
    -- the result of an old instruction has a register
    obtain ⟨block, hblock, hmem⟩ := hsound.inst_mem
    have hlt := hf.result_lt hblock (hmem i List.mem_cons_self)
    have hsize : regs.size = f.valueTypes.size := hsound.1.size_eq
    obtain ⟨regs₁, hwrite'⟩ := Registers.exists_write (hsize ▸ hlt) a
    rw [hwrite] at hwrite'
    cases hwrite'
  | @leave cur block regs halt hblock hleave =>
    obtain ⟨cur', regs', block', rfl, hblock', rfl, hw, hback⟩ := leave_cases hf hs hg hblock hsim
    rw [hleave] at hback
    obtain ⟨halt', hhalt, hback'⟩ := hback.eq_error
    exact ⟨_, _, .leave hblock' hhalt, rfl, .error hback'⟩
  | @finish cur block regs ret hblock hleave =>
    obtain ⟨cur', regs', block', rfl, hblock', rfl, hw, hback⟩ := leave_cases hf hs hg hblock hsim
    rw [hleave] at hback
    exact ⟨_, _, .finish hblock' hback.eq_ok, rfl, .ok _⟩

/-- **Walks.** The new function matches every walk of the old one, at no lower cost. -/
theorem runs (hf : f.Regular) (hs : s.Fits f) (hg : s.Makes f g) {n : Nat} {log : List Event}
    (hrun : Runs f t n log u) (hsound : t.Sound f) (hsim : s.Sim f g t t') :
    ∃ n' log' u', Runs g t' n' log' u' ∧ n ≤ n' ∧ s.Sim f g u u' ∧
      log'.filterMap (Event.erase? f.blocks.size (s.back f)) = log := by
  induction hrun generalizing t' with
  | refl t => exact ⟨0, [], t', .refl _, Nat.le_refl _, hsim, rfl⟩
  | head hstep _ ih =>
    obtain ⟨n₁, log₁, u₁, hrun₁, hle₁, hsim₁, hlog₁⟩ := advances hf hs hg hstep hsound hsim
    obtain ⟨n₂, log₂, u₂, hrun₂, hle₂, hsim₂, hlog₂⟩ := ih (hstep.sound hf hsound) hsim₁
    refine ⟨_, _, u₂, hrun₁.trans hrun₂, Nat.add_le_add hle₁ hle₂, hsim₂, ?_⟩
    rw [List.filterMap_append, hlog₁, hlog₂]

/-- **Walks to the end.** -/
theorem ends (hf : f.Regular) (hs : s.Fits f) (hg : s.Makes f g) {n : Nat} {log : List Event}
    {r : Except Halt (Option Scalar)} (hends : Ends f t n log r) (hsound : t.Sound f)
    (hsim : s.Sim f g t t') :
    ∃ n' log' r', Ends g t' n' log' r' ∧ n ≤ n' ∧
      log'.filterMap (Event.erase? f.blocks.size (s.back f)) = log ∧
      LeadsBack (s.back f) r' r := by
  obtain ⟨m, first, u, last, hrun, hstop, rfl, rfl⟩ := hends
  obtain ⟨m', first', u', hrun', hle, hsim', hfirst⟩ := runs hf hs hg hrun hsound hsim
  obtain ⟨last', r', hstop', hlast, hback⟩ := stops hf hs hg hstop (hrun.sound hf hsound) hsim'
  refine ⟨_, _, r', ⟨m', first', u', last', hrun', hstop', rfl, rfl⟩, ?_, ?_, hback⟩
  · rw [hsim'.cost_eq]
    omega
  · rw [List.filterMap_append, hfirst, hlast]

end Sim

end Insertion

end ArithWatch
