import ArithWatch.IR.Listing
import ArithWatch.Proofs.IR.Cut

namespace ArithWatch

/-!
# Functions that have a listing

A listing needs the names of blocks only: those of the layout, the targets of branches and the
blocks from which the inputs of a phi come.  In a regular function all of them exist.

* `Function.instText_eq_ok` and `Function.terminatorText_eq_ok` say which blocks a line needs.
* `Function.Regular.listing_eq_ok`: a regular function has a listing.
* `Module.listing_eq_ok` says so of the modules made of such functions.
-/

namespace Function

variable {f : Function}

/-- A block that exists has a name. -/
theorem label_eq_ok {b : BlockId} (h : b.index < f.blocks.size) : ∃ name, f.label b = .ok name := by
  obtain ⟨block, hblock⟩ := exists_block? h
  exact ⟨block.name, by rw [label, block_eq_ok hblock]; rfl⟩

/-- The line of an instruction needs the blocks from which the inputs of a phi come. -/
theorem instText_eq_ok {i : Inst}
    (h : ∀ incoming, i.kind = .phi incoming → ∀ b ∈ incoming.map (·.1), b.index < f.blocks.size) :
    ∃ text, f.instText i = .ok text := by
  have hkind : ∃ text, f.kindText i.result i.kind = .ok text := by
    cases hk : i.kind with
    | phi incoming =>
      obtain ⟨texts, htexts⟩ : ∃ texts, incoming.mapM f.incomingText = .ok texts := by
        refine except_mapM_exists fun input hinput => ?_
        obtain ⟨name, hname⟩ := label_eq_ok (h incoming hk _ (List.mem_map_of_mem hinput))
        exact ⟨_, by rw [incomingText, hname]; rfl⟩
      exact ⟨_, by rw [kindText, htexts]; rfl⟩
    | _ => exact ⟨_, rfl⟩
  obtain ⟨text, htext⟩ := hkind
  exact ⟨_, by rw [instText, htext]; rfl⟩

/-- The line of a terminator needs the targets of its branches. -/
theorem terminatorText_eq_ok (term : Option Terminator)
    (h : ∀ t ∈ term, ∀ b ∈ t.exit.successors, b.index < f.blocks.size) :
    ∃ text, f.terminatorText term = .ok text := by
  cases term with
  | none => exact ⟨_, rfl⟩
  | some t =>
    have hsuccessors := h t rfl
    -- Only the labels of the targets are looked up.
    have hexit : ∃ text, f.exitText t.exit = .ok text := by
      cases hexit : t.exit with
      | br target =>
        obtain ⟨name, hname⟩ := label_eq_ok (hsuccessors target (by simp [hexit, Exit.successors]))
        exact ⟨_, by rw [exitText, hname]; rfl⟩
      | condBr cond thenTarget elseTarget =>
        obtain ⟨thenName, hthen⟩ :=
          label_eq_ok (hsuccessors thenTarget (by simp [hexit, Exit.successors]))
        obtain ⟨elseName, helse⟩ :=
          label_eq_ok (hsuccessors elseTarget (by simp [hexit, Exit.successors]))
        exact ⟨_, by rw [exitText, hthen, helse]; rfl⟩
      | ret value => cases value <;> exact ⟨_, rfl⟩
      | unreachable => exact ⟨_, rfl⟩
    obtain ⟨text, htext⟩ := hexit
    exact ⟨_, by rw [terminatorText, htext]; rfl⟩

/-- Where the edges of a regular function lead from and to, there are blocks. -/
theorem Regular.blockText_eq_ok (h : f.Regular) {b : BlockId} {block : Block}
    (hblock : f.block? b = some block) : ∃ text, f.blockText block = .ok text := by
  obtain ⟨lines, hlines⟩ : ∃ lines, block.insts.mapM f.instText = .ok lines := by
    refine except_mapM_exists fun i hi => instText_eq_ok fun incoming hk p hp => ?_
    obtain ⟨pred, hpred, -⟩ := ((h.inputs b block hblock i hi incoming hk).2 p).1 hp
    exact lt_of_block? hpred
  obtain ⟨text, htext⟩ := terminatorText_eq_ok (f := f) block.term
    fun t ht target htarget => h.targets b target ⟨block, hblock, by
      rw [Block.successors, Option.mem_def.1 ht]
      exact htarget⟩
  exact ⟨_, by rw [blockText, hlines, htext]; rfl⟩

/-- **A regular function has a listing.** -/
theorem Regular.listing_eq_ok (h : f.Regular) : ∃ text, f.listing = .ok text := by
  obtain ⟨blocks, hblocks⟩ : ∃ blocks, f.laidOut.mapM f.blockText = .ok blocks := by
    refine except_mapM_exists fun block hblock => ?_
    obtain ⟨b, hb⟩ := h.laid.mem_laidOut.1 hblock
    exact h.blockText_eq_ok hb
  rw [listing, h.laid.blocksInLayout_eq]
  exact ⟨_, except_bind_eq_ok.2 ⟨_, rfl, except_bind_eq_ok.2 ⟨blocks, hblocks, rfl⟩⟩⟩

end Function

/-- A module of regular functions has a listing. -/
theorem Module.listing_eq_ok {m : Module} (h : ∀ f ∈ m.functions, f.Regular) :
    ∃ text, m.listing = .ok text := by
  obtain ⟨texts, htexts⟩ : ∃ texts, m.functions.mapM (·.listing) = .ok texts :=
    except_mapM_exists fun f hf => (h f hf).listing_eq_ok
  exact ⟨_, by rw [listing, htexts]; rfl⟩

end ArithWatch
