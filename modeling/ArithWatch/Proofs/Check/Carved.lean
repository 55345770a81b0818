import ArithWatch.Proofs.Check.Insertion

namespace ArithWatch

/-!
# An insertion in any arranged function

Functions under construction have open blocks, branches to nowhere and phis that fit no
predecessors.  An insertion keeps the little that walks through the layout need.

* `Insertion.Carves.arranged`: the new function is arranged again.
* `Insertion.Carves.flatMap_laidOut` tells what is read off the blocks of the new function, for
  readings that phis do not matter to and that can be cut in two.
* `Insertion.Carves.draws` is about instruction ids.
-/

namespace Insertion

variable {s : Insertion} {f g : Function}

namespace Carves

/-- The continuation follows its home, and the decision blocks stand at the end. -/
theorem layout_eq (hg : s.Carves f g) :
    g.layout = insertBehind s.spot.home (cont f) f.layout ++ (s.decisions f).map (·.block) := by
  rw [hg.frame]

/-- The types of the emitted code are appended. -/
theorem valueTypes_eq (hg : s.Carves f g) :
    g.valueTypes = f.valueTypes ++ (s.types f).toArray := by
  rw [hg.frame]

/-- The counter advances by the length of the code. -/
theorem instCount_eq (hg : s.Carves f g) :
    g.instCount = InstId.advance f.instCount (s.code f).length := by
  rw [hg.frame]

/-- Every block of the new function has the id by which it is found. -/
theorem ids (hg : s.Carves f g) (h : f.Arranged) (hs : s.spot.In f) (b : BlockId) (block : Block)
    (hb : g.block? b = some block) : block.id = b := by
  -- Old blocks come first in the arena, then the cut-off rest, then the decision blocks.
  rcases Nat.lt_trichotomy b.index f.blocks.size with hlt | heq | hgt
  · by_cases hhome : b = s.spot.home
    · subst hhome
      rw [hg.home] at hb
      cases hb
      rw [Spot.id_follow]
      exact h.ids s.spot.home s.spot.block hs.block_eq
    · obtain ⟨old, hold⟩ := Function.exists_block? hlt
      rw [hg.other b hhome hlt, hold] at hb
      cases hb
      rw [Spot.id_follow]
      exact h.ids _ _ hold
  · obtain rfl : b = cont f := by
      cases b
      exact congrArg _ heq
    obtain ⟨name, hname⟩ := hg.rest
    rw [hname] at hb
    cases hb
    rw [Spot.id_follow]
    rfl
  · obtain ⟨d, hd, rfl⟩ := exists_decision hgt (hg.size ▸ Function.lt_of_block? hb)
    obtain ⟨name, hname⟩ := hg.decision d hd
    rw [hname] at hb
    cases hb
    rfl

/-- **An insertion keeps functions arranged.** -/
theorem arranged (hg : s.Carves f g) (h : f.Arranged) (hs : s.spot.In f) : g.Arranged where
  ids := hg.ids h hs
  layout_nodup := by
    have hold : ∀ b ∈ insertBehind s.spot.home (cont f) f.layout, b.index ≤ f.blocks.size := by
      intro b hb
      rcases mem_insertBehind.1 hb with rfl | hb
      · exact Nat.le_refl _
      · exact Nat.le_of_lt (h.layout_lt b hb)
    have hcont : cont f ∉ f.layout := fun hmem => Nat.lt_irrefl _ (h.layout_lt _ hmem)
    rw [hg.layout_eq, List.nodup_append, (perm_insertBehind ..).nodup_iff, List.nodup_cons]
    refine ⟨⟨hcont, h.layout_nodup⟩, ?_, fun b hb c hc => ?_⟩
    · rw [decisions, Probe.map_block_chain]
      exact List.Nodup.map (fun _ _ e => congrArg BlockId.index e) List.nodup_range'
    · rintro rfl
      obtain ⟨d, hd, rfl⟩ := List.mem_map.1 hc
      exact Nat.not_lt_of_le (hold _ hb) (mem_decisions_block hd).1
  layout_lt b hb := by
    rw [hg.layout_eq, List.mem_append, mem_insertBehind] at hb
    rw [hg.size]
    -- The continuation, an old block, or a decision block.
    rcases hb with (rfl | hb) | hb
    · show f.blocks.size < _
      omega
    · have := h.layout_lt b hb
      omega
    · obtain ⟨d, hd, rfl⟩ := List.mem_map.1 hb
      exact (mem_decisions_block hd).2

/-- **What is read off the new function**: what was read off the old one, and behind it what is read
    off the decision blocks. -/
theorem flatMap_laidOut {α : Type} {read : Block → List α} {made : Decision → List α}
    (hg : s.Carves f g) (h : f.Arranged) (hs : s.spot.In f) (hhome : s.spot.home ∈ f.layout)
    (hrepoint : ∀ (block : Block) (old new : BlockId), read (block.repoint old new) = read block)
    (hcut : ∀ (t : Terminator) (name : String),
      read (s.spot.half t) ++ read (s.spot.rest (cont f) name) = read s.spot.block)
    (hclose : ∀ (d : Decision) (name : String), read (s.probe.close d name) = made d) :
    g.laidOut.flatMap read = f.laidOut.flatMap read ++ (s.decisions f).flatMap made := by
  -- The two halves of the cut block stand next to each other in the layout.
  have hold : (insertBehind s.spot.home (cont f) f.layout).flatMap (g.readAt read) =
      f.layout.flatMap (f.readAt read) := by
    obtain ⟨name, hname⟩ := hg.rest
    refine flatMap_insertBehind hhome h.layout_nodup ?_ fun b hb hne => ?_
    · rw [Function.readAt_eq hg.home, Function.readAt_eq hname, Function.readAt_eq hs.block_eq,
        Spot.read_follow _ hrepoint, Spot.read_follow _ hrepoint, hcut]
    · obtain ⟨block, hblock⟩ := Function.exists_block? (h.layout_lt b hb)
      rw [Function.readAt, hg.other b hne (h.layout_lt b hb), hblock,
        Function.readAt_eq hblock, Option.map_some, Option.map_some, Spot.read_follow _ hrepoint]
      rfl
  have hnew : ((s.decisions f).map (·.block)).flatMap (g.readAt read) =
      (s.decisions f).flatMap made := by
    rw [List.flatMap_map]
    refine List.flatMap_congr fun d hd => ?_
    obtain ⟨name, hname⟩ := hg.decision d hd
    rw [Function.readAt_eq hname, hclose]
  rw [Function.flatMap_laidOut_eq, Function.flatMap_laidOut_eq, hg.layout_eq, List.flatMap_append,
    hold, hnew]

/-! ### Instruction ids -/

/-- The ids of the new function: the old ones, and as many more as the chain has instructions. -/
theorem draws (hg : s.Carves f g) (h : f.Arranged) (hs : s.spot.In f)
    (hhome : s.spot.home ∈ f.layout) : f.Draws (s.code f).length g where
  instCount_eq := hg.instCount_eq
  instIds_eq := by
    have hids : ∀ f : Function, f.allInsts.map (·.id) =
        f.laidOut.flatMap fun block => block.insts.map (·.id) := fun f => List.map_flatMap ..
    have hcode : (s.decisions f).flatMap (fun d => (s.probe.code d).map (·.id)) =
        InstId.drawn f.instCount (s.code f).length := by
      rw [← List.map_flatMap, Insertion.code, decisions, Probe.map_id_chain]
    rw [hids, hids, ← hcode]
    refine hg.flatMap_laidOut h hs hhome (fun block old new => ?_) (fun t name => ?_)
      fun d name => rfl
    · simp [Block.repoint]
    · rw [hs.insts_eq]
      simp [Spot.half, Spot.rest]

end Carves

end Insertion

end ArithWatch
