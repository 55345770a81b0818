import ArithWatch.Proofs.IR.WellFormed

namespace ArithWatch

/-!
# Flooding marks the reachable blocks

* `flood_sound`: a flood that starts at reachable blocks marks reachable blocks only.
* `Spread` says that the marks are closed under edges but for the blocks that still wait in the
  queue; a flood keeps it and empties the queue (`flood_spread`).
* `reached_iff`: the mark of an existing block tells whether it is reachable.
-/

namespace Function

variable {f : Function}

/-- Setting the mark of `b` changes no other mark. -/
theorem mark_setIfInBounds {marks : Array Bool} {b c : BlockId} (h : marks[b.index]? = some false) :
    (marks.setIfInBounds b.index true)[c.index]? = some true ↔
      c = b ∨ marks[c.index]? = some true := by
  have hb : b.index < marks.size := (Array.getElem?_eq_some_iff.1 h).1
  rw [Array.getElem?_setIfInBounds]
  by_cases hc : b.index = c.index
  · have : c = b := by
      cases b; cases c; simp_all
    simp [hb, this]
  · have : c ≠ b := fun e => hc (by rw [e])
    simp [hc, this]

/-- Only reachable blocks are marked. -/
theorem flood_sound (marks : Array Bool) (queue : List BlockId)
    (hmarks : ∀ b : BlockId, marks[b.index]? = some true → f.Reachable b)
    (hqueue : ∀ b ∈ queue, f.Reachable b) (b : BlockId)
    (hb : (f.flood marks queue)[b.index]? = some true) : f.Reachable b := by
  -- By the recursion of the flood; what is marked or queued can be reached.
  induction marks, queue using flood.induct f with
  | case1 marks =>
    rw [flood] at hb
    exact hmarks b hb
  | case2 marks a queue hfalse ih =>
    rw [flood, if_pos hfalse] at hb
    have ha : f.Reachable a := hqueue a List.mem_cons_self
    refine ih (fun c hc => ?_) (fun c hc => ?_) hb
    · rcases (mark_setIfInBounds hfalse).1 hc with rfl | hc
      · exact ha
      · exact hmarks c hc
    · rcases List.mem_append.1 hc with hc | hc
      · -- a successor of the block that has just been marked
        cases hblock : f.block? a with
        | none => simp [hblock] at hc
        | some block =>
          rw [hblock] at hc
          exact ha.tail ⟨block, hblock, hc⟩
      · exact hqueue c (List.mem_cons_of_mem _ hc)
  | case3 marks a queue hmarked ih =>
    rw [flood, if_neg hmarked] at hb
    exact ih hmarks (fun c hc => hqueue c (List.mem_cons_of_mem _ hc)) hb

/-- Every edge from a marked block leads to a marked block, to one in the queue, or out of the
    arena. -/
def Spread (f : Function) (marks : Array Bool) (queue : List BlockId) : Prop :=
  ∀ b c, marks[b.index]? = some true → f.Edge b c → c.index < marks.size →
    marks[c.index]? = some true ∨ c ∈ queue

/-- A flood keeps what is marked, marks the blocks of the queue, and leaves nothing to wait for. -/
theorem flood_spread (marks : Array Bool) (queue : List BlockId) (h : f.Spread marks queue) :
    (f.flood marks queue).size = marks.size ∧
      (∀ b : BlockId, marks[b.index]? = some true →
        (f.flood marks queue)[b.index]? = some true) ∧
      (∀ b ∈ queue, b.index < marks.size → (f.flood marks queue)[b.index]? = some true) ∧
      f.Spread (f.flood marks queue) [] := by
  -- By the recursion of the flood. The invariant is that the edges of marked blocks lead to marked
  -- or queued ones; at the end the queue is empty.
  induction marks, queue using flood.induct f with
  | case1 marks =>
    rw [flood]
    exact ⟨rfl, fun _ hb => hb, fun _ hb => by simp at hb, h⟩
  | case2 marks a queue hfalse ih =>
    rw [flood, if_pos hfalse]
    have hspread : f.Spread (marks.setIfInBounds a.index true)
        (((f.block? a).map (·.successors)).getD [] ++ queue) := by
      intro b c hb hedge hc
      rw [Array.size_setIfInBounds] at hc
      rcases (mark_setIfInBounds hfalse).1 hb with rfl | hb
      · obtain ⟨block, hblock, hmem⟩ := hedge
        right
        simp [hblock, hmem]
      · rcases h b c hb hedge hc with hm | hq
        · exact .inl ((mark_setIfInBounds hfalse).2 (.inr hm))
        · rcases List.mem_cons.1 hq with rfl | hq
          · exact .inl ((mark_setIfInBounds hfalse).2 (.inl rfl))
          · exact .inr (List.mem_append_right _ hq)
    obtain ⟨hsize, hkeep, hqueue, hclosed⟩ := ih hspread
    rw [Array.size_setIfInBounds] at hsize hqueue
    refine ⟨hsize, fun b hb => ?_, fun b hb hlt => ?_, hclosed⟩
    · exact hkeep b ((mark_setIfInBounds hfalse).2 (.inr hb))
    · rcases List.mem_cons.1 hb with rfl | hb
      · exact hkeep b ((mark_setIfInBounds hfalse).2 (.inl rfl))
      · exact hqueue b (List.mem_append_right _ hb) hlt
  | case3 marks a queue hmarked ih =>
    rw [flood, if_neg hmarked]
    have ha : a.index < marks.size → marks[a.index]? = some true := by
      intro hlt
      rw [Array.getElem?_eq_getElem hlt] at hmarked ⊢
      simpa using hmarked
    have hspread : f.Spread marks queue := by
      intro b c hb hedge hc
      rcases h b c hb hedge hc with hm | hq
      · exact .inl hm
      · rcases List.mem_cons.1 hq with rfl | hq
        · exact .inl (ha hc)
        · exact .inr hq
    obtain ⟨hsize, hkeep, hqueue, hclosed⟩ := ih hspread
    refine ⟨hsize, hkeep, fun b hb hlt => ?_, hclosed⟩
    rcases List.mem_cons.1 hb with rfl | hb
    · exact hkeep b (ha hlt)
    · exact hqueue b hb hlt

/-- **Reachability.** An existing block is marked exactly if a path leads to it from the entry. -/
theorem reached_iff {b : BlockId} (hb : b.index < f.blocks.size) :
    f.reached[b.index]? = some true ↔ f.Reachable b := by
  have hnone : ∀ c : BlockId, (Array.replicate f.blocks.size false)[c.index]? ≠ some true := by
    intro c
    simp [Array.getElem?_replicate]
  constructor
  · refine flood_sound _ _ (fun c hc => absurd hc (hnone c)) (fun c hc => ?_) b
    rw [List.mem_singleton.1 hc]
    exact .refl
  · intro hreach
    obtain ⟨hsize, -, hentry, hclosed⟩ :=
      f.flood_spread (Array.replicate f.blocks.size false) [f.entry]
        (fun c d hc => absurd hc (hnone c))
    rw [Array.size_replicate] at hsize hentry
    -- the blocks on the path have edges, so they exist and their marks carry over
    induction hreach with
    | refl => exact hentry _ List.mem_cons_self hb
    | @tail c d _ hedge ih =>
      obtain ⟨block, hblock, hmem⟩ := hedge
      have hc := ih (lt_of_block? hblock)
      rcases hclosed c d hc ⟨block, hblock, hmem⟩ (by rw [hsize]; exact hb) with hd | hd
      · exact hd
      · simp at hd

end Function

end ArithWatch
