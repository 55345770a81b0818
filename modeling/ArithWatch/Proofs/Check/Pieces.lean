import ArithWatch.Proofs.Check.Pass

namespace ArithWatch

/-!
# The pieces of a block

Insertions cut the blocks of a function into pieces and put decision blocks between them.

* `pieces` lists the blocks into which a block is cut, in their order; `lastPiece` is the one that
  has its terminator, and `source` leads each piece back to the block that it was cut from.
* `Inserts.newBlocks_eq`: the new blocks of the sites are numbered one after the other, so that none
  of them belongs to two sites.
* `Inserts.not_decision_of_mem_pieces`: no piece is a decision block.
* `Inserts.valueTypes_prefix` and the lemmas behind it say what insertions leave as it is.
-/

/-- The blocks into which the insertions of some sites, one after the other, cut a block. -/
def pieces : List CheckSite → BlockId → List BlockId
  | [], b => [b]
  | s :: rest, b =>
    if s.originBlock = b then pieces rest b ++ pieces rest s.contBlock else pieces rest b

/-- The last of the pieces, which gets the terminator. -/
def lastPiece : List CheckSite → BlockId → BlockId
  | [], b => b
  | s :: rest, b => lastPiece rest (if s.originBlock = b then s.contBlock else b)

/-- The block that a piece was cut from. -/
def source : List CheckSite → BlockId → BlockId
  | [], p => p
  | s :: rest, p => if source rest p = s.contBlock then s.originBlock else source rest p

/-- The last piece of a block is one of its pieces. -/
theorem lastPiece_mem_pieces (sites : List CheckSite) (b : BlockId) :
    lastPiece sites b ∈ pieces sites b := by
  induction sites generalizing b with
  | nil => exact List.mem_singleton_self b
  | cons s rest ih =>
    rw [lastPiece, pieces]
    split
    · exact List.mem_append_right _ (ih _)
    · exact ih b

/-- The blocks that an insertion adds. -/
def CheckSite.newBlocks (s : CheckSite) : List BlockId := s.contBlock :: s.decisionBlocks

/-- The new blocks of a site are numbered in a row. -/
theorem Insertion.newBlocks_site {s : Insertion} {f : Function} (id : SiteId) :
    (s.site f id).newBlocks = (List.range' f.blocks.size (1 + s.checks.length)).map .mk := by
  rw [CheckSite.newBlocks, decisionBlocks_site, decisions, Probe.map_block_chain, Nat.add_comm 1,
    List.range'_succ]
  rfl

namespace Inserts

variable {t : Threshold} {ids : List InstId} {f g : Function} {sites : List CheckSite}

/-- The number of blocks only grows. -/
theorem size_le (h : Inserts t ids f sites g) : f.blocks.size ≤ g.blocks.size := by
  induction h with
  | done f => exact Nat.le_refl _
  | skip _ ih => exact ih
  | insert id _ _ _ hg _ ih =>
    rw [hg.size] at ih
    omega

/-- **The new blocks** are numbered one after the other. -/
theorem newBlocks_eq (h : Inserts t ids f sites g) : sites.flatMap (·.newBlocks) =
    (List.range' f.blocks.size (g.blocks.size - f.blocks.size)).map .mk := by
  induction h with
  | done f => simp
  | skip _ ih => exact ih
  | @insert ids f g h sites s id _ _ _ hg hrest ih =>
    have hle := hrest.size_le
    have hsize := hg.size
    have hsum : 1 + s.checks.length + (h.blocks.size - g.blocks.size) =
        h.blocks.size - f.blocks.size := by omega
    rw [List.flatMap_cons, ih, Insertion.newBlocks_site, ← List.map_append, hsize,
      Nat.add_assoc f.blocks.size, List.range'_append_1, ← Nat.add_assoc, ← hsize, hsum]

/-- No block is new twice. -/
theorem newBlocks_nodup (h : Inserts t ids f sites g) : (sites.flatMap (·.newBlocks)).Nodup := by
  rw [h.newBlocks_eq]
  exact List.Pairwise.map BlockId.mk (fun m n hne e => hne (congrArg BlockId.index e))
    List.nodup_range'

/-- A piece is the block itself or new. -/
theorem of_mem_pieces (h : Inserts t ids f sites g) {b p : BlockId} (hp : p ∈ pieces sites b) :
    p = b ∨ f.blocks.size ≤ p.index := by
  -- By induction on the sites: a piece is cut off as the continuation, which is new.
  induction h generalizing b with
  | done f => exact .inl (List.mem_singleton.1 hp)
  | skip _ ih => exact ih hp
  | @insert ids f g h sites s id _ _ _ hg _ ih =>
    have hsize := hg.size
    have hlater : ∀ {c}, p ∈ pieces sites c → p = c ∨ f.blocks.size ≤ p.index := by
      intro c hc
      rcases ih hc with heq | hle
      · exact .inl heq
      · exact .inr (by omega)
    rw [pieces] at hp
    split at hp
    · rcases List.mem_append.1 hp with hp | hp
      · exact hlater hp
      · rcases hlater hp with rfl | hle
        · exact .inr (Nat.le_refl _)
        · exact .inr hle
    · exact hlater hp

/-- **A piece is no decision block.** -/
theorem not_decision_of_mem_pieces (h : Inserts t ids f sites g) {b p : BlockId}
    (hb : b.index < f.blocks.size) (hp : p ∈ pieces sites b) :
    p ∉ sites.flatMap (·.decisionBlocks) := by
  induction h generalizing b with
  | done f => exact List.not_mem_nil
  | skip _ ih => exact ih hb hp
  | @insert ids f g h sites s id _ _ _ hg hrest ih =>
    have hsize := hg.size
    have hcont : (s.site f id).contBlock.index < g.blocks.size := by
      show f.blocks.size < _
      omega
    -- Later insertions cut a block that is not a decision block of this one.
    have hpiece : ∀ {c : BlockId}, c.index < g.blocks.size → c ∉ (s.site f id).decisionBlocks →
        p ∈ pieces sites c → p ∉ (s.site f id :: sites).flatMap (·.decisionBlocks) := by
      intro c hc hnot hmem hp
      rw [List.flatMap_cons] at hp
      rcases List.mem_append.1 hp with hp | hp
      · rcases hrest.of_mem_pieces hmem with rfl | hle
        · exact hnot hp
        · rw [Insertion.decisionBlocks_site] at hp
          obtain ⟨d, hd, rfl⟩ := List.mem_map.1 hp
          have := (Insertion.mem_decisions_block hd).2
          omega
      · exact ih hc hmem hp
    have hold : ∀ {c : BlockId}, c.index ≤ f.blocks.size → c ∉ (s.site f id).decisionBlocks := by
      intro c hc hmem
      rw [Insertion.decisionBlocks_site] at hmem
      obtain ⟨d, hd, rfl⟩ := List.mem_map.1 hmem
      have := (Insertion.mem_decisions_block hd).1
      omega
    rw [pieces] at hp
    split at hp
    · rcases List.mem_append.1 hp with hp | hp
      · exact hpiece (by omega) (hold (Nat.le_of_lt hb)) hp
      · exact hpiece hcont (hold (Nat.le_refl _)) hp
    · exact hpiece (by omega) (hold (Nat.le_of_lt hb)) hp

/-- No piece has a record. -/
theorem find?_of_mem_pieces {r : FunctionReport} (h : Inserts t ids f r.sites g)
    (hr : r.Consistent) {b p : BlockId} (hb : b.index < f.blocks.size)
    (hp : p ∈ pieces r.sites b) : r.checks.find? p = none := by
  by_contra hrecord
  exact h.not_decision_of_mem_pieces hb hp
    (hr.exists_record_iff.1 (Option.ne_none_iff_exists'.1 hrecord))

/-! ### What stays -/

/-- New values stand behind the old ones. -/
theorem valueTypes_prefix (h : Inserts t ids f sites g) :
    f.valueTypes.toList <+: g.valueTypes.toList := by
  induction h with
  | done f => exact List.prefix_refl _
  | skip _ ih => exact ih
  | insert id _ _ _ hg _ ih =>
    rw [hg.valueTypes_eq, Array.toList_append] at ih
    exact (List.prefix_append ..).trans ih

/-- A block that is filtered out may as well not be inserted. -/
theorem filter_insertBehind {keep : BlockId → Bool} {origin b : BlockId} (hb : keep b = false)
    (l : List BlockId) : (insertBehind origin b l).filter keep = l.filter keep := by
  induction l with
  | nil => simp [insertBehind, hb]
  | cons x rest ih =>
    rw [insertBehind]
    split
    · rw [List.filter_cons, List.filter_cons, List.filter_cons, hb]
      rfl
    · rw [List.filter_cons, List.filter_cons, ih]

/-- The old blocks stand in the layout as they stood. -/
theorem filter_layout (h : Inserts t ids f sites g) {n : Nat} (hn : n ≤ f.blocks.size) :
    g.layout.filter (·.index < n) = f.layout.filter (·.index < n) := by
  induction h with
  | done f => rfl
  | skip _ ih => exact ih hn
  | @insert ids f g h sites s id _ _ _ hg _ ih =>
    have hsize := hg.size
    have hnew : ((s.decisions f).map (·.block)).filter (·.index < n) = [] := by
      refine List.filter_eq_nil_iff.2 fun b hb => ?_
      obtain ⟨d, hd, rfl⟩ := List.mem_map.1 hb
      have := (Insertion.mem_decisions_block hd).1
      simp only [decide_eq_true_eq]
      omega
    have hcont : decide ((Insertion.cont f).index < n) = false :=
      decide_eq_false (Nat.not_lt.2 hn)
    rw [ih (by omega), hg.layout_eq, List.filter_append, hnew, List.append_nil,
      filter_insertBehind hcont]

/-- Without a site nothing is changed. -/
theorem eq_of_nil (h : Inserts t ids f sites g) (hsites : sites = []) : g = f := by
  induction h with
  | done f => rfl
  | skip _ ih => exact ih hsites
  | insert => cases hsites

end Inserts

end ArithWatch
