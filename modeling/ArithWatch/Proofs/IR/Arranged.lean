import ArithWatch.IR.Edit
import ArithWatch.Proofs.IR.Verified

namespace ArithWatch

/-!
# Functions whose layout can be walked

A walk needs little of a function: the blocks that the layout lists have to exist, each of them
stands there once, and every block knows its own id.

* `nodup_of_drawn` and `lt_of_drawn` are about items that are numbered one after the other.
* `Function.Arranged` says what a walk needs.
* `Function.Arranged.blocksInLayout_eq`: the walk does not fault.
* `Function.flatMap_laidOut_eq` reads something off every block of the layout, and
  `flatMap_insertBehind` says when that stays as a block is placed behind another one.
-/

/-- The elements of a list, one place after the other. -/
theorem filterMap_getElem? {α : Type} (l : List α) :
    (List.range l.length).filterMap (fun n => l[n]?) = l := by
  induction l with
  | nil => rfl
  | cons a rest ih =>
    have hfirst : (a :: rest)[0]? = some a := rfl
    rw [List.length_cons, List.range_succ_eq_map, List.filterMap_cons, hfirst, List.filterMap_map]
    exact congrArg (a :: ·) ih

/-! ### Numbers drawn from a bound on -/

section Drawn

variable {α : Type} (index : α → Nat) {old new all : List α} {n n' : Nat}

/-- Items with numbers from a bound on differ from those with numbers below it. -/
theorem nodup_of_drawn (hall : all.Perm (old ++ new)) (hold : old.Nodup)
    (holdlt : ∀ a ∈ old, index a < n) (hnew : new.Nodup) (hnewle : ∀ a ∈ new, n ≤ index a) :
    all.Nodup := by
  refine hall.nodup_iff.2 (List.nodup_append.2 ⟨hold, hnew, fun a ha b hb => ?_⟩)
  rintro rfl
  exact Nat.not_lt_of_le (hnewle a hb) (holdlt a ha)

/-- Old and new numbers are below the new bound. -/
theorem lt_of_drawn (hall : all.Perm (old ++ new)) (hle : n ≤ n')
    (holdlt : ∀ a ∈ old, index a < n) (hnewlt : ∀ a ∈ new, index a < n') :
    ∀ a ∈ all, index a < n' := by
  intro a ha
  rcases List.mem_append.1 (hall.mem_iff.1 ha) with ha | ha
  · exact Nat.lt_of_lt_of_le (holdlt a ha) hle
  · exact hnewlt a ha

end Drawn

/-! ### Walks -/

namespace Function

/-- Every block carries its place as its id, and the layout lists blocks, none of them twice. -/
structure Arranged (f : Function) : Prop where
  ids : ∀ b block, f.block? b = some block → block.id = b
  layout_nodup : f.layout.Nodup
  layout_lt : ∀ b ∈ f.layout, b.index < f.blocks.size

variable {f : Function}

/-- A laid function is arranged. -/
theorem Laid.arranged (h : f.Laid) : f.Arranged :=
  ⟨h.ids, h.layout_nodup, fun b hb => (h.mem_layout b).1 hb⟩

/-- Every block of the layout exists. -/
theorem Arranged.blocksInLayout_eq (h : f.Arranged) : f.blocksInLayout = .ok f.laidOut := by
  -- Any part of the layout, for the induction along it.
  have hall : ∀ order : List BlockId, (∀ b ∈ order, b.index < f.blocks.size) →
      order.mapM f.block = .ok (order.filterMap f.block?) := by
    intro order horder
    induction order with
    | nil => rfl
    | cons b rest ih =>
      obtain ⟨block, hblock⟩ := exists_block? (horder b List.mem_cons_self)
      rw [List.mapM_cons, block_eq_ok hblock, ih fun c hc => horder c (List.mem_cons_of_mem _ hc),
        List.filterMap_cons_some hblock]
      rfl
  exact hall f.layout h.layout_lt

/-- The walk for instruction ids does not fault. -/
theorem Arranged.instIds_eq (h : f.Arranged) : f.instIds = .ok (f.allInsts.map (·.id)) := by
  rw [instIds, h.blocksInLayout_eq, allInsts, List.map_flatMap]
  rfl

/-- A block stands in the layout if its id does. -/
theorem Arranged.mem_laidOut (h : f.Arranged) {block : Block} :
    block ∈ f.laidOut ↔ block.id ∈ f.layout ∧ f.block? block.id = some block := by
  rw [laidOut, List.mem_filterMap]
  constructor
  · rintro ⟨b, hb, hblock⟩
    rw [h.ids b block hblock]
    exact ⟨hb, hblock⟩
  · rintro ⟨hb, hblock⟩
    exact ⟨block.id, hb, hblock⟩

/-- What is read off the block with the given id, if there is one. -/
def readAt {α : Type} (f : Function) (read : Block → List α) (b : BlockId) : List α :=
  ((f.block? b).map read).getD []

/-- What is read at a block that exists is read of it. -/
theorem readAt_eq {α : Type} {read : Block → List α} {b : BlockId} {block : Block}
    (h : f.block? b = some block) : f.readAt read b = read block := by
  rw [readAt, h]
  rfl

/-- Reading the blocks of a list is reading at its ids. -/
theorem flatMap_filterMap_block? {α : Type} (read : Block → List α) (order : List BlockId) :
    (order.filterMap f.block?).flatMap read = order.flatMap (f.readAt read) := by
  induction order with
  | nil => rfl
  | cons b rest ih =>
    rw [List.flatMap_cons, ← ih, readAt]
    cases hblock : f.block? b with
    | none => rw [List.filterMap_cons_none hblock]; rfl
    | some block => rw [List.filterMap_cons_some hblock]; rfl

/-- What is read off the blocks of the layout. -/
theorem flatMap_laidOut_eq {α : Type} (read : Block → List α) :
    f.laidOut.flatMap read = f.layout.flatMap (f.readAt read) :=
  flatMap_filterMap_block? read f.layout

end Function

/-! ### Placing a block behind another one -/

/-- Inserting behind an element is inserting. -/
theorem perm_insertBehind (origin b : BlockId) (l : List BlockId) :
    (insertBehind origin b l).Perm (b :: l) := by
  induction l with
  | nil => exact .refl _
  | cons x rest ih =>
    rw [insertBehind]
    split
    · exact .swap ..
    · exact (ih.cons x).trans (.swap ..)

/-- Where what was read off a block is now read off the block and the one behind it, the walk reads
    the same. -/
theorem flatMap_insertBehind {α : Type} {origin cont : BlockId} {old new : BlockId → List α}
    {l : List BlockId} (hmem : origin ∈ l) (hnodup : l.Nodup)
    (hcut : new origin ++ new cont = old origin)
    (hother : ∀ b ∈ l, b ≠ origin → new b = old b) :
    (insertBehind origin cont l).flatMap new = l.flatMap old := by
  -- By induction on the layout; the origin stands in it once.
  induction l with
  | nil => exact absurd hmem List.not_mem_nil
  | cons b rest ih =>
    obtain ⟨hb, hrest⟩ := List.nodup_cons.1 hnodup
    rw [insertBehind, List.flatMap_cons]
    split
    · next e =>
      subst e
      rw [List.flatMap_cons, List.flatMap_cons, ← List.append_assoc, hcut]
      congr 1
      refine List.flatMap_congr fun c hc => hother c (List.mem_cons_of_mem _ hc) ?_
      rintro rfl
      exact hb hc
    · next hne =>
      have hmem' : origin ∈ rest := (List.mem_cons.1 hmem).resolve_left fun e => hne e.symm
      rw [List.flatMap_cons, hother b List.mem_cons_self hne,
        ih hmem' hrest fun c hc => hother c (List.mem_cons_of_mem _ hc)]

end ArithWatch
