import ArithWatch.Proofs.IR.WellFormed
import Mathlib.Data.List.Nodup

namespace ArithWatch

/-!
# The supply of instruction ids

Instruction ids are counted in 32 bits, and nothing stops the count from starting again at 0.

* `InstId.advance` is the count behind some draws, and `InstId.drawn` are the ids that they give.
* `InstId.advance_eq` and `InstId.drawn_eq` say what they are where the count does not overflow.
* `Function.Draws` relates a function to one that has more instructions, and `Function.RoomFor` says
  that the count does not overflow between them.
* `Function.Draws.freshIds` and `Function.Draws.instIds_nodup`: then ids stay below the next free
  one, and distinct.
-/

namespace InstId

/-- The count behind `n` draws. -/
def advance (count : Nat) : Nat → Nat
  | 0 => count
  | n + 1 => next (advance count n)

/-- The ids that `n` draws give, one after the other. -/
def drawn (count n : Nat) : List InstId := (List.range n).map fun k => ⟨advance count k⟩

variable {count m n : Nat}

@[simp] theorem advance_zero : advance count 0 = count := rfl

/-- Draws can be made in two goes. -/
@[simp] theorem advance_advance : advance (advance count m) n = advance count (m + n) := by
  induction n with
  | zero => rfl
  | succ n ih => exact congrArg next ih

@[simp] theorem length_drawn : (drawn count n).length = n := by
  simp [drawn]

@[simp] theorem drawn_zero : drawn count 0 = [] := rfl

@[simp] theorem drawn_one : drawn count 1 = [⟨count⟩] := rfl

/-- Draws go on where the last ones stopped. -/
theorem drawn_add : drawn count (m + n) = drawn count m ++ drawn (advance count m) n := by
  simp [drawn, List.range_add, Function.comp_def]

/-- The last id drawn is the counter before it. -/
theorem drawn_succ : drawn count (n + 1) = drawn count n ++ [⟨advance count n⟩] := by
  rw [drawn_add, drawn_one]

/-- A count of 32 bits stays one. -/
theorem advance_lt (h : count < UInt32.size) : advance count n < UInt32.size := by
  cases n with
  | zero => exact h
  | succ n => exact Nat.mod_lt _ (by decide)

/-! ### Without an overflow -/

/-- Where the count does not overflow, it is a sum. -/
theorem advance_eq (h : count + n < UInt32.size) : advance count n = count + n := by
  induction n with
  | zero => rfl
  | succ n ih =>
    rw [advance, ih (by omega)]
    exact Nat.mod_eq_of_lt h

/-- The last one of the ids may be the greatest one that there is. -/
theorem drawn_eq (h : count + n ≤ UInt32.size) : drawn count n = (List.range' count n).map mk := by
  rw [drawn, List.range'_eq_map_range, List.map_map]
  refine List.map_congr_left fun k hk => ?_
  have hk := List.mem_range.1 hk
  exact congrArg mk (advance_eq (by omega))

/-- As long as the counter does not wrap, the ids drawn are the next numbers. -/
theorem mem_drawn_of_room {i : InstId} (h : count + n ≤ UInt32.size) :
    i ∈ drawn count n ↔ count ≤ i.index ∧ i.index < count + n := by
  rw [drawn_eq h, List.mem_map]
  constructor
  · rintro ⟨k, hk, rfl⟩
    exact List.mem_range'_1.1 hk
  · exact fun hi => ⟨i.index, List.mem_range'_1.2 hi, rfl⟩

/-- Ids that are drawn without an overflow differ. -/
theorem nodup_drawn (h : count + n ≤ UInt32.size) : (drawn count n).Nodup := by
  rw [drawn_eq h]
  exact List.Nodup.map (fun _ _ e => congrArg index e) List.nodup_range'

end InstId

/-! ### Functions that draw ids -/

namespace Function

/-- `g` has the instruction ids of `f`, and behind them `n` more that are drawn from the count of
    `f`. -/
structure Draws (n : Nat) (f g : Function) : Prop where
  instIds_eq : g.allInsts.map (·.id) = f.allInsts.map (·.id) ++ InstId.drawn f.instCount n
  instCount_eq : g.instCount = InstId.advance f.instCount n

/-- The ids from the next free one of `f` on suffice for the instructions that `g` has more, and one
    is left: the count of 32 bits does not overflow. -/
def RoomFor (f g : Function) : Prop :=
  f.instCount + (g.allInsts.length - f.allInsts.length) < UInt32.size

namespace Draws

variable {f g h : Function} {m n : Nat}

theorem refl (f : Function) : f.Draws 0 f :=
  ⟨(List.append_nil _).symm, rfl⟩

theorem trans (hfg : f.Draws m g) (hgh : g.Draws n h) : f.Draws (m + n) h where
  instIds_eq := by
    rw [hgh.instIds_eq, hfg.instIds_eq, hfg.instCount_eq, List.append_assoc, InstId.drawn_add]
  instCount_eq := by
    rw [hgh.instCount_eq, hfg.instCount_eq, InstId.advance_advance]

variable (hfg : f.Draws n g)

include hfg

theorem length_eq : g.allInsts.length = f.allInsts.length + n := by
  simpa using congrArg List.length hfg.instIds_eq

/-- There is room if the counter stays below 2^32. -/
theorem roomFor_iff : f.RoomFor g ↔ f.instCount + n < UInt32.size := by
  rw [RoomFor, hfg.length_eq, Nat.add_sub_cancel_left]

/-- Ids below the next free one stay so if there is room. -/
theorem freshIds (hfresh : f.FreshIds) (hroom : f.RoomFor g) : g.FreshIds := by
  have hsum := hfg.roomFor_iff.1 hroom
  rw [FreshIds, ← List.forall_mem_map (P := fun i : InstId => i.index < g.instCount),
    hfg.instIds_eq, List.forall_mem_append, hfg.instCount_eq, InstId.advance_eq hsum]
  refine ⟨List.forall_mem_map.2 fun i hi => Nat.lt_add_right n (hfresh i hi), fun i hi => ?_⟩
  exact ((InstId.mem_drawn_of_room (Nat.le_of_lt hsum)).1 hi).2

/-- They stay distinct if they were. -/
theorem instIds_nodup (hfresh : f.FreshIds) (hnodup : (f.allInsts.map (·.id)).Nodup)
    (hroom : f.RoomFor g) : (g.allInsts.map (·.id)).Nodup := by
  have hsum := Nat.le_of_lt (hfg.roomFor_iff.1 hroom)
  rw [hfg.instIds_eq, List.nodup_append]
  refine ⟨hnodup, InstId.nodup_drawn hsum, fun a ha b hb => ?_⟩
  rintro rfl
  obtain ⟨i, hi, rfl⟩ := List.mem_map.1 ha
  have hlow := hfresh i hi
  have hhigh := ((InstId.mem_drawn_of_room hsum).1 hb).1
  omega

end Draws

end Function

end ArithWatch
