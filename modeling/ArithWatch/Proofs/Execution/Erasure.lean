import ArithWatch.Proofs.Execution.Machine

namespace ArithWatch

/-!
# What is left of a run without inserted blocks

A function with inserted blocks does what the function did before, and something in between.  Here
the blocks of the new function are led back to those of the old one, as far as they come from there.

* `Event.erase?` is an event of the new run as one of the old run.
* `LeadsBack` says that two outcomes are the same, but for the blocks that an error names.
-/

/-! ### Events -/

/-- The event with its block led back; blocks from number `n` on are entered in between. -/
def Event.erase? (n : Nat) (back : BlockId → Option BlockId) : Event → Option Event
  | .enter b => if b.index < n then some (.enter b) else none
  | .exec b i reads a => (back b).map (.exec · i reads a)
  | .branch b cond => (back b).map (.branch · cond)

/-- The branch with its block led back. -/
def BranchEvent.leadBack? (back : BlockId → Option BlockId) (e : BranchEvent) :
    Option BranchEvent :=
  (back e.block).map fun b => { e with block := b }

section Events

variable {n m : Nat} {back back' : BlockId → Option BlockId}

/-- An event of an old block that is led back to itself is kept. -/
theorem Event.erase?_self (e : Event) (hn : e.block.index < n)
    (hback : back e.block = some e.block) : e.erase? n back = some e := by
  cases e with
  | enter b => exact if_pos hn
  | exec b i reads a =>
    rw [erase?, show back b = some b from hback]
    rfl
  | branch b cond =>
    rw [erase?, show back b = some b from hback]
    rfl

/-- Leading back in two steps is leading back at once. -/
theorem Event.erase?_erase? (hle : n ≤ m) (log : List Event) :
    (log.filterMap (Event.erase? m back')).filterMap (Event.erase? n back) =
      log.filterMap (Event.erase? n fun b => (back' b).bind back) := by
  rw [List.filterMap_filterMap]
  congr
  funext e
  cases e with
  | enter b =>
    simp only [erase?]
    split
    · rfl
    · next hm => rw [if_neg (by omega)]; rfl
  | exec b i reads a => cases hb : back' b <;> simp [erase?, hb]
  | branch b cond => cases hb : back' b <;> simp [erase?, hb]

/-- The blocks of the old run are those of the new one that were there before. -/
theorem Event.filterMap_entered_erase (log : List Event) :
    (log.filterMap (Event.erase? n back)).filterMap Event.entered? =
      (log.filterMap Event.entered?).filter (·.index < n) := by
  induction log with
  | nil => rfl
  | cons e rest ih =>
    cases e with
    | enter b =>
      by_cases hb : b.index < n <;> simp [erase?, entered?, hb, ih]
    | exec b i reads a =>
      cases hb : back b <;> simp [List.filterMap_cons, erase?, entered?, hb, ih]
    | branch b cond =>
      cases hb : back b <;> simp [List.filterMap_cons, erase?, entered?, hb, ih]

/-- The branches of the old run are those of the new one, led back. -/
theorem Event.filterMap_branch_erase (log : List Event) :
    (log.filterMap (Event.erase? n back)).filterMap Event.branch? =
      (log.filterMap Event.branch?).filterMap (·.leadBack? back) := by
  induction log with
  | nil => rfl
  | cons e rest ih =>
    cases e with
    | enter b =>
      by_cases hb : b.index < n <;> simp [List.filterMap_cons, erase?, branch?, hb, ih]
    | exec b i reads a =>
      cases hb : back b <;> simp [List.filterMap_cons, erase?, branch?, hb, ih]
    | branch b cond =>
      cases hb : back b <;> simp [erase?, branch?, BranchEvent.leadBack?, hb, ih]

end Events

/-! ### Outcomes -/

/-- The error with its block led back. -/
def RunError.leadBack? (back : BlockId → Option BlockId) : RunError → Option RunError
  | .missingPhiIncoming i pred => (back pred).map (.missingPhiIncoming i ·)
  | .noTerminator b => (back b).map .noTerminator
  | .badCondition b => (back b).map .badCondition
  | .unreachable b => (back b).map .unreachable
  | e => some e

/-- The end of a run with its block led back. -/
def Halt.leadBack? (back : BlockId → Option BlockId) : Halt → Option Halt
  | .error e => (e.leadBack? back).map .error
  | .fault f => some (.fault f)

/-- The outcomes are the same, but for the blocks in an error, which are led back. -/
def LeadsBack (back : BlockId → Option BlockId) {α : Type} (x' x : Except Halt α) : Prop :=
  match x', x with
  | .ok a', .ok a => a' = a
  | .error halt', .error halt => halt'.leadBack? back = some halt
  | _, _ => False

/-- Leading back twice is leading back along the composition. -/
theorem Halt.leadBack?_leadBack? {halt : Halt} {back back' : BlockId → Option BlockId} :
    (halt.leadBack? back').bind (·.leadBack? back) =
      halt.leadBack? fun b => (back' b).bind back := by
  cases halt with
  | fault f => rfl
  | error e =>
    cases e with
    | missingPhiIncoming i b => cases hb : back' b <;> simp [leadBack?, RunError.leadBack?, hb]
    | noTerminator b => cases hb : back' b <;> simp [leadBack?, RunError.leadBack?, hb]
    | badCondition b => cases hb : back' b <;> simp [leadBack?, RunError.leadBack?, hb]
    | unreachable b => cases hb : back' b <;> simp [leadBack?, RunError.leadBack?, hb]
    | _ => rfl

namespace LeadsBack

variable {α β : Type} {back back' : BlockId → Option BlockId} {x' x y : Except Halt α}

theorem ok (a : α) : LeadsBack back (.ok a) (.ok a) := rfl

theorem error {halt' halt : Halt} (h : halt'.leadBack? back = some halt) :
    LeadsBack back (.error halt' : Except Halt α) (.error halt) := h

/-- A result is led back to from that result only. -/
theorem eq_ok {a : α} (h : LeadsBack back x' (.ok a)) : x' = .ok a := by
  cases x' with
  | ok a' => exact congrArg _ h
  | error halt => exact h.elim

/-- A halt is led back to from a halt. -/
theorem eq_error {halt : Halt} (h : LeadsBack back x' (.error halt)) :
    ∃ halt', x' = .error halt' ∧ halt'.leadBack? back = some halt := by
  cases x' with
  | ok a' => exact h.elim
  | error halt' => exact ⟨halt', rfl, h⟩

/-- Computations in steps are led back step by step. -/
theorem bind {k' k : α → Except Halt β} (h : LeadsBack back x' x)
    (hk : ∀ a, LeadsBack back (k' a) (k a)) : LeadsBack back (x' >>= k') (x >>= k) := by
  cases x with
  | ok a =>
    rw [h.eq_ok]
    exact hk a
  | error halt =>
    obtain ⟨halt', rfl, hhalt⟩ := h.eq_error
    exact hhalt

/-- Reading an operand names no block. -/
theorem read (back : BlockId → Option BlockId) (regs : Registers) (op : Operand) :
    LeadsBack back (regs.read op) (regs.read op) := by
  unfold Registers.read
  split
  · exact ok _
  · split
    · exact ok _
    · exact error rfl

theorem trans (h' : LeadsBack back' x' x) (h : LeadsBack back x y) :
    LeadsBack (fun b => (back' b).bind back) x' y := by
  cases y with
  | ok a =>
    have hx := h.eq_ok
    subst hx
    rw [h'.eq_ok]
    exact ok a
  | error halt =>
    obtain ⟨halt₁, rfl, hhalt⟩ := h.eq_error
    obtain ⟨halt₂, rfl, hhalt'⟩ := h'.eq_error
    refine error ?_
    rw [← Halt.leadBack?_leadBack?, hhalt']
    exact hhalt

end LeadsBack

end ArithWatch
