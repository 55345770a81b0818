namespace ArithWatch

/-!
# Identifiers

Values, blocks and instructions of a function are named by numbers.  The number of a value is its
place in the function's list of value types and the number of a block its place in the function's
block arena; an instruction keeps its number when it moves to another block.  The numbers of
instructions are counted in 32 bits (`InstId.next`).
-/

/-- The name of a value. -/
structure ValueId where
  index : Nat
  deriving DecidableEq, Repr, Inhabited

/-- The name of a block. -/
structure BlockId where
  index : Nat
  deriving DecidableEq, Repr, Inhabited

/-- The name of an instruction. -/
structure InstId where
  index : Nat
  deriving DecidableEq, Repr, Inhabited

/-- The number that is given out behind `n`.  The count has 32 bits and is not checked: behind the
    greatest number it starts again at 0. -/
def InstId.next (n : Nat) : Nat := (n + 1) % UInt32.size

/-- The name of a value in listings. -/
def ValueId.text (v : ValueId) : String := "%v" ++ toString v.index

/-- The name of a block in messages. -/
def BlockId.text (b : BlockId) : String := "bb" ++ toString b.index

/-- The name of an instruction in messages. -/
def InstId.text (i : InstId) : String := "#" ++ toString i.index

/-! ### The order of block names -/

instance : Ord BlockId := ⟨compareOn BlockId.index⟩

instance : Std.TransOrd BlockId := inferInstanceAs (Std.TransCmp (compareOn BlockId.index))

instance : Std.LawfulEqOrd BlockId where
  eq_of_compare {a b} h := by
    have : a.index = b.index := @Std.LawfulEqOrd.eq_of_compare Nat _ _ _ _ h
    cases a; cases b; simp_all

end ArithWatch
