import ArithWatch.IR.Edit
import Mathlib

namespace ArithWatch.Function

/-!
# Fresh names of blocks

There are more candidates than blocks, so that one of them is free.

* `Function.numberedName_eq`: where the base is taken, the number that is chosen is the least one
  that makes a free name.
* `Function.isFree_freshName`: a fresh name is free.
* `Function.Search` looks for a free name one candidate after the other, for as long as it takes;
  `Function.search_of_taken` says what it tries and where it stops.
* `Function.freshName_search`: the search comes to an end, after one name more than there are blocks
  at most, and what it finds is the fresh name.
-/

variable {f : Function} {base : String}

/-- Different numbers make different names. -/
theorem numbered_injective (base : String) :
    Function.Injective fun n : Nat => base ++ toString n := by
  intro m n h
  have hlist := congrArg String.toList h
  rw [String.toList_append, String.toList_append] at hlist
  exact Nat.repr_inj.1 (String.toList_inj.1 (List.append_cancel_left hlist))

/-- No number makes a name empty behind its base. -/
theorem numbered_ne_base (base : String) (n : Nat) : base ++ toString n ≠ base := by
  intro h
  have hlength := congrArg String.length h
  rw [String.length_append] at hlength
  have hdigits : (toString n).length ≠ 0 := by
    rw [Nat.toString_eq_repr, ← String.length_toList, Nat.toList_repr]
    exact mt List.length_eq_zero_iff.1 Nat.toDigits_ne_nil
  omega

/-- A name is taken if some block has it. -/
theorem not_isFree_iff {name : String} :
    f.isFree name = false ↔ name ∈ f.blocks.toList.map (·.name) := by
  rw [← Bool.not_eq_true, isFree_iff, List.mem_map]
  push Not
  simp

/-- One of the first numbers makes a free name: the names of the blocks are too few for the base and
    all the numbered ones. -/
theorem exists_isFree_numbered (h : f.isFree base = false) :
    ∃ n ∈ List.range' 1 f.blocks.size, f.isFree (base ++ toString n) = true := by
  -- Otherwise the base and one numbered name for each block would be names of blocks, all distinct
  -- and one too many.
  by_contra hnone
  push Not at hnone
  have htaken : base :: (List.range' 1 f.blocks.size).map (fun n => base ++ toString n) ⊆
      f.blocks.toList.map (·.name) := by
    rw [List.cons_subset]
    refine ⟨not_isFree_iff.1 h, fun name hname => ?_⟩
    obtain ⟨n, hn, rfl⟩ := List.mem_map.1 hname
    exact not_isFree_iff.1 (Bool.eq_false_iff.2 (hnone n hn))
  have hnodup : (base :: (List.range' 1 f.blocks.size).map fun n => base ++ toString n).Nodup := by
    refine List.nodup_cons.2 ⟨fun hmem => ?_,
      List.Nodup.map (numbered_injective base) List.nodup_range'⟩
    obtain ⟨n, -, hn⟩ := List.mem_map.1 hmem
    exact numbered_ne_base base n hn
  have hlength := (hnodup.subperm htaken).length_le
  rw [List.length_cons, List.length_map, List.length_range', List.length_map,
    Array.length_toList] at hlength
  omega

/-- **The chosen number** is the least one that makes a free name; it is at most the number of
    blocks. -/
theorem numberedName_eq (h : f.isFree base = false) :
    ∃ n, f.numberedName base = base ++ toString n ∧ 1 ≤ n ∧ n ≤ f.blocks.size ∧
      f.isFree (base ++ toString n) = true ∧
      ∀ m, 1 ≤ m → m < n → f.isFree (base ++ toString m) = false := by
  obtain ⟨k, hk, hfree⟩ := exists_isFree_numbered h
  rw [numberedName]
  cases hfind : (List.range' 1 f.blocks.size).find? fun n => f.isFree (base ++ toString n) with
  | none => exact absurd hfree (List.find?_eq_none.1 hfind k hk)
  | some n =>
    obtain ⟨hn, hmem, hleast⟩ := List.find?_range'_eq_some.1 hfind
    have hrange := List.mem_range'_1.1 hmem
    refine ⟨n, rfl, hrange.1, by omega, hn, fun m hm hlt => ?_⟩
    simpa using hleast m hm hlt

/-- **A fresh name is free.** -/
theorem isFree_freshName (f : Function) (base : String) : f.isFree (f.freshName base) = true := by
  rw [freshName]
  split
  · assumption
  · next h =>
    obtain ⟨n, heq, -, -, hfree, -⟩ := numberedName_eq (Bool.eq_false_iff.2 h)
    rw [heq]
    exact hfree

/-! ### The search -/

/-- The names that are tried, in their order: the base, then the base with the numbers from 1 on. -/
def candidate (base : String) : Nat → String
  | 0 => base
  | n + 1 => base ++ toString (n + 1)

/-- The search from candidate `n` on.  It tries the names in `tried` one after the other and stops
    at the first free one.  Nothing bounds it but its counter, a word of 32 bits that cannot be
    counted beyond its greatest value. -/
inductive Search (f : Function) (base : String) : Nat → List String → String → Prop
  | stop {n} :
    f.isFree (candidate base n) = true → Search f base n [candidate base n] (candidate base n)
  | next {n tried name} :
    f.isFree (candidate base n) = false → n + 1 < UInt32.size → Search f base (n + 1) tried name →
    Search f base n (candidate base n :: tried) name

/-- There is at most one search. -/
theorem Search.unique {n : Nat} {tried tried' : List String} {name name' : String}
    (h : f.Search base n tried name) (h' : f.Search base n tried' name') :
    tried' = tried ∧ name' = name := by
  induction h generalizing tried' name' with
  | stop hfree =>
    cases h' with
    | stop _ => exact ⟨rfl, rfl⟩
    | next htaken _ _ => simp [hfree] at htaken
  | next htaken _ _ ih =>
    cases h' with
    | stop hfree => simp [hfree] at htaken
    | next _ _ hrest =>
      obtain ⟨rfl, rfl⟩ := ih hrest
      exact ⟨rfl, rfl⟩

/-- A search goes through taken candidates up to the first free one. -/
theorem search_of_taken {n k : Nat} (hfree : f.isFree (candidate base (n + k)) = true)
    (htaken : ∀ m, n ≤ m → m < n + k → f.isFree (candidate base m) = false)
    (hword : n + k < UInt32.size) :
    f.Search base n ((List.range' n (k + 1)).map (candidate base)) (candidate base (n + k)) := by
  induction k generalizing n with
  | zero => exact .stop hfree
  | succ k ih =>
    -- The rest of the search starts at the next candidate and stops at the same one.
    have hplace : n + (k + 1) = n + 1 + k := by omega
    rw [hplace] at hfree htaken hword ⊢
    rw [List.range'_succ, List.map_cons]
    refine .next (htaken n (by omega) (by omega)) (by omega) (ih hfree ?_ hword)
    intro m hle hlt
    exact htaken m (by omega) hlt

/-- The fresh name is the first free candidate, and it is among the first ones. -/
theorem freshName_eq_candidate (f : Function) (base : String) :
    ∃ n, f.freshName base = candidate base n ∧ n ≤ f.blocks.size ∧
      ∀ m, m < n → f.isFree (candidate base m) = false := by
  by_cases hfree : f.isFree base = true
  · exact ⟨0, if_pos hfree, Nat.zero_le _, by omega⟩
  · have htaken : f.isFree base = false := Bool.eq_false_iff.2 hfree
    obtain ⟨n, heq, hpos, hle, -, hleast⟩ := numberedName_eq htaken
    obtain ⟨k, rfl⟩ : ∃ k, n = k + 1 := ⟨n - 1, by omega⟩
    refine ⟨k + 1, ?_, hle, ?_⟩
    · rw [freshName, if_neg hfree, heq]
      rfl
    · intro m hlt
      cases m with
      | zero => exact htaken
      | succ m => exact hleast (m + 1) (by omega) hlt

/-- **Fresh names.** In a function whose blocks a 32-bit counter can count, the search for a name
    comes to an end, it tries at most one name more than there are blocks, and there is nothing else
    that it could find than the fresh name.  No block has that name.  It is the base if that is
    free, and otherwise the base with the least number from 1 on that makes a free name. -/
theorem freshName_search (f : Function) (base : String)
    (hsize : f.blocks.size < UInt32.size - 1) :
    (∃ tried, f.Search base 0 tried (f.freshName base) ∧ tried.length ≤ f.blocks.size + 1 ∧
      ∀ tried' name, f.Search base 0 tried' name → tried' = tried ∧ name = f.freshName base) ∧
    (∀ b ∈ f.blocks, b.name ≠ f.freshName base) ∧
    (f.isFree base = true → f.freshName base = base) ∧
    (f.isFree base = false → ∃ n, 1 ≤ n ∧ f.freshName base = base ++ toString n ∧
      f.isFree (base ++ toString n) = true ∧
      ∀ m, 1 ≤ m → m < n → f.isFree (base ++ toString m) = false) := by
  have hfresh := f.isFree_freshName base
  refine ⟨?_, (f.isFree_iff _).1 hfresh, fun hfree => if_pos hfree, fun htaken => ?_⟩
  · obtain ⟨n, heq, hle, hleast⟩ := f.freshName_eq_candidate base
    have hsearch : f.Search base 0 ((List.range' 0 (n + 1)).map (candidate base))
        (f.freshName base) := by
      have hplace : candidate base (0 + n) = candidate base n := by rw [Nat.zero_add]
      rw [heq, ← hplace] at hfresh ⊢
      -- The candidates before the one found are taken, which is what the search sees.
      apply search_of_taken hfresh
      · intro m _ hlt
        exact hleast m (by omega)
      · omega
    refine ⟨_, hsearch, ?_, fun tried' name h => hsearch.unique h⟩
    rw [List.length_map, List.length_range']
    omega
  · obtain ⟨n, heq, hpos, -, hn, hleast⟩ := numberedName_eq htaken
    refine ⟨n, hpos, ?_, hn, hleast⟩
    rw [freshName, if_neg (by simp [htaken]), heq]

/-- A function of which three names in a row are taken, one of them twice. -/
def crowded : Function where
  name := "crowded"
  params := []
  returnType := none
  valueTypes := #[]
  blocks := #[
    { id := ⟨0⟩, name := "check2", insts := [], term := none },
    { id := ⟨1⟩, name := "check", insts := [], term := none },
    { id := ⟨2⟩, name := "check1", insts := [], term := none },
    { id := ⟨3⟩, name := "check1", insts := [], term := none }]
  layout := []
  entry := ⟨0⟩
  instCount := 0

/-- In the example the base and two numbered names are taken. -/
theorem freshName_search_crowded :
    crowded.blocks.size < UInt32.size - 1 ∧ crowded.freshName "check" = "check3" ∧
      crowded.Search "check" 0 ["check", "check1", "check2", "check3"] "check3" ∧
      ∀ b ∈ crowded.blocks, b.name ≠ "check3" := by
  have hsize : crowded.blocks.size < UInt32.size - 1 := by decide
  have htaken : ∀ m < 3, crowded.isFree (candidate "check" m) = false := by decide +kernel
  have hfree : crowded.isFree (candidate "check" 3) = true := by decide +kernel
  have hsearch : crowded.Search "check" 0 ["check", "check1", "check2", "check3"] "check3" := by
    apply search_of_taken (n := 0) (k := 3) hfree
    · intro m _ hlt
      exact htaken m hlt
    · decide
  obtain ⟨⟨tried, -, -, honly⟩, hnone, -⟩ := freshName_search crowded "check" hsize
  obtain ⟨-, hname⟩ := honly _ _ hsearch
  rw [← hname] at hnone
  exact ⟨hsize, hname.symm, hsearch, hnone⟩

end ArithWatch.Function
