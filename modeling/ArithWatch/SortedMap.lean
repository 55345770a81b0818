namespace ArithWatch

/-!
# Sorted maps

Finite maps kept as their list of entries in strictly ascending order of the keys, so that two maps
with the same entries are equal.

* `SortedMap.insert` sets the value of a key, `SortedMap.find?` looks it up.
* `SortedMap.ofList` inserts entry after entry: of two entries of one key the last one wins.
* `find?_insert` says what an insertion changes, `find?_eq_some_iff` that look-ups find the entries,
  and `ofList_entries` that a map is made of its own entries.
-/

/-- A finite map with its entries in ascending order of the keys. -/
structure SortedMap (κ α : Type) [Ord κ] where
  entries : List (κ × α)
  ascending : entries.Pairwise fun a b => compare a.1 b.1 = .lt

namespace SortedMap

variable {κ α : Type} [Ord κ]

instance [DecidableEq κ] [DecidableEq α] : DecidableEq (SortedMap κ α) := fun m n =>
  if h : m.entries = n.entries then
    .isTrue (by cases m; cases n; simp_all)
  else
    .isFalse fun e => h (e ▸ rfl)

instance [Repr κ] [Repr α] : Repr (SortedMap κ α) := ⟨fun m n => reprPrec m.entries n⟩

/-- The map without entries. -/
def empty : SortedMap κ α := ⟨[], .nil⟩

instance : EmptyCollection (SortedMap κ α) := ⟨empty⟩

instance : Inhabited (SortedMap κ α) := ⟨empty⟩

def isEmpty (m : SortedMap κ α) : Bool := m.entries.isEmpty

def size (m : SortedMap κ α) : Nat := m.entries.length

def keys (m : SortedMap κ α) : List κ := m.entries.map (·.1)

def values (m : SortedMap κ α) : List α := m.entries.map (·.2)

/-- The value of a key. -/
def find? (m : SortedMap κ α) (k : κ) : Option α :=
  (m.entries.find? fun e => compare e.1 k == .eq).map (·.2)

def contains (m : SortedMap κ α) (k : κ) : Bool := (m.find? k).isSome

/-! ### Insertion -/

/-- Sets the value of `k` in a list of entries with ascending keys. -/
def insertEntry (k : κ) (a : α) : List (κ × α) → List (κ × α)
  | [] => [(k, a)]
  | e :: rest =>
    match compare k e.1 with
    | .lt => (k, a) :: e :: rest
    | .eq => (k, a) :: rest
    | .gt => e :: insertEntry k a rest

/-- Insertion brings in no key but the inserted one. -/
theorem fst_eq_or_mem_of_mem_insertEntry {k : κ} {a : α} {l : List (κ × α)} {e : κ × α}
    (h : e ∈ insertEntry k a l) : e = (k, a) ∨ e ∈ l := by
  induction l with
  | nil => simpa [insertEntry] using h
  | cons x rest ih =>
    simp only [insertEntry] at h
    split at h
    · simpa using h
    · rcases List.mem_cons.1 h with h | h
      · exact .inl h
      · exact .inr (List.mem_cons_of_mem _ h)
    · rcases List.mem_cons.1 h with h | h
      · exact .inr (h ▸ List.mem_cons_self)
      · exact (ih h).imp id (List.mem_cons_of_mem _)

/-- Insertion keeps the keys in order. -/
theorem ascending_insertEntry [Std.TransOrd κ] [Std.LawfulEqOrd κ] (k : κ) (a : α)
    {l : List (κ × α)} (h : l.Pairwise fun x y => compare x.1 y.1 = .lt) :
    (insertEntry k a l).Pairwise fun x y => compare x.1 y.1 = .lt := by
  -- By induction on the entries: the key lands before the head, on it, or behind it.
  induction l with
  | nil => simp [insertEntry]
  | cons x rest ih =>
    have ⟨hx, hrest⟩ := List.pairwise_cons.1 h
    simp only [insertEntry]
    split
    · next hlt =>
      refine List.pairwise_cons.2 ⟨fun y hy => ?_, h⟩
      rcases List.mem_cons.1 hy with rfl | hy
      · exact hlt
      · exact Std.TransCmp.lt_trans hlt (hx y hy)
    · next heq =>
      have : k = x.1 := Std.LawfulEqOrd.eq_of_compare heq
      exact List.pairwise_cons.2 ⟨fun y hy => this ▸ hx y hy, hrest⟩
    · next hgt =>
      refine List.pairwise_cons.2 ⟨fun y hy => ?_, ih hrest⟩
      rcases fst_eq_or_mem_of_mem_insertEntry hy with rfl | hy
      · exact Std.OrientedCmp.gt_iff_lt.1 hgt
      · exact hx y hy

/-- A key behind all others is added at the end. -/
theorem insertEntry_eq_append [Std.TransOrd κ] {k : κ} {a : α} {l : List (κ × α)}
    (h : ∀ e ∈ l, compare e.1 k = .lt) : insertEntry k a l = l ++ [(k, a)] := by
  induction l with
  | nil => rfl
  | cons x rest ih =>
    have hgt : compare k x.1 = .gt := Std.OrientedCmp.gt_iff_lt.2 (h x List.mem_cons_self)
    rw [insertEntry, hgt, ih fun e he => h e (List.mem_cons_of_mem _ he)]
    rfl

variable [Std.TransOrd κ] [Std.LawfulEqOrd κ]

/-- Sets the value of a key. -/
def insert (m : SortedMap κ α) (k : κ) (a : α) : SortedMap κ α :=
  ⟨insertEntry k a m.entries, ascending_insertEntry k a m.ascending⟩

/-- The map of a list of entries; the last entry of a key wins. -/
def ofList (entries : List (κ × α)) : SortedMap κ α :=
  entries.foldl (fun m e => m.insert e.1 e.2) empty

omit [Std.TransOrd κ] in
/-- Keys are told apart by comparing them. -/
theorem compare_beq_eq [DecidableEq κ] (x y : κ) :
    (compare x y == .eq) = decide (x = y) := by
  by_cases h : x = y
  · simp [h, Std.ReflCmp.compare_self]
  · have : compare x y ≠ .eq := fun e => h (Std.LawfulEqOrd.eq_of_compare e)
    simp [h, this]

omit [Std.TransOrd κ] in
/-- A smaller key is another key. -/
theorem ne_of_compare_lt {x y : κ} (h : compare x y = .lt) : x ≠ y := by
  rintro rfl
  have heq : compare x x = .eq := Std.ReflCmp.compare_self
  rw [heq] at h
  cases h

omit [Std.TransOrd κ] in
/-- No key has two entries. -/
theorem nodup_keys (m : SortedMap κ α) : m.keys.Nodup :=
  List.Pairwise.map _ (fun _ _ h => ne_of_compare_lt h) m.ascending

/-- Insertion sets the value of its key and leaves those of all others. -/
theorem find?_insert [DecidableEq κ] (m : SortedMap κ α) (k k' : κ) (a : α) :
    (m.insert k a).find? k' = if k = k' then some a else m.find? k' := by
  obtain ⟨l, hl⟩ := m
  simp only [insert, find?, compare_beq_eq]
  clear hl
  -- The key lands before the head, on it, or in the rest.
  induction l with
  | nil => by_cases h : k = k' <;> simp [insertEntry, List.find?, h]
  | cons x rest ih =>
    simp only [insertEntry]
    split
    · by_cases h : k = k' <;> simp [List.find?, h]
    · next heq =>
      have : k = x.1 := Std.LawfulEqOrd.eq_of_compare heq
      by_cases h : k = k'
      · simp [List.find?, h]
      · simp [List.find?, h, this ▸ h]
    · next hgt =>
      by_cases hx : x.1 = k'
      · have : k ≠ k' := fun e => by
          rw [e, hx, @Std.ReflCmp.compare_self κ compare _ k'] at hgt
          cases hgt
        simp [List.find?, hx, this]
      · simpa [List.find?, hx] using ih

omit [Std.TransOrd κ] in
/-- The value of a key is the one of its entry. -/
theorem find?_eq_some_iff [DecidableEq κ] (m : SortedMap κ α) (k : κ) (a : α) :
    m.find? k = some a ↔ (k, a) ∈ m.entries := by
  obtain ⟨l, hl⟩ := m
  simp only [find?, compare_beq_eq]
  induction l with
  | nil => simp
  | cons e rest ih =>
    obtain ⟨hfirst, hrest⟩ := List.pairwise_cons.1 hl
    by_cases he : e.1 = k
    · -- No other entry has the key of the first one.
      have hnot : (k, a) ∉ rest := fun hmem => ne_of_compare_lt (hfirst _ hmem) he
      obtain ⟨k', a'⟩ := e
      subst he
      simp [List.find?, hnot, eq_comm]
    · have hne : (k, a) ≠ e := fun h => he (h ▸ rfl)
      simp [List.find?, he, hne, ih hrest]

/-- The value of a key among entries whose values are functions of their keys. -/
theorem find?_ofList [DecidableEq κ] {value : κ → α} {l : List (κ × α)}
    (h : ∀ e ∈ l, e.2 = value e.1) (k : κ) :
    (ofList l).find? k = if k ∈ l.map (·.1) then some (value k) else none := by
  have hfold : ∀ (l : List (κ × α)) (m : SortedMap κ α), (∀ e ∈ l, e.2 = value e.1) →
      (l.foldl (fun m e => m.insert e.1 e.2) m).find? k =
        if k ∈ l.map (·.1) then some (value k) else m.find? k := by
    intro l
    induction l with
    | nil => simp
    | cons e rest ih =>
      intro m hl
      rw [List.foldl_cons, ih _ fun e' he' => hl e' (List.mem_cons_of_mem _ he'), find?_insert]
      by_cases hrest : k ∈ rest.map (·.1)
      · simp only [List.map_cons, List.mem_cons, hrest, or_true, if_true]
      · by_cases he : e.1 = k
        · simp [hrest, he, hl e List.mem_cons_self]
        · have he' : ¬ k = e.1 := fun h => he h.symm
          simp [hrest, he, he']
  exact hfold l empty h

/-- A map is made of its own entries. -/
theorem ofList_entries (m : SortedMap κ α) : ofList m.entries = m := by
  -- Generalised over the entries that are in the map already; each new key is above them.
  have hfold : ∀ (rest before : List (κ × α))
      (h : before.Pairwise fun x y => compare x.1 y.1 = .lt)
      (h' : (before ++ rest).Pairwise fun x y => compare x.1 y.1 = .lt),
      rest.foldl (fun (m : SortedMap κ α) e => m.insert e.1 e.2) ⟨before, h⟩ =
        ⟨before ++ rest, h'⟩ := by
    intro rest
    induction rest with
    | nil =>
      intro before h h'
      simp
    | cons e rest ih =>
      intro before h h'
      have hlt : ∀ x ∈ before, compare x.1 e.1 = .lt := fun x hx =>
        (List.pairwise_append.1 h').2.2 x hx e List.mem_cons_self
      have hinsert : insert ⟨before, h⟩ e.1 e.2 =
          ⟨before ++ [e], insertEntry_eq_append hlt ▸ ascending_insertEntry e.1 e.2 h⟩ := by
        simp only [insert, insertEntry_eq_append hlt]
      rw [List.foldl_cons, hinsert, ih (before ++ [e]) _ (by simpa using h')]
      simp
  exact hfold m.entries [] .nil m.ascending

end SortedMap

end ArithWatch
