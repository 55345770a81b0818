import ArithWatch.IR.WrapFlags

namespace ArithWatch

/-!
# The text of wrap flags reads back

* `WrapFlags.parts` lists the parts of the text: the names of the set bits and the nameless rest.
* `WrapFlags.foldlM_splitBars`: cutting the text at its bars gives the parts, up to blanks.
* `WrapFlags.parse?_text`: the text of any flags reads back.
-/

/-! ### Blanks around a text -/

namespace Text

/-- A text that neither starts nor ends with a blank is not cut. -/
theorem trim_eq_self {cs : List Char} (hfirst : ∀ c ∈ cs.head?, isBlank c = false)
    (hlast : ∀ c ∈ cs.getLast?, isBlank c = false) : trim cs = cs := by
  have hdrop : ∀ {l : List Char}, (∀ c ∈ l.head?, isBlank c = false) → l.dropWhile isBlank = l := by
    intro l hl
    cases l with
    | nil => rfl
    | cons c rest => rw [List.dropWhile_cons, hl c rfl, if_neg Bool.false_ne_true]
  rw [trim, hdrop hfirst, hdrop (by rwa [List.head?_reverse]), List.reverse_reverse]

/-- Blanks around a text without blanks are cut off. -/
theorem trim_append {front cs back : List Char} (hfront : ∀ c ∈ front, isBlank c = true)
    (hne : cs ≠ []) (hcs : ∀ c ∈ cs, isBlank c = false) (hback : ∀ c ∈ back, isBlank c = true) :
    trim (front ++ (cs ++ back)) = cs := by
  have hkeep : ∀ {l l' : List Char}, l ≠ [] → (∀ c ∈ l, isBlank c = false) →
      (l ++ l').dropWhile isBlank = l ++ l' := by
    intro l l' hl hblank
    obtain ⟨c, rest, rfl⟩ := List.exists_cons_of_ne_nil hl
    rw [List.cons_append, List.dropWhile_cons, hblank c List.mem_cons_self,
      if_neg Bool.false_ne_true]
  rw [trim, List.dropWhile_append_of_pos hfront, hkeep hne hcs, List.reverse_append,
    List.dropWhile_append_of_pos fun c hc => hback c (List.mem_reverse.1 hc)]
  have hrest : (cs.reverse ++ []).dropWhile isBlank = cs.reverse ++ [] :=
    hkeep (by simpa using hne) fun c hc => hcs c (List.mem_reverse.1 hc)
  rw [List.append_nil] at hrest
  rw [hrest, List.reverse_reverse]

end Text

namespace WrapFlags

/-! ### Cutting at bars -/

/-- A text without a bar is one part. -/
theorem splitBars_eq {cs : List Char} (h : ∀ c ∈ cs, c ≠ '|') : splitBars cs = [cs] := by
  induction cs with
  | nil => rfl
  | cons c rest ih =>
    rw [splitBars, if_neg (h c List.mem_cons_self), ih fun x hx => h x (List.mem_cons_of_mem _ hx)]

/-- The first bar ends the first part. -/
theorem splitBars_append {cs rest : List Char} (h : ∀ c ∈ cs, c ≠ '|') :
    splitBars (cs ++ '|' :: rest) = cs :: splitBars rest := by
  induction cs with
  | nil => rw [List.nil_append, splitBars, if_pos rfl]
  | cons c cs ih =>
    rw [List.cons_append, splitBars, if_neg (h c List.mem_cons_self),
      ih fun x hx => h x (List.mem_cons_of_mem _ hx)]

/-- A part of a text: no blank and no bar in it. -/
structure Solid (part : List Char) : Prop where
  ne_nil : part ≠ []
  not_blank : ∀ c ∈ part, Text.isBlank c = false
  not_bar : ∀ c ∈ part, c ≠ '|'

/-- A part of given letters is solid if each of them is. -/
theorem Solid.of_all {part : List Char} (hne : part ≠ [])
    (h : (part.all fun c => !Text.isBlank c && c != '|') = true) : Solid part := by
  have hall : ∀ c ∈ part, Text.isBlank c = false ∧ c ≠ '|' := by simpa using h
  exact ⟨hne, fun c hc => (hall c hc).1, fun c hc => (hall c hc).2⟩

/-- Nothing is cut off a part. -/
theorem Solid.trim_eq_self {part : List Char} (h : Solid part) : Text.trim part = part :=
  Text.trim_eq_self (fun c hc => h.not_blank c (List.mem_of_head? hc))
    fun c hc => h.not_blank c (List.mem_of_getLast? hc)

/-- Blanks around a part are trimmed. -/
theorem parsePart?_append {front part back : List Char} (h : Solid part)
    (hfront : ∀ c ∈ front, Text.isBlank c = true) (hback : ∀ c ∈ back, Text.isBlank c = true) :
    parsePart? (front ++ (part ++ back)) = parsePart? part := by
  rw [parsePart?, parsePart?, Text.trim_append hfront h.ne_nil h.not_blank hback, h.trim_eq_self]

/-- Cutting at the bars gives the parts again, up to blanks around them. -/
theorem foldlM_splitBars {part : List Char} {rest : List (List Char)}
    (h : ∀ p ∈ part :: rest, Solid p) {front : List Char}
    (hfront : ∀ c ∈ front, Text.isBlank c = true ∧ c ≠ '|') (f : WrapFlags) :
    (splitBars (front ++ [' ', '|', ' '].intercalate (part :: rest))).foldlM
        (fun f part => (parsePart? part).map f.union) f =
      (part :: rest).foldlM (fun f part => (parsePart? part).map f.union) f := by
  have hpart := h part List.mem_cons_self
  -- By induction on the parts; each leaves a blank before the next bar.
  induction rest generalizing part front f with
  | nil =>
    have hbar : ∀ c ∈ front ++ part, c ≠ '|' := fun c hc =>
      (List.mem_append.1 hc).elim (fun hc => (hfront c hc).2) (hpart.not_bar c)
    have hparse : parsePart? (front ++ (part ++ [])) = parsePart? part :=
      parsePart?_append hpart (fun c hc => (hfront c hc).1) fun c hc => absurd hc List.not_mem_nil
    rw [List.append_nil] at hparse
    rw [List.intercalate_singleton, splitBars_eq hbar, List.foldlM_cons, List.foldlM_cons, hparse]
  | cons next rest ih =>
    have hbar : ∀ c ∈ front ++ (part ++ [' ']), c ≠ '|' := by
      intro c hc
      rcases List.mem_append.1 hc with hc | hc
      · exact (hfront c hc).2
      · rcases List.mem_append.1 hc with hc | hc
        · exact hpart.not_bar c hc
        · rw [List.mem_singleton.1 hc]
          decide
    have hsplit : splitBars (front ++ [' ', '|', ' '].intercalate (part :: next :: rest)) =
        (front ++ (part ++ [' '])) ::
          splitBars ([' '] ++ [' ', '|', ' '].intercalate (next :: rest)) := by
      rw [List.intercalate_cons_cons, ← splitBars_append hbar]
      simp
    have hspace : ∀ c ∈ [' '], Text.isBlank c = true ∧ c ≠ '|' :=
      List.forall_mem_singleton.2 (by decide)
    rw [hsplit, List.foldlM_cons, parsePart?_append hpart (fun c hc => (hfront c hc).1)
      fun c hc => (hspace c hc).1, List.foldlM_cons]
    congr 1
    funext g
    exact ih (fun p hp => h p (List.mem_cons_of_mem _ hp)) hspace g
      (h next (List.mem_cons_of_mem _ List.mem_cons_self))

/-- Parts with bars between them start and end with characters of theirs. -/
theorem ends_intercalate {part : List Char} {rest : List (List Char)}
    (h : ∀ p ∈ part :: rest, Solid p) :
    (∀ c ∈ ([' ', '|', ' '].intercalate (part :: rest)).head?, Text.isBlank c = false) ∧
      ∀ c ∈ ([' ', '|', ' '].intercalate (part :: rest)).getLast?, Text.isBlank c = false := by
  have hpart := h part List.mem_cons_self
  obtain ⟨c, cs, rfl⟩ := List.exists_cons_of_ne_nil hpart.ne_nil
  constructor
  · rw [List.intercalate_cons_cons_left]
    rintro _ ⟨⟩
    exact hpart.not_blank c List.mem_cons_self
  -- The last character is that of the last part.
  · induction rest generalizing c cs with
    | nil =>
      rw [List.intercalate_singleton]
      exact fun d hd => hpart.not_blank d (List.mem_of_getLast? hd)
    | cons next rest ih =>
      have hnext := h next (List.mem_cons_of_mem _ List.mem_cons_self)
      obtain ⟨d, ds, rfl⟩ := List.exists_cons_of_ne_nil hnext.ne_nil
      have hlast := ih d ds (fun p hp => h p (List.mem_cons_of_mem _ hp)) hnext
      have hne : [' ', '|', ' '].intercalate ((d :: ds) :: rest) ≠ [] := by
        rw [List.intercalate_cons_cons_left]
        exact List.cons_ne_nil _ _
      rwa [List.intercalate_cons_cons, List.getLast?_append,
        List.getLast?_eq_some_getLast hne, Option.some_or, ← List.getLast?_eq_some_getLast hne]

/-! ### The parts of a text -/

/-- The nameless bits in hexadecimal. -/
def hexPart (f : WrapFlags) : List Char := '0' :: 'x' :: Nat.toDigits 16 f.nameless.toNat

/-- The names of the set bits, and the nameless rest if there is one. -/
def parts (f : WrapFlags) : List (List Char) :=
  (if f.contains nsw then [['N', 'S', 'W']] else [])
    ++ ((if f.contains nuw then [['N', 'U', 'W']] else [])
      ++ if f.nameless = 0 then [] else [f.hexPart])

/-- The flags are written as their parts with bars between them. -/
theorem toList_text (f : WrapFlags) : f.text.toList = [' ', '|', ' '].intercalate f.parts := by
  rw [text, String.toList_intercalate]
  by_cases hnsw : f.contains nsw = true <;> by_cases hnuw : f.contains nuw = true <;>
    by_cases hrest : f.nameless = 0 <;>
    simp [parts, named, hexPart, hnsw, hnuw, hrest, Text.hexText]

/-- A byte has one or two hexadecimal digits. -/
theorem toDigits_byte {n : Nat} (h : n < 256) : Nat.toDigits 16 n =
    if n < 16 then [n.digitChar] else [(n / 16).digitChar, (n % 16).digitChar] := by
  rw [Nat.toDigits_eq_if (by decide)]
  split
  · rfl
  · rw [Nat.toDigits_of_lt_base (by omega)]
    rfl

/-- Hexadecimal digits are neither blanks nor bars nor signs, and are read back. -/
theorem digitChar_hex : ∀ d < 16, Text.isBlank d.digitChar = false ∧ d.digitChar ≠ '|' ∧
    d.digitChar ≠ '+' ∧ Text.hexDigit? d.digitChar = some d := by
  decide

/-- The part of the bits without a name is solid. -/
theorem solid_hexPart (f : WrapFlags) : Solid f.hexPart := by
  have hdigits : ∀ c ∈ Nat.toDigits 16 f.nameless.toNat, ∃ d < 16, c = d.digitChar := by
    have hlt := f.nameless.toNat_lt
    rw [toDigits_byte hlt]
    intro c hc
    split at hc
    · exact ⟨_, ‹_›, List.mem_singleton.1 hc⟩
    · simp only [List.mem_cons, List.not_mem_nil, or_false] at hc
      rcases hc with rfl | rfl
      · exact ⟨_, by omega, rfl⟩
      · exact ⟨_, Nat.mod_lt _ (by decide), rfl⟩
  have hall : ∀ c ∈ f.hexPart, Text.isBlank c = false ∧ c ≠ '|' := by
    intro c hc
    simp only [hexPart, List.mem_cons] at hc
    rcases hc with rfl | rfl | hc
    · decide
    · decide
    · obtain ⟨d, hd, rfl⟩ := hdigits c hc
      exact ⟨(digitChar_hex d hd).1, (digitChar_hex d hd).2.1⟩
  exact ⟨List.cons_ne_nil _ _, fun c hc => (hall c hc).1, fun c hc => (hall c hc).2⟩

/-- So are the names. -/
theorem solid_parts (f : WrapFlags) : ∀ p ∈ f.parts, Solid p := by
  have hnsw : Solid ['N', 'S', 'W'] := .of_all (by decide) (by decide)
  have hnuw : Solid ['N', 'U', 'W'] := .of_all (by decide) (by decide)
  intro p hp
  simp only [parts, List.mem_append] at hp
  rcases hp with hp | hp | hp
  · split at hp
    · exact List.mem_singleton.1 hp ▸ hnsw
    · exact absurd hp List.not_mem_nil
  · split at hp
    · exact List.mem_singleton.1 hp ▸ hnuw
    · exact absurd hp List.not_mem_nil
  · split at hp
    · exact absurd hp List.not_mem_nil
    · exact List.mem_singleton.1 hp ▸ f.solid_hexPart

/-! ### The value of a text -/

/-- A byte reads back from its hexadecimal digits. -/
theorem parseHex?_toDigits {n : Nat} (h : n < 256) :
    parseHex? (Nat.toDigits 16 n) = some (UInt8.ofNat n) := by
  -- The digits of a byte stay below 256 while they are read.
  have happend : ∀ m d, d < 16 → 16 * m + d < 256 →
      appendHex? m d.digitChar = some (16 * m + d) := by
    intro m d hd hlt
    rw [appendHex?, (digitChar_hex d hd).2.2.2, Option.bind_some, if_pos hlt]
  have hparse : ∀ {d : Nat} {rest : List Char}, d < 16 →
      parseHex? (d.digitChar :: rest) =
        ((d.digitChar :: rest).foldlM appendHex? 0).map UInt8.ofNat := by
    intro d rest hd
    unfold parseHex?
    split
    · next heq =>
      split at heq
      · next hplus => exact absurd (List.cons.inj hplus).1 (digitChar_hex d hd).2.2.1
      · cases heq
    · next heq =>
      split at heq
      · next hplus => exact absurd (List.cons.inj hplus).1 (digitChar_hex d hd).2.2.1
      · rfl
  rw [toDigits_byte h]
  split
  · next hn =>
    rw [hparse hn]
    simp [happend 0 n hn (by omega)]
  · rw [hparse (by omega)]
    have hhigh := happend 0 (n / 16) (by omega) (by omega)
    have hlow := happend (16 * 0 + n / 16) (n % 16) (by omega) (by omega)
    simp only [List.foldlM_cons, List.foldlM_nil, hhigh, hlow, Option.bind_eq_bind,
      Option.bind_some, Option.pure_def, Option.map_some]
    rw [show 16 * (16 * 0 + n / 16) + n % 16 = n by omega]

/-- The bits without a name are read back from their part. -/
theorem parsePart?_hexPart (f : WrapFlags) : parsePart? f.hexPart = some ⟨f.nameless⟩ := by
  have htrim := f.solid_hexPart.trim_eq_self
  rw [parsePart?, htrim]
  show (parseHex? (Nat.toDigits 16 f.nameless.toNat)).map WrapFlags.mk = _
  rw [parseHex?_toDigits f.nameless.toNat_lt, UInt8.ofNat_toNat, Option.map_some]

/-- The flags are made of their named bits and the nameless rest. -/
theorem union_eq_self (f : WrapFlags) :
    ((if f.contains nsw then nsw else empty).union
      (if f.contains nuw then nuw else empty)).union ⟨f.nameless⟩ = f := by
  have hbits : ∀ n : Fin 256,
      (((if (WrapFlags.mk (.ofFin n)).contains nsw then nsw else empty).union
        (if (WrapFlags.mk (.ofFin n)).contains nuw then nuw else empty)).union
          ⟨(WrapFlags.mk (.ofFin n)).nameless⟩) = ⟨.ofFin n⟩ := by
    decide +kernel
  exact hbits f.bits.toFin

/-- No flags add nothing. -/
theorem empty_union (f : WrapFlags) : empty.union f = f := by
  simp [union, empty]

/-- Nothing is added by no flags. -/
theorem union_empty (f : WrapFlags) : f.union empty = f := by
  simp [union, empty]

/-- The parts of the text have the flags as their values. -/
theorem foldlM_parts (f : WrapFlags) :
    f.parts.foldlM (fun f part => (parsePart? part).map f.union) empty = some f := by
  have hnsw : parsePart? ['N', 'S', 'W'] = some nsw := by decide +kernel
  have hnuw : parsePart? ['N', 'U', 'W'] = some nuw := by decide +kernel
  have hrest : ∀ g : WrapFlags, ((if f.nameless = 0 then [] else [f.hexPart]).foldlM
      (fun f part => (parsePart? part).map f.union) g) = some (g.union ⟨f.nameless⟩) := by
    intro g
    split
    · next h =>
      rw [h]
      exact congrArg some g.union_empty.symm
    · simp [f.parsePart?_hexPart]
  have hself := f.union_eq_self
  rw [parts]
  by_cases hs : f.contains nsw = true <;> by_cases hu : f.contains nuw = true <;>
    simp only [hs, hu, if_true, if_false, Bool.false_eq_true] at hself ⊢ <;>
    simp [hnsw, hnuw, hrest, empty_union, union_empty] at hself ⊢ <;>
    exact hself

/-- **The text of flags reads back.** -/
theorem parse?_text (f : WrapFlags) : parse? f.text = some f := by
  have hfold := foldlM_parts f
  cases hparts : f.parts with
  | nil =>
    rw [hparts] at hfold
    rw [parse?, toList_text, hparts]
    exact hfold
  | cons part rest =>
    have hsolid : ∀ p ∈ part :: rest, Solid p := hparts ▸ f.solid_parts
    -- The text starts and ends with a letter, so trimming leaves it.
    obtain ⟨hfirst, hlast⟩ := ends_intercalate hsolid
    have hne : [' ', '|', ' '].intercalate (part :: rest) ≠ [] := by
      obtain ⟨c, cs, rfl⟩ := List.exists_cons_of_ne_nil (hsolid part List.mem_cons_self).ne_nil
      rw [List.intercalate_cons_cons_left]
      exact List.cons_ne_nil _ _
    have hnone : ∀ c ∈ ([] : List Char), Text.isBlank c = true ∧ c ≠ '|' := nofun
    have hsplit := foldlM_splitBars hsolid hnone empty
    rw [parse?, toList_text, hparts, Text.trim_eq_self hfirst hlast]
    split
    · next h => exact absurd h hne
    · rw [List.nil_append] at hsplit
      rw [hsplit, ← hparts, hfold]

end WrapFlags

end ArithWatch
