import ArithWatch.IR.Format
import ArithWatch.Proofs.Json.RoundTrip

namespace ArithWatch.Json

/-!
# Encodings that read back

* `Json.Codec` says that an encoding and a decoder fit together on the values with some property.
* `Codec.nat32`, `Codec.text`, `Codec.word` and `Codec.oneOf` are single values; `Codec.list`,
  `Codec.pair` and `Codec.option` put encodings together.
* `record?_object` reads the fields of a record back, `Codec.get?_eq` and `Codec.getD?_eq` one of
  them; `Codec.of_get?` and `Codec.of_getD?` are what decoded fields have in common.
* `Codec.entries?_object` reads the entries of a map back, and `Codec.of_entries?` is what decoded
  entries have in common.
-/

/-- Every value is written plainly, those with `p` read back, and what is read has `p`. -/
structure Codec {α : Type} (encode : α → Json) (decode? : Json → Option α) (p : α → Prop) :
    Prop where
  plain : ∀ a, (encode a).Plain
  decode?_encode : ∀ {a}, p a → decode? (encode a) = some a
  of_decode? : ∀ {j a}, decode? j = some a → p a

/-! ### Single values -/

namespace Codec

/-- Naturals below a bound are written in decimal and read back. -/
theorem natBelow (bound : Nat) : Codec nat (natBelow? bound) (· < bound) where
  plain := .nat
  decode?_encode {n} hn := by
    show (if n < bound then some n else none) = some n
    rw [if_pos hn]
  of_decode? {j n} h := by
    unfold natBelow? at h
    split at h
    · split at h
      · next hn =>
        cases h
        exact hn
      · cases h
    · cases h

theorem nat32 : Codec nat nat32? (· < UInt32.size) := natBelow _

/-- Texts are written as literals. -/
theorem text : Codec Json.text text? fun _ => True where
  plain := .text
  decode?_encode {s} _ := JsonLiteral.text?_ofText s
  of_decode? _ := trivial

/-- Words of 64 bits are written as naturals. -/
theorem word : Codec (fun w : UInt64 => nat w.toNat) word? fun _ => True where
  plain w := .nat w.toNat
  decode?_encode {w} _ := by
    rw [word?, (natBelow UInt64.size).decode?_encode w.toNat_lt_size, Option.map_some,
      UInt64.ofNat_toNat]
  of_decode? _ := trivial

/-- A choice among names. -/
theorem oneOf {α : Type} {name : α → String} {values : List α} (hmem : ∀ a, a ∈ values)
    (hname : ∀ a b, name a = name b → a = b) :
    Codec (fun a => Json.text (name a)) (oneOf? name values) fun _ => True where
  plain a := .text (name a)
  decode?_encode {a} _ := by
    have hvariant : unitVariant? (Json.text (name a)) = some (name a) := by
      rw [unitVariant?, Json.text, variant?, JsonLiteral.text?_ofText]
      rfl
    rw [oneOf?, hvariant, Option.bind_some]
    cases hfind : values.find? fun b => name b == name a with
    | none => exact absurd (List.find?_eq_none.1 hfind a (hmem a)) (by simp)
    | some b =>
      have hb : (name b == name a) = true := List.find?_some (p := fun b => name b == name a) hfind
      rw [hname b a (beq_iff_eq.1 hb)]
  of_decode? _ := trivial

/-! ### Encodings made of others -/

variable {α β : Type} {encode : α → Json} {decode? : Json → Option α} {p : α → Prop}
  {encode' : β → Json} {decode'? : Json → Option β} {q : β → Prop}

/-- An encoding of the content of a wrapper. -/
theorem wrap (h : Codec encode decode? p) {make : α → β} {get : β → α}
    (hmake : ∀ b, make (get b) = b) (hget : ∀ a, get (make a) = a) :
    Codec (fun b => encode (get b)) (fun j => (decode? j).map make) fun b => p (get b) where
  plain b := h.plain (get b)
  decode?_encode {b} hb := by rw [h.decode?_encode hb, Option.map_some, hmake]
  of_decode? {j b} hb := by
    obtain ⟨a, ha, rfl⟩ := Option.map_eq_some_iff.1 hb
    rw [hget]
    exact h.of_decode? ha

/-- Lists are arrays of what their elements are written as. -/
theorem list (h : Codec encode decode? p) :
    Codec (Json.list encode) (list? decode?) fun as => ∀ a ∈ as, p a where
  plain as := .list fun a _ => h.plain a
  decode?_encode {as} has := by
    show (as.map encode).mapM decode? = some as
    induction as with
    | nil => rfl
    | cons a rest ih =>
      rw [List.map_cons, List.mapM_cons, h.decode?_encode (has a List.mem_cons_self),
        ih fun b hb => has b (List.mem_cons_of_mem _ hb)]
      rfl
  of_decode? {j as} has := by
    cases j with
    | arr items =>
      change items.mapM decode? = some as at has
      induction items generalizing as with
      | nil =>
        cases has
        exact fun a ha => absurd ha List.not_mem_nil
      | cons v rest ih =>
        rw [List.mapM_cons] at has
        obtain ⟨a, ha, has⟩ := Option.bind_eq_some_iff.1 has
        obtain ⟨as', hrest, has⟩ := Option.bind_eq_some_iff.1 has
        cases has
        exact List.forall_mem_cons.2 ⟨h.of_decode? ha, ih hrest⟩
    | _ => cases has

/-- Pairs are arrays of two. -/
theorem pair (h : Codec encode decode? p) (h' : Codec encode' decode'? q) :
    Codec (fun ab : α × β => .arr [encode ab.1, encode' ab.2]) (pair? decode? decode'?)
      fun ab => p ab.1 ∧ q ab.2 where
  plain ab := .arr (by simp [h.plain, h'.plain])
  decode?_encode {ab} hab := by
    rw [pair?, h.decode?_encode hab.1, h'.decode?_encode hab.2]
    rfl
  of_decode? {j ab} hab := by
    unfold pair? at hab
    split at hab
    · obtain ⟨a, ha, hab⟩ := Option.bind_eq_some_iff.1 hab
      obtain ⟨b, hb, hab⟩ := Option.bind_eq_some_iff.1 hab
      cases hab
      exact ⟨h.of_decode? ha, h'.of_decode? hb⟩
    · cases hab

/-- A value that may be missing, written as `null`; no value is written so. -/
theorem option (h : Codec encode decode? p) (hnull : ∀ a, encode a ≠ .null) :
    Codec (ofOption encode) (nullable? decode?) fun o => ∀ a ∈ o, p a where
  plain o := .ofOption h.plain o
  decode?_encode {o} ho := by
    cases o with
    | none => rfl
    | some a =>
      rw [ofOption, nullable?]
      · rw [h.decode?_encode (ho a rfl), Option.map_some]
      · exact hnull a
  of_decode? {j o} ho := by
    unfold nullable? at ho
    split at ho
    · cases ho
      exact fun a ha => absurd ha (by simp)
    · obtain ⟨a, ha, rfl⟩ := Option.map_eq_some_iff.1 ho
      rintro b ⟨⟩
      exact h.of_decode? ha

end Codec

/-! ### Records -/

@[simp] theorem plain_object_cons {name : String} {v : Json} {members : List (String × Json)}
    (h : v.Plain) (h' : ∀ e ∈ members, e.2.Plain) : (object ((name, v) :: members)).Plain :=
  .object (List.forall_mem_cons.2 ⟨h, h'⟩)

/-- Are the names those of different fields, with every field that may not be missing? -/
def covers (fields : List Field) (names : List String) : Bool :=
  decide names.Nodup && names.all (fun name => fields.any (·.name == name))
    && fields.all fun f => f.presence != .always || names.contains f.name

/-- The members of an object make a record, if they are known and differ in name. -/
theorem foldlM_addMember? {fields : List Field} {members : List (String × Json)} {record : Record}
    (hnodup : ((record ++ members).map (·.1)).Nodup)
    (hknown : ∀ e ∈ members, fields.any (·.name == e.1) = true) :
    (members.map fun (name, value) => (JsonLiteral.ofText name, value)).foldlM
      (addMember? fields) record = some (record ++ members) := by
  induction members generalizing record with
  | nil => simp
  | cons e rest ih =>
    have hnew : record.any (·.1 == e.1) = false := by
      rw [List.map_append, List.nodup_append] at hnodup
      refine List.any_eq_false.2 fun x hx heq => ?_
      exact hnodup.2.2 x.1 (List.mem_map_of_mem hx) e.1 (by simp) (beq_iff_eq.1 heq)
    have hadd : addMember? fields record (.ofText e.1, e.2) = some (record ++ [e]) := by
      rw [addMember?, JsonLiteral.text?_ofText]
      simp [hknown e List.mem_cons_self, hnew]
    -- The first member is new, and the rest are added to the record it makes.
    rw [List.map_cons, List.foldlM_cons, hadd]
    show (rest.map fun (name, value) => (JsonLiteral.ofText name, value)).foldlM
      (addMember? fields) (record ++ [e]) = _
    rw [ih (by simpa using hnodup) fun x hx => hknown x (List.mem_cons_of_mem _ hx),
      List.append_assoc]
    rfl

/-- **A record reads back**: its fields are those that were written. -/
theorem record?_object {fields : List Field} {members : List (String × Json)}
    (h : covers fields (members.map (·.1)) = true) :
    record? fields (object members) = some members := by
  simp only [covers, Bool.and_eq_true, decide_eq_true_eq, List.all_eq_true, Bool.or_eq_true] at h
  obtain ⟨⟨hnodup, hknown⟩, hgiven⟩ := h
  show ((members.map fun (name, value) => (JsonLiteral.ofText name, value)).foldlM
    (addMember? fields) []).filter _ = _
  rw [foldlM_addMember? (by simpa using hnodup) fun e he => hknown e.1 (List.mem_map_of_mem he),
    List.nil_append, Option.filter_some, if_pos]
  refine List.all_eq_true.2 fun f hf => ?_
  rcases hgiven f hf with hmay | hname
  · rw [hmay, Bool.true_or]
  · obtain ⟨e, he, hfe⟩ := List.mem_map.1 (List.contains_iff_mem.1 hname)
    rw [Bool.or_eq_true]
    exact .inr (List.any_eq_true.2 ⟨e, he, beq_iff_eq.2 hfe⟩)

namespace Codec

variable {α : Type} {encode : α → Json} {decode? : Json → Option α} {p : α → Prop} {r : Record}
  {name : String} {a : α}

/-- A field that is there reads back. -/
theorem get?_eq (h : Codec encode decode? p) (ha : p a)
    (hr : r.lookup name = some (encode a)) : r.get? name decode? = some a := by
  rw [Record.get?, hr, Option.bind_some, h.decode?_encode ha]

/-- A field that may be missing reads back: it is left out only where the value is the default. -/
theorem getD?_eq (h : Codec encode decode? p) (ha : p a) {default : α}
    (hr : r.lookup name = some (encode a) ∨ r.lookup name = none ∧ a = default) :
    r.getD? name decode? default = some a := by
  rcases hr with hr | ⟨hr, rfl⟩
  · rw [Record.getD?, hr]
    exact h.decode?_encode ha
  · rw [Record.getD?, hr]

/-- What is read from a field is of the domain. -/
theorem of_get? (h : Codec encode decode? p) (ha : r.get? name decode? = some a) : p a := by
  obtain ⟨v, -, hv⟩ := Option.bind_eq_some_iff.1 ha
  exact h.of_decode? hv

/-- So is what is read from a field with a default. -/
theorem of_getD? (h : Codec encode decode? p) {default : α} (hdefault : p default)
    (ha : r.getD? name decode? default = some a) : p a := by
  unfold Record.getD? at ha
  split at ha
  · cases ha
    exact hdefault
  · exact h.of_decode? ha

end Codec

/-! ### Maps -/

namespace Codec

variable {α κ : Type} {encode : α → Json} {decode? : Json → Option α} {p : α → Prop}
  {key? : JsonLiteral → Option κ} {l : List (κ × α)}

/-- The entries of a map read back, in the order in which they are written. -/
theorem entries?_object (h : Codec encode decode? p) (key : κ → String)
    (hl : ∀ e ∈ l, key? (.ofText (key e.1)) = some e.1 ∧ p e.2) :
    entries? key? decode? (object (l.map fun (k, a) => (key k, encode a))) = some l := by
  rw [object, entries?, List.map_map]
  induction l with
  | nil => rfl
  | cons e rest ih =>
    obtain ⟨hkey, hvalue⟩ := hl e List.mem_cons_self
    rw [List.map_cons, List.mapM_cons, ih fun x hx => hl x (List.mem_cons_of_mem _ hx)]
    show ((key? (.ofText (key e.1))).bind fun k => (decode? (encode e.2)).bind fun a => some (k, a))
      >>= _ = _
    rw [hkey, h.decode?_encode hvalue]
    rfl

/-- Every entry that is read has a name that stands for its key. -/
theorem of_entries? (h : Codec encode decode? p) {j : Json}
    (hl : entries? key? decode? j = some l) : ∀ e ∈ l, (∃ name, key? name = some e.1) ∧ p e.2 := by
  cases j with
  | obj members =>
    rw [entries?] at hl
    induction members generalizing l with
    | nil =>
      cases hl
      exact fun e he => absurd he List.not_mem_nil
    | cons member rest ih =>
      simp only [List.mapM_cons, Option.bind_eq_bind, Option.bind_eq_some_iff, Option.pure_def,
        Option.some.injEq] at hl
      obtain ⟨x, ⟨k, hk, a, ha, rfl⟩, l', hl', rfl⟩ := hl
      exact List.forall_mem_cons.2 ⟨⟨⟨_, hk⟩, h.of_decode? ha⟩, ih hl'⟩
  | _ => cases hl

end Codec

end ArithWatch.Json
