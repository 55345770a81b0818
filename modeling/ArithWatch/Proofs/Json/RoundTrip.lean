import ArithWatch.Proofs.Json.Lexemes

namespace ArithWatch

/-!
# JSON text reads back

* `Json.tokens` lists the tokens of a value, and `Json.ofTokens?_tokens` makes the value of them
  again.
* `Json.Plain` singles out the values that programs write: every number is natural and every string
  is the literal of a text.
* `Json.Plain.scans`: the text of a plain value gives its tokens, in either style.
* `Json.Plain.parse?_render`: the text of a plain value reads back.
-/

namespace Json

/-! ### The tokens of a value -/

mutual

/-- The tokens of a value. -/
def tokens : Json → List JsonToken
  | .null => [.null]
  | .bool b => [.bool b]
  | .num n => [.num n]
  | .str l => [.str l]
  | .arr [] => [.openArray, .closeArray]
  | .arr (item :: items) =>
    .openArray :: (tokens item ++ (itemTokens items ++ [.closeArray]))
  | .obj [] => [.openObject, .closeObject]
  | .obj ((name, value) :: members) =>
    .openObject :: .str name :: .colon :: (tokens value ++ (memberTokens members ++ [.closeObject]))

/-- The tokens of the items after the first one. -/
def itemTokens : List Json → List JsonToken
  | [] => []
  | item :: items => .comma :: (tokens item ++ itemTokens items)

/-- The tokens of the members after the first one. -/
def memberTokens : List (JsonLiteral × Json) → List JsonToken
  | [] => []
  | (name, value) :: members =>
    .comma :: .str name :: .colon :: (tokens value ++ memberTokens members)

end

/-- The first item of an array starts like any other. -/
theorem foldlM_step_firstItem (v : Json) (stack : List JsonFrame) :
    v.tokens.foldlM JsonReader.step (.firstItem stack) =
      v.tokens.foldlM JsonReader.step (.value (.item [] :: stack)) := by
  cases v with
  | arr items => cases items <;> simp only [tokens] <;> rfl
  | obj members => rcases members with _ | ⟨⟨name, value⟩, members⟩ <;> simp only [tokens] <;> rfl
  | _ => simp only [tokens]; rfl

mutual

/-- The reader makes a value of its tokens, inside any open arrays and objects. -/
theorem foldlM_step_tokens (v : Json) (stack : List JsonFrame) :
    v.tokens.foldlM JsonReader.step (.value stack) = some (.close v stack) := by
  -- By recursion on the value, together with the lemmas on the rest of an array and of an object.
  match v with
  | .null | .bool _ | .num _ | .str _ | .arr [] | .obj [] => simp only [tokens]; rfl
  | .arr (item :: items) =>
    rw [tokens, List.foldlM_cons]
    show (item.tokens ++ (itemTokens items ++ [JsonToken.closeArray])).foldlM JsonReader.step
      (.firstItem stack) = _
    rw [List.foldlM_append, foldlM_step_firstItem, foldlM_step_tokens item]
    show (itemTokens items ++ [JsonToken.closeArray]).foldlM JsonReader.step
      (.afterItem [item] stack) = _
    rw [List.foldlM_append, foldlM_step_itemTokens items]
    show some (JsonReader.close (.arr (items.reverse ++ [item]).reverse) stack) = _
    rw [List.reverse_append, List.reverse_reverse]
    rfl
  | .obj ((name, value) :: members) =>
    rw [tokens]
    show (value.tokens ++ (memberTokens members ++ [JsonToken.closeObject])).foldlM JsonReader.step
      (.value (.member [] name :: stack)) = _
    rw [List.foldlM_append, foldlM_step_tokens value]
    show (memberTokens members ++ [JsonToken.closeObject]).foldlM JsonReader.step
      (.afterMember [(name, value)] stack) = _
    rw [List.foldlM_append, foldlM_step_memberTokens members]
    show some (JsonReader.close (.obj (members.reverse ++ [(name, value)]).reverse) stack) = _
    rw [List.reverse_append, List.reverse_reverse]
    rfl

/-- The items behind the first are collected, last one first. -/
theorem foldlM_step_itemTokens (items before : List Json) (stack : List JsonFrame) :
    (itemTokens items).foldlM JsonReader.step (.afterItem before stack) =
      some (.afterItem (items.reverse ++ before) stack) := by
  match items with
  | [] => simp only [itemTokens]; rfl
  | item :: rest =>
    rw [itemTokens, List.foldlM_cons]
    show (item.tokens ++ itemTokens rest).foldlM JsonReader.step
      (.value (.item before :: stack)) = _
    rw [List.foldlM_append, foldlM_step_tokens item]
    show (itemTokens rest).foldlM JsonReader.step (.afterItem (item :: before) stack) = _
    rw [foldlM_step_itemTokens rest, List.reverse_cons, List.append_assoc]
    rfl

/-- So are the members behind the first. -/
theorem foldlM_step_memberTokens (members before : List (JsonLiteral × Json))
    (stack : List JsonFrame) :
    (memberTokens members).foldlM JsonReader.step (.afterMember before stack) =
      some (.afterMember (members.reverse ++ before) stack) := by
  match members with
  | [] => simp only [memberTokens]; rfl
  | (name, value) :: rest =>
    rw [memberTokens]
    show (value.tokens ++ memberTokens rest).foldlM JsonReader.step
      (.value (.member before name :: stack)) = _
    rw [List.foldlM_append, foldlM_step_tokens value]
    show (memberTokens rest).foldlM JsonReader.step
      (.afterMember ((name, value) :: before) stack) = _
    rw [foldlM_step_memberTokens rest, List.reverse_cons, List.append_assoc]
    rfl

end

/-- The tokens of a value spell it. -/
theorem ofTokens?_tokens (v : Json) : ofTokens? v.tokens = some v := by
  rw [ofTokens?, foldlM_step_tokens]
  rfl

/-! ### Plain values -/

/-- Every number is natural, and every string is the literal of a text. -/
inductive Plain : Json → Prop
  | null : Plain .null
  | bool (b : Bool) : Plain (.bool b)
  | nat (n : Nat) : Plain (.nat n)
  | text (s : String) : Plain (.text s)
  | arr {items : List Json} : (∀ v ∈ items, Plain v) → Plain (.arr items)
  | object {members : List (String × Json)} : (∀ e ∈ members, Plain e.2) → Plain (.object members)

/-- A list of plain values is plain. -/
theorem Plain.list {α : Type} {encode : α → Json} {items : List α}
    (h : ∀ a ∈ items, (encode a).Plain) : (Json.list encode items).Plain := by
  refine .arr fun v hv => ?_
  obtain ⟨a, ha, rfl⟩ := List.mem_map.1 hv
  exact h a ha

/-- So is a value that may be absent. -/
theorem Plain.ofOption {α : Type} {encode : α → Json} (h : ∀ a, (encode a).Plain) (o : Option α) :
    (Json.ofOption encode o).Plain := by
  cases o with
  | none => exact .null
  | some a => exact h a

/-! ### The text of a plain value -/

section Text

open JsonLexer (Scans Continues)

variable (style : JsonStyle)

/-- A name and what follows it. -/
theorem scans_member (name : String) {cs : List Char} {tokens : List JsonToken}
    (h : Scans cs tokens) :
    Scans (JsonEscape.literal (.ofText name) ++ (style.colon ++ cs))
      (.str (.ofText name) :: .colon :: tokens) := by
  refine (JsonLexer.scans_literal name).append ?_
  cases style with
  | compact => exact .punctuation rfl h
  | pretty => exact .punctuation rfl (.blank rfl h)

/-- The items behind the first are rendered as their tokens. -/
theorem continues_renderItems {items : List Json}
    (h : ∀ v ∈ items, ∀ level, Scans (renderAt style level v) v.tokens) (level : Nat) :
    Continues (renderItems style level items) (itemTokens items) := by
  induction items with
  | nil =>
    rw [renderItems, itemTokens]
    exact JsonLexer.continues_nil
  | cons item rest ih =>
    rw [renderItems, itemTokens]
    refine .punctuation rfl (.blanks JsonLexer.isSpace_of_mem_newline ?_)
    exact (h item List.mem_cons_self level).append
      (ih fun v hv => h v (List.mem_cons_of_mem _ hv))

/-- So are the members behind the first. -/
theorem continues_renderMembers {members : List (String × Json)}
    (h : ∀ e ∈ members, ∀ level, Scans (renderAt style level e.2) e.2.tokens) (level : Nat) :
    Continues
      (renderMembers style level (members.map fun (name, value) => (.ofText name, value)))
      (memberTokens (members.map fun (name, value) => (.ofText name, value))) := by
  induction members with
  | nil =>
    rw [List.map_nil, renderMembers, memberTokens]
    exact JsonLexer.continues_nil
  | cons e rest ih =>
    rw [List.map_cons, renderMembers, memberTokens]
    refine .punctuation rfl (.blanks JsonLexer.isSpace_of_mem_newline (scans_member style e.1 ?_))
    exact (h e List.mem_cons_self level).append
      (ih fun e' he' => h e' (List.mem_cons_of_mem _ he'))

/-- The text of a plain value gives its tokens, at every level of nesting. -/
theorem Plain.scans {v : Json} (h : v.Plain) (level : Nat) :
    Scans (renderAt style level v) v.tokens := by
  -- By induction on the value; blanks and punctuation go between tokens in either style.
  induction h generalizing level with
  | null =>
    rw [renderAt, tokens]
    exact JsonLexer.scans_null
  | bool b =>
    rw [renderAt, tokens]
    exact JsonLexer.scans_bool b
  | nat n =>
    rw [Json.nat, renderAt, tokens]
    exact JsonLexer.scans_nat n
  | text s =>
    rw [Json.text, renderAt, tokens]
    exact JsonLexer.scans_literal s
  | @arr items _ ih =>
    cases items with
    | nil =>
      rw [renderAt, tokens]
      exact (Continues.punctuation rfl (Continues.punctuation rfl JsonLexer.scans_nil).scans).scans
    | cons item rest =>
      rw [renderAt, tokens]
      refine (Continues.punctuation rfl (.blanks JsonLexer.isSpace_of_mem_newline ?_)).scans
      refine (ih item List.mem_cons_self (level + 1)).append ?_
      refine (continues_renderItems style (fun v hv => ih v (List.mem_cons_of_mem _ hv))
        (level + 1)).append ?_
      exact (JsonLexer.continues_blanks JsonLexer.isSpace_of_mem_newline).append
        (.punctuation rfl JsonLexer.scans_nil)
  | @object members _ ih =>
    cases members with
    | nil =>
      rw [Json.object, List.map_nil, renderAt, tokens]
      exact (Continues.punctuation rfl (Continues.punctuation rfl JsonLexer.scans_nil).scans).scans
    | cons e rest =>
      rw [Json.object, List.map_cons, renderAt, tokens]
      refine (Continues.punctuation rfl (.blanks JsonLexer.isSpace_of_mem_newline
        (scans_member style e.1 ?_))).scans
      refine (ih e List.mem_cons_self (level + 1)).append ?_
      refine (continues_renderMembers style (fun e' he' => ih e' (List.mem_cons_of_mem _ he'))
        (level + 1)).append ?_
      exact (JsonLexer.continues_blanks JsonLexer.isSpace_of_mem_newline).append
        (.punctuation rfl JsonLexer.scans_nil)

/-- **Written text reads back.** The text of a plain value, in either style and with blanks behind
    it, spells the value. -/
theorem Plain.parse?_render {v : Json} (h : v.Plain) {blanks : List Char}
    (hblanks : ∀ c ∈ blanks, JsonToken.isSpace c = true) :
    parse? ((v.render style).toList ++ blanks) = some v := by
  obtain ⟨s, hs, hread⟩ := ((h.scans style 0).append (JsonLexer.continues_blanks hblanks)) []
  rw [List.append_nil, List.append_nil] at hread
  have hscan : JsonToken.scan? ((v.render style).toList ++ blanks) = some v.tokens := by
    rw [JsonToken.scan?, render, String.toList_ofList, hs, Option.bind_some, hread.finish?_eq,
      List.reverse_reverse]
  rw [parse?, hscan, Option.bind_some, ofTokens?_tokens]

end Text

end Json

end ArithWatch
