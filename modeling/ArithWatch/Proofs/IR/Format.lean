import ArithWatch.Proofs.IR.WrapFlags
import ArithWatch.Proofs.Json.Codec

namespace ArithWatch

open Json (Codec)

/-!
# The JSON form reads back

* `Fits32` says of a type, a constant, …, a module that every number in it fits 32 bits.
* `codec` says of each of them that its JSON form reads back exactly where it fits.
* `Module.parse?_render` puts the form and its text together.
-/

/-! ### Identifiers and types -/

/-- Ids are numbers of 32 bits. -/
theorem ValueId.codec : Codec toJson ofJson? (·.index < UInt32.size) :=
  Codec.nat32.wrap (fun _ => rfl) fun _ => rfl

theorem BlockId.codec : Codec toJson ofJson? (·.index < UInt32.size) :=
  Codec.nat32.wrap (fun _ => rfl) fun _ => rfl

theorem InstId.codec : Codec toJson ofJson? (·.index < UInt32.size) :=
  Codec.nat32.wrap (fun _ => rfl) fun _ => rfl

namespace Json

/-- The only member of an object is a choice with a content. -/
theorem variant?_object (name : String) (v : Json) :
    variant? (object [(name, v)]) = some (name, some v) := by
  show (JsonLiteral.ofText name).text?.map (·, some v) = _
  rw [JsonLiteral.text?_ofText]
  rfl

/-- A text is a variant without contents. -/
theorem variant?_text (name : String) : variant? (text name) = some (name, none) := by
  show (JsonLiteral.ofText name).text?.map (·, none) = _
  rw [JsonLiteral.text?_ofText]
  rfl

/-- So its name is found. -/
theorem unitVariant?_text (name : String) : unitVariant? (text name) = some name := by
  rw [unitVariant?, variant?_text]

end Json

/-- The width fits 32 bits. -/
def Ty.Fits32 : Ty → Prop
  | .int width => width < UInt32.size
  | .f32 | .f64 => True

/-- **Types** are written by name, with the width of an integer. -/
theorem Ty.codec : Codec toJson ofJson? Fits32 where
  plain ty := by cases ty <;> simp [toJson, Json.Plain.nat, Json.Plain.text]
  decode?_encode {ty} h := by
    cases ty with
    | int width =>
      rw [toJson, ofJson?, Json.variant?_object]
      simp only [Codec.nat32.decode?_encode h, Option.map_some]
    | f32 =>
      rw [toJson, ofJson?, Json.variant?_text, Json.unitVariant?_text]
      rfl
    | f64 =>
      rw [toJson, ofJson?, Json.variant?_text, Json.unitVariant?_text]
      rfl
  of_decode? {j ty} h := by
    unfold ofJson? at h
    -- Only an object with the one variant, and the two names, are types.
    split at h
    · obtain ⟨width, hwidth, rfl⟩ := Option.map_eq_some_iff.1 h
      exact Codec.nat32.of_decode? hwidth
    · obtain ⟨-, -, rfl⟩ := Option.map_eq_some_iff.1 h
      trivial
    · obtain ⟨-, -, rfl⟩ := Option.map_eq_some_iff.1 h
      trivial
    · cases h

/-- The type fits 32 bits. -/
def Constant.Fits32 (c : Constant) : Prop := c.ty.Fits32

/-- **Constants** are a type and bits. -/
theorem Constant.codec : Codec toJson ofJson? Fits32 where
  plain c := by simp [toJson, Ty.codec.plain, Codec.word.plain]
  decode?_encode {c} h := by
    rw [toJson, ofJson?, Json.record?_object (by simp [Json.covers, fields]), Option.bind_eq_bind,
      Option.bind_some, Ty.codec.get?_eq h rfl, Codec.word.get?_eq trivial rfl]
    rfl
  of_decode? {j c} h := by
    simp only [ofJson?, Option.bind_eq_bind, Option.bind_eq_some_iff, Option.pure_def,
      Option.some.injEq] at h
    obtain ⟨r, -, ty, hty, bits, -, rfl⟩ := h
    exact Ty.codec.of_get? hty

/-- The number or the type fits 32 bits. -/
def Operand.Fits32 : Operand → Prop
  | .value v => v.index < UInt32.size
  | .const c => c.Fits32

/-- **Operands** are values or constants. -/
theorem Operand.codec : Codec toJson ofJson? Fits32 where
  plain op := by cases op <;> simp [toJson, ValueId.codec.plain, Constant.codec.plain]
  decode?_encode {op} h := by
    cases op with
    | value v =>
      rw [toJson, ofJson?, Json.variant?_object]
      simp only [ValueId.codec.decode?_encode h, Option.map_some]
    | const c =>
      rw [toJson, ofJson?, Json.variant?_object]
      simp only [Constant.codec.decode?_encode h, Option.map_some]
  of_decode? {j op} h := by
    unfold ofJson? at h
    split at h
    · obtain ⟨v, hv, rfl⟩ := Option.map_eq_some_iff.1 h
      exact ValueId.codec.of_decode? hv
    · obtain ⟨c, hc, rfl⟩ := Option.map_eq_some_iff.1 h
      exact Constant.codec.of_decode? hc
    · cases h

/-- No operand is written as nothing, so that an absent one can be told from it. -/
theorem Operand.toJson_ne_null (op : Operand) : op.toJson ≠ .null := by
  cases op <;> exact Json.noConfusion

/-! ### Operators and flags -/

/-- **Operators** are written by name. -/
theorem BinOp.codec : Codec toJson ofJson? fun _ => True :=
  .oneOf (fun op => by cases op <;> decide) fun a b => by
    cases a <;> cases b <;> simp [name]

theorem IntPredicate.codec : Codec toJson ofJson? fun _ => True :=
  .oneOf (fun pred => by cases pred <;> decide) fun a b => by
    cases a <;> cases b <;> simp [mnemonic]

theorem FloatPredicate.codec : Codec toJson ofJson? fun _ => True :=
  .oneOf (fun pred => by cases pred <;> decide) fun a b => by
    cases a <;> cases b <;> simp [mnemonic]

/-- **Flags** are a text of their own, with unknown ones kept. -/
theorem WrapFlags.codec : Codec toJson ofJson? fun _ => True where
  plain f := .text f.text
  decode?_encode {f} _ := by
    rw [toJson, ofJson?, Codec.text.decode?_encode trivial, Option.bind_some, parse?_text]
  of_decode? _ := trivial

/-! ### Instructions -/

/-- Line and column fit 32 bits. -/
structure Location.Fits32 (l : Location) : Prop where
  line : l.line < UInt32.size
  column : l.column < UInt32.size

/-- **Locations** are a file, a line and a column. -/
theorem Location.codec : Codec toJson ofJson? Fits32 where
  plain l := by simp [toJson, Json.Plain.nat, Json.Plain.text]
  decode?_encode {l} h := by
    rw [toJson, ofJson?, Json.record?_object (by simp [Json.covers, fields]), Option.bind_eq_bind,
      Option.bind_some, Codec.text.get?_eq trivial rfl, Codec.nat32.get?_eq h.line rfl,
      Codec.nat32.get?_eq h.column rfl]
    rfl
  of_decode? {j l} h := by
    simp only [ofJson?, Option.bind_eq_bind, Option.bind_eq_some_iff, Option.pure_def,
      Option.some.injEq] at h
    obtain ⟨r, -, file, -, line, hline, column, hcolumn, rfl⟩ := h
    exact ⟨Codec.nat32.of_get? hline, Codec.nat32.of_get? hcolumn⟩

namespace Location

/-- A location may be absent. -/
theorem optional : Codec (Json.ofOption toJson) (Json.nullable? ofJson?)
    fun location => ∀ l ∈ location, l.Fits32 :=
  codec.option fun _ => Json.noConfusion

/-- An optional location reads back from a record that has its member. -/
theorem ofRecord?_eq {location : Option Location} (h : ∀ l ∈ location, l.Fits32)
    {r : Json.Record} (hr : r.lookup "debug_loc" = location.map toJson) :
    ofRecord? r = some location := by
  refine optional.getD?_eq h ?_
  cases location with
  | none => exact .inr ⟨hr, rfl⟩
  | some l => exact .inl hr

/-- A location that is found in a record fits. -/
theorem of_ofRecord? {location : Option Location} {r : Json.Record}
    (h : ofRecord? r = some location) : ∀ l ∈ location, l.Fits32 :=
  optional.of_getD? (fun _ hl => absurd hl (by simp)) h

/-- The member of a location is plain, if it is there. -/
theorem plain_member (location : Option Location) : ∀ e ∈ member location, e.2.Plain := by
  cases location with
  | none => exact fun e he => absurd he List.not_mem_nil
  | some l => simp [member, codec.plain]

end Location

/-- The numbers of operands and blocks fit 32 bits. -/
def InstKind.Fits32 : InstKind → Prop
  | .binary _ lhs rhs _ | .icmp _ lhs rhs | .fcmp _ lhs rhs => lhs.Fits32 ∧ rhs.Fits32
  | .phi incoming => ∀ input ∈ incoming, input.1.index < UInt32.size ∧ input.2.Fits32

namespace InstKind

/-- The inputs of a phi are pairs of a block and an operand. -/
theorem incoming_codec : Codec (Json.list incomingJson) incomingOfJson? fun incoming =>
    ∀ input ∈ incoming, input.1.index < UInt32.size ∧ input.2.Fits32 :=
  (BlockId.codec.pair Operand.codec).list

/-- Both sides of an operation are plain. -/
theorem plain_sides (lhs rhs : Operand) : ∀ e ∈ sides lhs rhs, e.2.Plain := by
  simp [sides, Operand.codec.plain]

/-- So is a binary operation, with its flags or without. -/
theorem plain_binary (op : BinOp) (lhs rhs : Operand) (flags : WrapFlags) :
    (toJson (.binary op lhs rhs flags)).Plain := by
  have hflags : ∀ e ∈ (if flags.isEmpty then [] else [("flags", flags.toJson)] :
      List (String × Json)), e.2.Plain := by
    split <;> simp [WrapFlags.codec.plain]
  refine .object (List.forall_mem_singleton.2 (.object ?_))
  rw [List.cons_append]
  refine List.forall_mem_cons.2 ⟨BinOp.codec.plain op, ?_⟩
  exact List.forall_mem_append.2 ⟨plain_sides lhs rhs, hflags⟩

/-- A binary operation is read back, also without flags, which are not written then. -/
theorem ofJson?_binary (op : BinOp) {lhs rhs : Operand} (hlhs : lhs.Fits32) (hrhs : rhs.Fits32)
    (flags : WrapFlags) :
    ofJson? (toJson (.binary op lhs rhs flags)) = some (.binary op lhs rhs flags) := by
  have hcovers : Json.covers binaryFields ((("op", op.toJson) :: sides lhs rhs ++
      if flags.isEmpty then [] else [("flags", flags.toJson)]).map (·.1)) = true := by
    split <;> simp [Json.covers, binaryFields, sides]
  have hflags : Json.Record.getD? (("op", op.toJson) :: sides lhs rhs ++
      if flags.isEmpty then [] else [("flags", flags.toJson)]) "flags" WrapFlags.ofJson?
        .empty = some flags := by
    refine WrapFlags.codec.getD?_eq trivial ?_
    split
    · next hempty => exact .inr ⟨rfl, congrArg WrapFlags.mk (beq_iff_eq.1 hempty)⟩
    · exact .inl rfl
  rw [toJson, ofJson?, Json.variant?_object]
  simp only
  rw [Json.record?_object hcovers, Option.bind_eq_bind, Option.bind_some,
    BinOp.codec.get?_eq (a := op) trivial rfl, Operand.codec.get?_eq hlhs rfl,
    Operand.codec.get?_eq hrhs rfl, hflags]
  rfl

/-- **Kinds of instructions** are variants with the fields of the kind. -/
theorem codec : Codec toJson ofJson? Fits32 where
  plain kind := by
    cases kind with
    | binary op lhs rhs flags => exact plain_binary op lhs rhs flags
    | icmp pred lhs rhs =>
      simp [toJson, IntPredicate.codec.plain, sides, Operand.codec.plain]
    | fcmp pred lhs rhs =>
      simp [toJson, FloatPredicate.codec.plain, sides, Operand.codec.plain]
    | phi incoming => simp [toJson, incoming_codec.plain]
  decode?_encode {kind} h := by
    cases kind with
    | binary op lhs rhs flags => exact ofJson?_binary op h.1 h.2 flags
    | icmp pred lhs rhs =>
      rw [toJson, ofJson?, Json.variant?_object]
      simp only
      rw [Json.record?_object (by simp [Json.covers, compareFields, sides]), Option.bind_eq_bind,
        Option.bind_some, IntPredicate.codec.get?_eq (a := pred) trivial rfl,
        Operand.codec.get?_eq h.1 rfl, Operand.codec.get?_eq h.2 rfl]
      rfl
    | fcmp pred lhs rhs =>
      rw [toJson, ofJson?, Json.variant?_object]
      simp only
      rw [Json.record?_object (by simp [Json.covers, compareFields, sides]), Option.bind_eq_bind,
        Option.bind_some, FloatPredicate.codec.get?_eq (a := pred) trivial rfl,
        Operand.codec.get?_eq h.1 rfl, Operand.codec.get?_eq h.2 rfl]
      rfl
    | phi incoming =>
      rw [toJson, ofJson?, Json.variant?_object]
      simp only
      rw [Json.record?_object (by simp [Json.covers, phiFields]), Option.bind_eq_bind,
        Option.bind_some, incoming_codec.get?_eq h rfl]
      rfl
  of_decode? {j kind} h := by
    -- A kind that is read comes from one of the four variants.
    unfold ofJson? at h
    split at h
    · simp only [Option.bind_eq_bind, Option.bind_eq_some_iff, Option.pure_def,
        Option.some.injEq] at h
      obtain ⟨r, -, op, -, lhs, hlhs, rhs, hrhs, flags, -, rfl⟩ := h
      exact ⟨Operand.codec.of_get? hlhs, Operand.codec.of_get? hrhs⟩
    · simp only [Option.bind_eq_bind, Option.bind_eq_some_iff, Option.pure_def,
        Option.some.injEq] at h
      obtain ⟨r, -, pred, -, lhs, hlhs, rhs, hrhs, rfl⟩ := h
      exact ⟨Operand.codec.of_get? hlhs, Operand.codec.of_get? hrhs⟩
    · simp only [Option.bind_eq_bind, Option.bind_eq_some_iff, Option.pure_def,
        Option.some.injEq] at h
      obtain ⟨r, -, pred, -, lhs, hlhs, rhs, hrhs, rfl⟩ := h
      exact ⟨Operand.codec.of_get? hlhs, Operand.codec.of_get? hrhs⟩
    · simp only [Option.bind_eq_bind, Option.bind_eq_some_iff, Option.pure_def,
        Option.some.injEq] at h
      obtain ⟨r, -, incoming, hincoming, rfl⟩ := h
      exact incoming_codec.of_get? hincoming
    · cases h

end InstKind

/-- Every number of the instruction fits 32 bits. -/
structure Inst.Fits32 (i : Inst) : Prop where
  id : i.id.index < UInt32.size
  result : i.result.index < UInt32.size
  kind : i.kind.Fits32
  location : ∀ l ∈ i.location, l.Fits32

/-- **Instructions** leave their location out if there is none. -/
theorem Inst.codec : Codec toJson ofJson? Fits32 where
  plain i := .object <| List.forall_mem_append.2
    ⟨by simp [InstId.codec.plain, ValueId.codec.plain, InstKind.codec.plain],
      Location.plain_member i.location⟩
  decode?_encode {i} h := by
    have hcovers : Json.covers fields (([("id", i.id.toJson), ("result", i.result.toJson),
        ("kind", i.kind.toJson)] ++ Location.member i.location).map (·.1)) = true := by
      cases i.location <;> simp [Json.covers, fields, Location.member, Location.field]
    -- The location is the last member, if it is there at all.
    have hlocation : Location.ofRecord? ([("id", i.id.toJson), ("result", i.result.toJson),
        ("kind", i.kind.toJson)] ++ Location.member i.location) = some i.location := by
      refine Location.ofRecord?_eq h.location ?_
      cases i.location <;> rfl
    rw [toJson, ofJson?, Json.record?_object hcovers, Option.bind_eq_bind, Option.bind_some,
      InstId.codec.get?_eq h.id rfl, ValueId.codec.get?_eq h.result rfl,
      InstKind.codec.get?_eq h.kind rfl, hlocation]
    rfl
  of_decode? {j i} h := by
    simp only [ofJson?, Option.bind_eq_bind, Option.bind_eq_some_iff, Option.pure_def,
      Option.some.injEq] at h
    obtain ⟨r, -, id, hid, result, hresult, kind, hkind, location, hlocation, rfl⟩ := h
    exact ⟨InstId.codec.of_get? hid, ValueId.codec.of_get? hresult, InstKind.codec.of_get? hkind,
      Location.of_ofRecord? hlocation⟩

/-! ### Terminators and blocks -/

/-- The numbers of the targets and of the operand fit 32 bits. -/
def Exit.Fits32 : Exit → Prop
  | .br target => target.index < UInt32.size
  | .condBr cond thenTarget elseTarget =>
    cond.Fits32 ∧ thenTarget.index < UInt32.size ∧ elseTarget.index < UInt32.size
  | .ret value => ∀ op ∈ value, op.Fits32
  | .unreachable => True

namespace Exit

/-- A return may have no value. -/
theorem returned : Codec (Json.ofOption Operand.toJson) (Json.nullable? Operand.ofJson?)
    fun value => ∀ op ∈ value, op.Fits32 :=
  Operand.codec.option Operand.toJson_ne_null

/-- **Exits** are variants. -/
theorem codec : Codec toJson ofJson? Fits32 where
  plain e := by
    cases e with
    | br target => simp [toJson, BlockId.codec.plain]
    | condBr cond thenTarget elseTarget =>
      simp [toJson, BlockId.codec.plain, Operand.codec.plain]
    | ret value => simp [toJson, returned.plain]
    | unreachable => exact .text _
  decode?_encode {e} h := by
    cases e with
    | br target =>
      rw [toJson, ofJson?, Json.variant?_object]
      simp only
      rw [Json.record?_object (by simp [Json.covers, brFields]), Option.bind_eq_bind,
        Option.bind_some, BlockId.codec.get?_eq h rfl]
      rfl
    | condBr cond thenTarget elseTarget =>
      rw [toJson, ofJson?, Json.variant?_object]
      simp only
      rw [Json.record?_object (by simp [Json.covers, condBrFields]), Option.bind_eq_bind,
        Option.bind_some, Operand.codec.get?_eq h.1 rfl, BlockId.codec.get?_eq h.2.1 rfl,
        BlockId.codec.get?_eq h.2.2 rfl]
      rfl
    | ret value =>
      rw [toJson, ofJson?, Json.variant?_object]
      simp only
      rw [Json.record?_object (by simp [Json.covers, retFields]), Option.bind_eq_bind,
        Option.bind_some, returned.getD?_eq h (.inl rfl)]
      rfl
    | unreachable =>
      rw [toJson, ofJson?, Json.variant?_text, Json.unitVariant?_text]
      rfl
  of_decode? {j e} h := by
    -- An exit that is read comes from one of the four variants.
    unfold ofJson? at h
    split at h
    · simp only [Option.bind_eq_bind, Option.bind_eq_some_iff, Option.pure_def,
        Option.some.injEq] at h
      obtain ⟨r, -, target, htarget, rfl⟩ := h
      exact BlockId.codec.of_get? htarget
    · simp only [Option.bind_eq_bind, Option.bind_eq_some_iff, Option.pure_def,
        Option.some.injEq] at h
      obtain ⟨r, -, cond, hcond, thenTarget, hthen, elseTarget, helse, rfl⟩ := h
      exact ⟨Operand.codec.of_get? hcond, BlockId.codec.of_get? hthen,
        BlockId.codec.of_get? helse⟩
    · simp only [Option.bind_eq_bind, Option.bind_eq_some_iff, Option.pure_def,
        Option.some.injEq] at h
      obtain ⟨r, -, value, hvalue, rfl⟩ := h
      exact returned.of_getD? (fun _ hop => absurd hop (by simp)) hvalue
    · obtain ⟨-, -, rfl⟩ := Option.map_eq_some_iff.1 h
      trivial
    · cases h

end Exit

/-- Every number of the terminator fits 32 bits. -/
structure Terminator.Fits32 (t : Terminator) : Prop where
  exit : t.exit.Fits32
  location : ∀ l ∈ t.location, l.Fits32

namespace Terminator

/-- **Metadata** is an object from keys to texts. -/
theorem metadata_codec : Codec metadataJson metadataOfJson? fun _ => True where
  plain m := by
    refine .object fun e he => ?_
    obtain ⟨entry, -, rfl⟩ := List.mem_map.1 he
    exact .text _
  decode?_encode {m} _ := by
    have hentries : Json.entries? JsonLiteral.text? Json.text? (metadataJson m) =
        some m.entries :=
      Codec.text.entries?_object id fun e _ => ⟨JsonLiteral.text?_ofText e.1, trivial⟩
    rw [metadataOfJson?, hentries, Option.map_some, SortedMap.ofList_entries]
  of_decode? _ := trivial

/-- The member of metadata, which is left out where there is none. -/
theorem metadata_member (t : Terminator) :
    (if t.metadata.isEmpty then [] else [("metadata", metadataJson t.metadata)] :
        List (String × Json)) = [("metadata", metadataJson t.metadata)] ∨
      (if t.metadata.isEmpty then [] else [("metadata", metadataJson t.metadata)] :
        List (String × Json)) = [] ∧ t.metadata = ∅ := by
  split
  · next h =>
    refine .inr ⟨rfl, ?_⟩
    obtain ⟨exit, location, ⟨entries, hentries⟩⟩ := t
    have : entries = [] := List.isEmpty_iff.1 h
    subst this
    rfl
  · exact .inl rfl

/-- **Terminators** leave out an absent location and empty metadata. -/
theorem codec : Codec toJson ofJson? Fits32 where
  plain t := by
    have hmetadata : ∀ e ∈ (if t.metadata.isEmpty then [] else
        [("metadata", metadataJson t.metadata)] : List (String × Json)), e.2.Plain := by
      split <;> simp [metadata_codec.plain]
    refine .object (List.forall_mem_append.2 ⟨?_, hmetadata⟩)
    exact List.forall_mem_append.2 ⟨by simp [Exit.codec.plain], Location.plain_member t.location⟩
  decode?_encode {t} h := by
    obtain ⟨more, hmore⟩ : ∃ more : List (String × Json), more =
      if t.metadata.isEmpty then [] else [("metadata", metadataJson t.metadata)] := ⟨_, rfl⟩
    -- Four shapes: with and without a location, with and without metadata.
    have hcases := t.metadata_member
    rw [← hmore] at hcases
    have hcovers : Json.covers fields (([("op", t.exit.toJson)] ++ Location.member t.location
        ++ more).map (·.1)) = true := by
      rcases hcases with hcases | ⟨hcases, -⟩ <;> rw [hcases] <;>
        cases t.location <;> simp [Json.covers, fields, Location.member, Location.field]
    have hlocation : Location.ofRecord? ([("op", t.exit.toJson)] ++ Location.member t.location
        ++ more) = some t.location := by
      refine Location.ofRecord?_eq h.location ?_
      rcases hcases with hcases | ⟨hcases, -⟩ <;> rw [hcases] <;> cases t.location <;> rfl
    have hmetadata : Json.Record.getD? ([("op", t.exit.toJson)] ++ Location.member t.location
        ++ more) "metadata" metadataOfJson? ∅ = some t.metadata := by
      refine metadata_codec.getD?_eq trivial ?_
      rcases hcases with hcases | ⟨hcases, hempty⟩
      · rw [hcases]
        exact .inl (by cases t.location <;> rfl)
      · rw [hcases]
        exact .inr ⟨by cases t.location <;> rfl, hempty⟩
    rw [toJson, ← hmore, ofJson?, Json.record?_object hcovers, Option.bind_eq_bind,
      Option.bind_some, Exit.codec.get?_eq h.exit rfl, hlocation, hmetadata]
    rfl
  of_decode? {j t} h := by
    simp only [ofJson?, Option.bind_eq_bind, Option.bind_eq_some_iff, Option.pure_def,
      Option.some.injEq] at h
    obtain ⟨r, -, exit, hexit, location, hlocation, metadata, -, rfl⟩ := h
    exact ⟨Exit.codec.of_get? hexit, Location.of_ofRecord? hlocation⟩

end Terminator

/-- Every number of the block fits 32 bits. -/
structure Block.Fits32 (b : Block) : Prop where
  id : b.id.index < UInt32.size
  insts : ∀ i ∈ b.insts, i.Fits32
  term : ∀ t ∈ b.term, t.Fits32

namespace Block

/-- A block may be open. -/
theorem closing : Codec (Json.ofOption Terminator.toJson) (Json.nullable? Terminator.ofJson?)
    fun term => ∀ t ∈ term, t.Fits32 :=
  Terminator.codec.option fun _ => Json.noConfusion

/-- **Blocks**. -/
theorem codec : Codec toJson ofJson? Fits32 where
  plain b := by
    simp [toJson, BlockId.codec.plain, Inst.codec.list.plain, closing.plain, Json.Plain.text]
  decode?_encode {b} h := by
    rw [toJson, ofJson?, Json.record?_object (by simp [Json.covers, fields]), Option.bind_eq_bind,
      Option.bind_some, BlockId.codec.get?_eq h.id rfl, Codec.text.get?_eq trivial rfl,
      Inst.codec.list.get?_eq h.insts rfl, closing.getD?_eq h.term (.inl rfl)]
    rfl
  of_decode? {j b} h := by
    simp only [ofJson?, Option.bind_eq_bind, Option.bind_eq_some_iff, Option.pure_def,
      Option.some.injEq] at h
    obtain ⟨r, -, id, hid, name, -, insts, hinsts, term, hterm, rfl⟩ := h
    exact ⟨BlockId.codec.of_get? hid, Inst.codec.list.of_get? hinsts,
      closing.of_getD? (fun _ ht => absurd ht (by simp)) hterm⟩

end Block

/-! ### Functions and modules -/

/-- Every number of the function fits 32 bits. -/
structure Function.Fits32 (f : Function) : Prop where
  params : ∀ v ∈ f.params, v.index < UInt32.size
  returnType : ∀ ty ∈ f.returnType, ty.Fits32
  valueTypes : ∀ ty ∈ f.valueTypes.toList, ty.Fits32
  blocks : ∀ b ∈ f.blocks.toList, b.Fits32
  layout : ∀ b ∈ f.layout, b.index < UInt32.size
  entry : f.entry.index < UInt32.size
  instCount : f.instCount < UInt32.size

namespace Function

/-- A function may return nothing. -/
theorem returning : Codec (Json.ofOption Ty.toJson) (Json.nullable? Ty.ofJson?)
    fun returnType => ∀ ty ∈ returnType, ty.Fits32 :=
  Ty.codec.option fun ty => by cases ty <;> exact Json.noConfusion

/-- **Functions**. -/
theorem codec : Codec toJson ofJson? Fits32 where
  plain f := by
    simp [toJson, ValueId.codec.list.plain, returning.plain, Ty.codec.list.plain,
      Block.codec.list.plain, BlockId.codec.list.plain, BlockId.codec.plain, Json.Plain.text,
      Json.Plain.nat]
  decode?_encode {f} h := by
    rw [toJson, ofJson?, Json.record?_object (by simp [Json.covers, fields]), Option.bind_eq_bind,
      Option.bind_some, Codec.text.get?_eq trivial rfl, ValueId.codec.list.get?_eq h.params rfl,
      returning.getD?_eq h.returnType (.inl rfl), Ty.codec.list.get?_eq h.valueTypes rfl,
      Block.codec.list.get?_eq h.blocks rfl, BlockId.codec.list.get?_eq h.layout rfl,
      BlockId.codec.get?_eq h.entry rfl, Codec.nat32.get?_eq h.instCount rfl]
    rfl
  of_decode? {j f} h := by
    simp only [ofJson?, Option.bind_eq_bind, Option.bind_eq_some_iff, Option.pure_def,
      Option.some.injEq] at h
    obtain ⟨r, -, name, -, params, hparams, returnType, hreturn, valueTypes, hvalues, blocks,
      hblocks, layout, hlayout, entry, hentry, instCount, hcount, rfl⟩ := h
    exact ⟨ValueId.codec.list.of_get? hparams,
      returning.of_getD? (fun _ hty => absurd hty (by simp)) hreturn,
      Ty.codec.list.of_get? hvalues, Block.codec.list.of_get? hblocks,
      BlockId.codec.list.of_get? hlayout, BlockId.codec.of_get? hentry,
      Codec.nat32.of_get? hcount⟩

end Function

/-- Every number of the module fits 32 bits. -/
def Module.Fits32 (m : Module) : Prop := ∀ f ∈ m.functions, f.Fits32

namespace Module

/-- **Modules**. -/
theorem codec : Codec toJson ofJson? Fits32 where
  plain m := by simp [toJson, Function.codec.list.plain, Json.Plain.text]
  decode?_encode {m} h := by
    rw [toJson, ofJson?, Json.record?_object (by simp [Json.covers, fields]), Option.bind_eq_bind,
      Option.bind_some, Codec.text.get?_eq trivial rfl, Function.codec.list.get?_eq h rfl]
    rfl
  of_decode? {j m} h := by
    simp only [ofJson?, Option.bind_eq_bind, Option.bind_eq_some_iff, Option.pure_def,
      Option.some.injEq] at h
    obtain ⟨r, -, name, -, functions, hfunctions, rfl⟩ := h
    exact Function.codec.list.of_get? hfunctions

/-- **A module reads back from its text**, in either style and with blanks behind it. -/
theorem parse?_render {m : Module} (h : m.Fits32) (style : JsonStyle) {blanks : List Char}
    (hblanks : ∀ c ∈ blanks, JsonToken.isSpace c = true) :
    (Json.parse? ((m.toJson.render style).toList ++ blanks)).bind ofJson? = some m := by
  rw [(codec.plain m).parse?_render style hblanks, Option.bind_some, codec.decode?_encode h]

end Module

end ArithWatch
