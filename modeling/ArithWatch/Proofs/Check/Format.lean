import ArithWatch.Check.Format
import ArithWatch.Proofs.IR.Format
import Mathlib

namespace ArithWatch

open Json (Codec)

/-!
# Reports read back

* `Json.key32?_ofText` says that a number reads back where it stands for the name of a member.
* `Fits32` says of a record, a site, …, a report that every number in it fits 32 bits, and `codec`
  that its JSON form reads back exactly where it fits.
* `parse?_render_toJson` says of modules and reports that their texts read back, in either style.
-/

/-! ### Numbers as names -/

namespace Json

/-- A number that fits 32 bits reads back from the name of a member. -/
theorem key32?_ofText {n : Nat} (h : n < UInt32.size) :
    key32? (.ofText (toString n)) = some n := by
  rw [key32?, JsonLiteral.text?_ofText, Option.bind_some, Nat.toString_eq_repr, Nat.toNat?_repr]
  exact if_pos ⟨h, rfl⟩

/-- A key that is read as a number fits 32 bits. -/
theorem lt_of_key32? {name : JsonLiteral} {n : Nat} (h : key32? name = some n) :
    n < UInt32.size := by
  unfold key32? at h
  split at h
  · split at h
    · next hn =>
      cases h
      exact hn.1
    · cases h
  · cases h

end Json

/-! ### Names -/

/-- The kinds of checks are written by name and read back. -/
theorem CheckKind.codec : Codec toJson ofJson? fun _ => True :=
  .oneOf (fun k => by cases k <;> decide) fun a b => by
    cases a <;> cases b <;> simp [tag]

theorem SkipReason.codec : Codec toJson ofJson? fun _ => True :=
  .oneOf (fun r => by cases r <;> decide) fun a b => by
    cases a <;> cases b <;> simp [name]

/-- Sites are numbered with 32 bits. -/
theorem SiteId.codec : Codec toJson ofJson? (·.index < UInt32.size) :=
  Codec.nat32.wrap (fun _ => rfl) fun _ => rfl

/-! ### Records and sites -/

/-- Every number of the record fits 32 bits. -/
structure CheckRecord.Fits32 (r : CheckRecord) : Prop where
  site : r.site.index < UInt32.size
  origin : r.origin.index < UInt32.size
  location : ∀ l ∈ r.location, l.Fits32

/-- Records are read back, with or without a location. -/
theorem CheckRecord.codec : Codec toJson ofJson? Fits32 where
  plain r := .object <| List.forall_mem_append.2
    ⟨by simp [CheckKind.codec.plain, SiteId.codec.plain, InstId.codec.plain],
      Location.plain_member r.location⟩
  decode?_encode {r} h := by
    -- A location that is absent is left out of the object.
    have hcovers : Json.covers fields (([("kind", r.kind.toJson), ("site", r.site.toJson),
        ("origin", r.origin.toJson)] ++ Location.member r.location).map (·.1)) = true := by
      cases r.location <;> simp [Json.covers, fields, Location.member, Location.field]
    have hlocation : Location.ofRecord? ([("kind", r.kind.toJson), ("site", r.site.toJson),
        ("origin", r.origin.toJson)] ++ Location.member r.location) = some r.location := by
      refine Location.ofRecord?_eq h.location ?_
      cases r.location <;> rfl
    rw [toJson, ofJson?, Json.record?_object hcovers, Option.bind_eq_bind, Option.bind_some,
      CheckKind.codec.get?_eq (a := r.kind) trivial rfl, SiteId.codec.get?_eq h.site rfl,
      InstId.codec.get?_eq h.origin rfl, hlocation]
    rfl
  of_decode? {j r} h := by
    simp only [ofJson?, Option.bind_eq_bind, Option.bind_eq_some_iff, Option.pure_def,
      Option.some.injEq] at h
    obtain ⟨members, -, kind, -, site, hsite, origin, horigin, location, hlocation, rfl⟩ := h
    exact ⟨SiteId.codec.of_get? hsite, InstId.codec.of_get? horigin,
      Location.of_ofRecord? hlocation⟩

/-- The blocks and the numbers of their records fit 32 bits. -/
def CheckMap.Fits32 (m : CheckMap) : Prop :=
  ∀ e ∈ m.entries, e.1.index < UInt32.size ∧ e.2.Fits32

namespace CheckMap

/-- What is made of a list of entries has no others. -/
theorem mem_of_mem_ofList {e : BlockId × CheckRecord} {l : List (BlockId × CheckRecord)}
    (h : e ∈ (SortedMap.ofList l).entries) : e ∈ l := by
  -- The fold starts from any map, for the induction.
  have hfold : ∀ (l : List (BlockId × CheckRecord)) (m : CheckMap),
      e ∈ (l.foldl (fun m e => m.insert e.1 e.2) m).entries → e ∈ m.entries ∨ e ∈ l := by
    intro l
    induction l with
    | nil => exact fun m h => .inl h
    | cons x rest ih =>
      intro m h
      rcases ih _ h with h | h
      · rcases SortedMap.fst_eq_or_mem_of_mem_insertEntry h with rfl | h
        · exact .inr List.mem_cons_self
        · exact .inl h
      · exact .inr (List.mem_cons_of_mem _ h)
  exact (hfold l SortedMap.empty h).resolve_left List.not_mem_nil

/-- A block reads back from the name of its record. -/
theorem blockOfName?_ofText {b : BlockId} (h : b.index < UInt32.size) :
    blockOfName? (.ofText (toString b.index)) = some b := by
  rw [blockOfName?, Json.key32?_ofText h, Option.map_some]

/-- A block that is read from a key fits 32 bits. -/
theorem lt_of_blockOfName? {name : JsonLiteral} {b : BlockId} (h : blockOfName? name = some b) :
    b.index < UInt32.size := by
  obtain ⟨n, hn, rfl⟩ := Option.map_eq_some_iff.1 h
  exact Json.lt_of_key32? hn

/-- The map is an object keyed by blocks, in decimal. -/
theorem codec : Codec toJson ofJson? Fits32 where
  plain m := by
    refine .object fun e he => ?_
    obtain ⟨entry, -, rfl⟩ := List.mem_map.1 he
    exact CheckRecord.codec.plain entry.2
  decode?_encode {m} h := by
    have hentries : Json.entries? blockOfName? CheckRecord.ofJson? m.toJson = some m.entries := by
      refine CheckRecord.codec.entries?_object (fun b : BlockId => toString b.index) fun e he => ?_
      obtain ⟨hblock, hrecord⟩ := h e he
      exact ⟨blockOfName?_ofText hblock, hrecord⟩
    rw [ofJson?, hentries, Option.map_some, SortedMap.ofList_entries]
  of_decode? {j m} h := by
    obtain ⟨l, hl, rfl⟩ := Option.map_eq_some_iff.1 h
    intro e he
    obtain ⟨⟨name, hname⟩, hrecord⟩ := CheckRecord.codec.of_entries? hl e (mem_of_mem_ofList he)
    exact ⟨lt_of_blockOfName? hname, hrecord⟩

end CheckMap

/-- Every number of the decision block fits 32 bits. -/
structure Check.Fits32 (c : Check) : Prop where
  predicate : c.predicate.index < UInt32.size
  block : c.block.index < UInt32.size

/-- Checks are read back. -/
theorem Check.codec : Codec toJson ofJson? Fits32 where
  plain c := by
    simp [toJson, CheckKind.codec.plain, ValueId.codec.plain, BlockId.codec.plain]
  decode?_encode {c} h := by
    rw [toJson, ofJson?, Json.record?_object (by simp [Json.covers, fields]), Option.bind_eq_bind,
      Option.bind_some, CheckKind.codec.get?_eq (a := c.kind) trivial rfl,
      ValueId.codec.get?_eq h.predicate rfl, BlockId.codec.get?_eq h.block rfl]
    rfl
  of_decode? {j c} h := by
    simp only [ofJson?, Option.bind_eq_bind, Option.bind_eq_some_iff, Option.pure_def,
      Option.some.injEq] at h
    obtain ⟨r, -, kind, -, predicate, hpredicate, block, hblock, rfl⟩ := h
    exact ⟨ValueId.codec.of_get? hpredicate, BlockId.codec.of_get? hblock⟩

/-- Every number of the site fits 32 bits. -/
structure CheckSite.Fits32 (s : CheckSite) : Prop where
  id : s.id.index < UInt32.size
  inst : s.inst.index < UInt32.size
  originBlock : s.originBlock.index < UInt32.size
  contBlock : s.contBlock.index < UInt32.size
  location : ∀ l ∈ s.location, l.Fits32
  checks : ∀ c ∈ s.checks, c.Fits32

/-- Sites are read back, their checks in order. -/
theorem CheckSite.codec : Codec toJson ofJson? Fits32 where
  plain s := by
    refine .object (List.forall_mem_append.2 ⟨List.forall_mem_append.2 ⟨?_,
      Location.plain_member s.location⟩, by simp [Check.codec.list.plain]⟩)
    simp [SiteId.codec.plain, InstId.codec.plain, BinOp.codec.plain, BlockId.codec.plain]
  decode?_encode {s} h := by
    -- The members get a name: the location in their midst may be missing, and only the facts that
    -- are read off them take the two cases apart.
    obtain ⟨members, hmembers⟩ : ∃ members : List (String × Json), members =
        [("id", s.id.toJson), ("inst", s.inst.toJson), ("op", s.op.toJson),
          ("origin_block", s.originBlock.toJson), ("cont_block", s.contBlock.toJson)]
        ++ Location.member s.location ++ [("checks", .list Check.toJson s.checks)] := ⟨_, rfl⟩
    have hcovers : Json.covers fields (members.map (·.1)) = true := by
      rw [hmembers]
      cases s.location <;> simp [Json.covers, fields, Location.member, Location.field]
    have hlocation : Location.ofRecord? members = some s.location := by
      refine Location.ofRecord?_eq h.location ?_
      rw [hmembers]
      cases s.location <;> rfl
    have hchecks : members.lookup "checks" = some (.list Check.toJson s.checks) := by
      rw [hmembers]
      cases s.location <;> rfl
    rw [toJson, ← hmembers, ofJson?, Json.record?_object hcovers, Option.bind_eq_bind,
      Option.bind_some, SiteId.codec.get?_eq h.id (by rw [hmembers]; rfl),
      InstId.codec.get?_eq h.inst (by rw [hmembers]; rfl),
      BinOp.codec.get?_eq (a := s.op) trivial (by rw [hmembers]; rfl),
      BlockId.codec.get?_eq h.originBlock (by rw [hmembers]; rfl),
      BlockId.codec.get?_eq h.contBlock (by rw [hmembers]; rfl), hlocation,
      Check.codec.list.get?_eq h.checks hchecks]
    rfl
  of_decode? {j s} h := by
    simp only [ofJson?, Option.bind_eq_bind, Option.bind_eq_some_iff, Option.pure_def,
      Option.some.injEq] at h
    obtain ⟨r, -, id, hid, inst, hinst, op, -, origin, horigin, cont, hcont, location, hlocation,
      checks, hchecks, rfl⟩ := h
    exact ⟨SiteId.codec.of_get? hid, InstId.codec.of_get? hinst, BlockId.codec.of_get? horigin,
      BlockId.codec.of_get? hcont, Location.of_ofRecord? hlocation,
      Check.codec.list.of_get? hchecks⟩

/-! ### Reports -/

/-- Every number of the entry fits 32 bits. -/
structure SkippedInst.Fits32 (s : SkippedInst) : Prop where
  inst : s.inst.index < UInt32.size
  location : ∀ l ∈ s.location, l.Fits32

/-- Skipped instructions are read back. -/
theorem SkippedInst.codec : Codec toJson ofJson? Fits32 where
  plain s := .object <| List.forall_mem_append.2
    ⟨by simp [InstId.codec.plain, BinOp.codec.plain, SkipReason.codec.plain],
      Location.plain_member s.location⟩
  decode?_encode {s} h := by
    have hcovers : Json.covers fields (([("inst", s.inst.toJson), ("op", s.op.toJson),
        ("reason", s.reason.toJson)] ++ Location.member s.location).map (·.1)) = true := by
      cases s.location <;> simp [Json.covers, fields, Location.member, Location.field]
    have hlocation : Location.ofRecord? ([("inst", s.inst.toJson), ("op", s.op.toJson),
        ("reason", s.reason.toJson)] ++ Location.member s.location) = some s.location := by
      refine Location.ofRecord?_eq h.location ?_
      cases s.location <;> rfl
    rw [toJson, ofJson?, Json.record?_object hcovers, Option.bind_eq_bind, Option.bind_some,
      InstId.codec.get?_eq h.inst rfl, BinOp.codec.get?_eq (a := s.op) trivial rfl,
      SkipReason.codec.get?_eq (a := s.reason) trivial rfl, hlocation]
    rfl
  of_decode? {j s} h := by
    simp only [ofJson?, Option.bind_eq_bind, Option.bind_eq_some_iff, Option.pure_def,
      Option.some.injEq] at h
    obtain ⟨r, -, inst, hinst, op, -, reason, -, location, hlocation, rfl⟩ := h
    exact ⟨InstId.codec.of_get? hinst, Location.of_ofRecord? hlocation⟩

/-- Every number of the report of a function fits 32 bits. -/
structure FunctionReport.Fits32 (r : FunctionReport) : Prop where
  sites : ∀ s ∈ r.sites, s.Fits32
  checks : r.checks.Fits32
  skipped : ∀ s ∈ r.skipped, s.Fits32

/-- Reports of functions are read back. -/
theorem FunctionReport.codec : Codec toJson ofJson? Fits32 where
  plain r := by
    simp [toJson, CheckSite.codec.list.plain, CheckMap.codec.plain, SkippedInst.codec.list.plain,
      Json.Plain.text]
  decode?_encode {r} h := by
    rw [toJson, ofJson?, Json.record?_object (by simp [Json.covers, fields]), Option.bind_eq_bind,
      Option.bind_some, Codec.text.get?_eq trivial rfl, CheckSite.codec.list.get?_eq h.sites rfl,
      CheckMap.codec.get?_eq h.checks rfl, SkippedInst.codec.list.get?_eq h.skipped rfl]
    rfl
  of_decode? {j r} h := by
    simp only [ofJson?, Option.bind_eq_bind, Option.bind_eq_some_iff, Option.pure_def,
      Option.some.injEq] at h
    obtain ⟨members, -, function, -, sites, hsites, checks, hchecks, skipped, hskipped, rfl⟩ := h
    exact ⟨CheckSite.codec.list.of_get? hsites, CheckMap.codec.of_get? hchecks,
      SkippedInst.codec.list.of_get? hskipped⟩

/-- Every number of the branch fits 32 bits. -/
structure TaggedBranch.Fits32 (b : TaggedBranch) : Prop where
  site : b.site.index < UInt32.size
  location : ∀ l ∈ b.location, l.Fits32

/-- Tagged branches are read back. -/
theorem TaggedBranch.codec : Codec toJson ofJson? Fits32 where
  plain b := .object <| List.forall_mem_append.2
    ⟨by simp [CheckKind.codec.plain, SiteId.codec.plain, Json.Plain.text],
      Location.plain_member b.location⟩
  decode?_encode {b} h := by
    have hcovers : Json.covers fields (([("function", .text b.function), ("block", .text b.block),
        ("tag", b.tag.toJson), ("site", b.site.toJson)]
        ++ Location.member b.location).map (·.1)) = true := by
      cases b.location <;> simp [Json.covers, fields, Location.member, Location.field]
    have hlocation : Location.ofRecord? ([("function", .text b.function), ("block", .text b.block),
        ("tag", b.tag.toJson), ("site", b.site.toJson)] ++ Location.member b.location) =
          some b.location := by
      refine Location.ofRecord?_eq h.location ?_
      cases b.location <;> rfl
    rw [toJson, ofJson?, Json.record?_object hcovers, Option.bind_eq_bind, Option.bind_some,
      Codec.text.get?_eq (a := b.function) trivial rfl,
      Codec.text.get?_eq (a := b.block) trivial rfl,
      CheckKind.codec.get?_eq (a := b.tag) trivial rfl, SiteId.codec.get?_eq h.site rfl, hlocation]
    rfl
  of_decode? {j b} h := by
    simp only [ofJson?, Option.bind_eq_bind, Option.bind_eq_some_iff, Option.pure_def,
      Option.some.injEq] at h
    obtain ⟨r, -, function, -, block, -, tag, -, site, hsite, location, hlocation, rfl⟩ := h
    exact ⟨SiteId.codec.of_get? hsite, Location.of_ofRecord? hlocation⟩

/-- Every number of the report of a module fits 32 bits. -/
structure ModuleReport.Fits32 (r : ModuleReport) : Prop where
  functions : ∀ f ∈ r.functions, f.Fits32
  branches : ∀ b ∈ r.branches, b.Fits32

/-- Reports of modules are read back. -/
theorem ModuleReport.codec : Codec toJson ofJson? Fits32 where
  plain r := by
    simp [toJson, FunctionReport.codec.list.plain, TaggedBranch.codec.list.plain, Json.Plain.text]
  decode?_encode {r} h := by
    rw [toJson, ofJson?, Json.record?_object (by simp [Json.covers, fields]), Option.bind_eq_bind,
      Option.bind_some, Codec.text.get?_eq trivial rfl,
      FunctionReport.codec.list.get?_eq h.functions rfl,
      TaggedBranch.codec.list.get?_eq h.branches rfl]
    rfl
  of_decode? {j r} h := by
    simp only [ofJson?, Option.bind_eq_bind, Option.bind_eq_some_iff, Option.pure_def,
      Option.some.injEq] at h
    obtain ⟨members, -, module, -, functions, hfunctions, branches, hbranches, rfl⟩ := h
    exact ⟨FunctionReport.codec.list.of_get? hfunctions, TaggedBranch.codec.list.of_get? hbranches⟩

/-! ### Texts -/

/-- **Modules and reports read back**: every module and every report whose numbers fit 32 bits is
    what its text is read as, in either style. -/
theorem parse?_render_toJson {m : Module} {r : ModuleReport} (hm : m.Fits32) (hr : r.Fits32)
    (style : JsonStyle) :
    (Json.parse? (m.toJson.render style).toList).bind Module.ofJson? = some m ∧
      (Json.parse? (r.toJson.render style).toList).bind ModuleReport.ofJson? = some r := by
  have hnone : ∀ c ∈ ([] : List Char), JsonToken.isSpace c = true := fun _ hc =>
    absurd hc List.not_mem_nil
  have hmodule := Module.parse?_render hm style hnone
  have hreport : Json.parse? ((r.toJson.render style).toList ++ []) = some r.toJson :=
    (ModuleReport.codec.plain r).parse?_render style hnone
  rw [List.append_nil] at hmodule hreport
  exact ⟨hmodule, by rw [hreport, Option.bind_some, ModuleReport.codec.decode?_encode hr]⟩

/-- A function of rare values: no return type, a type of no bits, every flag, a constant above its
    type, a text of control characters, an attachment and a block without a terminator. -/
def motley : Function :=
  { name := "\"\\\u0000é"
    params := [⟨4294967295⟩]
    returnType := none
    valueTypes := #[.int 0, .f64]
    blocks := #[
      { id := ⟨7⟩, name := "", insts := [
          { id := ⟨3⟩, result := ⟨9⟩
            kind := .binary .shl (.const ⟨.int 4294967295, 0xffffffffffffffff⟩) (.value ⟨0⟩) ⟨0xff⟩
            location := some ⟨"a\nb", 0, 4294967295⟩ },
          { id := ⟨3⟩, result := ⟨9⟩, kind := .phi [] },
          { id := ⟨4⟩, result := ⟨0⟩, kind := .fcmp .one (.const ⟨.f32, 1⟩) (.value ⟨1⟩) }]
        term := some { exit := .ret none, metadata := .ofList [("\t", "")] } },
      { id := ⟨0⟩, name := "x", insts := [], term := none },
      { id := ⟨0⟩, name := "x", insts := [], term := some { exit := .unreachable } }]
    layout := [⟨2⟩, ⟨2⟩]
    entry := ⟨5⟩
    instCount := 0 }

/-- A report with two records whose names are ordered otherwise as texts than as numbers. -/
def motleyReport : ModuleReport :=
  { module := "\u007f"
    functions := [{
      function := motley.name
      sites := [{ id := ⟨1⟩, inst := ⟨3⟩, op := .shl, originBlock := ⟨7⟩, contBlock := ⟨7⟩
                  checks := [{ kind := .fpOverflow, predicate := ⟨2⟩, block := ⟨10⟩ }] }]
      checks := SortedMap.ofList [
        (⟨10⟩, { kind := .fpOverflow, site := ⟨1⟩, origin := ⟨3⟩ }),
        (⟨9⟩, { kind := .intOverflow, site := ⟨1⟩, origin := ⟨3⟩, location := some ⟨"", 1, 2⟩ })]
      skipped := [{ inst := ⟨4⟩, op := .frem, reason := .noSplitPoint }] }]
    branches := [{ function := motley.name, block := "x", tag := .fpOverflow, site := ⟨1⟩
                   location := some ⟨"", 1, 2⟩ }] }

/-- The numbers of the example fit 32 bits. -/
theorem fits32_motleyReport : motleyReport.Fits32 where
  functions := by
    refine List.forall_mem_singleton.2 ⟨?_, ?_, ?_⟩
    · exact List.forall_mem_singleton.2 ⟨by decide, by decide, by decide, by decide, by simp,
        List.forall_mem_singleton.2 ⟨by decide, by decide⟩⟩
    · refine List.forall_mem_cons.2 ⟨⟨by decide, by decide, by decide, ?_⟩,
        List.forall_mem_singleton.2 ⟨by decide, by decide, by decide, by simp⟩⟩
      rintro _ ⟨⟩
      exact ⟨by decide, by decide⟩
    · exact List.forall_mem_singleton.2 ⟨by decide, by simp⟩
  branches := by
    refine List.forall_mem_singleton.2 ⟨by decide, ?_⟩
    rintro _ ⟨⟩
    exact ⟨by decide, by decide⟩

/-- The example holds one of each, and both files are read back. -/
theorem parse?_render_motley :
    (Json.parse? ((Module.toJson ⟨"", [motley]⟩).render .pretty).toList).bind Module.ofJson? =
        some ⟨"", [motley]⟩ ∧
      (Json.parse? (motleyReport.toJson.render .pretty).toList).bind ModuleReport.ofJson? =
        some motleyReport :=
  -- What can be decoded fits, so that the bounds of the module need not be checked one by one.
  parse?_render_toJson
    (Module.codec.of_decode? (j := Module.toJson ⟨"", [motley]⟩) (by decide +kernel))
    fits32_motleyReport .pretty

end ArithWatch
