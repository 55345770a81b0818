import ArithWatch.Proofs.Check.Pieces

namespace ArithWatch

/-!
# Reading tags after instrumentation

* `Function.term?` is the terminator of a block, `Function.tagText?` the tag on it.
* `Function.Laid.readTags_of_known` and `readTags_of_unknown` say what reading the tags of a
  function gives: the tags of its blocks, or the first one in layout order that is no tag of a
  check.
* `Inserts.term?_lastPiece`: insertions move terminators, but do not change them.
* `Inserts.texts_eq`: the tags that were there stay in their order.
* `readTags_instrument` is the whole pass, with and without the tags of its own branches.
-/

/-! ### Terminators and their tags -/

namespace Function

variable {f : Function}

/-- The terminator of a block. -/
def term? (f : Function) (b : BlockId) : Option Terminator := (f.block? b).bind (·.term)

/-- The text of the tag on the terminator of a block. -/
def tagText? (f : Function) (b : BlockId) : Option String :=
  (f.term? b).bind (·.metadata.find? checkKey)

/-- The kind of check whose tag is on the terminator of a block. -/
def tagKind? (f : Function) (b : BlockId) : Option CheckKind := (f.tagText? b).bind CheckKind.ofTag?

/-- The first of some texts that is no tag. -/
def firstUnknown? (texts : List String) : Option String :=
  texts.find? fun text => (CheckKind.ofTag? text).isNone

/-- The first tag in layout order that is unknown. -/
def unknownTag? (f : Function) : Option String := firstUnknown? (f.layout.filterMap f.tagText?)

/-- A known tag is passed over in the search for an unknown one. -/
theorem firstUnknown?_cons_of_known {text : String} {kind : CheckKind}
    (h : CheckKind.ofTag? text = some kind) (texts : List String) :
    firstUnknown? (text :: texts) = firstUnknown? texts := by
  rw [firstUnknown?, List.find?_cons_of_neg (by simp [h]), firstUnknown?]

/-- The terminator of a block that is there is its terminator. -/
theorem term?_of_block? {b : BlockId} {block : Block} (h : f.block? b = some block) :
    f.term? b = block.term := by
  rw [term?, h, Option.bind_some]

/-- The tag of a block is read from its terminator. -/
theorem Laid.tagOf_eq (h : f.Laid) {b : BlockId} (hb : b.index < f.blocks.size) :
    f.tagOf b = .ok (b, f.tagText? b) := by
  obtain ⟨block, hblock⟩ := exists_block? hb
  rw [tagOf, block_eq_ok hblock]
  show (f.metadata block.id checkKey >>= _) = _
  rw [h.ids b block hblock, metadata, block_eq_ok hblock, tagText?, term?_of_block? hblock]
  rfl

/-- One block is read, and then the rest of the layout. -/
theorem Laid.readTagsIn_cons (h : f.Laid) {b : BlockId} (hb : b.index < f.blocks.size)
    (rest : List BlockId) (tags : Tags) : f.readTagsIn tags (b :: rest) =
      match f.tagText? b with
      | none => f.readTagsIn tags rest
      | some text =>
        match CheckKind.ofTag? text with
        | none => .error (.unknown ⟨text⟩)
        | some kind => f.readTagsIn (tags.insert b kind) rest := by
  rw [readTagsIn, h.tagOf_eq hb]
  cases f.tagText? b with
  | none => rfl
  | some text =>
    simp only [CheckKind.ofTag]
    cases CheckKind.ofTag? text <;> rfl

/-- Reading the tags of some blocks: it ends at the first unknown tag, or adds all tags. -/
theorem Laid.readTagsIn_cases (h : f.Laid) (order : List BlockId)
    (horder : ∀ b ∈ order, b.index < f.blocks.size) (tags : Tags) :
    (∃ text, firstUnknown? (order.filterMap f.tagText?) = some text ∧
        f.readTagsIn tags order = .error (.unknown ⟨text⟩)) ∨
      ∃ m, firstUnknown? (order.filterMap f.tagText?) = none ∧ f.readTagsIn tags order = .ok m ∧
        ∀ b, m.find? b = if b ∈ order then (f.tagKind? b).or (tags.find? b) else tags.find? b := by
  -- By induction on the layout; the first unknown tag ends the reading.
  induction order generalizing tags with
  | nil => exact .inr ⟨tags, rfl, rfl, fun b => by simp⟩
  | cons b rest ih =>
    have hrest : ∀ c ∈ rest, c.index < f.blocks.size :=
      fun c hc => horder c (List.mem_cons_of_mem _ hc)
    have hstep := h.readTagsIn_cons (horder b List.mem_cons_self) rest tags
    cases htext : f.tagText? b with
    | none =>
      simp only [htext] at hstep
      rw [hstep, List.filterMap_cons_none htext]
      rcases ih hrest tags with ⟨text, hunknown, herror⟩ | ⟨m, hknown, hok, hfind⟩
      · exact .inl ⟨text, hunknown, herror⟩
      · refine .inr ⟨m, hknown, hok, fun c => ?_⟩
        rw [hfind]
        by_cases hc : c = b
        · subst hc
          simp [tagKind?, htext]
        · simp [hc]
    | some text =>
      rw [List.filterMap_cons_some htext]
      cases hkind : CheckKind.ofTag? text with
      | none =>
        simp only [htext, hkind] at hstep
        refine .inl ⟨text, ?_, hstep⟩
        rw [firstUnknown?, List.find?_cons_of_pos (by simp [hkind])]
      | some kind =>
        simp only [htext, hkind] at hstep
        rw [hstep, firstUnknown?_cons_of_known hkind]
        rcases ih hrest (tags.insert b kind) with ⟨unknown, hunknown, herror⟩ |
          ⟨m, hknown, hok, hfind⟩
        · exact .inl ⟨unknown, hunknown, herror⟩
        · refine .inr ⟨m, hknown, hok, fun c => ?_⟩
          rw [hfind, SortedMap.find?_insert]
          by_cases hc : c = b
          · subst hc
            simp [tagKind?, htext, hkind]
          · have hc' : ¬ b = c := fun e => hc e.symm
            simp [hc, hc']

/-- **Reading known tags.** The tags are those on the terminators. -/
theorem Laid.readTags_of_known (h : f.Laid) (hknown : f.unknownTag? = none) :
    ∃ m, f.readTags = .ok m ∧ ∀ b, m.find? b = f.tagKind? b := by
  rcases h.readTagsIn_cases f.layout (fun b hb => (h.mem_layout b).1 hb) ∅ with
    ⟨text, hunknown, -⟩ | ⟨m, -, hok, hfind⟩
  · exact absurd (hunknown.symm.trans hknown) (by simp)
  · refine ⟨m, hok, fun b => ?_⟩
    have hempty : (∅ : Tags).find? b = none := rfl
    rw [hfind, hempty, Option.or_none]
    split
    · rfl
    · next hb =>
      have hnone : f.block? b = none :=
        block?_eq_none_iff.2 (Nat.not_lt.1 (mt (h.mem_layout b).2 hb))
      rw [tagKind?, tagText?, term?, hnone]
      rfl

/-- **Reading an unknown tag.** The first one is the error. -/
theorem Laid.readTags_of_unknown (h : f.Laid) {text : String}
    (hunknown : f.unknownTag? = some text) : f.readTags = .error (.unknown ⟨text⟩) := by
  rcases h.readTagsIn_cases f.layout (fun b hb => (h.mem_layout b).1 hb) ∅ with
    ⟨text', htext, herror⟩ | ⟨m, hknown, -⟩
  · rw [unknownTag?, htext, Option.some.injEq] at hunknown
    exact hunknown ▸ herror
  · exact absurd (hunknown.symm.trans hknown) (by simp)

end Function

/-! ### Terminators and insertions -/

/-- What is read off a list when a block is put behind another one and takes over what is read off
    that one. -/
theorem filterMap_insertBehind {α : Type} {old new : BlockId → Option α} {origin b : BlockId}
    {l : List BlockId} (hmem : origin ∈ l) (hnodup : l.Nodup) (horigin : new origin = none)
    (hb : new b = old origin) (hsame : ∀ c ∈ l, c ≠ origin → new c = old c) :
    (insertBehind origin b l).filterMap new = l.filterMap old := by
  -- The old tag of the home is found one place further on, and nothing comes between.
  induction l with
  | nil => cases hmem
  | cons c rest ih =>
    obtain ⟨hc, hrest⟩ := List.nodup_cons.1 hnodup
    rw [insertBehind]
    split
    · next heq =>
      subst heq
      have htail : rest.filterMap new = rest.filterMap old :=
        List.filterMap_congr fun d hd =>
          hsame d (List.mem_cons_of_mem _ hd) fun e => hc (e ▸ hd)
      rw [List.filterMap_cons_none horigin, List.filterMap_cons, List.filterMap_cons, hb, htail]
    · next hne =>
      have hmem' : origin ∈ rest := (List.mem_cons.1 hmem).resolve_left fun e => hne e.symm
      rw [List.filterMap_cons, List.filterMap_cons, hsame c List.mem_cons_self hne,
        ih hmem' hrest fun d hd => hsame d (List.mem_cons_of_mem _ hd)]

namespace Insertion.Makes

variable {s : Insertion} {f g : Function}

/-- An insertion moves the terminator of the block that it cuts, and no other. -/
theorem term?_moved (hg : s.Makes f g) (hs : s.Fits f) {b : BlockId}
    (hb : b.index < f.blocks.size) :
    g.term? (if s.spot.home = b then cont f else b) = f.term? b := by
  by_cases hhome : s.spot.home = b
  · obtain ⟨name, hname⟩ := hg.rest
    rw [if_pos hhome, ← hhome, Function.term?_of_block? hs.spot_in.block_eq,
      Function.term?_of_block? hname]
    rfl
  · obtain ⟨old, hold⟩ := Function.exists_block? hb
    have hnew : g.block? b = some (old.repoint s.spot.home (cont f)) := by
      rw [hg.other b (Ne.symm hhome) hb, hold]
      rfl
    rw [if_neg hhome, Function.term?_of_block? hold, Function.term?_of_block? hnew]
    rfl

/-- New terminators have no metadata. -/
theorem term?_cases (hg : s.Makes f g) (hs : s.Fits f) {c : BlockId}
    (hc : c.index < g.blocks.size) :
    (∃ b : BlockId, b.index < f.blocks.size ∧ c = if s.spot.home = b then cont f else b) ∨
      ∃ t, g.term? c = some t ∧ t.metadata = ∅ := by
  obtain ⟨block, hblock⟩ := Function.exists_block? hc
  rcases hg.block_cases hblock with ⟨-, rfl⟩ | ⟨rfl, -⟩ | ⟨d, -, -, name, rfl⟩ | ⟨hne, old, hold, -⟩
  · exact .inr ⟨_, Function.term?_of_block? hblock, rfl⟩
  · exact .inl ⟨s.spot.home, hs.spot_in.home_lt, (if_pos rfl).symm⟩
  · exact .inr ⟨_, Function.term?_of_block? hblock, rfl⟩
  · exact .inl ⟨c, Function.lt_of_block? hold, (if_neg (Ne.symm hne)).symm⟩

/-- The tags that were there stay in their order, and no others come in. -/
theorem texts_eq (hg : s.Makes f g) (hf : f.Regular) (hs : s.Fits f) :
    g.layout.filterMap g.tagText? = f.layout.filterMap f.tagText? := by
  -- The home has a new terminator, without a tag, and the continuation has the old one.
  have hhome : g.tagText? s.spot.home = none := by
    rw [Function.tagText?, Function.term?_of_block? hg.home]
    rfl
  have hchain : ((s.decisions f).map (·.block)).filterMap g.tagText? = [] := by
    refine List.filterMap_eq_nil_iff.2 fun b hb => ?_
    obtain ⟨d, hd, rfl⟩ := List.mem_map.1 hb
    obtain ⟨name, hname⟩ := hg.decision d hd
    rw [Function.tagText?, Function.term?_of_block? hname]
    rfl
  have hmoved : ∀ b : BlockId, b.index < f.blocks.size →
      g.tagText? (if s.spot.home = b then cont f else b) = f.tagText? b := by
    intro b hb
    rw [Function.tagText?, hg.term?_moved hs hb, Function.tagText?]
  have hcont := hmoved s.spot.home hs.spot_in.home_lt
  rw [if_pos rfl] at hcont
  have hother : ∀ c ∈ f.layout, c ≠ s.spot.home → g.tagText? c = f.tagText? c := by
    intro c hc hne
    have hsame := hmoved c ((hf.mem_layout c).1 hc)
    rwa [if_neg (Ne.symm hne)] at hsame
  rw [hg.layout_eq, List.filterMap_append, hchain, List.append_nil]
  exact filterMap_insertBehind ((hf.mem_layout _).2 hs.spot_in.home_lt) hf.layout_nodup hhome
    hcont hother

end Insertion.Makes

namespace Inserts

variable {t : Threshold} {ids : List InstId} {f g : Function} {sites : List CheckSite}

/-- **Insertions do not change terminators.** The terminator of a block is at its last piece. -/
theorem term?_lastPiece (h : Inserts t ids f sites g) {b : BlockId}
    (hb : b.index < f.blocks.size) : g.term? (lastPiece sites b) = f.term? b := by
  induction h generalizing b with
  | done f => rfl
  | skip _ ih => exact ih hb
  | @insert ids f g h sites s id hs _ _ hg _ ih =>
    have hlt : (if s.spot.home = b then Insertion.cont f else b).index < g.blocks.size := by
      have hsize := hg.size
      split
      · show f.blocks.size < _
        omega
      · omega
    rw [← hg.term?_moved hs hb]
    exact ih hlt

/-- All other terminators have no metadata. -/
theorem term?_cases (h : Inserts t ids f sites g) {c : BlockId} (hc : c.index < g.blocks.size) :
    (∃ b : BlockId, b.index < f.blocks.size ∧ c = lastPiece sites b) ∨
      ∃ t, g.term? c = some t ∧ t.metadata = ∅ := by
  induction h generalizing c with
  | done f => exact .inl ⟨c, hc, rfl⟩
  | skip _ ih => exact ih hc
  | @insert ids f g h sites s id hs _ _ hg hrest ih =>
    rcases ih hc with ⟨b, hb, rfl⟩ | hplain
    · rw [hrest.term?_lastPiece hb]
      rcases hg.term?_cases hs hb with ⟨a, ha, rfl⟩ | hplain
      · exact .inl ⟨a, ha, rfl⟩
      · exact .inr hplain
    · exact .inr hplain

/-- The tags that were there stay in their order, whatever is inserted. -/
theorem texts_eq (h : Inserts t ids f sites g) (hf : f.Regular) :
    g.layout.filterMap g.tagText? = f.layout.filterMap f.tagText? := by
  induction h with
  | done f => rfl
  | skip _ ih => exact ih hf
  | insert id hs _ _ hg _ ih => rw [ih (hg.regular hf hs), hg.texts_eq hf hs]

end Inserts

/-! ### The tags of a report -/

/-- What a report says of the terminators of the new function.  Those of the old function are at the
    last pieces of their blocks, the recorded branches have their tags and nothing else if tags are
    written, and the other new branches have no metadata. -/
structure FunctionReport.Explains (r : FunctionReport) (f g : Function) (emit : Bool) : Prop where
  moved : ∀ b : BlockId, b.index < f.blocks.size → g.term? (lastPiece r.sites b) = f.term? b
  recorded : ∀ b record, r.checks.find? b = some record → ∃ t, g.term? b = some t ∧
    t.metadata.entries = if emit then [(checkKey, record.kind.tag)] else []
  plain : ∀ b t, r.checks.find? b = none →
    (∀ c : BlockId, c.index < f.blocks.size → b ≠ lastPiece r.sites c) →
      g.term? b = some t → t.metadata.entries = []

namespace Function

variable {f g : Function} {r : FunctionReport} {emit : Bool} {b : BlockId} {k : CheckKind}

/-- A tagged block exists. -/
theorem lt_of_tagKind? (h : f.tagKind? b = some k) : b.index < f.blocks.size := by
  obtain ⟨text, htext, -⟩ := Option.bind_eq_some_iff.1 h
  obtain ⟨t, ht, -⟩ := Option.bind_eq_some_iff.1 htext
  obtain ⟨block, hblock, -⟩ := Option.bind_eq_some_iff.1 ht
  exact lt_of_block? hblock

/-- A terminator whose only metadata is a tag has that tag. -/
theorem tagText?_of_entries {t : Terminator} (ht : f.term? b = some t) {text : String}
    (hentries : t.metadata.entries = [(checkKey, text)]) : f.tagText? b = some text := by
  rw [tagText?, ht, Option.bind_some, SortedMap.find?_eq_some_iff, hentries]
  exact List.mem_singleton_self _

/-- One without metadata has none. -/
theorem tagKind?_of_entries_nil {t : Terminator} (ht : f.term? b = some t)
    (hentries : t.metadata.entries = []) : f.tagKind? b = none := by
  rw [tagKind?, tagText?, ht, Option.bind_some, SortedMap.find?, hentries]
  rfl

/-- **The tags of the new function** are the old ones and those of the records. -/
theorem tagKind?_eq_some_iff (h : r.Explains f g emit) :
    g.tagKind? b = some k ↔
      (∃ c, f.tagKind? c = some k ∧ b = lastPiece r.sites c) ∨
        emit = true ∧ ∃ record, r.checks.find? b = some record ∧ record.kind = k := by
  have hmoved : ∀ c : BlockId, c.index < f.blocks.size →
      g.tagKind? (lastPiece r.sites c) = f.tagKind? c := by
    intro c hc
    rw [tagKind?, tagText?, h.moved c hc, tagKind?, tagText?]
  have htagged : emit = true → ∀ record, r.checks.find? b = some record →
      g.tagKind? b = some record.kind := by
    intro hemit record hrecord
    obtain ⟨t, ht, hentries⟩ := h.recorded b record hrecord
    rw [if_pos hemit] at hentries
    rw [tagKind?, tagText?_of_entries ht hentries, Option.bind_some, CheckKind.ofTag?_tag]
  constructor
  · intro hk
    cases hrecord : r.checks.find? b with
    | some record =>
      -- A recorded branch has its own tag or none.
      by_cases hemit : emit = true
      · rw [htagged hemit record hrecord, Option.some.injEq] at hk
        exact .inr ⟨hemit, record, rfl, hk⟩
      · obtain ⟨t, ht, hentries⟩ := h.recorded b record hrecord
        rw [if_neg hemit] at hentries
        rw [tagKind?_of_entries_nil ht hentries] at hk
        cases hk
    | none =>
      -- Any other branch with metadata was there before.
      by_cases hpiece : ∃ c : BlockId, c.index < f.blocks.size ∧ b = lastPiece r.sites c
      · obtain ⟨c, hc, rfl⟩ := hpiece
        exact .inl ⟨c, (hmoved c hc).symm.trans hk, rfl⟩
      · obtain ⟨text, htext, -⟩ := Option.bind_eq_some_iff.1 hk
        obtain ⟨t, ht, -⟩ := Option.bind_eq_some_iff.1 htext
        have hentries := h.plain b t hrecord (fun c hc e => hpiece ⟨c, hc, e⟩) ht
        rw [tagKind?_of_entries_nil ht hentries] at hk
        cases hk
  · rintro (⟨c, hk, rfl⟩ | ⟨hemit, record, hrecord, rfl⟩)
    · exact (hmoved c (lt_of_tagKind? hk)).trans hk
    · exact htagged hemit record hrecord

/-- Tags of checks do not change which unknown tag comes first. -/
theorem firstUnknown?_filterMap {old new : BlockId → Option String} {order : List BlockId}
    (h : ∀ b ∈ order, new b = old b ∨ old b = none ∧ ∃ kind : CheckKind, new b = some kind.tag) :
    firstUnknown? (order.filterMap new) = firstUnknown? (order.filterMap old) := by
  induction order with
  | nil => rfl
  | cons b rest ih =>
    have hrest := ih fun c hc => h c (List.mem_cons_of_mem _ hc)
    rcases h b List.mem_cons_self with hsame | ⟨hnone, kind, hkind⟩
    · cases hold : old b with
      | none =>
        rw [List.filterMap_cons_none (hsame.trans hold), List.filterMap_cons_none hold, hrest]
      | some text =>
        rw [List.filterMap_cons_some (hsame.trans hold), List.filterMap_cons_some hold]
        rw [firstUnknown?, firstUnknown?, List.find?_cons, List.find?_cons]
        split
        · rfl
        · exact hrest
    · rw [List.filterMap_cons_some hkind, List.filterMap_cons_none hnone,
        firstUnknown?_cons_of_known (CheckKind.ofTag?_tag kind), hrest]

/-- The terminators of the tagged function. -/
theorem term?_tagged_of_none {m : CheckMap} (h : m.find? b = none) :
    (f.tagged m).term? b = f.term? b := by
  rw [term?, block?_tagged_of_none h, term?]

/-- A recorded block is tagged with the kind of its record. -/
theorem term?_tagged_of_some {m : CheckMap} {record : CheckRecord}
    (h : m.find? b = some record) {t : Terminator} (ht : f.term? b = some t) :
    (f.tagged m).term? b =
      some { t with metadata := t.metadata.insert checkKey record.kind.tag } := by
  obtain ⟨block, hblock, hterm⟩ := Option.bind_eq_some_iff.1 ht
  rw [term?, block?_tagged_of_some h, hblock, Option.map_some, Option.bind_some, Block.tag, hterm]
  rfl

end Function

namespace Inserts

variable {t : Threshold} {ids : List InstId} {f g : Function} {r : FunctionReport}

/-- A recorded branch is new. -/
theorem term?_of_record (h : Inserts t ids f r.sites g) (hr : r.Consistent)
    (hm : Edit.RecordsIn g r.checks) {b : BlockId} {record : CheckRecord}
    (hrecord : r.checks.find? b = some record) : ∃ t, g.term? b = some t ∧ t.metadata = ∅ := by
  have hlt : b.index < g.blocks.size := hm b (by rw [SortedMap.contains, hrecord]; rfl)
  rcases h.term?_cases hlt with ⟨c, hc, rfl⟩ | hplain
  · rw [h.find?_of_mem_pieces hr hc (lastPiece_mem_pieces _ _)] at hrecord
    cases hrecord
  · exact hplain

/-- The report explains the terminators, whether its tags are written or not. -/
theorem explains (h : Inserts t ids f r.sites g) (hr : r.Consistent)
    (hm : Edit.RecordsIn g r.checks) (emit : Bool) :
    r.Explains f (if emit then g.tagged r.checks else g) emit where
  -- No piece of an original block is recorded, so its metadata is what it was.
  moved b hb := by
    have hnone := h.find?_of_mem_pieces hr hb (lastPiece_mem_pieces r.sites b)
    rw [← h.term?_lastPiece hb]
    split
    · exact Function.term?_tagged_of_none hnone
    · rfl
  recorded b record hrecord := by
    obtain ⟨t, ht, hempty⟩ := h.term?_of_record hr hm hrecord
    split
    · refine ⟨_, Function.term?_tagged_of_some hrecord ht, ?_⟩
      rw [hempty]
      rfl
    · exact ⟨t, ht, by rw [hempty]; rfl⟩
  plain b t hnone hpiece ht := by
    have hold : g.term? b = some t := by
      rw [← ht]
      split
      · exact (Function.term?_tagged_of_none hnone).symm
      · rfl
    obtain ⟨block, hblock, -⟩ := Option.bind_eq_some_iff.1 hold
    rcases h.term?_cases (Function.lt_of_block? hblock) with ⟨c, hc, rfl⟩ | ⟨t', ht', hempty⟩
    · exact (hpiece c hc rfl).elim
    · rw [hold, Option.some.injEq] at ht'
      rw [ht', hempty]
      rfl

/-- The first unknown tag stays the first one. -/
theorem unknownTag?_eq (h : Inserts t ids f r.sites g) (hf : f.Regular) (hr : r.Consistent)
    (hm : Edit.RecordsIn g r.checks) (emit : Bool) :
    (if emit then g.tagged r.checks else g).unknownTag? = f.unknownTag? := by
  have hold : g.unknownTag? = f.unknownTag? := congrArg Function.firstUnknown? (h.texts_eq hf)
  rw [← hold]
  split
  · have hlayout : (g.tagged r.checks).layout = g.layout := by rw [(g.alike_tagged r.checks).frame]
    rw [Function.unknownTag?, hlayout, Function.unknownTag?]
    refine Function.firstUnknown?_filterMap fun b _ => ?_
    cases hrecord : r.checks.find? b with
    | none =>
      refine .inl ?_
      rw [Function.tagText?, Function.term?_tagged_of_none hrecord, Function.tagText?]
    | some record =>
      -- A recorded branch had no tag, and the one that it gets is known.
      obtain ⟨t, ht, hempty⟩ := h.term?_of_record hr hm hrecord
      refine .inr ⟨?_, record.kind,
        Function.tagText?_of_entries (Function.term?_tagged_of_some hrecord ht) ?_⟩
      · rw [Function.tagText?, ht, Option.bind_some, hempty]
        rfl
      · rw [hempty]
        rfl
  · rfl

end Inserts

/-! ### The whole pass -/

/-- **Tags.** Instrumenting a verified function never fails.  Its report explains all metadata of
    the new function.  The tags that are read there are those of the old function, each on the
    terminator that it was on, and those of the recorded branches if they are written; an unknown
    tag is still the same error.  It does not matter whether the tags are written by the pass or
    afterwards, and writing them changes recorded branches only. -/
theorem readTags_instrument (t : Threshold) (options : InstrumentOptions) (f : Function)
    (hverify : f.verify = .ok ()) :
    ∃ report f', Edit.instrument t options f = .ok report f' ∧
      report.Explains f f' options.emitMetadata ∧
      (∀ m, f.readTags = .ok m → ∃ m', f'.readTags = .ok m' ∧
        ∀ b k, m'.find? b = some k ↔
          (∃ c, m.find? c = some k ∧ b = lastPiece report.sites c) ∨
            options.emitMetadata = true ∧
              ∃ record, report.checks.find? b = some record ∧ record.kind = k) ∧
      (∀ e, f.readTags = .error (.unknown e) → f'.readTags = .error (.unknown e)) ∧
      (options.emitMetadata = false → ∃ f'',
        report.checks.emitMetadata f' = .ok report.checks.size f'' ∧
        Edit.instrument t { options with emitMetadata := true } f = .ok report f'' ∧
        report.Explains f f'' true ∧
        ∀ b, report.checks.find? b = none → f''.block? b = f'.block? b) := by
  have hf := (Function.verified_iff_wellFormed.1 hverify).toRegular
  obtain ⟨report, g, hrun, hinserts, hreport, hm, hg, -⟩ :=
    Edit.instrument_tagged t options hf
  have hexplains := hinserts.explains hreport hm options.emitMetadata
  have hunknown := hinserts.unknownTag?_eq hf hreport hm options.emitMetadata
  obtain ⟨f', hf'⟩ : ∃ f', f' = if options.emitMetadata then g.tagged report.checks else g :=
    ⟨_, rfl⟩
  rw [← hf'] at hexplains hunknown
  have halike : g.Alike f' := hf' ▸ g.alike_ite_tagged report.checks options.emitMetadata
  have hlaid := (halike.regular hg).laid
  -- The tags in the layout are the same texts, so both readings fail at the same one or at none.
  refine ⟨report, f', hf' ▸ hrun options.emitMetadata, hexplains, fun m hread => ?_,
    fun e hread => ?_, fun hemit => ?_⟩
  · cases hfirst : f.unknownTag? with
    | some text =>
      rw [hf.laid.readTags_of_unknown hfirst] at hread
      cases hread
    | none =>
      obtain ⟨m₀, hread₀, hfind⟩ := hf.laid.readTags_of_known hfirst
      rw [hread₀, Except.ok.injEq] at hread
      subst hread
      obtain ⟨m', hread', hfind'⟩ := hlaid.readTags_of_known (hunknown.trans hfirst)
      refine ⟨m', hread', fun b k => ?_⟩
      rw [hfind', Function.tagKind?_eq_some_iff hexplains]
      simp only [hfind]
  · cases hfirst : f.unknownTag? with
    | some text =>
      rw [hf.laid.readTags_of_unknown hfirst] at hread
      rw [hlaid.readTags_of_unknown (hunknown.trans hfirst), hread]
    | none =>
      obtain ⟨m₀, hread₀, -⟩ := hf.laid.readTags_of_known hfirst
      rw [hread₀] at hread
      cases hread
  · have hplain : f' = g := by rw [hf', hemit]; rfl
    refine ⟨g.tagged report.checks, ?_, hrun true, hinserts.explains hreport hm true,
      fun b hb => ?_⟩
    · rw [hplain]
      exact Edit.emitMetadata_eq (hm.closed hg)
    · rw [hplain, Function.block?_tagged_of_none hb]

/-- The doubling function with a tag on the branch of its loop. -/
def taggedDoubling : Function := doubling.updateBlock ⟨1⟩ (·.tag .intOverflow)

/-- The sum in the loop is watched, and its block is cut in front of the branch. -/
theorem lastPiece_taggedDoubling :
    (match Edit.instrument .hundred {} taggedDoubling with
      | .ok report _ => some (lastPiece report.sites ⟨1⟩)
      | .error _ _ => none) = some ⟨3⟩ := by
  decide +kernel

/-- The tag of the example moves to the continuation, and the new tags are added. -/
theorem readTags_instrument_taggedDoubling : taggedDoubling.verify = .ok () ∧
    ∃ report f' m m', Edit.instrument .hundred {} taggedDoubling = .ok report f' ∧
      taggedDoubling.readTags = .ok m ∧ m.find? ⟨1⟩ = some .intOverflow ∧
      f'.readTags = .ok m' ∧ m'.find? ⟨3⟩ = some .intOverflow := by
  have halike : doubling.Alike taggedDoubling :=
    Function.alike_updateBlock ⟨1⟩ (Block.alike_tag .intOverflow)
  have hverify : taggedDoubling.verify = .ok () := Function.verified_iff_wellFormed.2
    (halike.wellFormed (Function.verified_iff_wellFormed.1 verify_doubling))
  have hread : taggedDoubling.readTags = .ok (.ofList [(⟨1⟩, .intOverflow)]) := by decide +kernel
  obtain ⟨report, f', hinstrument, -, htags, -⟩ :=
    readTags_instrument .hundred {} taggedDoubling hverify
  obtain ⟨m', hread', hfind⟩ := htags _ hread
  have hlast := lastPiece_taggedDoubling
  rw [hinstrument, Option.some.injEq] at hlast
  exact ⟨hverify, report, f', _, m', hinstrument, hread, rfl, hread',
    (hfind ⟨3⟩ .intOverflow).2 (.inl ⟨⟨1⟩, rfl, hlast.symm⟩)⟩

end ArithWatch
